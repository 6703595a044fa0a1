import Acrobe.BitString.Object
import Acrobe.Lib.CommandStream

/-!
# Batches of the transactor codecs
-/

namespace Acrobe.Nsl

/-- The future of an entry of a batch, as `decode` finds it. -/
inductive Future where
  | absent
  | pending
  | done
  deriving DecidableEq

/-- An operation and its future. -/
structure BatchEntry (α : Type) where
  op : α
  future : Future

/-- What the future is set to, if it is. -/
def BatchEntry.settle {α ρ : Type} (entry : BatchEntry α) (outcome : ρ) : Option ρ :=
  if entry.future = .pending then some outcome else none

/-- What a decoder sets the futures of a batch to, from its dictionary of results. -/
def decodeEach {α ρ ω : Type} (final : α → Option ρ → ω) (found : Nat → Option ρ) (batch : List (BatchEntry α)) :
    List (Option ω) :=
  batch.zipIdx.map fun (entry, opIdx) => entry.settle (final entry.op (found opIdx))

def settleEach {α ω : Type} (batch : List (BatchEntry α)) (outcomes : List ω) : List (Option ω) :=
  List.zipWith BatchEntry.settle batch outcomes

theorem decodeEach_eq {α ρ ω : Type} {final : α → Option ρ → ω} {found : Nat → Option ρ} {batch : List (BatchEntry α)}
    {outcomes : List ω} (own : ∀ i op, (batch.map BatchEntry.op)[i]? = some op →
      outcomes[i]? = some (final op (found i))) :
    decodeEach final found batch = settleEach batch outcomes := by
  apply List.ext_getElem?
  intro i
  rw [decodeEach, settleEach, List.getElem?_map, List.getElem?_zipIdx, List.getElem?_zipWith]
  cases present : batch[i]? with
  | none => rfl
  | some entry =>
    have outcome := own i entry.op (by rw [List.getElem?_map, present]; rfl)
    rw [outcome, Nat.zero_add]
    rfl

/-! ### Command bytes -/

theorem or_low {base k : Nat} {i : Nat} (low : k < 2 ^ i) (multiple : base % 2 ^ i = 0) : base ||| k = base + k := by
  obtain ⟨a, rfl⟩ := Nat.dvd_of_mod_eq_zero multiple
  exact (Nat.two_pow_add_eq_or_of_lt low a).symm

theorem toNat_code {n : Nat} (small : n < 256) : (UInt8.ofNat n).toNat = n := by
  rw [UInt8.toNat_ofNat']
  exact Nat.mod_eq_of_lt small

end Acrobe.Nsl
