import Mathlib
import Acrobe.Memory.BulkSound

/-!
# The chunks of a blob

The chunks of a blob lie side by side on aligned addresses and fill it, and the writes of a blob
carry its bytes, each write those under its chunk.
-/

namespace Acrobe.Memory
open LittleEndian Acrobe.Lib

def Chunk.span (chunk : Chunk) : Set Nat := Set.Ico chunk.addr (chunk.addr + chunk.width.bytes)

/-- The second access begins where the first one ends. -/
def Chunk.Meets (first second : Chunk) : Prop := second.addr = first.addr + first.width.bytes

/-- The bytes a write puts on the bus. -/
def RegisterOp.carried : RegisterOp → Bytes
  | .read _ _ => []
  | .write width _ data => split data width.bytes

/-- The write of a chunk, with a value that fits it and holds the bytes of `data` under it. -/
def Chunk.Written (data : Bytes) (chunk : Chunk) (triple : Triple) : Prop :=
  ∃ value, value < 256 ^ chunk.width.bytes ∧
    triple = ⟨.write chunk.width chunk.addr value, chunk.offset, chunk.width.bytes⟩ ∧
    split value chunk.width.bytes = (data.drop chunk.offset).take chunk.width.bytes

variable {base size offset : Nat} {list : List Chunk}

theorem Tiled.fits (tiled : Tiled base size offset list) :
    ∀ chunk ∈ list, offset ≤ chunk.offset ∧ chunk.offset + chunk.width.bytes ≤ size := by
  induction list generalizing offset with
  | nil => simp
  | cons first rest ih =>
    obtain ⟨here, -, -, later⟩ := tiled
    have inside := later.inside
    intro chunk member
    rcases List.mem_cons.mp member with rfl | member
    · omega
    · have below := ih later chunk member
      omega

theorem Tiled.meets (tiled : Tiled base size offset list) : list.IsChain Chunk.Meets := by
  induction list generalizing offset with
  | nil => exact List.IsChain.nil
  | cons first rest ih =>
    obtain ⟨here, placed, -, later⟩ := tiled
    cases rest with
    | nil => exact List.IsChain.singleton first
    | cons second rest =>
      apply List.isChain_cons_cons.mpr
      refine ⟨?_, ih later⟩
      unfold Chunk.Meets
      rw [later.2.1, placed, Nat.add_assoc]

theorem Tiled.disjoint (tiled : Tiled base size offset list) :
    list.Pairwise fun first second => Disjoint first.span second.span := by
  induction list generalizing offset with
  | nil => exact List.Pairwise.nil
  | cons first rest ih =>
    obtain ⟨here, placed, -, later⟩ := tiled
    apply List.pairwise_cons.mpr
    refine ⟨?_, ih later⟩
    intro second member
    have after := (later.fits second member).1
    have place := (later.member second member).1
    apply Set.Ico_disjoint_Ico.mpr
    omega

theorem Tiled.union (tiled : Tiled base size 0 list) :
    ⋃ chunk ∈ list, chunk.span = Set.Ico base (base + size) := by
  ext a
  simp only [Set.mem_iUnion, exists_prop, Chunk.span, Set.mem_Ico]
  constructor
  · intro found
    obtain ⟨chunk, member, low, high⟩ := found
    have fits := (tiled.fits chunk member).2
    have place := (tiled.member chunk member).1
    omega
  · intro inside
    obtain ⟨chunk, member, low, high⟩ := tiled.covers (j := a - base) (Nat.zero_le _) (by omega)
    have place := (tiled.member chunk member).1
    exact ⟨chunk, member, by omega, by omega⟩

theorem split_slice {data : Bytes} {offset width : Nat} (fits : offset + width ≤ data.length) :
    split (combine ((data.drop offset).take width)) width = (data.drop offset).take width := by
  have length : ((data.drop offset).take width).length = width := by
    rw [List.length_take, List.length_drop]
    omega
  have roundTrip := split_combine ((data.drop offset).take width)
  rwa [length] at roundTrip

theorem Tiled.slices {data : Bytes} (tiled : Tiled base data.length offset list) :
    list.flatMap (fun chunk => (data.drop chunk.offset).take chunk.width.bytes) = data.drop offset := by
  induction list generalizing offset with
  | nil =>
    have done : offset = data.length := tiled
    rw [List.flatMap_nil, done, List.drop_length]
  | cons first rest ih =>
    obtain ⟨here, -, -, later⟩ := tiled
    rw [List.flatMap_cons, ih later, here, ← List.drop_drop, List.take_append_drop]

theorem writeOps_carried (addr : Nat) (data : Bytes) :
    (writeOps addr data).flatMap (fun triple => triple.op.carried) = data := by
  have tiled := chunks_tiled addr data.length
  have carried : ∀ chunk ∈ chunks addr data.length,
      split (combine ((data.drop chunk.offset).take chunk.width.bytes)) chunk.width.bytes =
        (data.drop chunk.offset).take chunk.width.bytes := by
    intro chunk member
    exact split_slice (tiled.fits chunk member).2
  have slices := tiled.slices
  rw [List.drop_zero] at slices
  unfold writeOps
  rw [List.flatMap_map]
  simp only [RegisterOp.carried]
  rw [List.flatMap_congr carried, slices]

theorem writeOps_written (addr : Nat) (data : Bytes) :
    List.Forall₂ (Chunk.Written data) (chunks addr data.length) (writeOps addr data) := by
  have tiled := chunks_tiled addr data.length
  unfold writeOps
  apply List.forall₂_map_right_iff.mpr
  apply List.forall₂_same.mpr
  intro chunk member
  have fits := (tiled.fits chunk member).2
  refine ⟨combine ((data.drop chunk.offset).take chunk.width.bytes), ?_, rfl, split_slice fits⟩
  have bound := combine_lt ((data.drop chunk.offset).take chunk.width.bytes)
  have length : ((data.drop chunk.offset).take chunk.width.bytes).length = chunk.width.bytes := by
    rw [List.length_take, List.length_drop]
    omega
  rwa [length] at bound

/-- Chunks are aligned and side by side and fill the blob, and the writes of a blob carry its bytes. -/
theorem decomposition_exact (addr size : Nat) (data : Bytes) :
    (∀ chunk ∈ chunks addr size, chunk.addr % chunk.width.bytes = 0 ∧ chunk.addr = addr + chunk.offset) ∧
      (chunks addr size).IsChain Chunk.Meets ∧
      ((chunks addr size).Pairwise fun first second => Disjoint first.span second.span) ∧
      ⋃ chunk ∈ chunks addr size, chunk.span = Set.Ico addr (addr + size) ∧
      List.Forall₂ (Chunk.Written data) (chunks addr data.length) (writeOps addr data) ∧
      (writeOps addr data).flatMap (fun triple => triple.op.carried) = data := by
  have tiled := chunks_tiled addr size
  refine ⟨?_, tiled.meets, tiled.disjoint, tiled.union, writeOps_written addr data, writeOps_carried addr data⟩
  intro chunk member
  exact (tiled.member chunk member).symm

end Acrobe.Memory
