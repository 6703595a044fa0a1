import Acrobe.Nsl.Axi4Bursts
import Acrobe.Nsl.Axi4Mm
import Acrobe.Memory.BulkSound

/-!
# Blobs over the AXI4 bridge

The frames of every burst can be built, the bursts are those that the bus allows, and a blob is written and
read as a whole, in whatever order its transactions complete.
-/

namespace Acrobe.Nsl
open LittleEndian Acrobe.Lib Acrobe.Memory

/-! ### Packing -/

namespace Axi4Codec

theorem packFields_ok {fields : List (Nat × Nat)} (fit : ∀ field ∈ fields, field.1 < 2 ^ field.2) {v shift : Nat}
    (small : v < 2 ^ shift) :
    ∃ packed, packFields fields v shift = .ok packed ∧ packed < 2 ^ (shift + (fields.map Prod.snd).sum) := by
  induction fields generalizing v shift with
  | nil => exact ⟨v, rfl, small⟩
  | cons field fields ih =>
    obtain ⟨value, width⟩ := field
    have fits : value < 2 ^ width := fit _ List.mem_cons_self
    have grown : v ||| value <<< shift < 2 ^ (shift + width) := by
      refine Nat.or_lt_two_pow (Nat.lt_of_lt_of_le small (Nat.pow_le_pow_right (by decide) (by omega))) ?_
      rw [Nat.shiftLeft_eq, Nat.add_comm, Nat.pow_add]
      exact Nat.mul_lt_mul_of_pos_right fits (Nat.two_pow_pos shift)
    obtain ⟨packed, done, bound⟩ := ih (fun other member => fit other (List.mem_cons_of_mem _ member)) grown
    refine ⟨packed, ?_, ?_⟩
    · rw [packFields, if_neg (not_not.mpr (Nat.shiftRight_eq_zero value width fits)), done]
    · rw [List.map_cons, List.sum_cons, ← Nat.add_assoc]
      exact bound

theorem packFields_error {fields : List (Nat × Nat)} (wide : ∃ field ∈ fields, 2 ^ field.2 ≤ field.1) (v shift : Nat) :
    ∃ text, packFields fields v shift = .error text := by
  induction fields generalizing v shift with
  | nil =>
    obtain ⟨field, member, -⟩ := wide
    cases member
  | cons field fields ih =>
    obtain ⟨value, width⟩ := field
    rw [packFields]
    by_cases zero : value >>> width = 0
    · rw [if_neg (not_not.mpr zero)]
      refine ih ?_ _ _
      obtain ⟨other, member, above⟩ := wide
      rcases List.mem_cons.mp member with rfl | member
      · rw [Nat.shiftRight_eq_div_pow, Nat.div_eq_zero_iff] at zero
        have positive := Nat.two_pow_pos width
        dsimp only at above
        omega
      · exact ⟨other, member, above⟩
    · rw [if_pos zero]
      exact ⟨_, rfl⟩

theorem pack_ok {fields : List (Nat × Nat)} {byteCount : Nat} (fit : ∀ field ∈ fields, field.1 < 2 ^ field.2)
    (room : (fields.map Prod.snd).sum ≤ 8 * byteCount) : ∃ bytes, pack fields byteCount = .ok bytes := by
  obtain ⟨packed, done, bound⟩ := packFields_ok fit (show 0 < 2 ^ 0 by decide)
  have small : packed < 256 ^ byteCount := by
    rw [show 256 = 2 ^ 8 from rfl, ← Nat.pow_mul]
    exact Nat.lt_of_lt_of_le bound (Nat.pow_le_pow_right (by decide) (by omega))
  refine ⟨split packed byteCount, ?_⟩
  rw [pack, done]
  change (if packed < 256 ^ byteCount then _ else _) = _
  rw [if_pos small]

variable (self : Axi4Codec)

theorem sum_addressFields (addr beats axiId prot : Nat) :
    ((self.addressFields addr beats axiId prot).map Prod.snd).sum = self.addressBits := by
  rw [addressFields, addressBits]
  simp only [List.map_append, List.sum_append, apply_ite (List.map Prod.snd), apply_ite List.sum, List.map_cons,
    List.map_nil, List.sum_cons, List.sum_nil, Nat.add_zero]

theorem address_ok_iff (channel : UInt8) {addr beats axiId prot : Nat} (inside : addr < 2 ^ self.addressWidth)
    (length : beats - 1 < 2 ^ self.lenWidth) (identity : axiId < 2 ^ self.idWidth) (protection : prot < 8) :
    (∃ frame, self.address channel addr beats axiId prot = .ok frame) ↔ (self.hasSize = true → self.sizeL2 < 8) := by
  have others : ∀ field ∈ self.addressFields addr beats axiId prot, field.1 < 2 ^ field.2 ∨
      (self.hasSize = true ∧ field = (self.sizeL2, 3)) := by
    intro field member
    simp only [addressFields, List.mem_append, List.mem_ite_nil_right, List.mem_cons, List.not_mem_nil, or_false]
      at member
    have zero : ∀ width, (0 : Nat) < 2 ^ width := Nat.two_pow_pos
    rcases member with (((((((((rfl | rfl) | ⟨size, rfl⟩) | ⟨-, rfl⟩) | ⟨-, rfl⟩) | rfl) | ⟨-, rfl⟩) | rfl) | ⟨-, rfl⟩) |
      ⟨-, rfl⟩) | rfl
    · exact .inl inside
    · exact .inl protection
    · exact .inr ⟨size, rfl⟩
    · exact .inl (by decide)
    · exact .inl (zero _)
    · exact .inl length
    · exact .inl (zero _)
    · exact .inl identity
    · exact .inl (zero _)
    · exact .inl (zero _)
    · exact .inl (zero _)
  constructor
  · rintro ⟨frame, built⟩ size
    by_contra wide
    have member : (self.sizeL2, 3) ∈ self.addressFields addr beats axiId prot := by
      simp only [addressFields, List.mem_append, List.mem_ite_nil_right, List.mem_singleton, size, true_and, true_or,
        or_true]
    obtain ⟨text, failed⟩ := packFields_error ⟨_, member, Nat.le_of_not_lt wide⟩ 0 0
    rw [address, pack, failed] at built
    cases built
  · intro narrow
    have fit : ∀ field ∈ self.addressFields addr beats axiId prot, field.1 < 2 ^ field.2 := by
      intro field member
      rcases others field member with fits | ⟨size, rfl⟩
      · exact fits
      · exact narrow size
    obtain ⟨packed, done⟩ := pack_ok fit (show _ ≤ 8 * self.addressBytes by
      rw [self.sum_addressFields, addressBytes]
      omega)
    exact ⟨channel :: packed, by rw [address, done]; rfl⟩

theorem strobe_lt (burst : Burst) (data : Bytes) (beat : Nat) : self.strobe burst data beat < 2 ^ self.dataBytes := by
  refine Nat.lt_pow_two_of_testBit _ fun lane outside => ?_
  rw [Bool.eq_false_iff]
  intro set
  exact absurd ((self.testBit_strobe burst data beat lane).mp set).1 (Nat.not_lt.mpr outside)

theorem mapM_ok {α β ε : Type} {f : α → Except ε β} {xs : List α} (each : ∀ x ∈ xs, ∃ y, f x = .ok y) :
    ∃ ys, xs.mapM f = .ok ys := by
  induction xs with
  | nil => exact ⟨[], rfl⟩
  | cons x xs ih =>
    obtain ⟨y, first⟩ := each x List.mem_cons_self
    obtain ⟨ys, rest⟩ := ih fun other member => each other (List.mem_cons_of_mem _ member)
    exact ⟨y :: ys, by rw [List.mapM_cons, first, rest]; rfl⟩

theorem writeData_ok (burst : Burst) (data : Bytes) :
    ∃ frame, self.writeData (self.writeLanes burst data).1 (self.writeLanes burst data).2 = .ok frame := by
  have beats : ∃ beats, (self.writeLanes burst data).2.zipIdx.mapM (fun entry =>
      pack (self.beatFields (((self.writeLanes burst data).1.drop (entry.2 * self.dataBytes)).take self.dataBytes) entry.1)
        self.wBytes) = .ok beats := by
    refine mapM_ok ?_
    rintro ⟨strobe, beat⟩ member
    refine pack_ok (fun field among => ?_) ?_
    · obtain ⟨k, -, same⟩ := List.mem_map.mp (List.fst_mem_of_mem_zipIdx member)
      have lanes := combine_lt (((self.writeLanes burst data).1.drop (beat * self.dataBytes)).take self.dataBytes)
      have short : (((self.writeLanes burst data).1.drop (beat * self.dataBytes)).take self.dataBytes).length ≤
          self.dataBytes := List.length_take_le _ _
      simp only [beatFields, List.mem_cons, List.not_mem_nil, or_false] at among
      rcases among with rfl | rfl | rfl
      · rw [show 256 = 2 ^ 8 from rfl, ← Nat.pow_mul] at lanes
        exact Nat.lt_of_lt_of_le lanes (Nat.pow_le_pow_right (by decide) (by omega))
      · rw [← same]
        exact self.strobe_lt burst data k
      · exact Nat.two_pow_pos _
    · simp only [beatFields, List.map_cons, List.map_nil, List.sum_cons, List.sum_nil, wBytes]
      omega
  obtain ⟨beats, built⟩ := beats
  refine ⟨chW :: beats.flatten, ?_⟩
  have packed : self.writeData (self.writeLanes burst data).1 (self.writeLanes burst data).2 =
      ((self.writeLanes burst data).2.zipIdx.mapM fun entry =>
        pack (self.beatFields (((self.writeLanes burst data).1.drop (entry.2 * self.dataBytes)).take self.dataBytes) entry.1)
          self.wBytes) >>= fun beats => .ok (chW :: beats.flatten) := rfl
  rw [packed, built]
  rfl

end Axi4Codec

/-! ### Completion -/

/-- A pending blob with every burst attached. -/
def pendingBlob (codec : Axi4Codec) (bursts : List Burst) (size : Nat) (isRead : Bool) : PendingBlob where
  size := size
  isRead := isRead
  subFutures := bursts.mapIdx fun k burst => (burst.offset, burst.beats * codec.dataBytes, k)
  remaining := bursts.length
  exception := .none

/-- The transaction of a burst completes. -/
def completeBurst (outcomes : List (Except Error Result)) (futures : Memory.Futures) (k : Nat) : Memory.Futures :=
  onDone { futures with done := fun p => if p = k then true else futures.done p } outcomes 0 k

/-- What the caller gets when the transactions have completed in an order. -/
def blobResult (codec : Axi4Codec) (bursts : List Burst) (size : Nat) (isRead : Bool)
    (outcomes : List (Except Error Result)) (order : List Nat) : Option (Except Error Result) :=
  (order.foldl (completeBurst outcomes)
    (Memory.Futures.initial.setPending 0 (pendingBlob codec bursts size isRead))).users 0

def readOutcomes (codec : Axi4Codec) (memory : ByteMemory) (bursts : List Burst) : List (Except Error Result) :=
  bursts.map fun burst => .ok (.bytes (memory.read burst.addr (burst.beats * codec.dataBytes)))

def writeOutcomes (bursts : List Burst) : List (Except Error Result) := bursts.map fun _ => .ok .none

theorem foldl_completeBurst {count : Nat} {order : List Nat} (inside : ∀ k ∈ order, k < count)
    (outcomes : List (Except Error Result)) (futures : Memory.Futures) :
    order.foldl (completeBurst outcomes) futures =
      order.foldl (complete (List.replicate count (.read .byte 0, some (.blob 0))) outcomes) futures := by
  induction order generalizing futures with
  | nil => rfl
  | cons k order ih =>
    have here : (List.replicate count ((.read .byte 0, some (.blob 0)) : Lowered))[k]? = some (.read .byte 0, some (.blob 0)) :=
      List.getElem?_replicate_of_lt (inside k List.mem_cons_self)
    rw [List.foldl_cons, List.foldl_cons, ih fun other member => inside other (List.mem_cons_of_mem _ member), complete,
      here]
    rfl

theorem blobResult_any {codec : Axi4Codec} {bursts : List Burst} {size : Nat} {isRead : Bool}
    {outcomes : List (Except Error Result)} {result : Result} {order : List Nat}
    (every : order.Perm (List.range bursts.length)) (nonempty : 0 < bursts.length)
    (ended : ∀ k < bursts.length, ∃ answer, outcomes[k]? = some (.ok answer))
    (assembled : ∀ after : Memory.Futures, (∀ k < bursts.length, after.done k = true) → isRead = true →
      ∃ buf, result = .bytes buf ∧ assemble after outcomes size (List.replicate size 0)
        (bursts.mapIdx fun k burst => (burst.offset, burst.beats * codec.dataBytes, k)) = .ok buf)
    (written : isRead = false → result = .none) :
    blobResult codec bursts size isRead outcomes order = some (.ok result) := by
  have inside : ∀ k ∈ order, k < bursts.length := fun k member => List.mem_range.mp (every.mem_iff.mp member)
  have own : ∀ k, decide (k < bursts.length) = true → k < bursts.length := fun k => of_decide_eq_true
  have named : ∀ k, decide (k < bursts.length) = true →
      ∃ op, (List.replicate bursts.length ((.read .byte 0, some (.blob 0)) : Lowered))[k]? = some (op, some (.blob 0)) :=
    fun k mine => ⟨_, List.getElem?_replicate_of_lt (own k mine)⟩
  have all : order.filter (fun k => decide (k < bursts.length)) = order :=
    List.filter_eq_self.mpr fun k member => decide_eq_true (inside k member)
  have waiting : (Memory.Futures.initial.setPending 0 (pendingBlob codec bursts size isRead)).pendings 0 =
      some { pendingBlob codec bursts size isRead with remaining := bursts.length, exception := .none } := rfl
  rw [blobResult, foldl_completeBurst inside]
  refine completions_blob order _ bursts.length nonempty named (fun k mine => ended k (own k mine)) ?_ ?_ written waiting
    rfl ?_ ?_
  · intro k member other
    rw [decide_eq_true (inside k member)] at other
    cases other
  · exact fun after done reading => assembled after (fun k mine => done k (decide_eq_true mine)) reading
  · rw [all, every.length_eq, List.length_range]
  · exact fun k mine => .inr (every.mem_iff.mpr (List.mem_range.mpr (own k mine)))

theorem blobResult_written {codec : Axi4Codec} {bursts : List Burst} {order : List Nat}
    (every : order.Perm (List.range bursts.length)) (nonempty : 0 < bursts.length) (size : Nat) :
    blobResult codec bursts size false (writeOutcomes bursts) order = some (.ok .none) := by
  refine blobResult_any every nonempty (fun k inside => ⟨.none, ?_⟩) (fun _ _ => by rintro ⟨⟩) (fun _ => rfl)
  rw [writeOutcomes, List.getElem?_map, List.getElem?_eq_getElem inside, Option.map_some]

theorem blobResult_read {codec : Axi4Codec} {addr size cursor : Nat} {bursts : List Burst} {order : List Nat}
    (tiles : codec.Tiles addr (addr + size) cursor bursts) (starts : cursor ≤ addr)
    (every : order.Perm (List.range bursts.length)) (nonempty : 0 < bursts.length) (memory : ByteMemory) :
    blobResult codec bursts size true (readOutcomes codec memory bursts) order =
      some (.ok (.bytes (memory.read addr size))) := by
  have ended : ∀ (k : Nat) (burst : Burst), bursts[k]? = some burst → (readOutcomes codec memory bursts)[k]? =
      some (.ok (.bytes (memory.read burst.addr (burst.beats * codec.dataBytes)))) := by
    intro k burst here
    rw [readOutcomes, List.getElem?_map, here, Option.map_some]
  refine blobResult_any every nonempty
    (fun k inside => ⟨_, ended k _ (List.getElem?_eq_getElem inside)⟩) (fun after done _ => ⟨_, rfl, ?_⟩) nofun
  refine assemble_answered (fun entry member => ?_) List.length_replicate (fun j inside => .inr ?_)
  · obtain ⟨k, here, rfl⟩ := List.mem_mapIdx.mp member
    have offset := tiles.offset _ (List.getElem_mem here)
    have located : (addr : Int) + bursts[k].offset = bursts[k].addr := by omega
    refine ⟨by dsimp only; omega, .bytes (memory.read bursts[k].addr (bursts[k].beats * codec.dataBytes)), ?_, ?_⟩
    · rw [Memory.Futures.result, done k here, ended k _ (List.getElem?_eq_getElem here)]
    · dsimp only
      rw [located]
      rfl
  · obtain ⟨burst, member, lower, upper⟩ := tiles.covers (show cursor ≤ addr + j by omega) (by omega)
    obtain ⟨k, here, rfl⟩ := List.mem_iff_getElem.mp member
    have offset := tiles.offset _ member
    exact ⟨_, List.mem_mapIdx.mpr ⟨k, here, rfl⟩, by dsimp only; omega, by dsimp only; push_cast; omega⟩

/-! ### Blobs -/

/-- What a blob is on the bus: its frames can be built, its bursts are allowed, executed in any order they write
the blob, and in any order of their completion its bytes are returned. -/
structure Axi4Setup.Carries (setup : Axi4Setup) (id addr size : Nat) : Prop where
  framed : ∀ burst ∈ setup.codec.bursts addr size setup.maxBurst, ∀ kind data,
    ∃ frames, (Axi4Mm.start setup id).requestFrames kind burst data = .ok frames
  planned : ∀ burst ∈ setup.codec.bursts addr size setup.maxBurst,
    setup.codec.Fits setup.maxBurst burst ∧ setup.codec.InBlock burst
  written : ∀ (data : Bytes) (memory : ByteMemory) (order : List Burst), data.length = size →
    order.Perm (setup.codec.bursts addr size setup.maxBurst) →
      order.foldl (setup.codec.execWrite data) memory = memory.write addr data
  acknowledged : ∀ order : List Nat, order.Perm (List.range (setup.codec.bursts addr size setup.maxBurst).length) →
    blobResult setup.codec (setup.codec.bursts addr size setup.maxBurst) size false
      (writeOutcomes (setup.codec.bursts addr size setup.maxBurst)) order = some (.ok .none)
  read : ∀ (memory : ByteMemory) (order : List Nat),
    order.Perm (List.range (setup.codec.bursts addr size setup.maxBurst).length) →
      blobResult setup.codec (setup.codec.bursts addr size setup.maxBurst) size true
        (readOutcomes setup.codec memory (setup.codec.bursts addr size setup.maxBurst)) order =
          some (.ok (.bytes (memory.read addr size)))

theorem requestFrames_ok_iff {setup : Axi4Setup} {id : Nat} (identity : id < 2 ^ setup.codec.idWidth) {burst : Burst}
    (inside : burst.addr < 2 ^ setup.codec.addressWidth) (fits : setup.codec.Fits setup.maxBurst burst) (kind : Kind)
    (data : Bytes) :
    (∃ frames, (Axi4Mm.start setup id).requestFrames kind burst data = .ok frames) ↔
      (setup.codec.hasSize = true → setup.codec.sizeL2 < 8) := by
  have length : burst.beats - 1 < 2 ^ setup.codec.lenWidth := by
    have bounded := setup.bursting.2
    rw [Axi4Codec.maxLength, Nat.one_shiftLeft] at bounded
    have beats := fits.length
    have positive := fits.beats
    omega
  have address := fun channel => setup.codec.address_ok_iff channel inside length identity setup.protection
  cases kind with
  | read =>
    rw [← address Axi4Codec.chAr]
    constructor
    · rintro ⟨frames, built⟩
      cases frame : setup.codec.address Axi4Codec.chAr burst.addr burst.beats id setup.prot with
      | ok bytes => exact ⟨bytes, rfl⟩
      | error text =>
        change (setup.codec.address Axi4Codec.chAr burst.addr burst.beats id setup.prot >>= _) = _ at built
        rw [frame] at built
        cases built
    · rintro ⟨frame, built⟩
      refine ⟨[frame], ?_⟩
      change (setup.codec.address Axi4Codec.chAr burst.addr burst.beats id setup.prot >>= _) = _
      rw [built]
      rfl
  | write =>
    rw [← address Axi4Codec.chAw]
    obtain ⟨bytes, lanes⟩ := setup.codec.writeData_ok burst data
    constructor
    · rintro ⟨frames, built⟩
      cases frame : setup.codec.address Axi4Codec.chAw burst.addr burst.beats id setup.prot with
      | ok bytes => exact ⟨bytes, rfl⟩
      | error text =>
        change (setup.codec.address Axi4Codec.chAw burst.addr burst.beats id setup.prot >>= _) = _ at built
        rw [frame] at built
        cases built
    · rintro ⟨frame, built⟩
      refine ⟨[frame, bytes], ?_⟩
      change (setup.codec.address Axi4Codec.chAw burst.addr burst.beats id setup.prot >>= fun address =>
        setup.codec.writeData (setup.codec.writeLanes burst data).1 (setup.codec.writeLanes burst data).2 >>= _) = _
      rw [built]
      change (setup.codec.writeData _ _ >>= _) = _
      rw [lanes]
      rfl

/-- A blob in the address space is carried exactly when a beat is not wider than a 4 KiB block, and its width
fits the size field where there is one. -/
theorem carries_iff (setup : Axi4Setup) {id addr size : Nat} (identity : id < 2 ^ setup.codec.idWidth)
    (filled : 1 ≤ size) (inside : addr + size ≤ 2 ^ setup.codec.addressWidth) :
    setup.Carries id addr size ↔
      setup.codec.dataBytes ≤ 4096 ∧ (setup.codec.hasSize = true → setup.codec.dataBytes ≤ 128) := by
  have bursting := setup.bursting.1
  have tiles := setup.codec.bursts_tile addr filled bursting
  have starts : addr - addr % setup.codec.dataBytes ≤ addr := Nat.sub_le _ _
  have nonempty := tiles.nonempty (by omega)
  have fits : ∀ burst ∈ setup.codec.bursts addr size setup.maxBurst, setup.codec.Fits setup.maxBurst burst ∧
      burst.addr < addr + size ∧ (setup.codec.dataBytes ∣ Axi4Codec.boundary → setup.codec.InBlock burst) :=
    setup.codec.burstsFrom_fits bursting (setup.codec.bursts_start addr)
  have framed : ∀ burst ∈ setup.codec.bursts addr size setup.maxBurst, ∀ kind data,
      (∃ frames, (Axi4Mm.start setup id).requestFrames kind burst data = .ok frames) ↔
        (setup.codec.hasSize = true → setup.codec.dataBytes ≤ 128) := by
    intro burst member kind data
    rw [requestFrames_ok_iff identity (by have before := (fits burst member).2.1; omega) (fits burst member).1,
      Axi4Codec.dataBytes, show 128 = 2 ^ 7 from rfl, Nat.pow_le_pow_iff_right (by decide), Nat.lt_succ_iff]
  constructor
  · intro carries
    obtain ⟨burst, member⟩ := List.exists_mem_of_length_pos nonempty
    refine ⟨?_, (framed burst member .read []).mp (carries.framed burst member .read [])⟩
    have block := (carries.planned burst member).2
    have beats := (fits burst member).1.beats
    have wide : setup.codec.dataBytes ≤ burst.beats * setup.codec.dataBytes := Nat.le_mul_of_pos_left _ beats
    rw [Axi4Codec.InBlock, Axi4Codec.boundary] at block
    omega
  · rintro ⟨narrow, sized⟩
    have divides : setup.codec.dataBytes ∣ Axi4Codec.boundary := by
      rw [Axi4Codec.dataBytes, show 4096 = 2 ^ 12 from rfl, Nat.pow_le_pow_iff_right (by decide)] at narrow
      exact Nat.pow_dvd_pow 2 narrow
    exact {
      framed := fun burst member kind data => (framed burst member kind data).mpr sized
      planned := fun burst member => ⟨(fits burst member).1, (fits burst member).2.2 divides⟩
      written := fun data memory order length any =>
        setup.codec.execWrite_all tiles (by rw [length]) starts any memory
      acknowledged := fun order every => blobResult_written every nonempty size
      read := fun memory order every => blobResult_read tiles starts every nonempty memory }

/-- Seven bytes around a 4 KiB boundary, unaligned at both ends. -/
theorem carries_unaligned : (plainSetup 2).Carries 0 4093 7 :=
  (carries_iff (plainSetup 2) (by decide) (by decide) (by decide)).mpr ⟨by decide, nofun⟩

/-- A bus of 8192 bytes is accepted, and its only beat for a byte crosses a 4 KiB boundary. -/
theorem wide_beat_crosses :
    Axi4Codec.create { dataBusWidth := 65536, maxLength := 16 } = .ok (plainCodec 13) ∧
      (plainSetup 13).codec.bursts 0 1 16 = [⟨0, 1, 0⟩] ∧ ¬(plainSetup 13).codec.InBlock ⟨0, 1, 0⟩ ∧
      ¬(plainSetup 13).Carries 0 0 1 := by
  have planned : (plainSetup 13).codec.bursts 0 1 16 = [⟨0, 1, 0⟩] := by decide
  have crosses : ¬(plainSetup 13).codec.InBlock ⟨0, 1, 0⟩ := by
    rw [Axi4Codec.InBlock]
    decide
  refine ⟨by decide, planned, crosses, fun carries => crosses (carries.planned _ ?_).2⟩
  rw [show (plainSetup 13).maxBurst = 16 from rfl, planned]
  exact List.mem_singleton_self _

end Acrobe.Nsl
