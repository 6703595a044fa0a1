import Acrobe.Nsl.Axi4Codec
import Acrobe.Lib.ByteMemory

/-!
# The bursts of a blob

The bursts tile the blob, and each of them writes exactly the bytes of the blob that it covers.
-/

namespace Acrobe.Nsl
open LittleEndian Acrobe.Lib

namespace Axi4Codec

variable (self : Axi4Codec)

theorem dataBytes_pos : 0 < self.dataBytes := Nat.two_pow_pos _

/-! ### Tiling -/

theorem ceil_le {length n m : Nat} (positive : 0 < n) : (length + n - 1) / n ≤ m ↔ length ≤ m * n := by
  rw [Nat.div_le_iff_le_mul_add_pred positive, Nat.mul_comm]
  omega

/-- A burst as the bus allows it. -/
structure Fits (codec : Axi4Codec) (maxBurst : Nat) (burst : Burst) : Prop where
  aligned : burst.addr % codec.dataBytes = 0
  beats : 1 ≤ burst.beats
  length : burst.beats ≤ maxBurst

/-- The first and the last byte of a burst are in one 4 KiB block. -/
def InBlock (burst : Burst) : Prop :=
  burst.addr / boundary = (burst.addr + burst.beats * self.dataBytes - 1) / boundary

/-- Each burst starts where the one before it ends, and the last one reaches the end of the blob. -/
def Tiles (addr stop : Nat) : Nat → List Burst → Prop
  | cursor, [] => stop ≤ cursor
  | cursor, burst :: bursts =>
    burst.addr = cursor ∧ burst.offset = cursor - addr ∧ cursor < stop ∧
      Tiles addr stop (cursor + burst.beats * self.dataBytes) bursts

def beatsFrom (stop maxBurst cursor : Nat) : Nat :=
  let n := self.dataBytes
  let edge := (cursor / boundary + 1) * boundary
  let limit := min (min stop edge) (cursor + maxBurst * n)
  (limit - cursor + n - 1) / n

theorem lt_edge (cursor : Nat) : cursor < (cursor / boundary + 1) * boundary := by
  rw [boundary]
  omega

theorem beatsFrom_bounds {stop maxBurst cursor : Nat} (left : cursor < stop) (some_ : 1 ≤ maxBurst) :
    1 ≤ self.beatsFrom stop maxBurst cursor ∧ self.beatsFrom stop maxBurst cursor ≤ maxBurst := by
  have positive := self.dataBytes_pos
  have grown : self.dataBytes ≤ maxBurst * self.dataBytes := Nat.le_mul_of_pos_left _ some_
  have inside := lt_edge cursor
  unfold beatsFrom
  dsimp only
  constructor
  · rw [Nat.one_le_div_iff positive]
    omega
  · rw [ceil_le positive]
    omega

theorem beatsFrom_block {stop maxBurst cursor : Nat} (narrow : self.dataBytes ∣ boundary)
    (aligned : self.dataBytes ∣ cursor) :
    cursor + self.beatsFrom stop maxBurst cursor * self.dataBytes ≤ (cursor / boundary + 1) * boundary := by
  have positive := self.dataBytes_pos
  have inside := lt_edge cursor
  obtain ⟨k, whole⟩ : self.dataBytes ∣ (cursor / boundary + 1) * boundary - cursor :=
    Nat.dvd_sub (Nat.dvd_trans narrow (Nat.dvd_mul_left _ _)) aligned
  have whole := whole.trans (Nat.mul_comm _ _)
  have beats : self.beatsFrom stop maxBurst cursor ≤ k := by
    unfold beatsFrom
    dsimp only
    rw [ceil_le positive]
    omega
  have total : self.beatsFrom stop maxBurst cursor * self.dataBytes ≤ k * self.dataBytes := Nat.mul_le_mul_right _ beats
  omega

theorem burstsFrom_succ (addr stop maxBurst fuel cursor : Nat) :
    self.burstsFrom addr stop maxBurst (fuel + 1) cursor =
      if stop ≤ cursor then []
      else { addr := cursor, beats := self.beatsFrom stop maxBurst cursor, offset := cursor - addr } ::
        self.burstsFrom addr stop maxBurst fuel (cursor + self.beatsFrom stop maxBurst cursor * self.dataBytes) := rfl

theorem burstsFrom_tiles {addr stop maxBurst fuel cursor : Nat} (some_ : 1 ≤ maxBurst)
    (enough : stop ≤ cursor + fuel * self.dataBytes) :
    self.Tiles addr stop cursor (self.burstsFrom addr stop maxBurst fuel cursor) := by
  induction fuel generalizing cursor with
  | zero =>
    rw [Nat.zero_mul] at enough
    exact enough
  | succ fuel ih =>
    rw [burstsFrom_succ]
    split
    · rename_i finished
      exact finished
    · rename_i left
      obtain ⟨lower, -⟩ := self.beatsFrom_bounds (Nat.lt_of_not_le left) some_
      have step : self.dataBytes ≤ self.beatsFrom stop maxBurst cursor * self.dataBytes :=
        Nat.le_mul_of_pos_left _ lower
      refine ⟨rfl, rfl, Nat.lt_of_not_le left, ih ?_⟩
      rw [Nat.succ_mul] at enough
      dsimp only
      omega

theorem burstsFrom_fits {addr stop maxBurst fuel cursor : Nat} (some_ : 1 ≤ maxBurst)
    (aligned : self.dataBytes ∣ cursor) :
    ∀ burst ∈ self.burstsFrom addr stop maxBurst fuel cursor, self.Fits maxBurst burst ∧ burst.addr < stop ∧
      (self.dataBytes ∣ boundary → self.InBlock burst) := by
  induction fuel generalizing cursor with
  | zero => exact nofun
  | succ fuel ih =>
    rw [burstsFrom_succ]
    split
    · exact nofun
    · rename_i left
      intro burst member
      rcases List.mem_cons.mp member with rfl | member
      · obtain ⟨lower, upper⟩ := self.beatsFrom_bounds (Nat.lt_of_not_le left) some_
        refine ⟨⟨Nat.mod_eq_zero_of_dvd aligned, lower, upper⟩, Nat.lt_of_not_le left, fun narrow => ?_⟩
        have block : cursor + self.beatsFrom stop maxBurst cursor * self.dataBytes ≤ _ :=
          self.beatsFrom_block narrow aligned
        have step : self.dataBytes ≤ self.beatsFrom stop maxBurst cursor * self.dataBytes :=
          Nat.le_mul_of_pos_left _ lower
        have positive := self.dataBytes_pos
        rw [InBlock]
        dsimp only
        refine (Nat.div_eq_of_lt_le ?_ ?_).symm
        · have floor := Nat.div_mul_le_self cursor boundary
          omega
        · omega
      · exact ih (Nat.dvd_add aligned (Nat.dvd_mul_left _ _)) burst member

theorem bursts_start (addr : Nat) : self.dataBytes ∣ addr - addr % self.dataBytes :=
  Nat.dvd_sub_mod addr

theorem bursts_tile (addr : Nat) {size maxBurst : Nat} (filled : 1 ≤ size) (some_ : 1 ≤ maxBurst) :
    self.Tiles addr (addr + size) (addr - addr % self.dataBytes) (self.bursts addr size maxBurst) := by
  refine self.burstsFrom_tiles some_ ?_
  have positive := self.dataBytes_pos
  have rest := Nat.mod_lt addr positive
  -- `n + size ≤ n * size + 1` for positive factors
  have grown : self.dataBytes + size ≤ size * self.dataBytes + 1 := by
    obtain ⟨n, width⟩ := Nat.exists_eq_succ_of_ne_zero (Nat.ne_of_gt positive)
    obtain ⟨m, length⟩ := Nat.exists_eq_succ_of_ne_zero (Nat.ne_of_gt filled)
    rw [width, length, Nat.succ_mul, Nat.mul_succ]
    omega
  omega

theorem Tiles.covers {codec : Axi4Codec} {addr stop cursor : Nat} {bursts : List Burst}
    (tiles : codec.Tiles addr stop cursor bursts) {a : Nat} (behind : cursor ≤ a) (inside : a < stop) :
    ∃ burst ∈ bursts, burst.addr ≤ a ∧ a < burst.addr + burst.beats * codec.dataBytes := by
  induction bursts generalizing cursor with
  | nil =>
    rw [Tiles] at tiles
    omega
  | cons burst bursts ih =>
    obtain ⟨located, -, -, rest⟩ := tiles
    by_cases here : a < burst.addr + burst.beats * codec.dataBytes
    · exact ⟨burst, List.mem_cons_self, by omega, here⟩
    · obtain ⟨other, member, found⟩ := ih rest (by omega)
      exact ⟨other, List.mem_cons_of_mem _ member, found⟩

theorem Tiles.offset {codec : Axi4Codec} {addr stop cursor : Nat} {bursts : List Burst}
    (tiles : codec.Tiles addr stop cursor bursts) : ∀ burst ∈ bursts, burst.offset = burst.addr - addr := by
  induction bursts generalizing cursor with
  | nil => exact nofun
  | cons burst bursts ih =>
    obtain ⟨located, offset, -, rest⟩ := tiles
    intro other member
    rcases List.mem_cons.mp member with rfl | member
    · rw [offset, located]
    · exact ih rest other member

theorem Tiles.nonempty {codec : Axi4Codec} {addr stop cursor : Nat} {bursts : List Burst}
    (tiles : codec.Tiles addr stop cursor bursts) (left : cursor < stop) : 0 < bursts.length := by
  cases bursts with
  | nil =>
    rw [Tiles] at tiles
    omega
  | cons burst bursts => exact Nat.succ_pos _

/-! ### Writing -/

/-- What a write burst does to a byte memory. -/
def execWrite (data : Bytes) (memory : ByteMemory) (burst : Burst) : ByteMemory :=
  let (lanes, strobes) := self.writeLanes burst data
  (List.range burst.beats).foldl (fun memory beat =>
    memory.writeStrobed (burst.addr + beat * self.dataBytes)
      ((lanes.drop (beat * self.dataBytes)).take self.dataBytes) (strobes.getD beat 0)) memory

theorem testBit_strobe (burst : Burst) (data : Bytes) (beat lane : Nat) :
    (self.strobe burst data beat).testBit lane ↔ lane < self.dataBytes ∧ InBlob data (self.lanePos burst beat lane) := by
  have loop : ∀ n, ((List.range n).foldl
      (fun strobe lane => if InBlob data (self.lanePos burst beat lane) then strobe ||| 1 <<< lane else strobe)
      0).testBit lane ↔ lane < n ∧ InBlob data (self.lanePos burst beat lane) := by
    intro n
    induction n with
    | zero => simp
    | succ n ih =>
      rw [List.range_succ, List.foldl_append, List.foldl_cons, List.foldl_nil]
      split
      · rename_i inside
        rw [Nat.testBit_or, Bool.or_eq_true, ih, Nat.one_shiftLeft, Nat.testBit_two_pow, decide_eq_true_eq]
        constructor
        · rintro (⟨below, found⟩ | rfl)
          · exact ⟨by omega, found⟩
          · exact ⟨by omega, inside⟩
        · rintro ⟨below, found⟩
          by_cases last : n = lane
          · exact .inr last
          · exact .inl ⟨by omega, found⟩
      · rename_i outside
        rw [ih]
        constructor
        · rintro ⟨below, found⟩
          exact ⟨by omega, found⟩
        · rintro ⟨below, found⟩
          refine ⟨?_, found⟩
          by_contra last
          have same : lane = n := by omega
          rw [same] at found
          exact outside found
  exact loop self.dataBytes

@[simp] theorem length_lanes (burst : Burst) (data : Bytes) (beat : Nat) :
    (self.lanes burst data beat).length = self.dataBytes := by
  rw [lanes, List.length_map, List.length_range]

theorem getD_lanes {burst : Burst} {data : Bytes} {beat lane : Nat} (small : lane < self.dataBytes)
    (inside : InBlob data (self.lanePos burst beat lane)) :
    (self.lanes burst data beat).getD lane 0 = data.getD (self.lanePos burst beat lane).toNat 0 := by
  rw [lanes, List.getD_eq_getElem?_getD, List.getElem?_map, List.getElem?_range small, Option.map_some,
    Option.getD_some]
  dsimp only
  rw [if_pos inside]

theorem chunk_flatMap {α β : Type} {xs : List α} {f : α → List β} {n : Nat} (length : ∀ x, (f x).length = n)
    {i : Nat} {x : α} (here : xs[i]? = some x) : ((xs.flatMap f).drop (i * n)).take n = f x := by
  induction xs generalizing i with
  | nil => cases here
  | cons first xs ih =>
    rw [List.flatMap_cons]
    cases i with
    | zero =>
      cases here
      rw [Nat.zero_mul, List.drop_zero, ← length x, List.take_left]
    | succ i =>
      rw [List.getElem?_cons_succ] at here
      rw [Nat.succ_mul, Nat.add_comm, ← List.drop_drop, List.drop_left' (length first), ih here]

theorem execWrite_apply {burst : Burst} {addr : Nat} (data : Bytes) (located : burst.offset = burst.addr - addr)
    (memory : ByteMemory) (a : Nat) :
    self.execWrite data memory burst a =
      if (burst.addr ≤ a ∧ a < burst.addr + burst.beats * self.dataBytes) ∧ addr ≤ a ∧ a < addr + data.length then
        data.getD (a - addr) 0
      else memory a := by
  have loop : ∀ k ≤ burst.beats, ((List.range k).foldl (fun memory beat =>
      memory.writeStrobed (burst.addr + beat * self.dataBytes)
        (((self.writeLanes burst data).1.drop (beat * self.dataBytes)).take self.dataBytes)
        ((self.writeLanes burst data).2.getD beat 0)) memory) a =
      if (burst.addr ≤ a ∧ a < burst.addr + k * self.dataBytes) ∧ addr ≤ a ∧ a < addr + data.length then
        data.getD (a - addr) 0
      else memory a := by
    intro k bounded
    induction k with
    | zero =>
      rw [if_neg (by omega)]
      rfl
    | succ k ih =>
      have here : (List.range burst.beats)[k]? = some k := List.getElem?_range bounded
      have lanes : ((self.writeLanes burst data).1.drop (k * self.dataBytes)).take self.dataBytes =
          self.lanes burst data k := chunk_flatMap (self.length_lanes burst data) here
      have strobe : (self.writeLanes burst data).2.getD k 0 = self.strobe burst data k := by
        rw [writeLanes, List.getD_eq_getElem?_getD, List.getElem?_map, here]
        rfl
      rw [List.range_succ, List.foldl_append, List.foldl_cons, List.foldl_nil, ByteMemory.writeStrobed, lanes, strobe,
        length_lanes, ih (by omega), Nat.succ_mul]
      by_cases beat : burst.addr + k * self.dataBytes ≤ a ∧ a < burst.addr + k * self.dataBytes + self.dataBytes
      · have spot : self.lanePos burst k (a - (burst.addr + k * self.dataBytes)) = (a : Int) - addr := by
          rw [lanePos, located]
          push_cast [beat.1]
          omega
        by_cases inside : addr ≤ a ∧ a < addr + data.length
        · have blob : InBlob data (self.lanePos burst k (a - (burst.addr + k * self.dataBytes))) := by
            rw [spot, InBlob]
            omega
          rw [if_pos ⟨beat.1, beat.2, (self.testBit_strobe ..).mpr ⟨by omega, blob⟩⟩, if_pos (by omega),
            self.getD_lanes (by omega) blob, spot]
          congr 1
          omega
        · rw [if_neg, if_neg (by omega), if_neg (by omega)]
          rintro ⟨-, -, enabled⟩
          have blob := ((self.testBit_strobe ..).mp enabled).2
          rw [spot, InBlob] at blob
          omega
      · rw [if_neg (fun both => beat ⟨both.1, both.2.1⟩)]
        congr 1
        rw [eq_iff_iff]
        omega
  exact loop burst.beats (Nat.le_refl _)

theorem execWrite_all {addr stop cursor : Nat} {bursts order : List Burst} {data : Bytes}
    (tiles : self.Tiles addr stop cursor bursts) (ends : stop = addr + data.length) (starts : cursor ≤ addr)
    (any : order.Perm bursts) (memory : ByteMemory) :
    order.foldl (self.execWrite data) memory = memory.write addr data := by
  have loop : ∀ order : List Burst, (∀ burst ∈ order, burst.offset = burst.addr - addr) → ∀ memory : ByteMemory, ∀ a,
      order.foldl (self.execWrite data) memory a =
        if (∃ burst ∈ order, burst.addr ≤ a ∧ a < burst.addr + burst.beats * self.dataBytes) ∧
            addr ≤ a ∧ a < addr + data.length then data.getD (a - addr) 0
        else memory a := by
    intro order located
    induction order with
    | nil =>
      intro memory a
      rw [if_neg (fun both => by obtain ⟨⟨burst, member, -⟩, -⟩ := both; cases member)]
      rfl
    | cons burst order ih =>
      intro memory a
      rw [List.foldl_cons, ih (fun other member => located other (List.mem_cons_of_mem _ member)),
        self.execWrite_apply data (located burst List.mem_cons_self)]
      simp only [List.mem_cons, exists_eq_or_imp]
      by_cases later : (∃ other ∈ order, other.addr ≤ a ∧ a < other.addr + other.beats * self.dataBytes) ∧
          addr ≤ a ∧ a < addr + data.length
      · rw [if_pos later, if_pos ⟨.inr later.1, later.2⟩]
      · rw [if_neg later]
        by_cases here : (burst.addr ≤ a ∧ a < burst.addr + burst.beats * self.dataBytes) ∧
            addr ≤ a ∧ a < addr + data.length
        · rw [if_pos here, if_pos ⟨.inl here.1, here.2⟩]
        · rw [if_neg here, if_neg]
          rintro ⟨now | rest, inside⟩
          · exact here ⟨now, inside⟩
          · exact later ⟨rest, inside⟩
  funext a
  rw [loop order (fun burst member => tiles.offset burst (any.mem_iff.mp member)), ByteMemory.write]
  by_cases inside : addr ≤ a ∧ a < addr + data.length
  · obtain ⟨burst, member, covered⟩ := tiles.covers (Nat.le_trans starts inside.1) (by omega)
    rw [if_pos ⟨⟨burst, any.mem_iff.mpr member, covered⟩, inside⟩, if_pos inside]
  · rw [if_neg (fun both => inside both.2), if_neg inside]

end Axi4Codec

end Acrobe.Nsl
