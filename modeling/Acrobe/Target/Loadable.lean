import Acrobe.Target.Region

/-!
# Programming sessions

`Loadable.write` brings an image to the regions of a target, call after call. A flash remembers that it is blank.
-/

namespace Acrobe.Target
open LittleEndian Overlay

/-- A region that needs no preparation, such as a `Ram` or an `Eeprom`. -/
structure Plain where
  address : Nat
  size : Nat
  cells : Nat → UInt8

inductive Region where
  | flash (flash : Flash)
  | plain (plain : Plain)

structure Call where
  image : MemoryMap
  doErase : Bool
  assumeClean : Bool

def Plain.write (self : Plain) (offset : Nat) (data : Bytes) : Plain :=
  { self with cells := fun k => if offset ≤ k then data[k - offset]?.getD (self.cells k) else self.cells k }

/-- `plan_update` of a `Region` yields the chunks as they are. -/
def Plain.program (self : Plain) (regionMap : MemoryMap) : Plain :=
  regionMap.chunks.foldl (fun plain chunk => plain.write (chunk.1 - (self.address : Int)).toNat chunk.2) self

/-- `erase_all`, for one flash -/
def Flash.eraseAll (self : Flash) : Flash := { self.erase 0 self.geometry.size with isBlank := true }

/-- `pre_program` -/
def Flash.preProgram (self : Flash) (call : Call) : Flash :=
  let self := if call.doErase then self.eraseAll else self
  if call.assumeClean then { self with isBlank := true } else self

namespace Region

def address : Region → Nat
  | .flash bank => bank.geometry.address
  | .plain memory => memory.address

def size : Region → Nat
  | .flash bank => bank.geometry.size
  | .plain memory => memory.size

def cells : Region → Nat → UInt8
  | .flash bank => bank.cells
  | .plain memory => memory.cells

def preProgram (self : Region) (call : Call) : Region :=
  match self with
  | .flash bank => .flash (bank.preProgram call)
  | .plain memory => .plain memory

def program (self : Region) (regionMap : MemoryMap) : Region :=
  match self with
  | .flash bank => .flash (bank.program regionMap)
  | .plain memory => .plain (memory.program regionMap)

end Region

def sortRegions (regions : List Region) : List Region :=
  regions.insertionSort fun front back => front.address ≤ back.address

/-- `Loadable.write` -/
def write (regions : List Region) (call : Call) : List Region :=
  let image := call.image.simplified
  (sortRegions (regions.map fun region => region.preProgram call)).map fun region =>
    let regionMap := image.within region.address (region.address + region.size)
    if regionMap.chunks = [] then region else region.program regionMap

/-! ### One call -/

/-- Every byte of the image in the region reads back. -/
def Region.Reads (region : Region) (image : MemoryMap) : Prop :=
  ∀ k value, k < region.size → lookup (region.address + k) image.chunks = some value → region.cells k = value

/-- What a flash has to be, for a byte of the image: erased to a value with its bits, unless the call leaves it as
it is, and then it has them already. -/
def Flash.Takes (self : Flash) (call : Call) (k : Nat) (value : UInt8) : Prop :=
  self.geometry.erasedValue &&& value = value ∧
    (call.doErase = true ∨ (self.isBlank = false ∧ call.assumeClean = false) ∨ self.cells k &&& value = value)

/-- The chunk of the image that starts last agrees with the one that is last, and a flash takes their byte. -/
def Region.Meets (region : Region) (call : Call) : Prop :=
  ∀ k value, k < region.size → lookup (region.address + k) call.image.chunks = some value →
    (topmost (region.address + k) call.image.chunks).bind (valueAt (region.address + k)) = some value ∧
      match region with
      | .flash bank => bank.Takes call k value
      | .plain _ => True

theorem Flash.preProgram_geometry (flash : Flash) (call : Call) : (flash.preProgram call).geometry = flash.geometry := by
  rw [preProgram]
  split <;> split <;> rfl

theorem Flash.takes_has {flash : Flash} {call : Call} {k : Nat} (inside : k < flash.geometry.size) {value : UInt8}
    (takes : flash.Takes call k value) : (flash.preProgram call).Has (flash.geometry.address + k) value := by
  obtain ⟨fills, ready⟩ := takes
  rw [Has, preProgram_geometry, show ((flash.geometry.address : Int) + k - flash.geometry.address).toNat = k by omega]
  refine ⟨fills, fun blank => ?_⟩
  rw [preProgram] at blank ⊢
  by_cases erased : call.doErase = true
  · have cell : flash.eraseAll.cells k = flash.geometry.erasedValue := by
      change (if 0 ≤ k ∧ k < 0 + flash.geometry.size then flash.geometry.erasedValue else flash.cells k) = _
      rw [if_pos (by omega)]
    rw [if_pos erased]
    split <;> exact (congrArg (· &&& value) cell).trans fills
  · rw [if_neg erased] at blank ⊢
    have kept : flash.cells k &&& value = value := by
      rcases ready with again | ⟨marked, dirty⟩ | kept
      · exact absurd again erased
      · rw [if_neg (by rw [dirty]; exact Bool.false_ne_true), marked] at blank
        cases blank
      · exact kept
    split <;> exact kept

theorem Plain.program_address (plain : Plain) (regionMap : MemoryMap) :
    (plain.program regionMap).address = plain.address ∧ (plain.program regionMap).size = plain.size := by
  rw [program]
  have kept : ∀ (chunks : List (Chunk UInt8)) (memory : Plain),
      (chunks.foldl (fun memory chunk => memory.write (chunk.1 - (plain.address : Int)).toNat chunk.2) memory).address =
        memory.address ∧
      (chunks.foldl (fun memory chunk => memory.write (chunk.1 - (plain.address : Int)).toNat chunk.2) memory).size =
        memory.size := by
    intro chunks
    induction chunks with
    | nil => exact fun memory => ⟨rfl, rfl⟩
    | cons chunk chunks ih => exact fun memory => ih _
  exact kept regionMap.chunks plain

theorem Plain.program_cells {plain : Plain} {regionMap : MemoryMap}
    (above : ∀ chunk ∈ regionMap.chunks, (plain.address : Int) ≤ chunk.1) (k : Nat) :
    (plain.program regionMap).cells k = (lookup (plain.address + k) regionMap.chunks).getD (plain.cells k) := by
  obtain ⟨chunks⟩ := regionMap
  have written : ∀ (chunks : List (Chunk UInt8)) (memory : Plain),
      (∀ chunk ∈ chunks, (plain.address : Int) ≤ chunk.1) →
      (chunks.foldl (fun memory chunk => memory.write (chunk.1 - (plain.address : Int)).toNat chunk.2) memory).cells k =
        (lookup (plain.address + k) chunks).getD (memory.cells k) := by
    intro chunks
    induction chunks with
    | nil => exact fun memory _ => rfl
    | cons chunk chunks ih =>
      intro memory above
      have low := above chunk List.mem_cons_self
      have here : (memory.write (chunk.1 - (plain.address : Int)).toNat chunk.2).cells k =
          (valueAt (plain.address + k) chunk).getD (memory.cells k) := by
        rw [valueAt]
        change (if (chunk.1 - (plain.address : Int)).toNat ≤ k then _ else _) = _
        by_cases behind : chunk.1 ≤ plain.address + k
        · rw [if_pos (by omega), if_pos behind]
          rw [show k - (chunk.1 - (plain.address : Int)).toNat = ((plain.address : Int) + k - chunk.1).toNat by omega]
        · rw [if_neg (by omega), if_neg behind]
          rfl
      rw [List.foldl_cons, ih _ fun chunk member => above chunk (List.mem_cons_of_mem _ member), here, lookup]
      cases lookup (plain.address + k) chunks <;> rfl
  exact written chunks plain above

/-- What `write` does to one region. -/
def Region.write (region : Region) (call : Call) : Region :=
  let ready := region.preProgram call
  let regionMap := call.image.simplified.within ready.address (ready.address + ready.size)
  if regionMap.chunks = [] then ready else ready.program regionMap

theorem mem_write {regions : List Region} {call : Call} {region : Region} :
    region ∈ Target.write regions call ↔ ∃ before ∈ regions, before.write call = region := by
  rw [Target.write, List.mem_map]
  constructor
  · rintro ⟨ready, member, same⟩
    obtain ⟨before, present, rfl⟩ := List.mem_map.mp ((List.mem_insertionSort _).mp member)
    exact ⟨before, present, same⟩
  · rintro ⟨before, present, same⟩
    exact ⟨before.preProgram call, (List.mem_insertionSort _).mpr (List.mem_map_of_mem present), same⟩

theorem Region.preProgram_place (region : Region) (call : Call) :
    (region.preProgram call).address = region.address ∧ (region.preProgram call).size = region.size := by
  cases region with
  | flash bank => exact ⟨congrArg Geometry.address (bank.preProgram_geometry call), congrArg Geometry.size (bank.preProgram_geometry call)⟩
  | plain memory => exact ⟨rfl, rfl⟩

theorem Region.program_place (region : Region) (regionMap : MemoryMap) :
    (region.program regionMap).address = region.address ∧ (region.program regionMap).size = region.size := by
  cases region with
  | flash bank => exact ⟨congrArg Geometry.address (bank.program_geometry regionMap), congrArg Geometry.size (bank.program_geometry regionMap)⟩
  | plain memory => exact memory.program_address regionMap

theorem Region.write_place (region : Region) (call : Call) :
    (region.write call).address = region.address ∧ (region.write call).size = region.size := by
  have ready := region.preProgram_place call
  rw [Region.write]
  split
  · exact ready
  · have programmed := (region.preProgram call).program_place
      (call.image.simplified.within (region.preProgram call).address
        ((region.preProgram call).address + (region.preProgram call).size))
    exact ⟨programmed.1.trans ready.1, programmed.2.trans ready.2⟩

theorem Region.Meets.reads {region : Region} {call : Call} (meets : region.Meets call) :
    (region.write call).Reads call.image := by
  have place := region.write_place call
  intro k value inside image
  rw [place.2] at inside
  rw [place.1] at image
  obtain ⟨top, takes⟩ := meets k value inside image
  have ready := region.preProgram_place call
  have clipped : lookup (region.address + k)
      (call.image.simplified.within region.address (region.address + region.size)).chunks = some value := by
    rw [MemoryMap.lookup_within ⟨by omega, by omega⟩, MemoryMap.lookup_simplified, lookup_sorted, top]
  have apart := MemoryMap.separated_within call.image.separated_simplified region.address (region.address + region.size)
  have above := fun chunk => @MemoryMap.within_above call.image.simplified region.address (region.address + region.size) chunk
  rw [Region.write, ready.1, ready.2]
  generalize call.image.simplified.within region.address (region.address + region.size) = regionMap at *
  split
  · rename_i nothing
    rw [nothing] at clipped
    cases clipped
  · cases region with
    | flash bank =>
      have geometry := bank.preProgram_geometry call
      have has := Flash.takes_has inside takes
      refine Flash.program_cells apart ?_ ?_ ?_
      · rw [geometry]
        exact above
      · rw [geometry]
        exact clipped
      · rw [geometry]
        exact has
    | plain memory =>
      refine (Plain.program_cells above k).trans ?_
      change lookup (memory.address + k) regionMap.chunks = some value at clipped
      rw [clipped]
      rfl

theorem lookup_spare {image : MemoryMap} {address size k : Nat} (inside : k < size)
    (spare : lookup (address + k) image.chunks = none) :
    lookup (address + k) (image.simplified.within address (address + size)).chunks = none := by
  rw [MemoryMap.lookup_within ⟨by omega, by omega⟩, MemoryMap.lookup_simplified]
  have same := lookup_sorted_isSome ((address : Int) + k) image.chunks
  rw [spare] at same
  exact Option.not_isSome_iff_eq_none.mp (by rw [same]; exact Bool.false_ne_true)

theorem Flash.preProgram_erased {flash : Flash} {call : Call} (erases : call.doErase = true) {k : Nat}
    (inside : k < flash.geometry.size) : (flash.preProgram call).cells k = flash.geometry.erasedValue := by
  have cell : flash.eraseAll.cells k = flash.geometry.erasedValue := if_pos ⟨Nat.zero_le k, by omega⟩
  rw [preProgram, if_pos erases]
  split <;> exact cell

/-- Where a call erases, a flash is left erased outside the image. -/
theorem Region.write_erased {flash : Flash} {call : Call} (erases : call.doErase = true) {k : Nat}
    (inside : k < flash.geometry.size) (spare : lookup (flash.geometry.address + k) call.image.chunks = none) :
    ((Region.flash flash).write call).cells k = flash.geometry.erasedValue := by
  have geometry := flash.preProgram_geometry call
  have erased := Flash.preProgram_erased erases inside
  have clipped := lookup_spare inside spare
  have above := fun chunk =>
    @MemoryMap.within_above call.image.simplified flash.geometry.address
      (flash.geometry.address + flash.geometry.size) chunk
  have ready := (Region.flash flash).preProgram_place call
  rw [Region.write, ready.1, ready.2]
  change (if (call.image.simplified.within flash.geometry.address
    (flash.geometry.address + flash.geometry.size)).chunks = [] then .flash (flash.preProgram call) else
      .flash ((flash.preProgram call).program (call.image.simplified.within flash.geometry.address
        (flash.geometry.address + flash.geometry.size))) : Region).cells k = _
  generalize call.image.simplified.within flash.geometry.address
    (flash.geometry.address + flash.geometry.size) = regionMap at above clipped ⊢
  split
  · exact erased
  · change ((flash.preProgram call).program regionMap).cells k = _
    rw [← geometry] at above clipped erased ⊢
    exact Flash.program_spares above clipped erased

theorem Region.write_kept {memory : Plain} {call : Call} {k : Nat} (inside : k < memory.size)
    (spare : lookup (memory.address + k) call.image.chunks = none) :
    ((Region.plain memory).write call).cells k = memory.cells k := by
  have clipped := lookup_spare inside spare
  have above := fun chunk =>
    @MemoryMap.within_above call.image.simplified memory.address (memory.address + memory.size) chunk
  change (if (call.image.simplified.within memory.address (memory.address + memory.size)).chunks = [] then
    .plain memory else .plain (memory.program _) : Region).cells k = _
  split
  · rfl
  · refine (Plain.program_cells above k).trans ?_
    rw [clipped]
    rfl

/-! ### Sessions -/

/-- Every call meets the condition in the state that the calls before it have left. -/
def AllMeet (regions : List Region) : List Call → Prop
  | [] => True
  | call :: calls => (∀ region ∈ regions, region.Meets call) ∧ AllMeet (write regions call) calls

/-- After every call, every byte of its image reads back. -/
def AllRead (regions : List Region) : List Call → Prop
  | [] => True
  | call :: calls => (∀ region ∈ write regions call, region.Reads call.image) ∧ AllRead (write regions call) calls

theorem allRead_of_allMeet {regions : List Region} {calls : List Call} (meet : AllMeet regions calls) :
    AllRead regions calls := by
  induction calls generalizing regions with
  | nil => trivial
  | cons call calls ih =>
    refine ⟨fun region member => ?_, ih meet.2⟩
    obtain ⟨before, present, rfl⟩ := mem_write.mp member
    exact (meet.1 before present).reads

/-- Two pages of eight bytes, with zeros in them. -/
def twoPages : Flash := ⟨⟨0, 16, 8, 8, 0xFF, ⟨3, rfl⟩, ⟨3, rfl⟩, by decide, by decide⟩, false, fun _ => 0⟩

/-- The first call erases, and the second one adds a byte to the page of the first. -/
def twoCalls : List Call :=
  [⟨⟨[(0, [0x12]), (2, [0x34])]⟩, true, false⟩, ⟨⟨[(1, [0x56]), (9, [0x78])]⟩, false, false⟩]

theorem allMeet_twoCalls : AllMeet [.flash twoPages] twoCalls := by
  refine ⟨fun region member => ?_, fun region member => ?_, trivial⟩
  · rw [List.mem_singleton.mp member]
    intro k value inside here
    change k < 16 at inside
    interval_cases k <;> cases here
    · exact ⟨rfl, rfl, .inl rfl⟩
    · exact ⟨rfl, rfl, .inl rfl⟩
  · obtain ⟨before, present, rfl⟩ := mem_write.mp member
    rw [List.mem_singleton.mp present]
    intro k value inside here
    change k < 16 at inside
    interval_cases k <;> cases here
    · exact ⟨rfl, rfl, .inr (.inr rfl)⟩
    · exact ⟨rfl, rfl, .inr (.inr rfl)⟩

theorem allRead_erased : AllRead [.flash twoPages] twoCalls := allRead_of_allMeet allMeet_twoCalls

/-- A second call finds the flash marked as blank, and does not erase what the first one has written. -/
theorem second_call_not_erased : ¬∀ (flash : Flash) (calls : List Call), (∀ call ∈ calls, call.assumeClean = false) →
    AllRead [.flash flash] calls := by
  intro all
  have read := all ⟨⟨0, 4, 4, 4, 0xFF, ⟨2, rfl⟩, ⟨2, rfl⟩, by decide, by decide⟩, false, fun _ => 0xFF⟩
    [⟨⟨[(0, [0x00])]⟩, true, false⟩, ⟨⟨[(0, [0xFF])]⟩, false, false⟩] (by decide)
  have here := read.2.1 _ (mem_write.mpr ⟨_, mem_write.mpr ⟨_, List.mem_singleton_self _, rfl⟩, rfl⟩) 0 0xFF
    (by decide) (by decide)
  revert here
  decide

end Acrobe.Target
