import Acrobe.Vfs.Ihex

/-!
# UF2

Blocks of 512 bytes, each with a payload and its address. The payloads of the main flash are coalesced into regions.
-/

namespace Acrobe.Vfs
open LittleEndian Overlay HexText

namespace Uf2

def magicStart0 : Nat := 0x0A324655

def magicStart1 : Nat := 0x9E5D5157

def magicEnd : Nat := 0x0AB16F30

def flagNotMainFlash : Nat := 1 <<< 0

def flagFamilyIdPresent : Nat := 1 <<< 13

def blockSize : Nat := 512

def maxPayload : Nat := 256

structure State where
  building : Building UInt8
  familyIds : List Nat

/-- The little-endian word at an offset. -/
def word (block : Bytes) (offset : Nat) : Nat := combine ((block.drop offset).take 4)

/-- `0x{value:08x}` of a word -/
def printed (value : Nat) : String := "0x" ++ String.ofList (hex (split value 4).reverse)

def failure (blockNo : Nat) (text : String) : ParseError :=
  .noMatch "uf2" ("block " ++ toString blockNo ++ ": " ++ text)

def State.take (self : State) (blockNo : Nat) (block : Bytes) : Except ParseError State :=
  let magic0 := word block 0
  let magic1 := word block 4
  let flags := word block 8
  let targetAddr := word block 12
  let payloadSize := word block 16
  let fileOrFamily := word block 28
  let magicLast := word block (block.length - 4)
  if magic0 ≠ magicStart0 ∨ magic1 ≠ magicStart1 then
    .error (failure blockNo ("magic start mismatch (got " ++ printed magic0 ++ " " ++ printed magic1 ++ ")"))
  else if magicLast ≠ magicEnd then
    .error (failure blockNo ("magic end mismatch (got " ++ printed magicLast ++ ")"))
  else if flags &&& flagNotMainFlash ≠ 0 then .ok self
  else
    let self := if flags &&& flagFamilyIdPresent ≠ 0 then { self with familyIds := self.familyIds.insert fileOrFamily } else self
    if maxPayload < payloadSize then
      .error (failure blockNo ("payload_size " ++ toString payloadSize ++ " > " ++ toString maxPayload))
    else
      let payload := (block.drop 32).take payloadSize
      .ok { self with building := self.building.add (targetAddr, payload) }

def parseBlocks (self : State) : List (Bytes × Nat) → Except ParseError State
  | [] => .ok self
  | (block, blockNo) :: blocks =>
    match self.take blockNo block with
    | .error error => .error error
    | .ok self => parseBlocks self blocks

def blocks (raw : Bytes) : List (Bytes × Nat) :=
  (List.range (raw.length / blockSize)).map fun blockNo => ((raw.drop (blockNo * blockSize)).take blockSize, blockNo)

/-- What `start` makes of a file. -/
structure Image where
  regions : List (Chunk UInt8)
  blockCount : Nat
  minAddress : Int
  maxAddress : Int
  familyIds : List Nat
  deriving DecidableEq

/-- `start`: whole blocks only, and some. -/
def load (raw : Bytes) : Except ParseError Image :=
  if raw.length % blockSize ≠ 0 then
    .error (.noMatch "uf2" ("file size " ++ toString raw.length ++ " not a multiple of " ++ toString blockSize))
  else if raw.length = 0 then .error (.noMatch "uf2" "empty file")
  else
    match parseBlocks ⟨.start, []⟩ (blocks raw) with
    | .error error => .error error
    | .ok state =>
      match state.building.flush with
      | [] => .error (.noMatch "uf2" "no payload blocks")
      | first :: rest =>
        .ok ⟨first :: rest, raw.length / blockSize, (rest.map (·.1)).foldl min first.1,
          (rest.map stop).foldl max (stop first), state.familyIds.insertionSort (· ≤ ·)⟩

/-! ### Payloads -/

/-- The payload of a block for the main flash. -/
def payload (block : Bytes) : Option (Chunk UInt8) :=
  if word block 8 &&& flagNotMainFlash ≠ 0 then none
  else some (word block 12, (block.drop 32).take (word block 16))

def payloads (raw : Bytes) : List (Chunk UInt8) := (blocks raw).filterMap fun block => payload block.1

theorem take_building {self after : State} {blockNo : Nat} {block : Bytes} (accepted : self.take blockNo block = .ok after) :
    after.building = match payload block with
      | none => self.building
      | some record => self.building.add record := by
  rw [State.take] at accepted
  rw [payload]
  dsimp only at accepted
  split at accepted
  · cases accepted
  · split at accepted
    · cases accepted
    · split at accepted
      · rename_i other
        cases accepted
        rw [if_pos other]
      · rename_i main
        rw [if_neg main]
        split at accepted
        · cases accepted
        · cases accepted
          split <;> rfl

theorem parseBlocks_building {self after : State} {blocks : List (Bytes × Nat)}
    (accepted : parseBlocks self blocks = .ok after) :
    after.building = (blocks.filterMap fun block => payload block.1).foldl Building.add self.building := by
  induction blocks generalizing self with
  | nil =>
    cases accepted
    rfl
  | cons numbered blocks ih =>
    obtain ⟨block, blockNo⟩ := numbered
    rw [parseBlocks] at accepted
    cases here : self.take blockNo block with
    | error error =>
      rw [here] at accepted
      cases accepted
    | ok next =>
      rw [here] at accepted
      rw [ih accepted, take_building here, List.filterMap_cons]
      cases payload block <;> rfl

theorem load_regions {raw : Bytes} {image : Image} (accepted : load raw = .ok image) :
    image.regions = ((payloads raw).foldl Building.add .start).flush := by
  rw [load] at accepted
  split at accepted
  · cases accepted
  · split at accepted
    · cases accepted
    · cases whole : parseBlocks ⟨.start, []⟩ (blocks raw) with
      | error error =>
        rw [whole] at accepted
        cases accepted
      | ok state =>
        have building := parseBlocks_building whole
        rw [whole] at accepted
        dsimp only at accepted
        split at accepted
        · cases accepted
        · rename_i first rest regions
          cases accepted
          rw [payloads, ← building, regions]

end Uf2

/-! ### Both formats -/

/-- The regions have the picture that the records leave one after the other, and none joins records that are apart. -/
theorem regions_coalesced :
    (∀ raw regions entry, Ihex.parse (Ihex.decode raw) = .ok (regions, entry) →
      (∀ a, lookup a regions = written (Ihex.records (Ihex.decode raw)) a) ∧
        Coalesced (Ihex.records (Ihex.decode raw)) regions) ∧
    ∀ raw image, Uf2.load raw = .ok image →
      (∀ a, lookup a image.regions = written (Uf2.payloads raw) a) ∧ Coalesced (Uf2.payloads raw) image.regions := by
  constructor
  · intro raw regions entry accepted
    rw [Ihex.parse_regions accepted]
    refine ⟨fun a => ?_, coalesced_regions _⟩
    rw [lookup_regions, ← lookup_eq_written]
    exact Option.or_none
  · intro raw image accepted
    rw [Uf2.load_regions accepted]
    refine ⟨fun a => ?_, coalesced_regions _⟩
    rw [lookup_regions, ← lookup_eq_written]
    exact Option.or_none

/-- Five lines: two adjacent records, one apart, one that overlaps the first two, and the end. -/
def hexSample : Bytes :=
  [58, 48, 50, 48, 48, 48, 48, 48, 48, 52, 49, 52, 50, 55, 66, 10, 58, 48, 50, 48, 48, 48, 50, 48, 48, 52, 51, 52, 52, 55,
    53, 10, 58, 48, 49, 48, 48, 48, 56, 48, 48, 53, 48, 65, 55, 10, 58, 48, 49, 48, 48, 48, 49, 48, 48, 54, 48, 57, 69, 10,
    58, 48, 48, 48, 48, 48, 48, 48, 49, 70, 70, 10]

/-- A block for the main flash. -/
def uf2Block (addr : UInt8) (data : Bytes) : Bytes :=
  split Uf2.magicStart0 4 ++ split Uf2.magicStart1 4 ++ [0, 0, 0, 0, addr, 0, 0, 0] ++ split data.length 4 ++
    List.replicate 12 0 ++ data ++ List.replicate (476 - data.length) 0 ++ split Uf2.magicEnd 4

/-- The payloads of the last two blocks are adjacent, and overlap that of the first. -/
def uf2Sample : Bytes := uf2Block 2 [1, 2, 3] ++ uf2Block 0 [4, 5, 6] ++ uf2Block 3 [7]

theorem load_uf2Sample : Uf2.load uf2Sample = .ok ⟨[(2, [1, 2, 3]), (0, [4, 5, 6, 7])], 3, 0, 5, []⟩ := by decide +kernel

theorem regions_coalesced_overlapping :
    ((∀ a, lookup a [(0, [0x41, 0x42, 0x43, 0x44]), (8, [0x50]), (1, [0x60])] =
          written (Ihex.records (Ihex.decode hexSample)) a) ∧
        Coalesced (Ihex.records (Ihex.decode hexSample)) [(0, [0x41, 0x42, 0x43, 0x44]), (8, [0x50]), (1, [0x60])]) ∧
      (∀ a, lookup a [(2, [1, 2, 3]), (0, [4, 5, 6, 7])] = written (Uf2.payloads uf2Sample) a) ∧
        Coalesced (Uf2.payloads uf2Sample) [(2, [1, 2, 3]), (0, [4, 5, 6, 7])] :=
  ⟨regions_coalesced.1 hexSample _ none rfl, regions_coalesced.2 uf2Sample _ load_uf2Sample⟩

end Acrobe.Vfs
