import Mathlib
import Acrobe.Lib.LittleEndian

/-!
# Erasing a SPI flash

`SpiFlash.erase` takes the largest sector that begins at the address and fits, and the first sector of the table when
none fits. It erases the cover of a range by the smallest sectors only if the range ends with such a sector, or the
table begins with one.
-/

namespace Acrobe.Memory.SpiFlash
open LittleEndian

structure Sector where
  size : Nat
  cmd : Bytes
  deriving DecidableEq

inductive EraseError where
  | indexError
  | assertionError
  | overflowError
  deriving DecidableEq

/-- An erase command that the flash got: the address and the sector. -/
structure Erased where
  addr : Nat
  size : Nat

/-- The order of `sorted(..., reverse=True)` on pairs of a size and a command. -/
def Descending (first second : Sector) : Prop :=
  second.size < first.size ∨ second.size = first.size ∧ second.cmd.map UInt8.toNat ≤ first.cmd.map UInt8.toNat

instance : DecidableRel Descending := fun _ _ => instDecidableOr

/-- The largest sector that fits, or the first one of the table. -/
def choose (sectorInfo : List Sector) (addr size : Nat) : Except EraseError Sector :=
  match (sectorInfo.insertionSort Descending).find? fun sector => addr % sector.size = 0 ∧ sector.size ≤ size with
  | some sector => .ok sector
  | none =>
    match sectorInfo with
    | [] => .error .indexError
    | first :: _ => if addr % first.size = 0 then .ok first else .error .assertionError

def addressSize : Nat := 3

/-- `erase`: nothing while it is running, then the sectors that it erased or the exception. -/
def erase (sectorInfo : List Sector) : Nat → Nat → Nat → Option (Except EraseError (List Erased))
  | 0, _, _ => none
  | fuel + 1, addr, size =>
    if size = 0 then some (.ok [])
    else
      match choose sectorInfo addr size with
      | .error error => some (.error error)
      | .ok sector =>
        if 256 ^ addressSize ≤ addr then some (.error .overflowError)
        else (erase sectorInfo fuel (addr + sector.size) (size - sector.size)).map fun result =>
          result.map (⟨addr, sector.size⟩ :: ·)

/-! ### Tables -/

/-- A table of sector sizes that are powers of two, with the smallest one. -/
structure Table (sectorInfo : List Sector) (first : Sector) (smallest : Nat) : Prop where
  head : sectorInfo.head? = some first
  powers : ∀ sector ∈ sectorInfo, ∃ k, sector.size = 2 ^ k
  member : ∃ sector ∈ sectorInfo, sector.size = smallest
  least : ∀ sector ∈ sectorInfo, smallest ≤ sector.size

def Erased.span (erased : Erased) : Set Nat := Set.Ico erased.addr (erased.addr + erased.size)

/-- The sectors erased are the cover of the range by sectors of the smallest size. -/
def Covers (addr size smallest : Nat) (result : Except EraseError (List Erased)) : Prop :=
  ∃ sectors, result = .ok sectors ∧
    ⋃ erased ∈ sectors, erased.span = Set.Ico addr ((addr + size + smallest - 1) / smallest * smallest)

instance : Std.Total Descending where
  total first second := by
    unfold Descending
    obtain less | same | more := Nat.lt_trichotomy first.size second.size
    · exact Or.inr (Or.inl less)
    · obtain low | high := le_total (second.cmd.map UInt8.toNat) (first.cmd.map UInt8.toNat)
      · exact Or.inl (Or.inr ⟨same.symm, low⟩)
      · exact Or.inr (Or.inr ⟨same, high⟩)
    · exact Or.inl (Or.inl more)

instance : IsTrans Sector Descending where
  trans first second third := by
    unfold Descending
    intro above below
    obtain less | ⟨same, low⟩ := above
    · left
      obtain further | ⟨equal, -⟩ := below <;> omega
    · obtain further | ⟨equal, lower⟩ := below
      · left
        omega
      · exact Or.inr ⟨equal.trans same, lower.trans low⟩

variable {sectorInfo : List Sector} {first : Sector} {smallest : Nat}

theorem two_pow_dvd {m n : Nat} (first : ∃ k, m = 2 ^ k) (second : ∃ k, n = 2 ^ k) (le : m ≤ n) : m ∣ n := by
  obtain ⟨j, rfl⟩ := first
  obtain ⟨k, rfl⟩ := second
  exact Nat.pow_dvd_pow 2 ((Nat.pow_le_pow_iff_right (by decide)).mp le)

namespace Table

theorem power (table : Table sectorInfo first smallest) : ∃ k, smallest = 2 ^ k := by
  obtain ⟨sector, member, rfl⟩ := table.member
  exact table.powers sector member

theorem positive (table : Table sectorInfo first smallest) : 0 < smallest := by
  obtain ⟨k, rfl⟩ := table.power
  exact Nat.two_pow_pos k

theorem dvd (table : Table sectorInfo first smallest) {sector : Sector} (member : sector ∈ sectorInfo) :
    smallest ∣ sector.size := two_pow_dvd table.power (table.powers sector member) (table.least sector member)

theorem first_member (table : Table sectorInfo first smallest) : first ∈ sectorInfo := List.mem_of_head? table.head

/-- Some sector begins at an aligned address and fits: the largest one is chosen. -/
theorem choose_fits (table : Table sectorInfo first smallest) {addr size : Nat} (aligned : smallest ∣ addr)
    (large : smallest ≤ size) :
    ∃ sector ∈ sectorInfo, choose sectorInfo addr size = .ok sector ∧ sector.size ∣ addr ∧ sector.size ≤ size ∧
      ∀ other ∈ sectorInfo, other.size ∣ addr → other.size ≤ size → other.size ≤ sector.size := by
  unfold choose
  cases found : (sectorInfo.insertionSort Descending).find? fun sector => addr % sector.size = 0 ∧ sector.size ≤ size with
  | none =>
    obtain ⟨sector, member, rfl⟩ := table.member
    have missing := List.find?_eq_none.mp found sector ((List.mem_insertionSort Descending).mpr member)
    rw [decide_eq_true_eq] at missing
    exact absurd ⟨Nat.mod_eq_zero_of_dvd aligned, large⟩ missing
  | some sector =>
    obtain ⟨fits, front, back, sorted, before⟩ := List.find?_eq_some_iff_append.mp found
    rw [decide_eq_true_eq] at fits
    have member : sector ∈ sectorInfo := (List.mem_insertionSort Descending).mp (List.mem_of_find?_eq_some found)
    refine ⟨sector, member, rfl, Nat.dvd_of_mod_eq_zero fits.1, fits.2, ?_⟩
    intro other present begins small
    have inside : other ∈ front ++ sector :: back := by
      rw [← sorted]
      exact (List.mem_insertionSort Descending).mpr present
    have ordered := List.pairwise_insertionSort Descending sectorInfo
    rw [sorted] at ordered
    obtain here | behind := List.mem_append.mp inside
    · have passed := before other here
      rw [Bool.not_eq_true', decide_eq_false_iff_not] at passed
      exact absurd ⟨Nat.mod_eq_zero_of_dvd begins, small⟩ passed
    · obtain rfl | behind := List.mem_cons.mp behind
      · exact Nat.le_refl _
      · have above := (List.pairwise_cons.mp (List.pairwise_append.mp ordered).2.1).1 other behind
        unfold Descending at above
        omega

/-- No sector fits a tail that is smaller than the smallest one: the first sector is taken. -/
theorem choose_tail (table : Table sectorInfo first smallest) (addr : Nat) {size : Nat} (small : size < smallest) :
    choose sectorInfo addr size = if addr % first.size = 0 then .ok first else .error .assertionError := by
  unfold choose
  cases found : (sectorInfo.insertionSort Descending).find? fun sector => addr % sector.size = 0 ∧ sector.size ≤ size with
  | some sector =>
    have fits := List.find?_some found
    rw [decide_eq_true_eq] at fits
    have member : sector ∈ sectorInfo := (List.mem_insertionSort Descending).mp (List.mem_of_find?_eq_some found)
    have least := table.least sector member
    omega
  | none =>
    have head := table.head
    cases sectorInfo with
    | nil => cases head
    | cons entry rest =>
      obtain rfl : entry = first := Option.some.inj head
      rfl

end Table

/-! ### Runs -/

/-- The result with enough fuel. -/
def Erases (sectorInfo : List Sector) (addr size : Nat) (result : Except EraseError (List Erased)) : Prop :=
  ∀ fuel, size < fuel → erase sectorInfo fuel addr size = some result

variable {addr size : Nat}

theorem erases_zero (addr : Nat) : Erases sectorInfo addr 0 (.ok []) := by
  intro fuel enough
  obtain ⟨fuel, rfl⟩ : ∃ n, fuel = n + 1 := ⟨fuel - 1, by omega⟩
  rw [erase, if_pos rfl]

theorem erases_error {error : EraseError} (some_ : 0 < size) (chosen : choose sectorInfo addr size = .error error) :
    Erases sectorInfo addr size (.error error) := by
  intro fuel enough
  obtain ⟨fuel, rfl⟩ : ∃ n, fuel = n + 1 := ⟨fuel - 1, by omega⟩
  rw [erase, if_neg (by omega), chosen]

theorem erases_overflow {sector : Sector} (some_ : 0 < size) (chosen : choose sectorInfo addr size = .ok sector)
    (beyond : 256 ^ addressSize ≤ addr) : Erases sectorInfo addr size (.error .overflowError) := by
  intro fuel enough
  obtain ⟨fuel, rfl⟩ : ∃ n, fuel = n + 1 := ⟨fuel - 1, by omega⟩
  rw [erase, if_neg (by omega), chosen]
  dsimp only
  rw [if_pos beyond]

theorem erases_step {sector : Sector} {result : Except EraseError (List Erased)} (some_ : 0 < size)
    (chosen : choose sectorInfo addr size = .ok sector) (positive : 0 < sector.size) (within : addr < 256 ^ addressSize)
    (rest : Erases sectorInfo (addr + sector.size) (size - sector.size) result) :
    Erases sectorInfo addr size (result.map (⟨addr, sector.size⟩ :: ·)) := by
  intro fuel enough
  obtain ⟨fuel, rfl⟩ : ∃ n, fuel = n + 1 := ⟨fuel - 1, by omega⟩
  rw [erase, if_neg (by omega), chosen]
  dsimp only
  rw [if_neg (by omega), rest fuel (by omega)]
  rfl

/-- The size of the sector that the tail of a range is erased with. -/
def tail (size smallest last : Nat) : Nat := if size % smallest = 0 then 0 else last

/-- The addresses of the sectors have three bytes. -/
def Fits (sectorInfo : List Sector) (smallest addr size : Nat) : Prop :=
  addr + size ≤ 256 ^ addressSize ∨ addr = 0 ∧ ((∃ sector ∈ sectorInfo, sector.size = size) ∨ size < smallest)

theorem sector_within {size addr : Nat} (power : ∃ k, size = 2 ^ k) (begins : size ∣ addr)
    (within : addr < 256 ^ addressSize) : addr + size ≤ 256 ^ addressSize ∨ addr = 0 := by
  by_cases large : size ≤ 256 ^ addressSize
  · left
    obtain ⟨j, same⟩ := two_pow_dvd power ⟨24, by decide⟩ large
    obtain ⟨k, rfl⟩ := begins
    rw [same] at within ⊢
    have less : k < j := Nat.lt_of_mul_lt_mul_left within
    calc size * k + size = size * (k + 1) := (Nat.mul_succ size k).symm
      _ ≤ size * j := Nat.mul_le_mul_left size less
  · right
    exact Nat.eq_zero_of_dvd_of_lt begins (by omega)

/-- What a run erases, and when it comes to an end without an exception. -/
structure Outcome (sectorInfo : List Sector) (first : Sector) (smallest addr size : Nat)
    (result : Except EraseError (List Erased)) : Prop where
  erases : Erases sectorInfo addr size result
  union : ∀ sectors, result = .ok sectors → ⋃ erased ∈ sectors, erased.span =
    Set.Ico addr (addr + (size - size % smallest) + tail size smallest first.size)
  ends : 0 < size → size % smallest = 0 ∨ first.size = smallest →
    ((∃ sectors, result = .ok sectors) ↔ Fits sectorInfo smallest addr size)

theorem outcome_zero (addr : Nat) : Outcome sectorInfo first smallest addr 0 (.ok []) where
  erases := erases_zero addr
  union := by
    intro sectors same
    obtain rfl := Except.ok.inj same
    simp [tail]
  ends := fun positive => absurd positive (Nat.lt_irrefl 0)

theorem not_fits (positive : 0 < size) (beyond : 256 ^ addressSize ≤ addr) : ¬Fits sectorInfo smallest addr size := by
  have large : 0 < 256 ^ addressSize := by decide
  intro fits
  obtain below | ⟨zero, -⟩ := fits <;> omega

theorem outcome_error {error : EraseError} (erases : Erases sectorInfo addr size (.error error))
    (raises : size % smallest = 0 ∨ first.size = smallest → ¬Fits sectorInfo smallest addr size) :
    Outcome sectorInfo first smallest addr size (.error error) where
  erases := erases
  union := nofun
  ends := by
    intro positive last
    exact iff_of_false nofun (raises last)

theorem outcome_fits (table : Table sectorInfo first smallest) {sector : Sector} {result : Except EraseError (List Erased)}
    (some_ : 0 < size) (member : sector ∈ sectorInfo) (chosen : choose sectorInfo addr size = .ok sector)
    (begins : sector.size ∣ addr) (fits : sector.size ≤ size)
    (largest : ∀ other ∈ sectorInfo, other.size ∣ addr → other.size ≤ size → other.size ≤ sector.size)
    (within : addr < 256 ^ addressSize)
    (rest : Outcome sectorInfo first smallest (addr + sector.size) (size - sector.size) result) :
    Outcome sectorInfo first smallest addr size (result.map (⟨addr, sector.size⟩ :: ·)) := by
  have positive : 0 < sector.size := Nat.lt_of_lt_of_le table.positive (table.least sector member)
  obtain ⟨k, multiple⟩ := table.dvd member
  have same : (size - sector.size) % smallest = size % smallest := by
    rw [multiple] at fits ⊢
    exact Nat.sub_mul_mod fits
  have low : (size - sector.size) % smallest ≤ size - sector.size := Nat.mod_le _ _
  refine ⟨erases_step some_ chosen positive within rest.erases, ?_, ?_⟩
  · intro sectors equal
    cases result with
    | error error => cases equal
    | ok later =>
      obtain rfl : ⟨addr, sector.size⟩ :: later = sectors := Except.ok.inj equal
      have union := rest.union later rfl
      have last : tail (size - sector.size) smallest first.size = tail size smallest first.size := by
        unfold tail
        rw [same]
      have stop : addr + sector.size + (size - sector.size - (size - sector.size) % smallest) +
          tail (size - sector.size) smallest first.size =
          addr + (size - size % smallest) + tail size smallest first.size := by
        rw [last, same]
        omega
      rw [stop] at union
      have inside : addr + sector.size ≤ addr + (size - size % smallest) + tail size smallest first.size := by omega
      simp only [List.mem_cons, Set.iUnion_iUnion_eq_or_left]
      rw [union, Erased.span, Set.Ico_union_Ico_eq_Ico (Nat.le_add_right ..) inside]
  · intro _ last
    have mapped : (∃ sectors, result.map (⟨addr, sector.size⟩ :: ·) = .ok sectors) ↔ ∃ sectors, result = .ok sectors := by
      cases result with
      | error error => exact iff_of_false nofun nofun
      | ok later => exact iff_of_true ⟨_, rfl⟩ ⟨_, rfl⟩
    rw [mapped]
    by_cases done : size - sector.size = 0
    · have only : result = .ok [] := by
        have first := rest.erases 1 (by omega)
        rw [done, erase, if_pos rfl] at first
        exact (Option.some.inj first).symm
      have whole : sector.size = size := by omega
      refine iff_of_true ⟨_, only⟩ ?_
      obtain below | zero := sector_within (table.powers sector member) begins within
      · exact Or.inl (by omega)
      · exact Or.inr ⟨zero, Or.inl ⟨sector, member, whole⟩⟩
    · rw [rest.ends (by omega) (by rwa [same])]
      have large : smallest ≤ size := (table.least sector member).trans fits
      constructor
      · intro later
        obtain below | ⟨zero, -⟩ := later
        · exact Or.inl (by omega)
        · omega
      · intro here
        obtain below | ⟨rfl, single | small⟩ := here
        · exact Or.inl (by omega)
        · obtain ⟨other, present, exact_⟩ := single
          have above := largest other present (Nat.dvd_zero _) (by omega)
          omega
        · omega

theorem outcome_tail (table : Table sectorInfo first smallest) (some_ : 0 < size) (small : size < smallest)
    (aligned : smallest ∣ addr) : ∃ result, Outcome sectorInfo first smallest addr size result := by
  have chosen := table.choose_tail addr small
  have rest : size % smallest = size := Nat.mod_eq_of_lt small
  have positive : 0 < first.size := Nat.lt_of_lt_of_le table.positive (table.least first table.first_member)
  by_cases begins : addr % first.size = 0
  · rw [if_pos begins] at chosen
    by_cases beyond : 256 ^ addressSize ≤ addr
    · exact ⟨_, outcome_error (erases_overflow some_ chosen beyond) fun _ => not_fits some_ beyond⟩
    · have within : addr < 256 ^ addressSize := Nat.lt_of_not_le beyond
      have least := table.least first table.first_member
      have done : Erases sectorInfo (addr + first.size) (size - first.size) (.ok []) := by
        rw [Nat.sub_eq_zero_of_le (by omega)]
        exact erases_zero _
      refine ⟨_, erases_step some_ chosen positive within done, ?_, ?_⟩
      · intro sectors equal
        obtain rfl : [⟨addr, first.size⟩] = sectors := Except.ok.inj equal
        have last : tail size smallest first.size = first.size := if_neg (by omega)
        simp [Erased.span, rest, last]
      · intro _ last
        have equal : first.size = smallest := by
          obtain none | same := last
          · omega
          · exact same
        refine iff_of_true ⟨_, rfl⟩ ?_
        obtain below | zero := sector_within table.power aligned within
        · exact Or.inl (by omega)
        · exact Or.inr ⟨zero, Or.inr small⟩
  · rw [if_neg begins] at chosen
    refine ⟨_, outcome_error (erases_error some_ chosen) ?_⟩
    intro last
    obtain none | same := last
    · omega
    · rw [same] at begins
      exact absurd (Nat.mod_eq_zero_of_dvd aligned) begins

theorem outcome_exists (table : Table sectorInfo first smallest) (addr size : Nat) (aligned : smallest ∣ addr) :
    ∃ result, Outcome sectorInfo first smallest addr size result := by
  induction size using Nat.strongRecOn generalizing addr with
  | ind size ih =>
    by_cases none : size = 0
    · rw [none]
      exact ⟨_, outcome_zero addr⟩
    · by_cases small : size < smallest
      · exact outcome_tail table (by omega) small aligned
      · obtain ⟨sector, member, chosen, begins, fits, largest⟩ := table.choose_fits aligned (Nat.le_of_not_lt small)
        by_cases beyond : 256 ^ addressSize ≤ addr
        · exact ⟨_, outcome_error (erases_overflow (by omega) chosen beyond) fun _ => not_fits (by omega) beyond⟩
        · have positive : 0 < sector.size := Nat.lt_of_lt_of_le table.positive (table.least sector member)
          obtain ⟨result, rest⟩ := ih (size - sector.size) (by omega) (addr + sector.size)
            (Nat.dvd_add aligned (table.dvd member))
          exact ⟨_, outcome_fits table (by omega) member chosen begins fits largest (Nat.lt_of_not_le beyond) rest⟩

/-! ### Covers -/

theorem round_up (positive : 0 < smallest) (aligned : smallest ∣ addr) (size : Nat) :
    (addr + size + smallest - 1) / smallest * smallest = addr + (size - size % smallest) + tail size smallest smallest := by
  obtain ⟨k, rfl⟩ := aligned
  have split := Nat.div_add_mod size smallest
  have low := Nat.mod_lt size positive
  have part : size - size % smallest = smallest * (size / smallest) := by omega
  rw [part, ← Nat.mul_add]
  unfold tail
  by_cases whole : size % smallest = 0
  · have sum : smallest * k + size + smallest - 1 = smallest * (k + size / smallest) + (smallest - 1) := by
      rw [Nat.mul_add]
      omega
    have rest : (smallest - 1) / smallest = 0 := Nat.div_eq_of_lt (by omega)
    rw [if_pos whole, sum, Nat.mul_add_div positive, rest, Nat.add_zero, Nat.add_zero, Nat.mul_comm]
  · have sum : smallest * k + size + smallest - 1 = smallest * (k + size / smallest + 1) + (size % smallest - 1) := by
      rw [Nat.mul_add, Nat.mul_add]
      omega
    have rest : (size % smallest - 1) / smallest = 0 := Nat.div_eq_of_lt (by omega)
    rw [if_neg whole, sum, Nat.mul_add_div positive, rest, Nat.add_zero, Nat.mul_comm, Nat.mul_add, Nat.mul_one]

/-- The run ends, and it erases the cover of the range if and only if the range ends with a sector of the smallest size
or the table begins with one, and the addresses have three bytes. -/
theorem erase_covers_iff (table : Table sectorInfo first smallest) (addr size : Nat) (aligned : smallest ∣ addr)
    (some_ : 0 < size) :
    ∃ result, Erases sectorInfo addr size result ∧
      (Covers addr size smallest result ↔
        (size % smallest = 0 ∨ first.size = smallest) ∧ Fits sectorInfo smallest addr size) := by
  obtain ⟨result, erases, union, ends⟩ := outcome_exists table addr size aligned
  refine ⟨result, erases, ?_⟩
  have positive := table.positive
  have low := Nat.mod_lt size positive
  have cover := round_up positive aligned size
  constructor
  · intro covers
    obtain ⟨sectors, same, covered⟩ := covers
    rw [union sectors same, cover] at covered
    have last : size % smallest = 0 ∨ first.size = smallest := by
      by_contra neither
      obtain ⟨rest, other⟩ := not_or.mp neither
      have nonempty : addr < addr + (size - size % smallest) + tail size smallest smallest := by
        unfold tail
        rw [if_neg rest]
        omega
      have least := table.least first table.first_member
      have ends : addr < addr + (size - size % smallest) + tail size smallest first.size := by
        unfold tail
        rw [if_neg rest]
        omega
      have equal := ((Set.Ico_eq_Ico_iff (Or.inl ends)).mp covered).2
      unfold tail at equal
      rw [if_neg rest, if_neg rest] at equal
      omega
    exact ⟨last, (ends some_ last).mp ⟨sectors, same⟩⟩
  · intro both
    obtain ⟨last, fits⟩ := both
    obtain ⟨sectors, same⟩ := (ends some_ last).mpr fits
    refine ⟨sectors, same, ?_⟩
    rw [union sectors same, cover]
    have equal : tail size smallest first.size = tail size smallest smallest := by
      unfold tail
      obtain whole | same := last
      · rw [if_pos whole, if_pos whole]
      · rw [same]
    rw [equal]

/-- The table that `detect` falls back to. -/
def defaultSectors : List Sector := [⟨4096, [0x20]⟩, ⟨65536, [0xd8]⟩]

theorem default_table : Table defaultSectors ⟨4096, [0x20]⟩ 4096 where
  head := rfl
  powers := by
    intro sector member
    obtain rfl | rfl : sector = ⟨4096, [0x20]⟩ ∨ sector = ⟨65536, [0xd8]⟩ := by simpa [defaultSectors] using member
    · exact ⟨12, by decide⟩
    · exact ⟨16, by decide⟩
  member := ⟨⟨4096, [0x20]⟩, List.mem_cons_self .., rfl⟩
  least := by decide

theorem erase_covers_default :
    ∃ result, Erases defaultSectors 4096 5000 result ∧
      (Covers 4096 5000 4096 result ↔
        (5000 % 4096 = 0 ∨ 4096 = 4096) ∧ Fits defaultSectors 4096 4096 5000) :=
  erase_covers_iff default_table 4096 5000 (Nat.dvd_refl 4096) (by decide)

/-- The other order of the same two sizes: the tail erases a block of 64 KiB, not the sector of 4 KiB. -/
theorem erase_tail_block :
    Table [⟨65536, [0xd8]⟩, ⟨4096, [0x20]⟩] ⟨65536, [0xd8]⟩ 4096 ∧
      Erases [⟨65536, [0xd8]⟩, ⟨4096, [0x20]⟩] 0 904 (.ok [⟨0, 65536⟩]) ∧
      ¬Covers 0 904 4096 (.ok [⟨0, 65536⟩]) := by
  refine ⟨⟨rfl, ?_, ⟨⟨4096, [0x20]⟩, by decide, rfl⟩, by decide⟩, ?_, ?_⟩
  · intro sector member
    obtain ⟨-, powers, -, -⟩ := default_table
    exact powers sector (by simpa [defaultSectors, or_comm] using member)
  · have chosen : choose [⟨65536, [0xd8]⟩, ⟨4096, [0x20]⟩] 0 904 = .ok ⟨65536, [0xd8]⟩ := by decide
    have rest : Erases [⟨65536, [0xd8]⟩, ⟨4096, [0x20]⟩] (0 + 65536) (904 - 65536) (.ok []) := erases_zero _
    exact erases_step (by decide) chosen (by decide) (by decide) rest
  · intro covers
    obtain ⟨sectors, same, covered⟩ := covers
    obtain rfl := Except.ok.inj same
    have outside : (8192 : Nat) ∈ Set.Ico 0 ((0 + 904 + 4096 - 1) / 4096 * 4096) := by
      rw [← covered]
      simp [Erased.span]
    exact absurd outside (by simp)

end Acrobe.Memory.SpiFlash
