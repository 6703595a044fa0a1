import Acrobe.Lib.Overlay

/-!
# Coalescing

Records that come one after the other are put together into regions, as long as each starts where the one before it
ends. A region without data is dropped.
-/

namespace Overlay

variable {β : Type}

/-- The regions that are complete, and the one that still grows. -/
structure Building (β : Type) where
  regions : List (Chunk β)
  current : Option (Chunk β)

/-- A region is made of the records of a run: each starts where the region of those before it ends. -/
inductive Run : List (Chunk β) → Chunk β → Prop
  | single (record : Chunk β) : Run [record] record
  | more {records : List (Chunk β)} {region record : Chunk β} (run : Run records region)
      (adjoins : record.1 = stop region) : Run (records ++ [record]) (region.1, region.2 ++ record.2)

/-- The records fall into runs, and the regions are those of the runs that have data. -/
def Coalesced (records regions : List (Chunk β)) : Prop :=
  ∃ runs : List (List (Chunk β) × Chunk β), (∀ run ∈ runs, Run run.1 run.2) ∧ (runs.map (·.1)).flatten = records ∧
    regions = (runs.map (·.2)).filter fun region => !region.2.isEmpty

/-- What a memory holds once the records have been written to it one after the other. -/
def written (records : List (Chunk β)) : Int → Option β :=
  records.foldl (fun memory record a => (valueAt a record).or (memory a)) fun _ => none

namespace Building

def start : Building β := ⟨[], none⟩

def flush (self : Building β) : List (Chunk β) :=
  match self.current with
  | none => self.regions
  | some current => if current.2 = [] then self.regions else self.regions ++ [current]

def add (self : Building β) (record : Chunk β) : Building β :=
  match self.current with
  | none => ⟨self.regions, some record⟩
  | some current =>
    if record.1 = stop current then ⟨self.regions, some (current.1, current.2 ++ record.2)⟩
    else ⟨self.flush, some record⟩

end Building

/-! ### Values -/

theorem foldl_written (records : List (Chunk β)) (memory : Int → Option β) (a : Int) :
    records.foldl (fun memory record a => (valueAt a record).or (memory a)) memory a =
      (lookup a records).or (memory a) := by
  induction records generalizing memory with
  | nil => rw [lookup, Option.none_or]; rfl
  | cons record records ih => rw [List.foldl_cons, ih, lookup, Option.or_assoc]

theorem lookup_eq_written (records : List (Chunk β)) (a : Int) : lookup a records = written records a := by
  rw [written, foldl_written, Option.or_none]

theorem valueAt_append (a first : Int) (front back : List β) :
    valueAt a (first, front ++ back) = (valueAt a (first + front.length, back)).or (valueAt a (first, front)) := by
  by_cases behind : first + front.length ≤ a
  · have beyond : valueAt a (first, front) = none := by
      rw [valueAt_eq_none, Covers, stop]
      dsimp only
      omega
    rw [beyond, Option.or_none, valueAt, valueAt]
    dsimp only
    rw [if_pos (by omega), if_pos behind, List.getElem?_append_right (by omega)]
    congr 1
    omega
  · rw [valueAt, valueAt, valueAt]
    dsimp only
    rw [if_neg behind, Option.none_or]
    split
    · exact List.getElem?_append_left (by omega)
    · rfl

theorem valueAt_nil (a first : Int) : valueAt a (first, ([] : List β)) = none := by
  rw [valueAt_eq_none, Covers, stop]
  dsimp only [List.length_nil]
  omega

/-! ### Adding a record -/

theorem lookup_flush (self : Building β) (a : Int) :
    lookup a self.flush = ((self.current.bind (valueAt a)).or (lookup a self.regions)) := by
  obtain ⟨regions, current⟩ := self
  cases current with
  | none => rfl
  | some current =>
    rw [Building.flush]
    dsimp only
    split
    · rename_i empty
      obtain ⟨first, data⟩ := current
      cases empty
      rw [Option.bind_some, valueAt_nil, Option.none_or]
    · rw [lookup_append, lookup, lookup, Option.none_or, Option.bind_some]

theorem lookup_add (self : Building β) (record : Chunk β) (a : Int) :
    lookup a (self.add record).flush = (valueAt a record).or (lookup a self.flush) := by
  rw [lookup_flush, lookup_flush]
  obtain ⟨regions, current⟩ := self
  rw [Building.add]
  cases current with
  | none => rfl
  | some current =>
    dsimp only
    split
    · rename_i adjoins
      rw [Option.bind_some, Option.bind_some, valueAt_append, ← Option.or_assoc, ← stop, ← adjoins]
    · rw [lookup_flush]
      rfl

theorem lookup_regions (records : List (Chunk β)) (self : Building β) (a : Int) :
    lookup a (records.foldl Building.add self).flush = (lookup a records).or (lookup a self.flush) := by
  induction records generalizing self with
  | nil => rw [lookup, Option.none_or]; rfl
  | cons record records ih => rw [List.foldl_cons, ih, lookup_add, lookup, Option.or_assoc]

/-- The complete regions are those of runs, and so is the current one. -/
def Grown (records : List (Chunk β)) (self : Building β) : Prop :=
  match self.current with
  | none => records = [] ∧ self.regions = []
  | some current => ∃ before last, records = before ++ last ∧ Coalesced before self.regions ∧ Run last current

theorem Coalesced.snoc {before last : List (Chunk β)} {regions : List (Chunk β)} {region : Chunk β}
    (coalesced : Coalesced before regions) (run : Run last region) :
    Coalesced (before ++ last) (if region.2 = [] then regions else regions ++ [region]) := by
  obtain ⟨runs, all, flat, rfl⟩ := coalesced
  refine ⟨runs ++ [(last, region)], ?_, ?_, ?_⟩
  · intro one member
    rcases List.mem_append.mp member with old | new
    · exact all one old
    · rw [List.mem_singleton.mp new]
      exact run
  · rw [List.map_append, List.flatten_append, flat]
    simp
  · rw [List.map_append, List.filter_append]
    split
    · rename_i empty
      simp [empty]
    · rename_i full
      simp [full]

theorem Grown.coalesced {records : List (Chunk β)} {self : Building β} (grown : Grown records self) :
    Coalesced records self.flush := by
  obtain ⟨regions, current⟩ := self
  cases current with
  | none =>
    obtain ⟨rfl, rfl⟩ := grown
    exact ⟨[], nofun, rfl, rfl⟩
  | some current =>
    obtain ⟨before, last, rfl, coalesced, run⟩ := grown
    exact coalesced.snoc run

theorem Grown.add {records : List (Chunk β)} {self : Building β} (grown : Grown records self) (record : Chunk β) :
    Grown (records ++ [record]) (self.add record) := by
  have done := grown.coalesced
  obtain ⟨regions, current⟩ := self
  cases current with
  | none =>
    obtain ⟨rfl, rfl⟩ := grown
    exact ⟨[], [record], rfl, done, .single record⟩
  | some current =>
    rw [Building.add]
    dsimp only
    split
    · rename_i adjoins
      obtain ⟨before, last, rfl, coalesced, run⟩ := grown
      exact ⟨before, last ++ [record], List.append_assoc _ _ _, coalesced, run.more adjoins⟩
    · exact ⟨records, [record], rfl, done, .single record⟩

theorem grown_regions (records : List (Chunk β)) : Grown records (records.foldl Building.add Building.start) := by
  have all : ∀ (before : List (Chunk β)) (self : Building β), Grown before self →
      Grown (before ++ records) (records.foldl Building.add self) := by
    induction records with
    | nil =>
      intro before self grown
      rw [List.append_nil]
      exact grown
    | cons record records ih =>
      intro before self grown
      have next := ih _ _ (grown.add record)
      rw [List.append_assoc] at next
      exact next
  exact all [] Building.start ⟨rfl, rfl⟩

theorem coalesced_regions (records : List (Chunk β)) :
    Coalesced records (records.foldl Building.add Building.start).flush := (grown_regions records).coalesced

end Overlay
