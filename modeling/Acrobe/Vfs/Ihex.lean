import Acrobe.Lib.Coalesce
import Acrobe.Lib.HexText
import Acrobe.Stapl.ExprParser

/-!
# Intel HEX

A text of records, one a line. The data records are coalesced into regions on the addresses that their base, set by
records of type 2 and 4, gives them.
-/

namespace Acrobe.Vfs
open LittleEndian Overlay HexText

inductive ParseError where
  | valueError (message : String)
  | indexError
  | noMatch (dbName criterion : String)
  deriving DecidableEq

namespace Ihex

structure Record where
  rtype : UInt8
  address : Nat
  data : Bytes

structure State where
  building : Building UInt8
  extended : Nat
  entry : Option Nat

/-- `text_bytes.decode("ascii", errors="replace")` -/
def decode (raw : Bytes) : Text := raw.map fun byte => if byte < 128 then Char.ofNat byte.toNat else '\uFFFD'

/-- `(~sum(record) + 1) & 0xFF` -/
def checksum (record : Bytes) : UInt8 :=
  UInt8.ofNat (((-((record.map UInt8.toNat).sum : Int) - 1 + 1) % 256).toNat)

def failure (lineNo : Nat) (text : String) : ParseError := .valueError ("ihex line " ++ toString lineNo ++ ": " ++ text)

def readRecord (lineNo : Nat) (line : Text) : Except ParseError Record :=
  match line with
  | ':' :: digits =>
    match fromhex digits with
    | .error position =>
      .error (failure lineNo ("non-hexadecimal number found in fromhex() arg at position " ++ toString position))
    | .ok (count :: high :: low :: rtype :: first :: rest) =>
      let byteCount := count.toNat
      let address := high.toNat <<< 8 ||| low.toNat
      let data := (first :: rest).take byteCount
      match (first :: rest)[byteCount]? with
      | none => .error .indexError
      | some given =>
        if data.length ≠ byteCount then .error (failure lineNo "short data")
        else if given ≠ checksum (count :: high :: low :: rtype :: data) then
          .error (failure lineNo "checksum mismatch")
        else .ok ⟨rtype, address, data⟩
    | .ok _ => .error (failure lineNo "record too short")
  | _ => .error (failure lineNo "missing leading ':'")

/-- `(data[0] << 8) | data[1]` -/
def upperHalf : Bytes → Except ParseError Nat
  | high :: low :: _ => .ok (high.toNat <<< 8 ||| low.toNat)
  | _ => .error .indexError

def State.take (self : State) (lineNo : Nat) (record : Record) : Except ParseError State :=
  if record.rtype = 0x00 then
    .ok { self with building := self.building.add ((self.extended + record.address : Nat), record.data) }
  else if record.rtype = 0x02 then (upperHalf record.data).map fun half => { self with extended := half <<< 4 }
  else if record.rtype = 0x04 then (upperHalf record.data).map fun half => { self with extended := half <<< 16 }
  else if record.rtype = 0x05 then .ok { self with entry := some (combine record.data.reverse) }
  else .error (failure lineNo ("unsupported record type 0x" ++ String.ofList (hex [record.rtype])))

def parseLines (self : State) : List (Text × Nat) → Except ParseError State
  | [] => .ok self
  | (line, lineNo) :: lines =>
    let line := Stapl.strip line
    if line = [] then parseLines self lines
    else
      match readRecord lineNo line with
      | .error error => .error error
      | .ok record =>
        if record.rtype = 0x01 then .ok self
        else
          match self.take lineNo record with
          | .error error => .error error
          | .ok self => parseLines self lines

def parse (text : Text) : Except ParseError (List (Chunk UInt8) × Option Nat) :=
  (parseLines ⟨.start, 0, none⟩ ((splitLines text).zipIdx 1)).map fun state => (state.building.flush, state.entry)

/-- What `start` puts into the metadata. -/
structure Image where
  regions : List (Chunk UInt8)
  entry : Option Nat
  minAddress : Int
  maxAddress : Int

def load (raw : Bytes) : Except ParseError Image :=
  match parse (decode raw) with
  | .error error => .error error
  | .ok ([], _) => .error (.noMatch "ihex" "no data records")
  | .ok (first :: rest, entry) =>
    .ok ⟨first :: rest, entry, (rest.map (·.1)).foldl min first.1, (rest.map stop).foldl max (stop first)⟩

/-! ### Data records -/

def dataRecords (extended : Nat) : List (Text × Nat) → List (Chunk UInt8)
  | [] => []
  | (line, lineNo) :: lines =>
    match readRecord lineNo (Stapl.strip line) with
    | .error _ => dataRecords extended lines
    | .ok record =>
      if record.rtype = 0x01 then []
      else if record.rtype = 0x00 then
        ((extended + record.address : Nat), record.data) :: dataRecords extended lines
      else if record.rtype = 0x02 then dataRecords ((upperHalf record.data).toOption.getD 0 <<< 4) lines
      else if record.rtype = 0x04 then dataRecords ((upperHalf record.data).toOption.getD 0 <<< 16) lines
      else dataRecords extended lines

def records (text : Text) : List (Chunk UInt8) := dataRecords 0 ((splitLines text).zipIdx 1)

theorem readRecord_nil (lineNo : Nat) : readRecord lineNo [] = .error (failure lineNo "missing leading ':'") := rfl

theorem parseLines_building {self after : State} {lines : List (Text × Nat)} (accepted : parseLines self lines = .ok after) :
    after.building = (dataRecords self.extended lines).foldl Building.add self.building := by
  induction lines generalizing self with
  | nil =>
    cases accepted
    rfl
  | cons numbered lines ih =>
    obtain ⟨line, lineNo⟩ := numbered
    rw [parseLines] at accepted
    rw [dataRecords]
    by_cases blank : Stapl.strip line = []
    · rw [if_pos blank] at accepted
      rw [blank, readRecord_nil]
      exact ih accepted
    · rw [if_neg blank] at accepted
      cases here : readRecord lineNo (Stapl.strip line) with
      | error error =>
        rw [here] at accepted
        cases accepted
      | ok record =>
        rw [here] at accepted
        dsimp only at accepted ⊢
        by_cases last : record.rtype = 0x01
        · rw [if_pos last] at accepted ⊢
          cases accepted
          rfl
        · rw [if_neg last] at accepted ⊢
          rw [State.take] at accepted
          by_cases data : record.rtype = 0x00
          · rw [if_pos data] at accepted ⊢
            exact ih accepted
          · rw [if_neg data] at accepted ⊢
            by_cases segment : record.rtype = 0x02
            · rw [if_pos segment] at accepted ⊢
              cases half : upperHalf record.data with
              | error error =>
                rw [half] at accepted
                cases accepted
              | ok half =>
                rw [half] at accepted
                exact ih accepted
            · rw [if_neg segment] at accepted ⊢
              by_cases linear : record.rtype = 0x04
              · rw [if_pos linear] at accepted ⊢
                cases half : upperHalf record.data with
                | error error =>
                  rw [half] at accepted
                  cases accepted
                | ok half =>
                  rw [half] at accepted
                  exact ih accepted
              · rw [if_neg linear] at accepted ⊢
                by_cases start : record.rtype = 0x05
                · rw [if_pos start] at accepted
                  have next := ih accepted
                  exact next
                · rw [if_neg start] at accepted
                  cases accepted

theorem parse_regions {text : Text} {regions : List (Chunk UInt8)} {entry : Option Nat}
    (accepted : parse text = .ok (regions, entry)) : regions = ((records text).foldl Building.add .start).flush := by
  rw [parse] at accepted
  cases whole : parseLines ⟨.start, 0, none⟩ ((splitLines text).zipIdx 1) with
  | error error =>
    rw [whole] at accepted
    cases accepted
  | ok state =>
    rw [whole] at accepted
    cases accepted
    exact congrArg Building.flush (parseLines_building whole)

end Ihex

end Acrobe.Vfs

/-!
## Malformed Intel HEX

The parser reads the byte behind the data of a record, and two bytes of a record of type 2 or 4, before it knows that
they are there.
-/

namespace Acrobe.Vfs
open LittleEndian HexText

namespace Ihex

/-- The text is parsed, or rejected with a `ValueError`. -/
def Clean (text : Text) : Prop :=
  match parse text with
  | .ok _ => True
  | .error (.valueError _) => True
  | .error _ => False

/-- The lines that are not blank, stripped. -/
def content (lines : List (Text × Nat)) : List Text := (lines.map fun line => Stapl.strip line.1).filter (· ≠ [])

/-- A record whose length leaves no room for a checksum. -/
def Overruns (line : Text) : Prop :=
  ∃ digits count rest, line = ':' :: digits ∧ fromhex digits = .ok (count :: rest) ∧
    4 ≤ rest.length ∧ rest.length ≤ 3 + count.toNat

/-- A whole record with its checksum. What follows the checksum is left aside. -/
def Holds (line : Text) (record : Record) : Prop :=
  ∃ digits count high low extra, line = ':' :: digits ∧ count.toNat = record.data.length ∧
    record.address = high.toNat <<< 8 ||| low.toNat ∧
    fromhex digits = .ok (count :: high :: low :: record.rtype ::
      (record.data ++ checksum (count :: high :: low :: record.rtype :: record.data) :: extra))

/-- A record of type 2 or 4 with less than two bytes. -/
def Record.Stub (record : Record) : Prop := (record.rtype = 0x02 ∨ record.rtype = 0x04) ∧ record.data.length < 2

/-- A record that the parser goes on from. -/
def Record.Taken (record : Record) : Prop := record.rtype ∈ [0x00, 0x02, 0x04, 0x05] ∧ ¬record.Stub

/-- Behind records that are taken, no line overruns its record and no address record is a stub. -/
def Regular (lines : List Text) : Prop :=
  ∀ front line back, lines = front ++ line :: back → (∀ earlier ∈ front, ∃ record, Holds earlier record ∧ record.Taken) →
    ¬Overruns line ∧ ∀ record, Holds line record → ¬record.Stub

/-! ### One line -/

theorem readRecord_ok {lineNo : Nat} {line : Text} {record : Record} :
    readRecord lineNo line = .ok record ↔ Holds line record := by
  constructor
  · intro read
    unfold readRecord at read
    split at read
    · rename_i digits
      split at read
      · cases read
      · rename_i count high low rtype first rest bytes
        dsimp only at read
        split at read
        · cases read
        · rename_i given there
          split at read
          · cases read
          · rename_i whole
            split at read
            · cases read
            · rename_i same
              cases read
              have length := not_not.mp whole
              have given_eq := not_not.mp same
              obtain ⟨inside, at_⟩ := List.getElem?_eq_some_iff.mp there
              refine ⟨digits, count, high, low, (first :: rest).drop (count.toNat + 1), rfl, length.symm, rfl, ?_⟩
              rw [bytes, ← given_eq, ← at_, List.getElem_cons_drop, List.take_append_drop]
      · cases read
    · cases read
  · rintro ⟨digits, count, high, low, extra, rfl, length, address, bytes⟩
    obtain ⟨rtype, place, data⟩ := record
    dsimp only at length address bytes
    subst address
    obtain ⟨first, rest, shape⟩ : ∃ first rest,
        data ++ checksum (count :: high :: low :: rtype :: data) :: extra = first :: rest := by
      cases data with
      | nil => exact ⟨_, _, rfl⟩
      | cons byte data => exact ⟨_, _, rfl⟩
    have taken : (first :: rest).take data.length = data := by rw [← shape, List.take_left]
    have behind : (first :: rest)[data.length]? = some (checksum (count :: high :: low :: rtype :: data)) := by
      rw [← shape, List.getElem?_append_right (Nat.le_refl _), Nat.sub_self]
      rfl
    unfold readRecord
    simp only [bytes, shape, behind, taken, length, ne_eq, not_true, if_false]

theorem readRecord_indexError {lineNo : Nat} {line : Text} :
    readRecord lineNo line = .error .indexError ↔ Overruns line := by
  constructor
  · intro read
    unfold readRecord at read
    split at read
    · rename_i digits
      split at read
      · cases read
      · rename_i count high low rtype first rest bytes
        dsimp only at read
        split at read
        · rename_i missing
          refine ⟨digits, count, _, rfl, bytes, by simp, ?_⟩
          have beyond := List.getElem?_eq_none_iff.mp missing
          simp only [List.length_cons] at beyond ⊢
          omega
        · split at read
          · cases read
          · split at read
            · cases read
            · cases read
      · cases read
    · cases read
  · rintro ⟨digits, count, rest, rfl, bytes, long, short⟩
    obtain ⟨high, low, rtype, first, rest, rfl⟩ : ∃ high low rtype first back, rest = high :: low :: rtype :: first :: back := by
      match rest with
      | high :: low :: rtype :: first :: back => exact ⟨_, _, _, _, _, rfl⟩
    have missing : (first :: rest)[count.toNat]? = none := by
      simp only [List.length_cons] at short
      exact List.getElem?_eq_none_iff.mpr (by simp only [List.length_cons]; omega)
    unfold readRecord
    simp only [bytes, missing]

theorem readRecord_noMatch (lineNo : Nat) (line : Text) (name criterion : String) :
    readRecord lineNo line ≠ .error (.noMatch name criterion) := by
  intro read
  unfold readRecord failure at read
  split at read
  · split at read
    · cases read
    · dsimp only at read
      split at read
      · cases read
      · split at read
        · cases read
        · split at read
          · cases read
          · cases read
    · cases read
  · cases read

theorem upperHalf_eq {data : Bytes} (short : ¬data.length < 2) : ∃ half, upperHalf data = .ok half := by
  match data with
  | high :: low :: rest => exact ⟨_, rfl⟩
  | [byte] => exact absurd (by simp) short
  | [] => exact absurd (by simp) short

theorem upperHalf_short {data : Bytes} (short : data.length < 2) : upperHalf data = .error .indexError := by
  match data with
  | high :: low :: rest =>
    simp only [List.length_cons] at short
    omega
  | [byte] => rfl
  | [] => rfl

theorem take_cases (self : State) (lineNo : Nat) (record : Record) :
    (record.Taken ∧ ∃ next, self.take lineNo record = .ok next) ∨
      (record.Stub ∧ self.take lineNo record = .error .indexError) ∨
      (¬record.Taken ∧ ¬record.Stub ∧ ∃ message, self.take lineNo record = .error (.valueError message)) := by
  obtain ⟨rtype, address, data⟩ := record
  unfold State.take Record.Taken Record.Stub
  dsimp only
  by_cases content : rtype = 0x00
  · subst content
    exact .inl ⟨by simp, _, rfl⟩
  by_cases segment : rtype = 0x02
  · subst segment
    by_cases short : data.length < 2
    · exact .inr (.inl ⟨by simp [short], by simp [upperHalf_short short, Except.map]⟩)
    · obtain ⟨half, there⟩ := upperHalf_eq short
      exact .inl ⟨by simp [short], _, by rw [if_neg content, if_pos rfl, there]; rfl⟩
  by_cases linear : rtype = 0x04
  · subst linear
    by_cases short : data.length < 2
    · exact .inr (.inl ⟨by simp [short], by simp [upperHalf_short short, Except.map]⟩)
    · obtain ⟨half, there⟩ := upperHalf_eq short
      exact .inl ⟨by simp [short], _, by rw [if_neg content, if_neg segment, if_pos rfl, there]; rfl⟩
  by_cases start : rtype = 0x05
  · subst start
    exact .inl ⟨by simp, _, rfl⟩
  · refine .inr (.inr ⟨by simp [content, segment, linear, start], by simp [segment, linear],
      "ihex line " ++ toString lineNo ++ ": " ++ ("unsupported record type 0x" ++ String.ofList (hex [rtype])), ?_⟩)
    rw [if_neg content, if_neg segment, if_neg linear, if_neg start]
    rfl

/-! ### The lines -/

theorem regular_nil : Regular [] := by
  intro front line back split
  simp at split

theorem regular_cons {line : Text} {lines : List Text} : Regular (line :: lines) ↔
    (¬Overruns line ∧ ∀ record, Holds line record → ¬record.Stub) ∧
      ((∃ record, Holds line record ∧ record.Taken) → Regular lines) := by
  constructor
  · intro regular
    refine ⟨regular [] line lines rfl (fun _ nothing => absurd nothing List.not_mem_nil), ?_⟩
    intro taken front later back split before
    refine regular (line :: front) later back (by rw [split]; rfl) ?_
    intro earlier member
    rcases List.mem_cons.mp member with rfl | member
    · exact taken
    · exact before earlier member
  · rintro ⟨here, rest⟩ front later back split before
    cases front with
    | nil =>
      cases split
      exact here
    | cons first front =>
      cases split
      exact rest (before _ List.mem_cons_self) front later back rfl fun earlier member =>
        before earlier (List.mem_cons_of_mem _ member)

theorem Holds.unique {line : Text} {one other : Record} (first : Holds line one) (second : Holds line other) : one = other :=
  Except.ok.inj ((@readRecord_ok 0 _ _).mpr first |>.symm.trans ((@readRecord_ok 0 _ _).mpr second))

theorem parseLines_clean (self : State) (lines : List (Text × Nat)) :
    (∀ error, parseLines self lines = .error error → ∃ message, error = .valueError message) ↔
      Regular (content lines) := by
  induction lines generalizing self with
  | nil => exact ⟨fun _ => regular_nil, fun _ error raised => nomatch raised⟩
  | cons numbered lines ih =>
    obtain ⟨line, lineNo⟩ := numbered
    rw [parseLines]
    by_cases blank : Stapl.strip line = []
    · have same : content ((line, lineNo) :: lines) = content lines := by
        rw [content, List.map_cons, List.filter_cons_of_neg (by simp [blank])]
        rfl
      rw [if_pos blank, same]
      exact ih self
    · have split : content ((line, lineNo) :: lines) = Stapl.strip line :: content lines := by
        rw [content, List.map_cons, List.filter_cons_of_pos (by simp [blank])]
        rfl
      rw [if_neg blank, split, regular_cons]
      cases read : readRecord lineNo (Stapl.strip line) with
      | error error =>
        have nothing : ¬∃ record, Holds (Stapl.strip line) record := by
          rintro ⟨record, holds⟩
          rw [readRecord_ok.mpr holds] at read
          cases read
        have overruns := @readRecord_indexError lineNo (Stapl.strip line)
        rw [read] at overruns
        constructor
        · intro clean
          obtain ⟨message, value⟩ := clean error rfl
          refine ⟨⟨?_, fun record holds => absurd ⟨record, holds⟩ nothing⟩, ?_⟩
          · intro beyond
            have raised := overruns.mpr beyond
            rw [value] at raised
            cases raised
          · rintro ⟨record, holds, taken⟩
            exact absurd ⟨record, holds⟩ nothing
        · rintro ⟨⟨within, _⟩, _⟩ other raised
          cases raised
          cases error with
          | valueError message => exact ⟨message, rfl⟩
          | indexError => exact absurd (overruns.mp rfl) within
          | noMatch name criterion => exact absurd read (readRecord_noMatch _ _ _ _)
      | ok record =>
        have holds := readRecord_ok.mp read
        have within : ¬Overruns (Stapl.strip line) := by
          intro beyond
          rw [readRecord_indexError.mpr beyond] at read
          cases read
        have only {other : Record} (second : Holds (Stapl.strip line) other) : other = record := second.unique holds
        dsimp only
        by_cases last : record.rtype = 0x01
        · rw [if_pos last]
          have notStub : ¬record.Stub := by simp [Record.Stub, last]
          have notTaken : ¬record.Taken := by simp [Record.Taken, last]
          refine ⟨fun _ => ⟨⟨within, fun other second => only second ▸ notStub⟩, ?_⟩, fun _ error raised => nomatch raised⟩
          rintro ⟨other, second, taken⟩
          exact absurd (only second ▸ taken) notTaken
        · rw [if_neg last]
          rcases take_cases self lineNo record with ⟨taken, next, ran⟩ | ⟨stub, ran⟩ | ⟨notTaken, notStub, message, ran⟩
          · rw [ran]
            dsimp only
            rw [ih next]
            exact ⟨fun rest => ⟨⟨within, fun other second => only second ▸ taken.2⟩, fun _ => rest⟩,
              fun regular => regular.2 ⟨record, holds, taken⟩⟩
          · rw [ran]
            constructor
            · intro clean
              obtain ⟨message, value⟩ := clean .indexError rfl
              cases value
            · rintro ⟨⟨_, whole⟩, _⟩
              exact absurd stub (whole record holds)
          · rw [ran]
            refine ⟨fun _ => ⟨⟨within, fun other second => only second ▸ notStub⟩, ?_⟩, ?_⟩
            · rintro ⟨other, second, taken⟩
              exact absurd (only second ▸ taken) notTaken
            · intro _ error raised
              cases raised
              exact ⟨message, rfl⟩

theorem clean_iff (text : Text) : Clean text ↔ Regular (content ((splitLines text).zipIdx 1)) := by
  rw [← parseLines_clean ⟨.start, 0, none⟩, Clean, parse]
  cases parseLines ⟨.start, 0, none⟩ ((splitLines text).zipIdx 1) with
  | ok state => exact ⟨fun _ error raised => (by cases raised), fun _ => trivial⟩
  | error error =>
    cases error with
    | valueError message => exact ⟨fun _ other raised => (by cases raised; exact ⟨message, rfl⟩), fun _ => trivial⟩
    | indexError =>
      refine ⟨fun impossible => impossible.elim, fun clean => ?_⟩
      obtain ⟨message, value⟩ := clean _ rfl
      cases value
    | noMatch name criterion =>
      refine ⟨fun impossible => impossible.elim, fun clean => ?_⟩
      obtain ⟨message, value⟩ := clean _ rfl
      cases value

theorem missing_checksum_raises : ¬∀ text, Clean text := by
  intro clean
  exact clean [':', '0', '1', '0', '0', '0', '0', '0', '0', '0', '0']

end Ihex

end Acrobe.Vfs
