import Acrobe.Lib.LittleEndian
import Acrobe.Lib.Transition

/-!
# Frames over the JTAG FIFO

`JtagFifo` moves 9-bit words over a data register whose shifts send and receive at once. `JtagFramed`
makes frames of them, one exchange for each batch of operations.
-/

namespace Acrobe.Bnoc.Framed
open LittleEndian Lib

variable {σ : Type}

/-! ### The device -/

namespace JtagFifo

def width : Nat := 9

def valid : Nat := 1 <<< width

def ready : Nat := 1 <<< (width + 1)

def dmask : Nat := (1 <<< width) - 1

def last : Nat := 0x100

end JtagFifo

open JtagFifo

/-- What the device does in a shift of the data register, a read of the status register and idle cycles. -/
structure Device (σ : Type) where
  shift : σ → Nat → σ × Nat
  status : σ → σ × Nat
  idle : σ → σ

/-- The device and the words that it has delivered. -/
structure Line (σ : Type) where
  device : σ
  emitted : List Nat

def word? (tdo : Nat) : Option Nat := if tdo &&& valid ≠ 0 then some (tdo &&& dmask) else none

def isLast (word : Nat) : Bool := word &&& last != 0

def Line.shift (device : Device σ) (self : Line σ) (tdi : Nat) : Line σ × Nat :=
  let (state, tdo) := device.shift self.device tdi
  ({ device := state, emitted := self.emitted ++ (word? tdo).toList }, tdo)

def Line.status (device : Device σ) (self : Line σ) : Line σ × Nat :=
  let (state, status) := device.status self.device
  ({ self with device := state }, status)

def Line.shiftAll (device : Device σ) (self : Line σ) : List Nat → Line σ × List Nat
  | [] => (self, [])
  | tdi :: tdis =>
    let (line, tdo) := self.shift device tdi
    let (line, tdos) := line.shiftAll device tdis
    (line, tdo :: tdos)

/-! ### The exchange -/

inductive Error where
  | timeout
  | rejected (index shifts outFree : Nat)

def Error.message : Error → String
  | .timeout => "FIFO exchange timeout: no data received"
  | .rejected index shifts outFree =>
    s!"jtag fifo: tx word {index}/{shifts} rejected despite out_free={outFree}; bridge broke the flow-control contract"

/-- The words received, or how the exchange failed. -/
abbrev Exchanged (σ : Type) := Line σ × Except Error (List Nat)

variable (device : Device σ) (tx : List Nat) (expect : Nat)

/-- The loop of `exchange` without a status register. -/
def exchangeSingle : Nat → Line σ → Nat → List Nat → Nat → Nat → Option (Exchanged σ)
  | 0, _, _, _, _, _ => none
  | fuel + 1, line, txIdx, rxWords, framesSeen, idleCount =>
    if framesSeen < expect ∨ txIdx < tx.length then
      let tdi := match tx[txIdx]? with
        | some word => valid ||| ready ||| word
        | none => ready
      let (line, tdo) := line.shift device tdi
      let txIdx := if txIdx < tx.length ∧ tdo &&& ready ≠ 0 then txIdx + 1 else txIdx
      match word? tdo with
      | some data =>
        exchangeSingle fuel line txIdx (rxWords ++ [data]) (if isLast data then framesSeen + 1 else framesSeen) 0
      | none =>
        if idleCount + 1 > 1000 then some (line, .error .timeout)
        else exchangeSingle fuel line txIdx rxWords framesSeen (idleCount + 1)
    else some (line, .ok rxWords)

/-- The loop of `exchange` with a status register. -/
def exchangeSpeculative : Nat → Line σ → Nat → List Nat → Nat → Option (Exchanged σ)
  | 0, _, _, _, _ => none
  | fuel + 1, line, txIdx, rxWords, framesSeen =>
    if framesSeen < expect ∨ txIdx < tx.length then
      let (line, status) := line.status device
      let outFree := status >>> 16 &&& 0xffff
      let inReady := (status &&& 0xffff) + 16
      let txShifts := ((tx.drop txIdx).take outFree).map fun word => valid ||| ready ||| word
      let readShifts := List.replicate (min inReady 128 - txShifts.length) ready
      if txShifts = [] ∧ readShifts = [] then
        exchangeSpeculative fuel { line with device := device.idle line.device } txIdx rxWords framesSeen
      else
        let (line, results) := line.shiftAll device (txShifts ++ readShifts)
        match (results.take txShifts.length).findIdx? fun tdo => tdo &&& ready == 0 with
        | some index => some (line, .error (.rejected index txShifts.length outFree))
        | none =>
          let words := results.filterMap word?
          exchangeSpeculative fuel line (txIdx + txShifts.length) (rxWords ++ words) (framesSeen + words.countP isLast)
    else some (line, .ok rxWords)

def exchange (speculative : Bool) (fuel : Nat) (line : Line σ) : Option (Exchanged σ) :=
  if speculative then exchangeSpeculative device tx expect fuel line 0 [] 0
  else exchangeSingle device tx expect fuel line 0 [] 0 0

/-! ### Frames -/

def encode (data : Bytes) : List Nat :=
  match (data.map UInt8.toNat).reverse with
  | [] => []
  | word :: front => front.reverse ++ [word ||| last]

def decode (words : List Nat) : Bytes := words.map fun word => UInt8.ofNat (word &&& 0xff)

def splitFrom (current : List Nat) : List Nat → List (List Nat)
  | [] => if current = [] then [] else [current]
  | word :: words =>
    if isLast word then (current ++ [word]) :: splitFrom [] words else splitFrom (current ++ [word]) words

def splitFrames (words : List Nat) : List (List Nat) := splitFrom [] words

structure Batch where
  sends : List Bytes
  recvs : Nat

structure State (σ : Type) where
  line : Line σ
  /-- What receives got, in post order. -/
  delivered : List Bytes

/-- A batch: frames go to the receives one by one, and an exchange that fails fails the batch. -/
def flushOps (speculative : Bool) (fuel : Nat) (self : State σ) (batch : Batch) : Option (State σ) :=
  match exchange device (batch.sends.flatMap encode) batch.recvs speculative fuel self.line with
  | none => none
  | some (line, .error _) => some { self with line := line }
  | some (line, .ok rxWords) =>
    some { line := line, delivered := self.delivered ++ ((splitFrames rxWords).take batch.recvs).map decode }

/-! ### What an exchange receives -/

variable {device tx expect}

theorem shift_emitted (line : Line σ) (tdi : Nat) :
    (line.shift device tdi).1.emitted = line.emitted ++ (word? (line.shift device tdi).2).toList := rfl

theorem shiftAll_emitted (line : Line σ) (tdis : List Nat) :
    (line.shiftAll device tdis).1.emitted = line.emitted ++ (line.shiftAll device tdis).2.filterMap word? := by
  induction tdis generalizing line with
  | nil => exact (List.append_nil _).symm
  | cons tdi tdis ih =>
    rw [Line.shiftAll]
    dsimp only
    rw [ih, shift_emitted, List.append_assoc, List.filterMap_cons]
    cases word? (line.shift device tdi).2 <;> rfl

theorem shiftAll_status (line : Line σ) (tdis : List Nat) :
    ((line.status device).1.shiftAll device tdis).1.emitted =
      line.emitted ++ ((line.status device).1.shiftAll device tdis).2.filterMap word? := shiftAll_emitted _ tdis

/-- An exchange that returns has received what the device delivered meanwhile, and enough frames. -/
structure Receives (expect : Nat) (line : Line σ) (rxWords : List Nat) (framesSeen : Nat) (words : List Nat)
    (done : Exchanged σ) : Prop where
  emitted : done.1.emitted = line.emitted ++ words
  received : ∀ result, done.2 = .ok result → result = rxWords ++ words ∧ expect ≤ framesSeen + words.countP isLast

theorem Receives.more {line next : Line σ} {rxWords first words : List Nat} {framesSeen : Nat} {done : Exchanged σ}
    (receives : Receives expect next (rxWords ++ first) (framesSeen + first.countP isLast) words done)
    (shifted : next.emitted = line.emitted ++ first) :
    Receives expect line rxWords framesSeen (first ++ words) done where
  emitted := by rw [receives.emitted, shifted, List.append_assoc]
  received := by
    intro result same
    obtain ⟨all, enough⟩ := receives.received result same
    rw [List.append_assoc] at all
    rw [List.countP_append]
    exact ⟨all, by omega⟩

theorem Receives.stop {line : Line σ} {rxWords : List Nat} {framesSeen : Nat} (enough : expect ≤ framesSeen) :
    Receives expect line rxWords framesSeen [] (line, .ok rxWords) where
  emitted := (List.append_nil _).symm
  received := by
    intro result same
    cases same
    exact ⟨(List.append_nil _).symm, enough⟩

theorem Receives.fail {line next : Line σ} {rxWords words : List Nat} {framesSeen : Nat}
    (shifted : next.emitted = line.emitted ++ words) (error : Error) :
    Receives expect line rxWords framesSeen words (next, .error error) where
  emitted := shifted
  received := nofun

theorem exchangeSingle_receives {fuel : Nat} {line : Line σ} {txIdx : Nat} {rxWords : List Nat}
    {framesSeen idleCount : Nat} {done : Exchanged σ}
    (returned : exchangeSingle device tx expect fuel line txIdx rxWords framesSeen idleCount = some done) :
    ∃ words, Receives expect line rxWords framesSeen words done := by
  induction fuel generalizing line txIdx rxWords framesSeen idleCount with
  | zero => cases returned
  | succ fuel ih =>
    rw [exchangeSingle] at returned
    split at returned
    · dsimp only at returned
      split at returned
      · rename_i data found
        obtain ⟨words, receives⟩ := ih returned
        refine ⟨[data] ++ words, Receives.more ?_ (by rw [shift_emitted, found]; rfl)⟩
        have count : framesSeen + (if isLast data then 1 else 0) =
            if isLast data then framesSeen + 1 else framesSeen := by
          split <;> rfl
        rw [List.countP_singleton, count]
        exact receives
      · rename_i found
        split at returned
        · cases returned
          exact ⟨[], .fail (by rw [shift_emitted, found]; rfl) _⟩
        · obtain ⟨words, receives⟩ := ih returned
          refine ⟨[] ++ words, Receives.more ?_ (by rw [shift_emitted, found]; rfl)⟩
          rw [List.append_nil]
          exact receives
    · rename_i stopped
      cases returned
      exact ⟨[], .stop (by omega)⟩

theorem exchangeSpeculative_receives {fuel : Nat} {line : Line σ} {txIdx : Nat} {rxWords : List Nat}
    {framesSeen : Nat} {done : Exchanged σ}
    (returned : exchangeSpeculative device tx expect fuel line txIdx rxWords framesSeen = some done) :
    ∃ words, Receives expect line rxWords framesSeen words done := by
  induction fuel generalizing line txIdx rxWords framesSeen with
  | zero => cases returned
  | succ fuel ih =>
    rw [exchangeSpeculative] at returned
    split at returned
    · dsimp only at returned
      split at returned
      · obtain ⟨words, receives⟩ := ih returned
        exact ⟨words, receives.emitted, receives.received⟩
      · split at returned
        · cases returned
          exact ⟨_, .fail (shiftAll_status line _) _⟩
        · obtain ⟨words, receives⟩ := ih returned
          exact ⟨_, receives.more (shiftAll_status line _)⟩
    · rename_i stopped
      cases returned
      exact ⟨[], .stop (by omega)⟩

theorem exchange_receives {speculative : Bool} {fuel : Nat} {line : Line σ} {done : Exchanged σ}
    (returned : exchange device tx expect speculative fuel line = some done) :
    ∃ words, Receives expect line [] 0 words done := by
  rw [exchange] at returned
  split at returned
  · exact exchangeSpeculative_receives returned
  · exact exchangeSingle_receives returned

/-! ### Splitting into frames -/

def IsFrame (frame : List Nat) : Prop :=
  ∃ front word, frame = front ++ [word] ∧ (∀ other ∈ front, isLast other = false) ∧ isLast word = true

/-- The words are so many whole frames. -/
def AreFrames (count : Nat) (words : List Nat) : Prop :=
  ∃ frames : List (List Nat), frames.length = count ∧ (∀ frame ∈ frames, IsFrame frame) ∧ words = frames.flatten

theorem flatten_splitFrom (current words : List Nat) : (splitFrom current words).flatten = current ++ words := by
  induction words generalizing current with
  | nil =>
    rw [splitFrom]
    split
    · rename_i empty
      rw [empty]
      rfl
    · rw [List.flatten_singleton, List.append_nil]
  | cons word words ih =>
    rw [splitFrom]
    split
    · rw [List.flatten_cons, ih, List.append_assoc]
      rfl
    · rw [ih, List.append_assoc]
      rfl

theorem splitFrom_ne_nil {current words piece : List Nat} (member : piece ∈ splitFrom current words) : piece ≠ [] := by
  induction words generalizing current with
  | nil =>
    rw [splitFrom] at member
    split at member
    · cases member
    · rename_i filled
      rw [List.mem_singleton.mp member]
      exact filled
  | cons word words ih =>
    rw [splitFrom] at member
    split at member
    · rcases List.mem_cons.mp member with rfl | later
      · exact List.append_ne_nil_of_right_ne_nil _ (List.cons_ne_nil _ _)
      · exact ih later
    · exact ih member

theorem splitFrom_count {current : List Nat} (unmarked : ∀ word ∈ current, isLast word = false) (words : List Nat) :
    words.countP isLast ≤ (splitFrom current words).length ∧
      ((splitFrom current words).length = words.countP isLast → ∀ piece ∈ splitFrom current words, IsFrame piece) := by
  induction words generalizing current with
  | nil =>
    refine ⟨Nat.zero_le _, fun none piece member => ?_⟩
    rw [List.eq_nil_of_length_eq_zero none] at member
    cases member
  | cons word words ih =>
    rw [splitFrom]
    by_cases marked : isLast word = true
    · rw [if_pos marked, List.countP_cons_of_pos marked, List.length_cons]
      obtain ⟨enough, whole⟩ := @ih [] nofun
      refine ⟨Nat.succ_le_succ enough, fun same piece member => ?_⟩
      rcases List.mem_cons.mp member with rfl | later
      · exact ⟨current, word, rfl, unmarked, marked⟩
      · exact whole (Nat.succ.inj same) piece later
    · rw [if_neg marked, List.countP_cons_of_neg marked]
      refine ih fun other member => ?_
      rcases List.mem_append.mp member with before | here
      · exact unmarked other before
      · rw [List.mem_singleton.mp here]
        exact Bool.eq_false_iff.mpr marked

theorem splitFrom_frame {front : List Nat} (unmarked : ∀ word ∈ front, isLast word = false) {word : Nat}
    (marked : isLast word = true) (current rest : List Nat) :
    splitFrom current (front ++ word :: rest) = (current ++ front ++ [word]) :: splitFrom [] rest := by
  induction front generalizing current with
  | nil =>
    rw [List.nil_append, splitFrom, if_pos marked, List.append_nil]
  | cons other front ih =>
    have plain : ¬isLast other = true := Bool.eq_false_iff.mp (unmarked other List.mem_cons_self)
    rw [List.cons_append, splitFrom, if_neg plain, ih fun word member => unmarked word (List.mem_cons_of_mem _ member),
      List.append_assoc current]
    rfl

theorem splitFrames_flatten {frames : List (List Nat)} (whole : ∀ frame ∈ frames, IsFrame frame) :
    splitFrames frames.flatten = frames := by
  induction frames with
  | nil => rfl
  | cons frame frames ih =>
    obtain ⟨front, word, rfl, unmarked, marked⟩ := whole _ List.mem_cons_self
    rw [List.flatten_cons, List.append_assoc, splitFrames]
    change splitFrom [] (front ++ word :: frames.flatten) = _
    rw [splitFrom_frame unmarked marked]
    exact congrArg _ (ih fun frame member => whole frame (List.mem_cons_of_mem _ member))

theorem length_flatten_take_le (count : Nat) (pieces : List (List Nat)) :
    (pieces.take count).flatten.length ≤ pieces.flatten.length := by
  conv_rhs => rw [← List.take_append_drop count pieces, List.flatten_append, List.length_append]
  exact Nat.le_add_right _ _

theorem length_flatten_take_eq {count : Nat} {pieces : List (List Nat)} (filled : ∀ piece ∈ pieces, piece ≠ [])
    (same : (pieces.take count).flatten.length = pieces.flatten.length) : pieces.length ≤ count := by
  apply Nat.le_of_not_lt
  intro fewer
  conv_rhs at same => rw [← List.take_append_drop count pieces, List.flatten_append, List.length_append]
  have none : (pieces.drop count).flatten = [] := List.eq_nil_of_length_eq_zero (by omega)
  rw [List.drop_eq_getElem_cons fewer, List.flatten_cons] at none
  exact filled _ (List.getElem_mem fewer) (List.append_eq_nil_iff.mp none).1

/-! ### Lossless runs -/

def completeFrames (words : List Nat) : List (List Nat) :=
  (splitFrames words).filter fun piece => piece.getLast?.any isLast

/-- Receives got the frames of the device in order, and nothing that it delivered is gone. -/
structure Lossless (state : State σ) : Prop where
  ordered : state.delivered <+: (completeFrames state.line.emitted).map decode
  kept : (state.delivered.map List.length).sum = state.line.emitted.length

/-- While a batch runs the device delivers exactly one frame for each receive, and nothing when the batch fails. -/
def Matches (device : Device σ) (speculative : Bool) (fuel : Nat) (self : State σ) (batch : Batch) : Prop :=
  match exchange device (batch.sends.flatMap encode) batch.recvs speculative fuel self.line with
  | none => True
  | some (line, outcome) =>
    AreFrames (if outcome.isOk then batch.recvs else 0) (line.emitted.drop self.line.emitted.length)

theorem length_decode (frames : List (List Nat)) :
    ((frames.map decode).map List.length).sum = frames.flatten.length := by
  rw [List.map_map, List.length_flatten]
  congr 1
  exact List.map_congr_left fun frame _ => List.length_map ..

theorem areFrames_zero_iff {words : List Nat} : AreFrames 0 words ↔ words = [] := by
  constructor
  · rintro ⟨frames, none, -, rfl⟩
    rw [List.eq_nil_of_length_eq_zero none]
    rfl
  · rintro rfl
    exact ⟨[], rfl, nofun, rfl⟩

theorem flushOps_cases {speculative : Bool} {fuel : Nat} {self next : State σ} {batch : Batch}
    (flushed : flushOps device speculative fuel self batch = some next) :
    ∃ (words : List Nat) (frames : List (List Nat)), next.line.emitted = self.line.emitted ++ words ∧
      next.delivered = self.delivered ++ frames.map decode ∧ frames.flatten.length ≤ words.length ∧
      (frames.flatten.length = words.length ↔ Matches device speculative fuel self batch) ∧
      (Matches device speculative fuel self batch → frames.flatten = words ∧ ∀ frame ∈ frames, IsFrame frame) := by
  rw [flushOps] at flushed
  split at flushed
  · cases flushed
  · rename_i line error returned
    cases flushed
    obtain ⟨words, receives⟩ := exchange_receives returned
    have emitted : line.emitted = self.line.emitted ++ words := receives.emitted
    have condition : Matches device speculative fuel self batch ↔ words = [] := by
      rw [Matches, returned]
      dsimp only
      rw [emitted, List.drop_left, ← areFrames_zero_iff]
      rfl
    refine ⟨words, [], emitted, (List.append_nil _).symm, Nat.zero_le _, ?_, fun met => ?_⟩
    · rw [condition]
      exact ⟨fun none => List.eq_nil_of_length_eq_zero none.symm, fun none => none ▸ rfl⟩
    · exact ⟨(condition.mp met).symm, nofun⟩
  · rename_i line rxWords returned
    cases flushed
    obtain ⟨words, receives⟩ := exchange_receives returned
    have emitted : line.emitted = self.line.emitted ++ words := receives.emitted
    obtain ⟨rfl, enough⟩ := receives.received rxWords rfl
    rw [Nat.zero_add] at enough
    have condition : Matches device speculative fuel self batch ↔ AreFrames batch.recvs rxWords := by
      rw [Matches, returned]
      dsimp only
      rw [emitted, List.drop_left]
      rfl
    obtain ⟨counted, whole⟩ := @splitFrom_count [] nofun rxWords
    have all : (splitFrames rxWords).flatten = rxWords := flatten_splitFrom [] rxWords
    have frames : AreFrames batch.recvs rxWords →
        (splitFrames rxWords).take batch.recvs = splitFrames rxWords ∧ ∀ frame ∈ splitFrames rxWords, IsFrame frame := by
      rintro ⟨frames, count, are, rfl⟩
      rw [splitFrames_flatten are]
      exact ⟨List.take_of_length_le (Nat.le_of_eq count), are⟩
    refine ⟨rxWords, (splitFrames rxWords).take batch.recvs, emitted, rfl, ?_, ?_, fun met => ?_⟩
    · have less := length_flatten_take_le batch.recvs (splitFrames rxWords)
      rw [all] at less
      exact less
    · rw [condition]
      constructor
      · intro same
        have few : (splitFrames rxWords).length ≤ batch.recvs :=
          length_flatten_take_eq (fun _ member => splitFrom_ne_nil member) (by rw [same, all])
        have ended : (splitFrames rxWords).length = rxWords.countP isLast :=
          Nat.le_antisymm (Nat.le_trans few enough) counted
        exact ⟨splitFrames rxWords, by omega, whole ended, all.symm⟩
      · intro met
        rw [(frames met).1, all]
    · obtain ⟨taken, are⟩ := frames (condition.mp met)
      rw [taken]
      exact ⟨all, are⟩

/-- What matched batches keep: the device has completed frames only, and receives got them all. -/
def Sound (self : State σ) : Prop :=
  ∃ frames : List (List Nat), (∀ frame ∈ frames, IsFrame frame) ∧ self.line.emitted = frames.flatten ∧
    self.delivered = frames.map decode

theorem Sound.lossless {self : State σ} (sound : Sound self) : Lossless self := by
  obtain ⟨frames, whole, emitted, delivered⟩ := sound
  have complete : completeFrames frames.flatten = frames := by
    rw [completeFrames, splitFrames_flatten whole]
    apply List.filter_eq_self.mpr
    intro frame member
    obtain ⟨front, word, rfl, -, marked⟩ := whole frame member
    rw [List.getLast?_concat]
    exact marked
  constructor
  · have taken : (completeFrames self.line.emitted).map decode = self.delivered := by
      rw [emitted, complete, delivered]
    exact taken ▸ List.prefix_refl _
  · rw [delivered, emitted, length_decode]

theorem Sound.flushOps {speculative : Bool} {fuel : Nat} {self next : State σ} {batch : Batch} (sound : Sound self)
    (met : Matches device speculative fuel self batch)
    (flushed : flushOps device speculative fuel self batch = some next) : Sound next := by
  obtain ⟨frames, whole, emitted, delivered⟩ := sound
  obtain ⟨words, more, shifted, given, -, -, all⟩ := flushOps_cases flushed
  obtain ⟨rfl, are⟩ := all met
  refine ⟨frames ++ more, ?_, ?_, ?_⟩
  · intro frame member
    exact (List.mem_append.mp member).elim (whole frame) (are frame)
  · rw [shifted, emitted, List.flatten_append]
  · rw [given, delivered, List.map_append]

def taken (self : State σ) : Nat := (self.delivered.map List.length).sum

theorem run_kept {speculative : Bool} {fuel : Nat} {batches : List Batch} {self last : State σ}
    (ran : batches.foldlM (flushOps device speculative fuel) self = some last)
    (bounded : taken self ≤ self.line.emitted.length) (kept : taken last = last.line.emitted.length) :
    taken self = self.line.emitted.length ∧
      Along (flushOps device speculative fuel) (Matches device speculative fuel) self batches := by
  induction batches generalizing self with
  | nil =>
    cases ran
    exact ⟨kept, trivial⟩
  | cons batch batches ih =>
    obtain ⟨next, flushed, rest⟩ := Option.bind_eq_some_iff.mp ran
    obtain ⟨words, more, shifted, given, fewer, exactly, -⟩ := flushOps_cases flushed
    have sum : taken next = taken self + more.flatten.length := by
      rw [taken, given, List.map_append, List.sum_append, length_decode]
      rfl
    have length : next.line.emitted.length = self.line.emitted.length + words.length := by
      rw [shifted, List.length_append]
    obtain ⟨same, along⟩ := ih rest (by omega)
    refine ⟨by omega, exactly.mp (by omega), ?_⟩
    rw [flushed]
    exact along

def start (state : σ) : State σ := { line := { device := state, emitted := [] }, delivered := [] }

/-- Nothing is lost exactly when in every batch the device delivers one frame for each receive and nothing else. -/
theorem run_lossless_iff (device : Device σ) (state : σ) (speculative : Bool) (fuel : Nat) {batches : List Batch}
    {last : State σ} (ran : batches.foldlM (flushOps device speculative fuel) (start state) = some last) :
    Lossless last ↔
      Along (flushOps device speculative fuel) (Matches device speculative fuel) (start state) batches := by
  constructor
  · exact fun lossless => (run_kept ran (Nat.le_refl 0) lossless.kept).2
  · intro along
    have step (self : State σ) (batch : Batch) (next : State σ) (sound : Sound self)
        (met : Matches device speculative fuel self batch)
        (flushed : flushOps device speculative fuel self batch = some next) : Sound next := sound.flushOps met flushed
    exact (foldlM_along step ⟨[], nofun, rfl, rfl⟩ along ran).lossless

/-- A device that is always ready and answers the n-th shift with the n-th word of a list, if it is one. -/
def scripted (words : List (Option Nat)) : Device Nat where
  shift n _ := (n + 1, match words[n]? with
    | some (some word) => ready ||| valid ||| word
    | _ => ready)
  status n := (n, 0)
  idle n := n

/-- The answer comes after the request was sent. -/
theorem run_lossless_answer :
    ∃ last, [⟨[[1]], 0⟩, ⟨[], 1⟩].foldlM (flushOps (scripted [none, some 0x107]) false 3) (start 0) = some last ∧
      last.delivered = [[7]] ∧
      (Lossless last ↔ Along (flushOps (scripted [none, some 0x107]) false 3)
        (Matches (scripted [none, some 0x107]) false 3) (start 0) [⟨[[1]], 0⟩, ⟨[], 1⟩]) :=
  ⟨_, rfl, rfl, run_lossless_iff _ 0 false 3 rfl⟩

/-- A frame that arrives while a request is sent is gone before the receive is posted. -/
theorem early_answer_lost :
    ∃ last, [⟨[[1]], 0⟩, ⟨[], 1⟩].foldlM (flushOps (scripted [some 0x107, some 0x108]) false 3) (start 0) = some last ∧
      last.line.emitted = [0x107, 0x108] ∧ last.delivered = [[8]] ∧ ¬Lossless last := by
  refine ⟨_, rfl, rfl, rfl, fun lossless => ?_⟩
  cases lossless.kept

end Acrobe.Bnoc.Framed
