import Acrobe.Ftdi.Engine

/-!
# Inserted reads are transparent

Against any chip that executes the commands as documented, the response without the bytes of the
inserted reads is that of the operations alone, and what is left of the stream are the operations,
some byte shifts in consecutive ranges.
-/

namespace Acrobe.Ftdi
open LittleEndian

/-! ### The chip -/

/-- What commands, given by their bytes, do and answer, and one byte of a byte shift. -/
structure Chip (σ : Type) where
  exec : σ → Bytes → σ × Bytes
  shift : σ → UInt8 → Option UInt8 → σ × UInt8

namespace Chip
variable {σ : Type}

def shiftAll (chip : Chip σ) (s : σ) (cmd : UInt8) : List (Option UInt8) → σ × Bytes
  | [] => (s, [])
  | byte :: rest =>
    let (s, sampled) := chip.shift s cmd byte
    let (s, more) := shiftAll chip s cmd rest
    (s, sampled :: more)

/-- A byte shift of `n` bytes is `n` shifts of a byte; the pins are read without a clock. -/
structure Documented (chip : Chip σ) : Prop where
  getBitsLow : ∀ s, ∃ pins, chip.exec s [MpsseCmd.getBitsLow] = (s, [pins])
  sendImmediate : ∀ s, chip.exec s [MpsseCmd.sendImmediate] = (s, [])
  shiftBytes : ∀ s (cmd low high : UInt8) (data : Bytes),
    cmd &&& (MpsseCmd.bits ||| MpsseCmd.tms ||| MpsseCmd.management) = 0 →
    data.length = (if cmd &&& MpsseCmd.write ≠ 0 then low.toNat + 256 * high.toNat + 1 else 0) →
    chip.exec s (cmd :: low :: high :: data) =
      let done := chip.shiftAll s cmd (if cmd &&& MpsseCmd.write ≠ 0 then data.map some
        else List.replicate (low.toNat + 256 * high.toNat + 1) none)
      (done.1, if cmd &&& MpsseCmd.read ≠ 0 then done.2 else [])
  answers : ∀ s (op : Operation), op.Valid → (chip.exec s op.encode).2.length = op.rspSize

def run (chip : Chip σ) (s : σ) : List Command → σ × Bytes
  | [] => (s, [])
  | cmd :: cmds =>
    let (s, answer) := chip.exec s cmd.encode
    let (s, more) := run chip s cmds
    (s, answer ++ more)

variable {chip : Chip σ}

theorem run_append (s : σ) (xs ys : List Command) :
    chip.run s (xs ++ ys) =
      ((chip.run (chip.run s xs).1 ys).1, (chip.run s xs).2 ++ (chip.run (chip.run s xs).1 ys).2) := by
  induction xs generalizing s with
  | nil => rfl
  | cons cmd xs ih => simp only [List.cons_append, run, ih, List.append_assoc]

theorem run_concat (s : σ) (cmds : List Command) (cmd : Command) :
    chip.run s (cmds ++ [cmd]) = ((chip.exec (chip.run s cmds).1 cmd.encode).1,
      (chip.run s cmds).2 ++ (chip.exec (chip.run s cmds).1 cmd.encode).2) := by
  simp [run_append, run]

theorem shiftAll_append (s : σ) (cmd : UInt8) (xs ys : List (Option UInt8)) :
    chip.shiftAll s cmd (xs ++ ys) =
      ((chip.shiftAll (chip.shiftAll s cmd xs).1 cmd ys).1,
        (chip.shiftAll s cmd xs).2 ++ (chip.shiftAll (chip.shiftAll s cmd xs).1 cmd ys).2) := by
  induction xs generalizing s with
  | nil => rfl
  | cons byte xs ih => simp only [List.cons_append, shiftAll, ih]

theorem length_shiftAll (s : σ) (cmd : UInt8) (xs : List (Option UInt8)) :
    (chip.shiftAll s cmd xs).2.length = xs.length := by
  induction xs generalizing s with
  | nil => rfl
  | cons byte xs ih => simp [shiftAll, ih]

end Chip

/-! ### Ranges of a byte shift -/

namespace ShiftBytes

def operands (op : ShiftBytes) (start count : Nat) : List (Option UInt8) :=
  if op.writes then ((op.dataOut.drop start).take count).map some else List.replicate count none

theorem operands_append (op : ShiftBytes) (start first second : Nat) :
    op.operands start (first + second) = op.operands start first ++ op.operands (start + first) second := by
  unfold operands
  split
  · rw [List.take_add, List.map_append, List.drop_drop]
  · rw [List.replicate_add]

theorem cmdByte_flags (op : ShiftBytes) :
    op.cmdByte &&& (MpsseCmd.bits ||| MpsseCmd.tms ||| MpsseCmd.management) = 0 ∧
      (op.cmdByte &&& MpsseCmd.write ≠ 0 ↔ op.writes = true) ∧ (op.cmdByte &&& MpsseCmd.read ≠ 0 ↔ op.read = true) := by
  have all : ∀ write writeNeg lsb read readNeg : Bool,
      let cmd := flag write MpsseCmd.write ||| flag writeNeg MpsseCmd.writeNeg ||| flag lsb MpsseCmd.lsb |||
        flag read MpsseCmd.read ||| flag readNeg MpsseCmd.readNeg
      cmd &&& (MpsseCmd.bits ||| MpsseCmd.tms ||| MpsseCmd.management) = 0 ∧
        (cmd &&& MpsseCmd.write ≠ 0 ↔ write = true) ∧ (cmd &&& MpsseCmd.read ≠ 0 ↔ read = true) := by
    decide
  exact all op.writes (op.writePol ≠ .plus) op.lsbFirst op.read (op.read && op.readPol ≠ .plus)

theorem byteCount_of_writes {op : ShiftBytes} (writes : op.writes = true) : op.byteCount = op.dataOut.length := by
  unfold ShiftBytes.writes at writes
  unfold byteCount
  split at writes <;> simp_all

theorem dataOut_of_not_writes {op : ShiftBytes} (writes : op.writes = false) : op.dataOut = [] := by
  unfold ShiftBytes.writes at writes
  unfold dataOut
  split at writes <;> simp_all

theorem length_operands {op : ShiftBytes} {start count : Nat} (inside : start + count ≤ op.byteCount) :
    (op.operands start count).length = count := by
  unfold operands
  split
  · rename_i writes
    rw [byteCount_of_writes writes] at inside
    rw [List.length_map, List.length_take, List.length_drop]
    omega
  · rw [List.length_replicate]

theorem exec_range {σ : Type} {chip : Chip σ} (documented : chip.Documented) (s : σ) {op : ShiftBytes} (valid : op.Valid)
    {start count : Nat} (some : 1 ≤ count) (inside : start + count ≤ op.byteCount) :
    chip.exec s (op.encodeRange start count) =
      ((chip.shiftAll s op.cmdByte (op.operands start count)).1,
        if op.read then (chip.shiftAll s op.cmdByte (op.operands start count)).2 else []) := by
  obtain ⟨plain, write, read⟩ := op.cmdByte_flags
  have fits := valid.2.2
  have value : (UInt8.ofNat ((count - 1) % 256)).toNat + 256 * (UInt8.ofNat ((count - 1) / 256)).toNat + 1 = count := by
    rw [UInt8.toNat_ofNat', UInt8.toNat_ofNat']
    omega
  rw [encodeRange, documented.shiftBytes s _ _ _ _ plain]
  · simp only [value, write, read, operands, List.map_take, List.map_drop]
  · rw [value]
    by_cases writes : op.writes = true
    · rw [if_pos (write.mpr writes), List.length_take, List.length_drop, ← byteCount_of_writes writes]
      omega
    · rw [if_neg fun set => writes (write.mp set), dataOut_of_not_writes (by simpa using writes)]
      simp

theorem run_ranges {σ : Type} {chip : Chip σ} (documented : chip.Documented) (s : σ) {op : ShiftBytes} (valid : op.Valid)
    {start first second : Nat} (some : 1 ≤ first) (more : 1 ≤ second) (inside : start + first + second ≤ op.byteCount) :
    chip.run s [.range op start first, .range op (start + first) second] = chip.run s [.range op start (first + second)] := by
  have whole := exec_range documented s valid (show 1 ≤ first + second by omega) (by omega : start + (first + second) ≤ _)
  have left := exec_range documented s valid some (by omega : start + first ≤ _)
  have right := fun s => exec_range documented s valid more inside
  simp only [Chip.run, Command.encode, whole, left, right, operands_append, Chip.shiftAll_append, List.append_nil]
  split <;> simp

end ShiftBytes

theorem strip_append (data more : Bytes) {start : Nat} {offsets : List Nat}
    (inside : ∀ offset ∈ offsets, offset < data.length) (first : start ≤ data.length) :
    strip (data ++ more) start offsets = strip data start offsets ++ more := by
  induction offsets generalizing start with
  | nil => rw [strip, strip, List.drop_append_of_le_length first]
  | cons offset offsets ih =>
    have here := inside offset List.mem_cons_self
    rw [strip, strip, ih (fun other member => inside other (List.mem_cons_of_mem _ member)) (by omega),
      List.take_append_of_le_length (by omega), List.append_assoc]

theorem strip_concat (data : Bytes) (byte : UInt8) {start : Nat} {offsets : List Nat}
    (inside : ∀ offset ∈ offsets, offset < data.length) (first : start ≤ data.length) :
    strip (data ++ [byte]) start (offsets ++ [data.length]) = strip data start offsets := by
  induction offsets generalizing start with
  | nil =>
    have last : (data ++ [byte]).drop (data.length + 1) = [] := List.drop_eq_nil_of_le (by simp)
    simp only [List.nil_append, strip, List.take_left, last, List.append_nil]
  | cons offset offsets ih =>
    have here := inside offset List.mem_cons_self
    rw [List.cons_append, strip, strip, ih (fun other member => inside other (List.mem_cons_of_mem _ member)) (by omega),
      List.take_append_of_le_length (by omega)]

/-! ### The response of the stream -/

section
variable {σ : Type} {chip : Chip σ} {s : σ} {asked : List Command} {st : CommandStream}

/-- The stream leaves the chip where the commands that were asked for would leave it, and answers what
they would answer once the fillers are out. -/
structure Matches (chip : Chip σ) (s : σ) (asked : List Command) (st : CommandStream) : Prop where
  state : (chip.run s st.commands).1 = (chip.run s asked).1
  length : (chip.run s st.commands).2.length = st.rspLen
  inside : ∀ offset ∈ st.filler, offset < st.rspLen
  stripped : strip (chip.run s st.commands).2 0 st.filler = (chip.run s asked).2

theorem Matches.congr (found : Matches chip s asked st) {asked' : List Command}
    (same : chip.run s asked = chip.run s asked') : Matches chip s asked' st :=
  ⟨same ▸ found.state, found.length, found.inside, same ▸ found.stripped⟩

theorem Matches.emit (found : Matches chip s asked st) (cmd : Command) (size clocked : Nat)
    (answers : (chip.exec (chip.run s asked).1 cmd.encode).2.length = size) :
    Matches chip s (asked ++ [cmd])
      { commands := st.commands ++ [cmd], filler := st.filler, rspLen := st.rspLen + size, clocked } := by
  constructor
  · simp only [Chip.run_concat, found.state]
  · simp only [Chip.run_concat, found.state, List.length_append, found.length, answers]
  · intro offset member
    exact Nat.lt_add_right size (found.inside offset member)
  · simp only [Chip.run_concat]
    rw [strip_append _ _ (found.length ▸ found.inside) (Nat.zero_le _), found.stripped, found.state]

theorem Matches.filler (documented : chip.Documented) (found : Matches chip s asked st) (clocked : Nat) :
    Matches chip s asked
      { commands := st.commands ++ [.getBitsLow], filler := st.filler ++ [st.rspLen], rspLen := st.rspLen + 1, clocked } := by
  obtain ⟨pins, read⟩ := documented.getBitsLow (chip.run s st.commands).1
  have ran : chip.run s (st.commands ++ [.getBitsLow]) = ((chip.run s st.commands).1, (chip.run s st.commands).2 ++ [pins]) := by
    rw [Chip.run_concat, Command.encode, read]
  constructor
  · rw [ran]
    exact found.state
  · rw [ran, List.length_append, found.length]
    rfl
  · intro offset member
    rcases List.mem_append.mp member with old | new
    · exact Nat.lt_succ_of_lt (found.inside offset old)
    · rw [List.mem_singleton.mp new]
      exact Nat.lt_succ_self _
  · dsimp only
    rw [ran, ← found.length, strip_concat _ _ (found.length ▸ found.inside) (Nat.zero_le _)]
    exact found.stripped

theorem Matches.sendImmediate (documented : chip.Documented) (found : Matches chip s asked st) :
    Matches chip s asked { st with commands := st.commands ++ [.sendImmediate] } := by
  have ran : chip.run s (st.commands ++ [.sendImmediate]) = chip.run s st.commands := by
    rw [Chip.run_concat, Command.encode, documented.sendImmediate, List.append_nil]
  constructor
  · rw [ran]
    exact found.state
  · rw [ran]
    exact found.length
  · exact found.inside
  · rw [ran]
    exact found.stripped

theorem Matches.keepalive (documented : chip.Documented) (found : Matches chip s asked st) :
    Matches chip s asked st.keepalive := by
  have both := (found.filler documented 0).sendImmediate documented
  rw [List.append_assoc] at both
  exact both

def covered (op : ShiftBytes) (count : Nat) : List Command := if count = 0 then [] else [.range op 0 count]

theorem run_covered (documented : chip.Documented) {op : ShiftBytes} (valid : op.Valid) {start count : Nat}
    (some : 1 ≤ count) (inside : start + count ≤ op.byteCount) :
    chip.run s (asked ++ covered op start ++ [.range op start count]) = chip.run s (asked ++ covered op (start + count)) := by
  unfold covered
  rw [if_neg (by omega : start + count ≠ 0)]
  by_cases first : start = 0
  · rw [if_pos first, first, List.append_nil, Nat.zero_add]
  · rw [if_neg first, List.append_assoc, Chip.run_append, Chip.run_append s asked [_]]
    have merged := ShiftBytes.run_ranges documented (chip.run s asked).1 valid (by omega : 1 ≤ start) some
      (by omega : 0 + start + count ≤ op.byteCount)
    rw [Nat.zero_add] at merged
    rw [List.singleton_append, merged]

theorem emitRange_matches (documented : chip.Documented) {op : ShiftBytes} (valid : op.Valid) {step start : Nat}
    (some : 1 ≤ step) (inside : start < op.byteCount) (found : Matches chip s (asked ++ covered op start) st) :
    Matches chip s (asked ++ covered op (min (start + step) op.byteCount)) (st.emitRange op step start) := by
  have cleared : Matches chip s (asked ++ covered op start) (if st.clocked ≠ 0 then st.keepalive else st) := by
    split
    · exact found.keepalive documented
    · exact found
  unfold CommandStream.emitRange
  generalize (if st.clocked ≠ 0 then st.keepalive else st) = st' at cleared
  obtain ⟨count, same⟩ : ∃ count, count = min step (op.byteCount - start) := ⟨_, rfl⟩
  have size : (chip.exec (chip.run s (asked ++ covered op start)).1 (Command.range op start count).encode).2.length =
      if op.read then count else 0 := by
    rw [Command.encode, ShiftBytes.exec_range documented _ valid (by omega) (by omega)]
    split
    · rw [Chip.length_shiftAll, ShiftBytes.length_operands (by omega)]
    · rfl
  have emitted := cleared.emit (.range op start count) _ (count * 8) size
  have total : (if op.read then st'.rspLen + count else st'.rspLen) = st'.rspLen + if op.read then count else 0 := by
    split <;> simp
  have reached : min (start + step) op.byteCount = start + count := by omega
  simp only [← same, total, reached]
  exact emitted.congr (run_covered documented valid (by omega) (by omega))

theorem emitRanges_matches (documented : chip.Documented) {op : ShiftBytes} (valid : op.Valid) {step : Nat}
    (some : 1 ≤ step) (found : Matches chip s asked st) {rounds : Nat}
    (within : rounds ≤ (op.byteCount + step - 1) / step) :
    Matches chip s (asked ++ covered op (min (step * rounds) op.byteCount))
      (((List.range rounds).map (step * ·)).foldl (CommandStream.emitRange op step) st) := by
  induction rounds with
  | zero => simpa [covered] using found
  | succ rounds ih =>
    have before := ih (by omega)
    have reach := (Nat.le_div_iff_mul_le some).mp within
    rw [Nat.succ_mul, Nat.mul_comm rounds] at reach
    rw [Nat.min_eq_left (by omega)] at before
    rw [List.range_succ, List.map_append, List.foldl_append, Nat.mul_succ]
    exact emitRange_matches documented valid some (by omega) before

theorem ranges_cover {step : Nat} (some : 1 ≤ step) (stop : Nat) : min (step * ((stop + step - 1) / step)) stop = stop := by
  have parts := Nat.div_add_mod (stop + step - 1) step
  have below := Nat.mod_lt (stop + step - 1) some
  omega

theorem lowerOp_matches (documented : chip.Documented) {budget : Nat} (least : 8 ≤ budget) {op : Operation}
    (valid : op.Valid) (found : Matches chip s asked st) :
    Matches chip s (asked ++ [.operation op]) (st.lowerOp budget op) := by
  have cleared : Matches chip s asked
      (if st.clocked ≠ 0 ∧ budget < st.clocked + op.cycleCount then st.keepalive else st) := by
    split
    · exact found.keepalive documented
    · exact found
  unfold CommandStream.lowerOp
  generalize (if st.clocked ≠ 0 ∧ budget < st.clocked + op.cycleCount then st.keepalive else st) = st' at cleared
  have whole : Matches chip s (asked ++ [.operation op]) (st'.emitOp op) :=
    cleared.emit (.operation op) _ _ (documented.answers _ op valid)
  cases op with
  | shiftBytes shift =>
    dsimp only
    split
    · have some : 1 ≤ budget / 8 := by omega
      have ranges := emitRanges_matches documented valid some cleared (Nat.le_refl _)
      have positive : shift.byteCount ≠ 0 := by
        have := valid.2.1
        omega
      rw [ranges_cover some, covered, if_neg positive] at ranges
      refine ranges.congr ?_
      rw [Chip.run_concat, Chip.run_concat]
      rfl
    · exact whole
  | _ => exact whole

theorem lower_matches (documented : chip.Documented) {cycles : Bool → Nat → Nat}
    (least : ∀ div5 divisor, 8 ≤ cycles div5 divisor) {batch : List Operation} (valid : ∀ op ∈ batch, op.Valid)
    {engine : Engine} (found : Matches chip s asked st) :
    Matches chip s (asked ++ batch.map .operation) (engine.lower cycles st batch).2 := by
  induction batch generalizing engine st asked with
  | nil => simpa [Engine.lower] using found
  | cons op batch ih =>
    rw [Engine.lower, List.map_cons, ← List.singleton_append, ← List.append_assoc]
    apply ih (fun other member => valid other (List.mem_cons_of_mem _ member))
    exact lowerOp_matches documented (least ..) (valid op List.mem_cons_self) found

/-- The bytes of the brackets answer nothing. -/
def Engine.Silent (engine : Engine) (chip : Chip σ) : Prop :=
  ∀ bytes ∈ [engine.bracketPre, engine.bracketPost], bytes ≠ [] → ∀ s, (chip.exec s bytes).2 = []

def Engine.closing (engine : Engine) : List Command := if engine.bracketPost ≠ [] then [.bracket engine.bracketPost] else []

theorem opening_matches {engine : Engine} (silent : engine.Silent chip) :
    Matches chip s engine.opening { commands := engine.opening } := by
  have quiet : (chip.run s engine.opening).2 = [] := by
    unfold Engine.opening
    split
    · rename_i bracket
      simp [Chip.run, Command.encode, silent _ (by simp) bracket]
    · rfl
  exact ⟨rfl, by rw [quiet]; rfl, nofun, rfl⟩

theorem finish_matches (documented : chip.Documented) {engine : Engine} (silent : engine.Silent chip)
    (found : Matches chip s asked st) : Matches chip s (asked ++ engine.closing) (st.finish engine.bracketPost) := by
  have closed : Matches chip s (asked ++ engine.closing)
      (if engine.bracketPost ≠ [] then { st with commands := st.commands ++ [.bracket engine.bracketPost] } else st) := by
    unfold Engine.closing
    split
    · rename_i bracket
      exact found.emit (.bracket engine.bracketPost) 0 st.clocked (by simp [Command.encode, silent _ (by simp) bracket])
    · rwa [List.append_nil]
  unfold CommandStream.finish
  generalize (if engine.bracketPost ≠ [] then { st with commands := st.commands ++ [.bracket engine.bracketPost] } else st) =
    st' at closed
  dsimp only
  split
  · exact (closed.filler documented st'.clocked).sendImmediate documented
  · exact closed.sendImmediate documented

end

theorem Engine.lower_brackets (cycles : Bool → Nat → Nat) (engine : Engine) (st : CommandStream) (batch : List Operation) :
    (engine.lower cycles st batch).1.bracketPost = engine.bracketPost ∧
      (engine.lower cycles st batch).1.bracketPre = engine.bracketPre := by
  induction batch generalizing engine st with
  | nil => exact ⟨rfl, rfl⟩
  | cons op batch ih =>
    obtain ⟨post, pre⟩ := ih (engine.setClock op) (st.lowerOp (cycles (engine.setClock op).div5 (engine.setClock op).divisor) op)
    rw [Engine.lower, post, pre]
    cases op <;> exact ⟨rfl, rfl⟩

/-! ### What is left without the fillers -/

def Command.inserted : Command → Bool
  | .getBitsLow | .sendImmediate => true
  | _ => false

/-- The bytes that a byte shift clocks. -/
def Command.operands : Command → List (Option UInt8)
  | .operation (.shiftBytes op) => op.operands 0 op.byteCount
  | .range op start count => op.operands start count
  | _ => []

/-- Ranges of a byte shift, each from where the one before ends. -/
def consecutive (op : ShiftBytes) (start : Nat) : List Nat → List Command
  | [] => []
  | count :: counts => .range op start count :: consecutive op (start + count) counts

/-- An operation as it is, or a byte shift in consecutive ranges that clock its bytes. -/
def Carries (op : Operation) (pieces : List Command) : Prop :=
  pieces = [.operation op] ∨ ∃ shift counts, op = .shiftBytes shift ∧ pieces = consecutive shift 0 counts ∧
    (∀ count ∈ counts, 1 ≤ count) ∧ counts.sum = shift.byteCount ∧
    pieces.flatMap Command.operands = Command.operands (.operation op)

theorem consecutive_append (op : ShiftBytes) (start : Nat) (xs ys : List Nat) :
    consecutive op start (xs ++ ys) = consecutive op start xs ++ consecutive op (start + xs.sum) ys := by
  induction xs generalizing start with
  | nil => rfl
  | cons count xs ih => simp [consecutive, ih, Nat.add_assoc]

theorem consecutive_operands (op : ShiftBytes) (start : Nat) (counts : List Nat) :
    (consecutive op start counts).flatMap Command.operands = op.operands start counts.sum := by
  induction counts generalizing start with
  | nil => simp [consecutive, ShiftBytes.operands]
  | cons count counts ih =>
    rw [consecutive, List.flatMap_cons, ih, List.sum_cons, ShiftBytes.operands_append]
    rfl

namespace CommandStream
variable (st : CommandStream)

def asked : List Command := st.commands.filter (!·.inserted)

theorem asked_keepalive : st.keepalive.asked = st.asked := by simp [asked, keepalive, Command.inserted]

theorem asked_emitRange (op : ShiftBytes) (step start : Nat) :
    (st.emitRange op step start).asked = st.asked ++ [.range op start (min step (op.byteCount - start))] := by
  unfold emitRange
  split
  · rw [← asked_keepalive st]
    simp [asked, Command.inserted]
  · simp [asked, Command.inserted]

theorem asked_emitRanges (op : ShiftBytes) {step : Nat} (some : 1 ≤ step) {rounds : Nat}
    (within : rounds ≤ (op.byteCount + step - 1) / step) :
    ∃ counts : List Nat, counts.sum = min (step * rounds) op.byteCount ∧ (∀ count ∈ counts, 1 ≤ count) ∧
      (((List.range rounds).map (step * ·)).foldl (emitRange op step) st).asked = st.asked ++ consecutive op 0 counts := by
  induction rounds with
  | zero => exact ⟨[], by simp, nofun, (List.append_nil _).symm⟩
  | succ rounds ih =>
    obtain ⟨counts, sum, positive, asked⟩ := ih (by omega)
    have reach := (Nat.le_div_iff_mul_le some).mp within
    rw [Nat.succ_mul, Nat.mul_comm rounds] at reach
    rw [Nat.min_eq_left (by omega)] at sum
    refine ⟨counts ++ [min step (op.byteCount - step * rounds)], ?_, ?_, ?_⟩
    · rw [List.sum_append, sum, List.sum_singleton, Nat.mul_succ]
      omega
    · intro count member
      rcases List.mem_append.mp member with old | new
      · exact positive count old
      · rw [List.mem_singleton.mp new]
        omega
    · rw [List.range_succ, List.map_append, List.foldl_append, consecutive_append, sum, Nat.zero_add, ← List.append_assoc,
        ← asked]
      exact asked_emitRange _ op step (step * rounds)

theorem asked_lowerOp {budget : Nat} (least : 8 ≤ budget) (op : Operation) :
    ∃ pieces, Carries op pieces ∧ (st.lowerOp budget op).asked = st.asked ++ pieces := by
  have cleared : (if st.clocked ≠ 0 ∧ budget < st.clocked + op.cycleCount then st.keepalive else st).asked = st.asked := by
    split
    · exact st.asked_keepalive
    · rfl
  unfold lowerOp
  generalize (if st.clocked ≠ 0 ∧ budget < st.clocked + op.cycleCount then st.keepalive else st) = st' at cleared
  have whole : ∃ pieces, Carries op pieces ∧ (st'.emitOp op).asked = st.asked ++ pieces :=
    ⟨[.operation op], .inl rfl, by rw [← cleared]; simp [asked, emitOp, Command.inserted]⟩
  cases op with
  | shiftBytes shift =>
    dsimp only
    split
    · have some : 1 ≤ budget / 8 := by omega
      obtain ⟨counts, sum, positive, asked⟩ := st'.asked_emitRanges shift some (Nat.le_refl _)
      rw [ranges_cover some] at sum
      refine ⟨consecutive shift 0 counts, .inr ⟨shift, counts, rfl, rfl, positive, sum, ?_⟩, cleared ▸ asked⟩
      rw [consecutive_operands, sum]
      rfl
    · exact whole
  | _ => exact whole

theorem asked_finish (bracketPost : Bytes) :
    (st.finish bracketPost).asked = st.asked ++ if bracketPost ≠ [] then [.bracket bracketPost] else [] := by
  unfold finish asked
  dsimp only
  split <;> split <;> simp [Command.inserted]

end CommandStream

theorem Engine.asked_lower {cycles : Bool → Nat → Nat} (least : ∀ div5 divisor, 8 ≤ cycles div5 divisor) (engine : Engine)
    (st : CommandStream) (batch : List Operation) :
    ∃ pieces, List.Forall₂ Carries batch pieces ∧ (engine.lower cycles st batch).2.asked = st.asked ++ pieces.flatten := by
  induction batch generalizing engine st with
  | nil => exact ⟨[], .nil, (List.append_nil _).symm⟩
  | cons op batch ih =>
    rw [Engine.lower]
    obtain ⟨piece, carries, one⟩ := st.asked_lowerOp (least (engine.setClock op).div5 (engine.setClock op).divisor) op
    obtain ⟨pieces, all, rest⟩ := ih (engine.setClock op) _
    exact ⟨piece :: pieces, .cons carries all, by rw [rest, one, List.flatten_cons, List.append_assoc]⟩

/-! ### Transparency -/

/-- The response without the fillers is that of the operations alone, and so is what they leave of the
chip; without the fillers the stream is the operations, some byte shifts in ranges. -/
theorem keepalive_transparent {σ : Type} {chip : Chip σ} (documented : chip.Documented) {cycles : Bool → Nat → Nat}
    (least : ∀ div5 divisor, 8 ≤ cycles div5 divisor) {engine : Engine} (silent : engine.Silent chip)
    {batch : List Operation} (valid : ∀ op ∈ batch, op.Valid) (s : σ) :
    let st := (engine.flushOps cycles batch).2
    let rsp := chip.run s st.commands
    let plain := chip.run s (engine.opening ++ batch.map .operation ++ engine.closing)
    rsp.1 = plain.1 ∧ rsp.2.length = st.rspLen ∧ readDone rsp.2 st.filler batch = readDone plain.2 [] batch ∧
      ∃ pieces, List.Forall₂ Carries batch pieces ∧ st.asked = engine.opening ++ pieces.flatten ++ engine.closing := by
  intro st rsp plain
  have brackets := engine.lower_brackets cycles { commands := engine.opening } batch
  have flushed : st = (engine.lower cycles { commands := engine.opening } batch).2.finish engine.bracketPost := by
    rw [← brackets.1]
    rfl
  have matched : Matches chip s (engine.opening ++ batch.map .operation ++ engine.closing) st := by
    rw [flushed]
    exact finish_matches documented silent (lower_matches documented least valid (opening_matches silent))
  refine ⟨matched.state, matched.length, ?_, ?_⟩
  · have stripped : strip rsp.2 0 st.filler = plain.2 := matched.stripped
    unfold readDone
    rw [if_neg (by simp : ¬([] : List Nat) ≠ []), ← stripped]
    split
    · rfl
    · rename_i none
      rw [not_not.mp none]
      rfl
  · obtain ⟨pieces, all, asked⟩ := engine.asked_lower least { commands := engine.opening } batch
    have opened : CommandStream.asked { commands := engine.opening } = engine.opening := by
      unfold CommandStream.asked Engine.opening
      split <;> rfl
    refine ⟨pieces, all, ?_⟩
    rw [flushed, CommandStream.asked_finish, asked, opened]
    rfl

/-- Data out comes back in; the state counts the bytes. -/
def loopback : Chip Nat where
  shift s _ byte := (s + 1, byte.getD 0xff)
  exec s bytes :=
    match bytes with
    | cmd :: low :: high :: data =>
      if cmd &&& (MpsseCmd.bits ||| MpsseCmd.tms ||| MpsseCmd.management) = 0 then
        let shifted := if cmd &&& MpsseCmd.write ≠ 0 then data else List.replicate (low.toNat + 256 * high.toNat + 1) 0xff
        (s + shifted.length, if cmd &&& MpsseCmd.read ≠ 0 then shifted else [])
      else (s, if cmd &&& MpsseCmd.management = 0 ∧ cmd &&& MpsseCmd.read ≠ 0 then [0xff] else [])
    | cmd :: _ =>
      (s, if cmd = MpsseCmd.getBitsLow ∨ cmd = MpsseCmd.getBitsHigh ∨
          cmd &&& MpsseCmd.management = 0 ∧ cmd &&& MpsseCmd.read ≠ 0 then [0xff] else [])
    | [] => (s, [])

theorem loopback_shift (s : Nat) (cmd : UInt8) (byte : Option UInt8) :
    loopback.shift s cmd byte = (s + 1, byte.getD 0xff) := rfl

theorem loopback_shiftAll (s : Nat) (cmd : UInt8) (xs : List (Option UInt8)) :
    loopback.shiftAll s cmd xs = (s + xs.length, xs.map (·.getD 0xff)) := by
  induction xs generalizing s with
  | nil => rfl
  | cons byte xs ih =>
    rw [Chip.shiftAll, loopback_shift]
    simp [ih, Nat.add_assoc, Nat.add_comm 1]

theorem loopback_shiftBytes (s : Nat) (cmd low high : UInt8) (data : Bytes)
    (plain : cmd &&& (MpsseCmd.bits ||| MpsseCmd.tms ||| MpsseCmd.management) = 0) :
    loopback.exec s (cmd :: low :: high :: data) =
      let done := loopback.shiftAll s cmd (if cmd &&& MpsseCmd.write ≠ 0 then data.map some
        else List.replicate (low.toNat + 256 * high.toNat + 1) none)
      (done.1, if cmd &&& MpsseCmd.read ≠ 0 then done.2 else []) := by
  rw [loopback_shiftAll]
  simp only [loopback, if_pos plain]
  split <;> simp [Function.comp_def]

theorem ShiftBits.cmdByte_flags (op : ShiftBits) :
    op.cmdByte &&& (MpsseCmd.bits ||| MpsseCmd.tms ||| MpsseCmd.management) ≠ 0 ∧
      op.cmdByte &&& MpsseCmd.management = 0 ∧ op.cmdByte ≠ MpsseCmd.getBitsLow ∧ op.cmdByte ≠ MpsseCmd.getBitsHigh ∧
      (op.cmdByte &&& MpsseCmd.read ≠ 0 ↔ op.read = true) := by
  have all : ∀ lsb writeNeg write read readNeg : Bool,
      let cmd := MpsseCmd.bits ||| flag lsb MpsseCmd.lsb ||| flag writeNeg MpsseCmd.writeNeg |||
        flag write MpsseCmd.write ||| flag read MpsseCmd.read ||| flag readNeg MpsseCmd.readNeg
      cmd &&& (MpsseCmd.bits ||| MpsseCmd.tms ||| MpsseCmd.management) ≠ 0 ∧ cmd &&& MpsseCmd.management = 0 ∧
        cmd ≠ MpsseCmd.getBitsLow ∧ cmd ≠ MpsseCmd.getBitsHigh ∧ (cmd &&& MpsseCmd.read ≠ 0 ↔ read = true) := by
    decide
  exact all op.lsbFirst (op.writePol ≠ .plus) op.data.isSome op.read (op.read && op.readPol ≠ .plus)

theorem ShiftTms.cmdByte_flags (op : ShiftTms) :
    op.cmdByte &&& (MpsseCmd.bits ||| MpsseCmd.tms ||| MpsseCmd.management) ≠ 0 ∧
      op.cmdByte &&& MpsseCmd.management = 0 ∧ (op.cmdByte &&& MpsseCmd.read ≠ 0 ↔ op.read = true) := by
  have all : ∀ writeNeg read readNeg : Bool,
      let cmd := MpsseCmd.bits ||| MpsseCmd.tms ||| MpsseCmd.lsb ||| flag writeNeg MpsseCmd.writeNeg |||
        flag read MpsseCmd.read ||| flag readNeg MpsseCmd.readNeg
      cmd &&& (MpsseCmd.bits ||| MpsseCmd.tms ||| MpsseCmd.management) ≠ 0 ∧ cmd &&& MpsseCmd.management = 0 ∧
        (cmd &&& MpsseCmd.read ≠ 0 ↔ read = true) := by
    decide
  exact all (op.writePol ≠ .plus) op.read (op.read && op.readPol ≠ .plus)

theorem loopback_answers (s : Nat) (op : Operation) (valid : op.Valid) :
    (loopback.exec s op.encode).2.length = op.rspSize := by
  cases op with
  | shiftBytes op =>
    obtain ⟨plain, write, read⟩ := op.cmdByte_flags
    have fits := valid.2
    rw [Operation.encode, ShiftBytes.encode, ShiftBytes.encodeRange, loopback_shiftBytes _ _ _ _ _ plain]
    simp only [Operation.rspSize, ShiftBytes.rspSize, read]
    split
    · rw [Chip.length_shiftAll]
      by_cases writes : op.writes = true
      · rw [if_pos (write.mpr writes)]
        simp [ShiftBytes.byteCount_of_writes writes]
      · rw [if_neg fun set => writes (write.mp set), List.length_replicate, UInt8.toNat_ofNat', UInt8.toNat_ofNat']
        omega
    · rfl
  | shiftBits op =>
    obtain ⟨bits, plain, low, high, read⟩ := op.cmdByte_flags
    cases data : op.data <;>
      simp only [Operation.encode, ShiftBits.encode, data, Option.map_none, Option.map_some, Option.toList, loopback, bits,
        low, high, plain, read, if_false, false_or, true_and, Operation.rspSize] <;>
      split <;> rfl
  | shiftTms op =>
    obtain ⟨bits, plain, read⟩ := op.cmdByte_flags
    simp only [Operation.encode, ShiftTms.encode, loopback, bits, plain, read, if_false, true_and, Operation.rspSize]
    split <;> rfl
  | loopback enable | clockDiv5 enable | threePhase enable | adaptive enable => cases enable <;> rfl
  | _ => rfl

theorem loopback_documented : loopback.Documented where
  getBitsLow _ := ⟨0xff, rfl⟩
  sendImmediate _ := rfl
  shiftBytes s cmd low high data plain _ := loopback_shiftBytes s cmd low high data plain
  answers := loopback_answers

theorem keepalive_transparent_loopback :
    let engine : Engine := { div5 := true, divisor := 65536 }
    let batch : List Operation := [.clockBits 3, .shiftBytes { data := .bytes [1, 2, 3], read := true }, .getBitsLow]
    let st := (engine.flushOps (fun _ _ => 8) batch).2
    st.filler.length = 4 ∧ readDone (loopback.run 0 st.commands).2 st.filler batch = [none, some [1, 2, 3], some [0xff]] := by
  intro engine batch st
  have silent : engine.Silent loopback := by
    intro bytes member
    simp [engine] at member
    simp [member]
  have transparent := @keepalive_transparent Nat loopback loopback_documented (fun _ _ => 8) (fun _ _ => Nat.le_refl 8)
    engine silent batch (by decide) 0
  refine ⟨by decide, transparent.2.2.1.trans (by decide)⟩

end Acrobe.Ftdi
