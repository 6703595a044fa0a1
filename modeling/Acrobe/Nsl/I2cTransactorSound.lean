import Acrobe.Nsl.I2cTransactor

/-!
# Responses of the I2C transactor

A batch is answered in the size that the encoder counts, and each transfer gets the acknowledges and the bytes of its
own.
-/

namespace Acrobe.Nsl.I2cTransactor
open LittleEndian CommandStream

def Command.size : Command → Nat
  | .write data => data.length
  | .read _ count => count
  | _ => 1

namespace Device

variable {σ : Type} (device : Device σ)

@[simp] theorem length_writeAll (s : σ) (data : Bytes) : (device.writeAll s data).2.length = data.length := by
  induction data generalizing s with
  | nil => rfl
  | cons byte data ih => simp only [writeAll, List.length_cons, ih]

@[simp] theorem length_readAll (s : σ) (ack : Bool) (count : Nat) : (device.readAll s ack count).2.length = count := by
  induction count generalizing s with
  | zero => rfl
  | succ count ih => simp only [readAll, List.length_cons, ih]

theorem writeAll_append (s : σ) (front back : Bytes) :
    device.writeAll s (front ++ back) = ((device.writeAll (device.writeAll s front).1 back).1,
      (device.writeAll s front).2 ++ (device.writeAll (device.writeAll s front).1 back).2) := by
  induction front generalizing s with
  | nil => rfl
  | cons byte front ih => simp only [List.cons_append, writeAll, ih]

theorem readAll_add (s : σ) (ack : Bool) (front : Nat) {back : Nat} (more : 0 < back) :
    device.readAll s ack (front + back) = ((device.readAll (device.readAll s true front).1 ack back).1,
      (device.readAll s true front).2 ++ (device.readAll (device.readAll s true front).1 ack back).2) := by
  induction front generalizing s with
  | zero => rw [Nat.zero_add]; rfl
  | succ front ih =>
    have later : (front + back != 0) = true := by
      rw [bne_iff_ne]
      omega
    rw [Nat.add_right_comm]
    simp only [readAll, later, Bool.or_true, Bool.true_or, ih, List.cons_append]

end Device

theorem sized {σ : Type} (device : Device σ) : device.machine.Sized Command.size := by
  intro s command
  cases command <;> simp [Device.machine, Device.answer, Command.size]

/-! ### Reading commands back -/

theorem interprets_div {divisor : Nat} (fits : divisor ≤ 0x1f) :
    Interprets fetch [UInt8.ofNat (cmdDiv ||| divisor)] [.div divisor] := by
  apply Interprets.one
  intro rest
  have code : cmdDiv ||| divisor = divisor := Nat.zero_or _
  rw [List.nil_append, code, fetch, toNat_code (by omega), if_pos (by omega)]

theorem interprets_start : Interprets fetch [cmdStart] [.start] := .one fun _ => rfl

theorem interprets_stop : Interprets fetch [cmdStop] [.stop] := .one fun _ => rfl

theorem interprets_write {data : Bytes} (positive : 0 < data.length) (fits : data.length ≤ 64) :
    Interprets fetch (UInt8.ofNat (cmdWrite ||| (data.length - 1)) :: data) [.write data] := by
  apply Interprets.one
  intro rest
  have code : cmdWrite ||| (data.length - 1) = 0x40 + (data.length - 1) := or_low (i := 6) (by omega) rfl
  have count : 0x40 + (data.length - 1) - 0x40 + 1 = data.length := by omega
  rw [code, fetch, toNat_code (by omega), if_neg (by omega), if_neg (by omega), if_pos (by omega), count,
    if_neg (by simp), List.take_left' rfl, List.drop_left' rfl]

theorem interprets_read (ack : Bool) {count : Nat} (positive : 0 < count) (fits : count ≤ 64) :
    Interprets fetch [UInt8.ofNat ((if ack then cmdReadAck else cmdReadNack) ||| (count - 1))] [.read ack count] := by
  apply Interprets.one
  intro rest
  cases ack with
  | true =>
    have code : cmdReadAck ||| (count - 1) = 0xc0 + (count - 1) := or_low (i := 6) (by omega) rfl
    simp only [if_true]
    rw [List.nil_append, code, fetch, toNat_code (by omega), if_neg (by omega), if_neg (by omega), if_neg (by omega),
      if_neg (by omega), show 0xc0 + (count - 1) - 0xc0 + 1 = count by omega]
  | false =>
    have code : cmdReadNack ||| (count - 1) = 0x80 + (count - 1) := or_low (i := 6) (by omega) rfl
    simp only [Bool.false_eq_true, if_false]
    rw [List.nil_append, code, fetch, toNat_code (by omega), if_neg (by omega), if_neg (by omega), if_neg (by omega),
      if_pos (by omega), show 0x80 + (count - 1) - 0x80 + 1 = count by omega]

/-! ### Phases of a transfer -/

/-- Commands without notes that have every bus do what `act` does, and are answered like it. -/
def Does (act : ∀ σ, Device σ → σ → σ × Bytes) (acc after : Encoding) : Prop :=
  ∃ commands, Emits fetch Command.size (silent commands) acc after ∧
    ∀ σ (device : Device σ) s, device.machine.after s commands = (act σ device s).1 ∧
      device.machine.answers s commands = (act σ device s).2

variable {acc between after : Encoding} {first second : ∀ σ, Device σ → σ → σ × Bytes}

theorem Does.append (front : Does first acc between) (back : Does second between after) :
    Does (fun σ device s => ((second σ device (first σ device s).1).1,
      (first σ device s).2 ++ (second σ device (first σ device s).1).2)) acc after := by
  obtain ⟨commands, emits, does⟩ := front
  obtain ⟨others, more, further⟩ := back
  refine ⟨commands ++ others, emits.silent_append more, ?_⟩
  intro σ device s
  obtain ⟨state, answers⟩ := does σ device s
  obtain ⟨states, others⟩ := further σ device (first σ device s).1
  rw [Machine.after_append, Machine.answers_append, state, answers, states, others]
  exact ⟨rfl, rfl⟩

theorem Does.congr {act : ∀ σ, Device σ → σ → σ × Bytes} (does : Does first acc after)
    (same : ∀ σ device s, first σ device s = act σ device s) : Does act acc after := by
  have equal : first = act := by
    funext σ device s
    exact same σ device s
  rwa [← equal]

theorem does_start (acc : Encoding) :
    Does (fun _ device s => ((device.start s).1, [(device.start s).2])) acc (acc.emit [cmdStart]) :=
  ⟨[.start], .emit interprets_start rfl acc, fun _ _ _ => ⟨rfl, rfl⟩⟩

theorem does_stop (acc : Encoding) :
    Does (fun _ device s => ((device.stop s).1, [(device.stop s).2])) acc (acc.emit [cmdStop]) :=
  ⟨[.stop], .emit interprets_stop rfl acc, fun _ _ _ => ⟨rfl, rfl⟩⟩

theorem does_write {data : Bytes} (positive : 0 < data.length) (fits : data.length ≤ 64) (acc : Encoding) :
    Does (fun _ device s => device.writeAll s data) acc (emitWrite acc data) := by
  refine ⟨[.write data], ⟨⟨_, rfl, interprets_write positive fits⟩, ?_, (List.append_nil _).symm⟩, ?_⟩
  · simp [emitWrite, silent, Command.size]
  · intro σ device s
    exact ⟨rfl, List.append_nil _⟩

theorem does_payload (data : Bytes) (acc : Encoding) :
    Does (fun _ device s => device.writeAll s data) acc (encodePayload acc data) := by
  match data with
  | [] =>
    unfold encodePayload
    exact ⟨[], .nil acc, fun _ _ _ => ⟨rfl, rfl⟩⟩
  | byte :: rest =>
    have length : ((byte :: rest).take maxChunk).length ≤ 64 := List.length_take_le _ _
    have positive : 0 < ((byte :: rest).take maxChunk).length := by simp [maxChunk]
    have both := (does_write positive length acc).append (does_payload ((byte :: rest).drop maxChunk) _)
    rw [encodePayload]
    apply both.congr
    intro σ device s
    rw [← device.writeAll_append, List.take_append_drop]
termination_by data.length
decreasing_by
  rw [List.length_drop, List.length_cons, maxChunk]
  omega

theorem does_read (ack : Bool) {count : Nat} (positive : 0 < count) (fits : count ≤ 64) (acc : Encoding) :
    Does (fun _ device s => device.readAll s ack count) acc
      ⟨acc.cmd ++ [UInt8.ofNat ((if ack then cmdReadAck else cmdReadNack) ||| (count - 1))], acc.rspSize + count,
        acc.gather⟩ := by
  refine ⟨[.read ack count], ⟨⟨_, rfl, interprets_read ack positive fits⟩, ?_, (List.append_nil _).symm⟩, ?_⟩
  · simp [silent, Command.size]
  · intro σ device s
    exact ⟨rfl, List.append_nil _⟩

/-- All chunks but the last one are acknowledged to the end. -/
theorem does_reads (remaining : Nat) (acc : Encoding) :
    Does (fun _ device s => device.readAll s false remaining) acc (encodeReads acc remaining) := by
  induction remaining using Nat.strongRecOn generalizing acc with
  | ind remaining ih =>
    have chunk : maxChunk = 64 := rfl
    unfold encodeReads
    split
    · next positive =>
      by_cases last : remaining - min remaining maxChunk = 0
      · have whole : min remaining maxChunk = remaining := by omega
        have one := does_read false positive (by omega) acc
        have none (acc : Encoding) : encodeReads acc 0 = acc := by rw [encodeReads, if_neg (Nat.lt_irrefl 0)]
        dsimp only
        rw [last, none, if_pos rfl, whole]
        exact one
      · have size : min remaining maxChunk = 64 := by omega
        have both := (does_read true (show 0 < 64 by decide) (by decide) acc).append (ih (remaining - 64) (by omega) _)
        dsimp only
        rw [if_neg last, size]
        apply both.congr
        intro σ device s
        rw [← device.readAll_add s false 64 (by omega), Nat.add_sub_cancel' (by omega)]
    · next none =>
      obtain rfl : remaining = 0 := by omega
      exact ⟨[], .nil acc, fun _ _ _ => ⟨rfl, rfl⟩⟩

/-! ### Transfers -/

theorem rspSize_emitWrite (acc : Encoding) (data : Bytes) : (emitWrite acc data).rspSize = acc.rspSize + data.length := rfl

theorem rspSize_encodePayload (acc : Encoding) (data : Bytes) :
    (encodePayload acc data).rspSize = acc.rspSize + data.length := by
  match data with
  | [] =>
    unfold encodePayload
    rfl
  | byte :: rest =>
    rw [encodePayload, rspSize_encodePayload, rspSize_emitWrite, Nat.add_assoc, ← List.length_append,
      List.take_append_drop]
termination_by data.length
decreasing_by
  rw [List.length_drop, List.length_cons, maxChunk]
  omega

/-- The bytes that the write phase is answered with. -/
def Transfer.writeLength (t : Transfer) : Nat := if t.dataW = [] then 0 else t.dataW.length + 1

/-- What is noted of a transfer whose answers begin at a place. -/
def Transfer.noted (t : Transfer) (opIdx itemIdx offset : Nat) : TransferGather where
  opIdx := opIdx
  itemIdx := itemIdx
  addrWRspOffset := if t.dataW = [] then 0 else offset + 1
  addrRRspOffset := if t.sizeR = 0 then 0 else offset + t.writeLength + 2
  writeRspOffset := if t.dataW = [] then 0 else offset + 2
  writeSize := t.dataW.length
  readRspOffset := if t.sizeR = 0 then 0 else offset + t.writeLength + 3
  readSize := t.sizeR
  addr := t.addr

namespace Device

variable {σ : Type} (device : Device σ)

/-- The write phase, if there is one, and its answers. -/
def written (s : σ) (t : Transfer) : σ × Bytes :=
  if t.dataW = [] then (s, [])
  else ((device.writePhase s t).1, (device.writePhase s t).2.1 :: (device.writePhase s t).2.2)

/-- The read phase, if there is one, and its answers. -/
def fetched (s : σ) (t : Transfer) : σ × Bytes :=
  if t.sizeR = 0 then (s, [])
  else ((device.readPhase s t).1, (device.start s).2 :: (device.readPhase s t).2.1 :: (device.readPhase s t).2.2)

/-- The answers to a transfer. -/
def transferAnswers (s : σ) (t : Transfer) : Bytes :=
  (device.start s).2 :: (device.written (device.start s).1 t).2 ++
    (device.fetched (device.written (device.start s).1 t).1 t).2 ++
    [(device.stop (device.fetched (device.written (device.start s).1 t).1 t).1).2]

end Device

theorem does_encodeWrite (t : Transfer) (acc : Encoding) :
    Does (fun _ device s => device.written s t) acc (encodeWrite t acc).1 := by
  unfold encodeWrite Device.written
  split
  · exact ⟨[], .nil acc, fun _ _ _ => ⟨rfl, rfl⟩⟩
  · exact ((does_write (show 0 < [writeAddress t.addr].length from Nat.one_pos) (by simp) acc).append
      (does_payload t.dataW _)).congr fun _ _ _ => rfl

theorem encodeRead_does {t : Transfer} (supported : (Item.transfer t).Supported) (acc : Encoding) :
    ∃ after, encodeRead t acc = .ok (after, if t.sizeR = 0 then 0 else acc.rspSize + 1,
        if t.sizeR = 0 then 0 else acc.rspSize + 2) ∧ Does (fun _ device s => device.fetched s t) acc after := by
  unfold encodeRead Device.fetched
  by_cases none : t.sizeR = 0
  · simp only [if_pos none]
    exact ⟨acc, rfl, [], .nil acc, fun _ _ _ => ⟨rfl, rfl⟩⟩
  · obtain sizeless | ⟨low, high⟩ := supported
    · exact absurd sizeless none
    · have address : readAddress t.addr = some (UInt8.ofNat (t.addr * 2 + 1).toNat) := if_pos ⟨by omega, by omega⟩
      simp only [if_neg none, address]
      refine ⟨_, rfl, ?_⟩
      exact (((does_start acc).append (does_write
        (show 0 < [UInt8.ofNat (t.addr * 2 + 1).toNat].length from Nat.one_pos) (by simp) _)).append (does_reads t.sizeR _)).congr fun _ _ _ => rfl

theorem encodeWrite_places (t : Transfer) (acc : Encoding) :
    encodeWrite t acc = ((encodeWrite t acc).1, if t.dataW = [] then 0 else acc.rspSize,
      if t.dataW = [] then 0 else acc.rspSize + 1) ∧
      (encodeWrite t acc).1.rspSize = acc.rspSize + t.writeLength := by
  unfold encodeWrite Transfer.writeLength
  split
  · exact ⟨rfl, rfl⟩
  · refine ⟨rfl, ?_⟩
    rw [rspSize_encodePayload, rspSize_emitWrite, List.length_singleton]
    omega

theorem Device.transfer_fst {σ : Type} (device : Device σ) (s : σ) (t : Transfer) :
    (device.transfer s t).1 = (device.stop (device.fetched (device.written (device.start s).1 t).1 t).1).1 := by
  unfold Device.transfer Device.written Device.fetched
  by_cases writes : t.dataW = [] <;> by_cases reads : t.sizeR = 0 <;> simp only [writes, reads, if_true, if_false]

theorem emits_transfer {t : Transfer} (supported : (Item.transfer t).Supported) (opIdx itemIdx : Nat) (acc : Encoding) :
    ∃ after commands, encodeTransfer t opIdx itemIdx acc = .ok after ∧
      Emits fetch Command.size ⟨commands, fun offset => [t.noted opIdx itemIdx offset]⟩ acc after ∧
      ∀ σ (device : Device σ) s, device.machine.after s commands = (device.transfer s t).1 ∧
        device.machine.answers s commands = device.transferAnswers s t := by
  obtain ⟨places, size⟩ := encodeWrite_places t (acc.emit [cmdStart])
  obtain ⟨between, read, fetched⟩ := encodeRead_does supported (encodeWrite t (acc.emit [cmdStart])).1
  have all : Does (fun _ device s => ((device.transfer s t).1, device.transferAnswers s t)) acc (between.emit [cmdStop]) :=
    ((((does_start acc).append (does_encodeWrite t _)).append fetched).append (does_stop between)).congr
      (fun σ device s => by rw [device.transfer_fst]; rfl)
  obtain ⟨commands, emits, does⟩ := all
  have silent_ : between.gather = acc.gather := emits.gather.trans (List.append_nil _)
  have start : (acc.emit [cmdStart]).rspSize = acc.rspSize + 1 := rfl
  have noted : t.noted opIdx itemIdx acc.rspSize =
      ⟨opIdx, itemIdx, if t.dataW = [] then 0 else acc.rspSize + 1,
        if t.sizeR = 0 then 0 else acc.rspSize + 1 + t.writeLength + 1,
        if t.dataW = [] then 0 else acc.rspSize + 1 + 1, t.dataW.length,
        if t.sizeR = 0 then 0 else acc.rspSize + 1 + t.writeLength + 2, t.sizeR, t.addr⟩ := by
    unfold Transfer.noted
    rw [Nat.add_right_comm acc.rspSize 1]
  refine ⟨⟨(between.emit [cmdStop]).cmd, (between.emit [cmdStop]).rspSize,
    between.gather ++ [t.noted opIdx itemIdx acc.rspSize]⟩, commands, ?_, ⟨emits.cmd, emits.rspSize, ?_⟩, does⟩
  · unfold encodeTransfer
    rw [places]
    dsimp only
    rw [read, size, start, noted]
    rfl
  · rw [silent_]

theorem getElem?_after (front back : Bytes) (status : UInt8) : (front ++ status :: back)[front.length]? = some status := by
  simp

theorem checkAddress_at (front back : Bytes) (status : UInt8) {size : Nat} (some_ : size ≠ 0) (addr : Int) :
    checkAddress (front ++ status :: back) size front.length addr =
      if status = 0 then .error (.addressNack addr) else .ok () := by
  unfold checkAddress
  rw [if_neg some_, getElem?_after]

theorem slice_at (front mid back : Bytes) : ((front ++ (mid ++ back)).drop front.length).take mid.length = mid := by
  simp

theorem all_nonzero_iff {statuses : Bytes} : statuses.all (· ≠ 0) = true ↔ ¬∃ status ∈ statuses, status = 0 := by
  simp only [List.all_eq_true, decide_eq_true_eq]
  constructor
  · intro all found
    obtain ⟨status, member, zero⟩ := found
    exact all status member zero
  · intro none status member zero
    exact none ⟨status, member, zero⟩

theorem decodeTransfer_eq {g : TransferGather} {response statuses data : Bytes} {write read : UInt8}
    (written : checkAddress response g.writeSize g.addrWRspOffset g.addr =
      if write = 0 then .error (.addressNack g.addr) else .ok ())
    (fetched : checkAddress response g.readSize g.addrRRspOffset g.addr =
      if read = 0 then .error (.addressNack g.addr) else .ok ())
    (payload : (response.drop g.writeRspOffset).take g.writeSize = statuses)
    (slice : g.readSize ≠ 0 → (response.drop g.readRspOffset).take g.readSize = data) :
    decodeTransfer g response =
      if write = 0 ∨ read = 0 then .error (.addressNack g.addr)
      else if ∃ status ∈ statuses, status = 0 then .error (.dataNack g.addr)
      else .ok (if g.readSize = 0 then none else some data) := by
  unfold decodeTransfer
  rw [written, fetched, payload]
  by_cases first : write = 0
  · rw [if_pos first, if_pos (Or.inl first)]
  · rw [if_neg first]
    by_cases second : read = 0
    · rw [if_pos second, if_pos (Or.inr second)]
    · have neither : ¬(write = 0 ∨ read = 0) := not_or_intro first second
      rw [if_neg second, if_neg neither]
      dsimp only
      have some_ : (∃ status ∈ statuses, status = 0) → g.writeSize ≠ 0 := by
        intro found none
        rw [none, List.take_zero] at payload
        rw [← payload] at found
        simp at found
      by_cases nack : ∃ status ∈ statuses, status = 0
      · rw [if_pos ⟨some_ nack, fun all => all_nonzero_iff.mp all nack⟩, if_pos nack]
      · rw [if_neg (fun both => both.2 (all_nonzero_iff.mpr nack)), if_neg nack]
        by_cases reads : g.readSize = 0
        · rw [if_pos reads, if_pos reads]
        · rw [if_neg reads, if_neg reads, slice reads]

theorem checkAddress_none (response : Bytes) {size : Nat} (none : size = 0) (offset : Nat) (addr : Int) :
    checkAddress response size offset addr = if (1 : UInt8) = 0 then .error (.addressNack addr) else .ok () := if_pos none

theorem decodeTransfer_noted {σ : Type} (device : Device σ) (s : σ) (t : Transfer) (opIdx itemIdx : Nat)
    (front back : Bytes) :
    decodeTransfer (t.noted opIdx itemIdx front.length) (front ++ device.transferAnswers s t ++ back) =
      (device.transfer s t).2 := by
  unfold Device.transferAnswers Device.transfer
  dsimp only
  generalize (device.start s).2 = first
  generalize (device.start s).1 = s
  generalize (device.stop _).2 = last
  by_cases writes : t.dataW = []
  · have write : device.written s t = (s, []) := if_pos writes
    have silent_ : t.dataW.length = 0 := List.length_eq_zero_iff.mpr writes
    rw [write, if_pos writes]
    dsimp only
    by_cases reads : t.sizeR = 0
    · rw [if_pos reads]
      exact decodeTransfer_eq (checkAddress_none _ silent_ _ _) (checkAddress_none _ reads _ _)
        (by rw [Transfer.noted, silent_, List.take_zero]) fun some_ => absurd reads some_
    · have read : device.fetched s t = ((device.readPhase s t).1, (device.start s).2 :: (device.readPhase s t).2.1 ::
          (device.readPhase s t).2.2) := if_neg reads
      have length : (device.readPhase s t).2.2.length = t.sizeR := device.length_readAll _ _ _
      rw [read, if_neg reads]
      dsimp only
      generalize (device.start s).2 = restart
      generalize (device.readPhase s t).2.1 = address at *
      generalize (device.readPhase s t).2.2 = data at *
      have check := checkAddress_at (front ++ [first, restart]) (data ++ [last] ++ back) address reads t.addr
      have slice := slice_at (front ++ [first, restart, address]) data ([last] ++ back)
      rw [length] at slice
      simp only [List.length_append, List.length_cons, List.length_nil, List.append_assoc, List.cons_append,
        List.nil_append, Nat.zero_add, Nat.reduceAdd] at check slice ⊢
      refine decodeTransfer_eq (checkAddress_none _ silent_ _ _) ?_ (by rw [Transfer.noted, silent_, List.take_zero]) ?_
      · simp only [Transfer.noted, Transfer.writeLength, if_pos writes, if_neg reads, Nat.add_zero]
        exact check
      · intro _
        simp only [Transfer.noted, Transfer.writeLength, if_pos writes, if_neg reads, Nat.add_zero]
        exact slice
  · have write : device.written s t = ((device.writePhase s t).1, (device.writePhase s t).2.1 ::
        (device.writePhase s t).2.2) := if_neg writes
    have some_ : t.dataW.length ≠ 0 := fun none => writes (List.length_eq_zero_iff.mp none)
    have length : (device.writePhase s t).2.2.length = t.dataW.length := device.length_writeAll _ _
    rw [write, if_neg writes]
    dsimp only
    generalize (device.writePhase s t).2.1 = written at *
    generalize (device.writePhase s t).2.2 = statuses at *
    generalize (device.writePhase s t).1 = s
    by_cases reads : t.sizeR = 0
    · have read : device.fetched s t = (s, []) := if_pos reads
      rw [read, if_pos reads]
      have check := checkAddress_at (front ++ [first]) (statuses ++ [last] ++ back) written some_ t.addr
      have slice := slice_at (front ++ [first, written]) statuses ([last] ++ back)
      rw [length] at slice
      simp only [List.length_append, List.length_cons, List.length_nil, List.append_assoc, List.cons_append,
        List.nil_append, Nat.zero_add, Nat.reduceAdd] at check slice ⊢
      refine decodeTransfer_eq ?_ (checkAddress_none _ reads _ _) ?_ fun some_ => absurd reads some_
      · simp only [Transfer.noted, if_neg writes]
        exact check
      · simp only [Transfer.noted, if_neg writes]
        exact slice
    · have read : device.fetched s t = ((device.readPhase s t).1, (device.start s).2 :: (device.readPhase s t).2.1 ::
          (device.readPhase s t).2.2) := if_neg reads
      have size : (device.readPhase s t).2.2.length = t.sizeR := device.length_readAll _ _ _
      rw [read, if_neg reads]
      dsimp only
      generalize (device.start s).2 = restart
      generalize (device.readPhase s t).2.1 = address at *
      generalize (device.readPhase s t).2.2 = data at *
      have check := checkAddress_at (front ++ [first]) (statuses ++ restart :: address :: data ++ [last] ++ back) written
        some_ t.addr
      have slice := slice_at (front ++ [first, written]) statuses (restart :: address :: data ++ [last] ++ back)
      have checkRead := checkAddress_at (front ++ first :: written :: statuses ++ [restart]) (data ++ [last] ++ back)
        address reads t.addr
      have sliceRead := slice_at (front ++ first :: written :: statuses ++ [restart, address]) data ([last] ++ back)
      rw [length] at slice
      rw [size] at sliceRead
      simp only [List.length_append, List.length_cons, List.length_nil, List.append_assoc, List.cons_append,
        List.nil_append, Nat.zero_add, Nat.reduceAdd, length] at check slice checkRead sliceRead ⊢
      refine @decodeTransfer_eq _ _ _ _ written address ?_ ?_ ?_ ?_
      · simp only [Transfer.noted, if_neg writes]
        exact check
      · simp only [Transfer.noted, Transfer.writeLength, if_neg writes, if_neg reads]
        convert checkRead using 2
        omega
      · simp only [Transfer.noted, if_neg writes]
        exact slice
      · intro _
        simp only [Transfer.noted, Transfer.writeLength, if_neg writes, if_neg reads]
        convert sliceRead using 3
        omega

/-! ### Transactions -/

theorem note_getD (response : Bytes) (found : Option Outcome) (g : TransferGather) :
    (note response found g).getD (.ok []) = do return (← found.getD (.ok [])) ++ [← decodeTransfer g response] := by
  unfold note
  cases found.getD (.ok []) with
  | error failure => rfl
  | ok results => cases decodeTransfer g response <;> rfl

/-- The part of the transfers of a transaction: every bus makes them, and the notes go on with the results so far. -/
structure Transfers (items : List Item) (opIdx : Nat) (part : Part Command TransferGather) : Prop where
  keyed : ∀ offset, ∀ g ∈ part.slots offset, g.opIdx = opIdx
  after : ∀ σ (device : Device σ) s results, device.machine.after s part.commands = (device.transfers s results items).1
  outcome : ∀ σ (device : Device σ) s front back found, ((part.slots front.length).foldl
    (note (front ++ device.machine.answers s part.commands ++ back)) found).getD (.ok []) =
      (device.transfers s (found.getD (.ok [])) items).2

theorem emits_items {items : List Item} (supported : ∀ item ∈ items, item.Supported) (opIdx start : Nat) (acc : Encoding) :
    ∃ after part, encodeEach (encodeItem opIdx) acc (items.zipIdx start) = .ok after ∧
      Emits fetch Command.size part acc after ∧ Transfers items opIdx part := by
  induction items generalizing start acc with
  | nil => exact ⟨acc, silent [], rfl, .nil acc, by simp [silent], fun _ _ _ _ => rfl, fun _ _ _ _ _ _ => rfl⟩
  | cons item items ih =>
    cases item with
    | waitAck => exact (supported _ List.mem_cons_self).elim
    | other typeName => exact (supported _ List.mem_cons_self).elim
    | transfer t =>
      obtain ⟨between, commands, encoded, emits, does⟩ :=
        emits_transfer (supported _ List.mem_cons_self) opIdx start acc
      obtain ⟨after, part, rest, others, transfers⟩ :=
        ih (fun item member => supported item (List.mem_cons_of_mem _ member)) (start + 1) between
      refine ⟨after, _, ?_, emits.append others, ?_, ?_, ?_⟩
      · rw [List.zipIdx_cons, encodeEach, encodeItem, encoded]
        exact rest
      · intro offset g member
        obtain here | behind := List.mem_append.mp member
        · obtain rfl := List.mem_singleton.mp here
          rfl
        · exact transfers.keyed _ g behind
      · intro σ device s results
        rw [Part.append, Machine.after_append, (does σ device s).1]
        exact transfers.after σ device _ _
      · intro σ device s front back found
        have answered : front ++ device.machine.answers s (commands ++ part.commands) ++ back =
            front ++ device.transferAnswers s t ++
              device.machine.answers (device.transfer s t).1 part.commands ++ back := by
          rw [Machine.answers_append, (does σ device s).1, (does σ device s).2]
          simp only [List.append_assoc]
        have length : (commands.map Command.size).sum = (device.transferAnswers s t).length := by
          rw [← (does σ device s).2, (sized device).length_answers]
        have later := transfers.outcome σ device (device.transfer s t).1 (front ++ device.transferAnswers s t) back
          (note (front ++ device.machine.answers s (commands ++ part.commands) ++ back) found
            (t.noted opIdx start front.length))
        have decoded := decodeTransfer_noted device s t opIdx start front
          (device.machine.answers (device.transfer s t).1 part.commands ++ back)
        rw [← List.append_assoc] at decoded
        rw [note_getD, answered, decoded, List.length_append, ← length] at later
        rw [Part.append]
        dsimp only
        rw [List.foldl_append, answered]
        exact later

/-- The part of an operation: it makes the operation's transfers, and its notes find the outcome. -/
def Belongs (op : Op) (opIdx : Nat) (part : Part Command TransferGather) : Prop :=
  ∀ (σ : Type) (device : Device σ), Serves device.machine TransferGather.opIdx note
    (fun _ found => found.getD (.ok [])) device.perform op opIdx part

theorem emits_one {op : Op} (supported : op.Supported) (opIdx : Nat) (acc : Encoding) :
    ∃ after part, encodeOne op opIdx acc = .ok after ∧ Emits fetch Command.size part acc after ∧ Belongs op opIdx part := by
  cases op with
  | other typeName => exact supported.elim
  | transaction items =>
    obtain ⟨after, part, encoded, emits, transfers⟩ := emits_items supported opIdx 0 acc
    exact ⟨after, part, encoded, emits, fun σ device => ⟨transfers.keyed, fun s => transfers.after σ device s _,
      fun s front back => transfers.outcome σ device s front back none⟩⟩

/-! ### Batches -/

def Codec.settings (self : Codec) : List Command := if self.rateDirty then [.div self.divisor] else []

theorem emits_configure (self : Codec) :
    Emits fetch Command.size (silent self.settings) .start self.configure.2 := by
  unfold Codec.settings Codec.configure
  split
  · exact .emit (interprets_div self.inRange.2) rfl _
  · exact .nil _

/-- A batch is answered in the size that is expected, and every operation gets what it comes to. -/
theorem Codec.batch_attributed (self : Codec) (batch : List (BatchEntry Op)) (supported : ∀ entry ∈ batch, entry.op.Supported) :
    ∃ encoding commands, (self.encode batch).2 = .ok encoding ∧
      interpret fetch encoding.cmd = some (self.settings ++ commands) ∧
      ∀ (σ : Type) (device : Device σ) s,
        (device.machine.answers s (self.settings ++ commands)).length = encoding.rspSize ∧
        decode batch (device.machine.answers s (self.settings ++ commands)) encoding.gather =
          settleEach batch (performEach device.perform (device.machine.after s self.settings)
            (batch.map BatchEntry.op)) := by
  have each : ∀ op ∈ batch.map BatchEntry.op, op.Supported := List.forall_mem_map.mpr supported
  obtain ⟨encoding, parts, encoded, emits, matched⟩ := encodeEach_emits
    (fun op member => emits_one (each op member)) 0 self.configure.2
  refine ⟨encoding, (join Command.size parts).commands, ?_, (emits_configure self).interpreted emits, ?_⟩
  · exact encoded
  · intro σ device s
    obtain ⟨length, gather⟩ := (emits_configure self).answered (sized device) emits s
    refine ⟨length, ?_⟩
    unfold decode
    rw [decodeEach_eq]
    intro i op present
    have served := matched.mono (fun _ _ _ belongs => belongs σ device)
    rw [served.attributed (sized device) (device.machine.answers s self.settings)
      (device.machine.after s self.settings) present, device.machine.answers_append, gather]

end Acrobe.Nsl.I2cTransactor
