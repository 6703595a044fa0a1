import Acrobe.Nsl.Peer

/-!
# What the other end reads

The lock is found right behind the start byte, the whole bytes behind it are those that were sent, and
the data frames of a drained queue reassemble to its datagrams.
-/

namespace Acrobe.Nsl
open LittleEndian Incremental BitString

/-! ### Bytes and bits -/

theorem length_bitsOf (bytes : Bytes) : (bitsOf bytes).length = 8 * bytes.length := by
  induction bytes with
  | nil => rfl
  | cons byte bytes ih =>
    rw [bitsOf, List.flatMap_cons, ← bitsOf, List.length_append, ih, length_ofNat, List.length_cons]
    omega

theorem bitsOf_append (front back : Bytes) : bitsOf (front ++ back) = bitsOf front ++ bitsOf back :=
  List.flatMap_append

theorem slice_mid (head : BitString) {mid : BitString} (rest : BitString) {n : Nat} (length : mid.length = n) :
    slice (head ++ (mid ++ rest)) head.length (head.length + n) = mid := by
  rw [slice, ← length, List.take_length_add_append, List.drop_left, List.take_left]

theorem extractBytes_step {bits : BitString} {off : Nat} (enough : off + 8 ≤ bits.length) :
    extractBytes bits off = UInt8.ofNat (toNat (slice bits off (off + 8))) :: extractBytes bits (off + 8) := by
  have count : (bits.length - off) / 8 = (bits.length - (off + 8)) / 8 + 1 := by omega
  rw [extractBytes, extractBytes, count, List.range_succ_eq_map, List.map_cons, List.map_map]
  congr 1
  refine List.map_congr_left fun i _ => ?_
  rw [Function.comp_apply, show off + 8 * (i + 1) = off + 8 + 8 * i by omega]

theorem extractBytes_end {bits : BitString} {off : Nat} (short : bits.length < off + 8) : extractBytes bits off = [] := by
  rw [extractBytes, show (bits.length - off) / 8 = 0 by omega]
  rfl

theorem extractBytes_bitsOf (head : BitString) (bytes : Bytes) {tail : BitString} (short : tail.length < 8) :
    extractBytes (head ++ bitsOf bytes ++ tail) head.length = bytes := by
  induction bytes generalizing head with
  | nil =>
    apply extractBytes_end
    rw [List.length_append, List.length_append, length_bitsOf, List.length_nil]
    omega
  | cons byte bytes ih =>
    have split : head ++ bitsOf (byte :: bytes) ++ tail =
        head ++ (BitString.ofNat byte.toNat 8 ++ (bitsOf bytes ++ tail)) := by
      rw [bitsOf, List.flatMap_cons, ← bitsOf, List.append_assoc, List.append_assoc]
    have later := ih (head ++ BitString.ofNat byte.toNat 8)
    rw [List.length_append, length_ofNat, List.append_assoc, List.append_assoc] at later
    rw [split, extractBytes_step, slice_mid _ _ (length_ofNat _ _), later, toNat_ofNat]
    · congr 1
      rw [Nat.mod_eq_of_lt byte.toNat_lt, UInt8.ofNat_toNat]
    · rw [List.length_append, List.length_append, length_ofNat]
      omega

theorem take_bitsOf (bytes : Bytes) {lost : Nat} (inside : lost ≤ 8 * bytes.length) :
    ∃ tail, (bitsOf bytes).take (8 * bytes.length - lost) =
      bitsOf (bytes.take ((8 * bytes.length - lost) / 8)) ++ tail ∧ tail.length < 8 := by
  generalize count : (8 * bytes.length - lost) / 8 = m
  have front : (bitsOf (bytes.take m)).length = 8 * m := by
    rw [length_bitsOf, List.length_take]
    omega
  refine ⟨(bitsOf (bytes.drop m)).take (8 * bytes.length - lost - 8 * m), ?_, ?_⟩
  · have whole : bitsOf bytes = bitsOf (bytes.take m) ++ bitsOf (bytes.drop m) := by
      rw [← bitsOf_append, List.take_append_drop]
    rw [whole, List.take_append, front, List.take_of_length_le (by omega)]
  · rw [List.length_take]
    omega

/-! ### The lock -/

theorem getElem_preamble (n : Nat) (rest : Bytes) {j : Nat} (inside : j < 8 * n + 7) :
    (bitsOf (List.replicate n preamble ++ sof :: rest))[j]? = some (j % 2 == 0) := by
  induction n generalizing j with
  | zero =>
    rw [List.replicate_zero, List.nil_append, bitsOf, List.flatMap_cons, List.getElem?_append_left (by simp; omega)]
    have small : j < 7 := by omega
    clear inside
    revert j
    decide
  | succ n ih =>
    rw [List.replicate_succ, List.cons_append, bitsOf, List.flatMap_cons, ← bitsOf]
    by_cases first : j < 8
    · rw [List.getElem?_append_left (by simp; omega)]
      clear ih inside
      revert j
      decide
    · rw [List.getElem?_append_right (by simp; omega), length_ofNat, ih (by omega)]
      congr 1
      rw [show (j - 8) % 2 = j % 2 by omega]

theorem sync_ends {bits : BitString} {k : Nat} (found : slice bits k (k + 16) = sync) :
    bits[k + 14]? = some true ∧ bits[k + 15]? = some true := by
  have at14 : (slice bits k (k + 16))[14]? = some true := by rw [found]; decide
  have at15 : (slice bits k (k + 16))[15]? = some true := by rw [found]; decide
  rw [slice, List.getElem?_drop, List.getElem?_take, if_pos (by omega)] at at14 at15
  exact ⟨at14, at15⟩

/-- The lock is right behind the start byte. -/
theorem findLock_preamble (n : Nat) (rest : Bytes) (tail : BitString) :
    findLock (bitsOf (List.replicate (n + 1) preamble ++ sof :: rest) ++ tail) = some (8 * n + 16) := by
  have before : ∀ j, j < 8 * n + 15 →
      (bitsOf (List.replicate (n + 1) preamble ++ sof :: rest) ++ tail)[j]? = some (j % 2 == 0) := by
    intro j inside
    rw [List.getElem?_append_left, getElem_preamble (n + 1) rest (by omega)]
    rw [length_bitsOf, List.length_append, List.length_replicate, List.length_cons]
    omega
  have split : bitsOf (List.replicate (n + 1) preamble ++ sof :: rest) ++ tail =
      bitsOf (List.replicate n preamble) ++ (sync ++ (bitsOf rest ++ tail)) := by
    rw [List.replicate_succ', List.append_assoc, bitsOf_append, show [preamble] ++ sof :: rest = [preamble, sof] ++ rest
      from rfl, bitsOf_append, List.append_assoc, List.append_assoc]
    congr 1
  have here : slice (bitsOf (List.replicate (n + 1) preamble ++ sof :: rest) ++ tail) (8 * n) (8 * n + 16) = sync := by
    have mid := slice_mid (bitsOf (List.replicate n preamble)) (bitsOf rest ++ tail) (show sync.length = 16 from rfl)
    rwa [length_bitsOf, List.length_replicate, ← split] at mid
  have total : 8 * n + 16 ≤ (bitsOf (List.replicate (n + 1) preamble ++ sof :: rest) ++ tail).length := by
    rw [List.length_append, length_bitsOf, List.length_append, List.length_replicate, List.length_cons]
    omega
  rw [findLock]
  generalize bitsOf (List.replicate (n + 1) preamble ++ sof :: rest) ++ tail = bits at before here total
  have first : (List.range bits.length).find? (fun k => k + 16 ≤ bits.length ∧ slice bits k (k + 16) = sync) =
      some (8 * n) := by
    rw [List.find?_range_eq_some]
    refine ⟨decide_eq_true ⟨total, here⟩, List.mem_range.mpr (by omega), fun j inside => ?_⟩
    rw [Bool.not_eq_true', decide_eq_false_iff_not]
    rintro ⟨-, found⟩
    obtain ⟨even, odd⟩ := sync_ends found
    rw [before (j + 14) (by omega)] at even
    rw [before (j + 15) (by omega)] at odd
    have even := Option.some.inj even
    have odd := Option.some.inj odd
    rw [beq_iff_eq] at even odd
    omega
  rw [first]
  rfl

/-! ### The frames of a batch -/

theorem data_header (last : Bool) {n : Nat} (small : n < 64) :
    let header := (if last then dataLastBit else 0) ||| UInt8.ofNat n
    header &&& dataCtrlBit = 0 ∧ (header &&& dataLenMask).toNat = n ∧ (header &&& dataLastBit != 0) = last := by
  revert last n
  decide

namespace ContinuousTransport

/-- The bytes of an item in its next frame. -/
def chunk (item : TxItem) (n : Nat) : Bytes := (item.data.drop item.sent).take n

theorem frameLength_le (item : TxItem) (allowance : Nat) :
    frameLength item allowance ≤ item.data.length - item.sent ∧ frameLength item allowance ≤ 64 ∧
      frameLength item allowance ≤ allowance := by
  rw [frameLength, dataBytesMax]
  omega

theorem length_chunk (item : TxItem) (allowance : Nat) :
    (chunk item (frameLength item allowance)).length = frameLength item allowance := by
  have bounds := frameLength_le item allowance
  rw [chunk, List.length_take, List.length_drop]
  omega

theorem reads_dataFrame (item : TxItem) {allowance : Nat} (some_ : 0 < allowance) :
    frames.Reads (dataFrame item (frameLength item allowance))
      [.data (item.sent + frameLength item allowance = item.data.length) (chunk item (frameLength item allowance))] := by
  have bounds := frameLength_le item allowance
  have length := length_chunk item allowance
  have unfinished := item.unfinished
  have filled : 0 < frameLength item allowance := by
    rw [frameLength, dataBytesMax]
    omega
  generalize frameLength item allowance = n at bounds length filled
  obtain ⟨control, count, last⟩ :=
    data_header (decide (item.sent + n = item.data.length)) (show n - 1 < 64 by omega)
  have same : dataFrame item n =
      ((if decide (item.sent + n = item.data.length) then dataLastBit else 0) ||| UInt8.ofNat (n - 1)) ::
        chunk item n := by
    rw [dataFrame, chunk]
    simp only [decide_eq_true_eq]
  rw [same]
  generalize (if decide (item.sent + n = item.data.length) then dataLastBit else 0) ||| UInt8.ofNat (n - 1) = header at *
  apply Format.reads_item
  change decodeFrame (header :: chunk item n) = _
  rw [decodeFrame, if_pos control, decodeData, count, if_neg (by omega), last, List.take_of_length_le (by omega),
    List.length_cons, length]
  congr 1
  omega

/-- The bytes of the first datagram that are already framed. -/
def begun : List TxItem → Bytes
  | [] => []
  | item :: _ => item.data.take item.sent

/-- Only the first datagram is begun. -/
def Fresh (queue : List TxItem) : Prop := ∀ item ∈ queue.tail, item.sent = 0

theorem begun_of_fresh {item : TxItem} {queue : List TxItem} (fresh : Fresh (item :: queue)) :
    begun queue = [] ∧ Fresh queue := by
  refine ⟨?_, fun other member => fresh other (List.mem_of_mem_tail member)⟩
  cases queue with
  | nil => rfl
  | cons next queue => rw [begun, fresh next List.mem_cons_self, List.take_zero]

/-- What a drain of the queue is for the other end. -/
structure DrainReads (queue : List TxItem) (drained : Drained) (allowance : Nat) (sent : List Frame)
    (completed : List Bytes) : Prop where
  reads : frames.Reads drained.buf sent
  split : queue.map TxItem.data = completed ++ drained.queue.map TxItem.data
  fresh : Fresh drained.queue
  bytes : (sent.map Frame.dataBytes).sum = drained.sent
  allowed : drained.sent ≤ allowance
  assembled : ∀ done, Assembly.acceptAll ⟨done, begun queue⟩ sent = ⟨done ++ completed, begun drained.queue⟩

theorem drain_nothing {queue : List TxItem} {allowance : Nat} (fresh : Fresh queue) :
    DrainReads queue { buf := [], sent := 0, done := [], queue } allowance [] [] :=
  ⟨Format.reads_nil, rfl, fresh, rfl, Nat.zero_le _, fun done => by rw [List.append_nil]; rfl⟩

theorem drain_reads {fuel allowance : Nat} {queue : List TxItem} (enough : allowance ≤ fuel) (fresh : Fresh queue) :
    ∃ sent completed, DrainReads queue (drain fuel allowance queue) allowance sent completed := by
  induction fuel generalizing allowance queue with
  | zero => exact ⟨_, _, drain_nothing fresh⟩
  | succ fuel ih =>
    cases queue with
    | nil => exact ⟨_, _, drain_nothing fresh⟩
    | cons item queue =>
      rw [drain]
      by_cases exhausted : allowance = 0
      · rw [if_pos exhausted]
        exact ⟨_, _, drain_nothing fresh⟩
      · rw [if_neg exhausted]
        have bounds := frameLength_le item allowance
        have length := length_chunk item allowance
        have first := reads_dataFrame item (Nat.pos_of_ne_zero exhausted)
        have filled : 0 < frameLength item allowance := by
          have unfinished := item.unfinished
          rw [frameLength, dataBytesMax]
          omega
        dsimp only
        generalize frameLength item allowance = n at bounds length first filled
        have grown : item.data.take item.sent ++ chunk item n = item.data.take (item.sent + n) :=
          List.take_add.symm
        by_cases unfinished : item.sent + n < item.data.length
        · rw [dif_pos unfinished]
          rw [decide_eq_false (by omega)] at first
          have freshAgain : Fresh ({ item with sent := item.sent + n, unfinished } :: queue) := fresh
          obtain ⟨sent, completed, rest⟩ := ih (show allowance - n ≤ fuel by omega) freshAgain
          refine ⟨_, completed, first.trans rest.reads, rest.split, rest.fresh, ?_, ?_, fun done => ?_⟩
          · rw [List.singleton_append, List.map_cons, List.sum_cons, rest.bytes, Frame.dataBytes, length]
          · have allowed := rest.allowed
            dsimp only
            omega
          · rw [← rest.assembled done]
            change Assembly.acceptAll ⟨done, item.data.take item.sent ++ chunk item n⟩ sent = _
            rw [grown]
            rfl
        · rw [dif_neg unfinished]
          rw [decide_eq_true (by omega)] at first
          obtain ⟨none, fresh⟩ := begun_of_fresh fresh
          obtain ⟨sent, completed, rest⟩ := ih (show allowance - n ≤ fuel by omega) fresh
          refine ⟨_, item.data :: completed, first.trans rest.reads, ?_, rest.fresh, ?_, ?_, fun done => ?_⟩
          · rw [List.map_cons, rest.split]
            rfl
          · rw [List.singleton_append, List.map_cons, List.sum_cons, rest.bytes, Frame.dataBytes, length]
          · have allowed := rest.allowed
            dsimp only
            omega
          · have assembled := rest.assembled (done ++ [item.data])
            rw [none, List.append_assoc] at assembled
            refine Eq.trans ?_ assembled
            change Assembly.acceptAll ⟨done ++ [item.data.take item.sent ++ chunk item n], []⟩ sent = _
            rw [grown, List.take_of_length_le (by omega)]

/-! ### A whole batch -/

/-- A frame without data changes nothing at the other end. -/
def Quiet (sent : List Frame) : Prop :=
  (sent.map Frame.dataBytes).sum = 0 ∧ ∀ assembly : Assembly, assembly.acceptAll sent = assembly

theorem quiet_idle (n : Nat) : Quiet (List.replicate n (.ignored idle)) := by
  induction n with
  | zero => exact ⟨rfl, fun assembly => rfl⟩
  | succ n ih => exact ⟨(Nat.zero_add _).trans ih.1, ih.2⟩

theorem reads_idle (n : Nat) : frames.Reads (List.replicate n idle) (List.replicate n (.ignored idle)) := by
  induction n with
  | zero => exact Format.reads_nil
  | succ n ih =>
    have one : frames.Reads [idle] [.ignored idle] := rfl
    exact one.trans ih

/-- The control frames in front of the data. -/
def control (self : ContinuousTransport) : Bytes :=
  (if self.padDirty then [setPadBase ||| UInt8.ofNat (self.tdoPad % 8)] else []) ++
    [credit, UInt8.ofNat self.txBudget, UInt8.ofNat (self.txBudget >>> 8)]

theorem reads_pad {pad : Nat} (small : pad < 8) :
    frames.Reads [setPadBase ||| UInt8.ofNat pad] [.ignored (setPadBase ||| UInt8.ofNat pad)] := by
  have all : ∀ pad, pad < 8 → frames.read [setPadBase ||| UInt8.ofNat pad] =
      ⟨[.ignored (setPadBase ||| UInt8.ofNat pad)], none, []⟩ := by decide
  exact all pad small

theorem reads_control (self : ContinuousTransport) : ∃ sent, frames.Reads self.control sent ∧ Quiet sent := by
  have grant : frames.Reads [credit, UInt8.ofNat self.txBudget, UInt8.ofNat (self.txBudget >>> 8)]
      [.credit ((UInt8.ofNat self.txBudget).toNat ||| (UInt8.ofNat (self.txBudget >>> 8)).toNat <<< 8)] := rfl
  rw [control]
  by_cases dirty : self.padDirty = true
  · rw [if_pos dirty]
    exact ⟨_, (reads_pad (Nat.mod_lt _ (by decide))).trans grant, rfl, fun assembly => rfl⟩
  · rw [if_neg dirty]
    exact ⟨_, grant, rfl, fun assembly => rfl⟩

theorem fill_split (self : ContinuousTransport) (buf : Bytes) :
    ∃ n, rxFlushBytes ≤ n ∧ self.fill (self.lead ++ buf) =
      List.replicate self.preambleCount preamble ++ sof :: (self.control ++ buf ++ List.replicate n idle) := by
  refine ⟨max ((self.lead ++ buf).length + rxFlushBytes)
    (self.preambleCount + 1 + self.txBudget + self.marginBytes) - (self.lead ++ buf).length, by omega, ?_⟩
  rw [fill, lead, control]
  simp only [List.append_assoc, List.cons_append, List.nil_append]

theorem take_idle (front : Bytes) {n m : Nat} (inside : front.length ≤ m) (short : m ≤ front.length + n) :
    (front ++ List.replicate n idle).take m = front ++ List.replicate (m - front.length) idle := by
  rw [List.take_append, List.take_of_length_le inside, List.take_replicate, Nat.min_eq_left (by omega)]

theorem framesOf_fill (self : ContinuousTransport) {buf : Bytes} {sent : List Frame} (reads : frames.Reads buf sent)
    (begins : 0 < self.preambleCount) {lost : Nat} (latency : lost ≤ tapRxLatency) :
    ∃ front back, framesOf (self.fill (self.lead ++ buf)) lost = front ++ sent ++ back ∧ Quiet front ∧ Quiet back := by
  obtain ⟨n, flush, total⟩ := fill_split self buf
  obtain ⟨p, count⟩ := Nat.exists_eq_add_of_lt begins
  rw [Nat.zero_add] at count
  rw [tapRxLatency] at latency
  rw [rxFlushBytes, tapRxLatency] at flush
  have split : self.fill (self.lead ++ buf) =
      (List.replicate (p + 1) preamble ++ sof :: (self.control ++ buf)) ++ List.replicate n idle := by
    rw [total, count, List.append_assoc (List.replicate (p + 1) preamble), List.cons_append]
  have length : (List.replicate (p + 1) preamble ++ sof :: (self.control ++ buf)).length =
      p + 2 + (self.control ++ buf).length := by
    rw [List.length_append, List.length_replicate, List.length_cons]
    omega
  have whole : (self.fill (self.lead ++ buf)).length = p + 2 + (self.control ++ buf).length + n := by
    rw [split, List.length_append, length, List.length_replicate]
  obtain ⟨tail, cut, short⟩ := take_bitsOf (self.fill (self.lead ++ buf)) (show lost ≤ _ by omega)
  have kept := take_idle (List.replicate (p + 1) preamble ++ sof :: (self.control ++ buf))
    (show _ ≤ (8 * (self.fill (self.lead ++ buf)).length - lost) / 8 by omega) (show _ ≤ _ + n by omega)
  rw [← split] at kept
  generalize (8 * (self.fill (self.lead ++ buf)).length - lost) / 8 -
    (List.replicate (p + 1) preamble ++ sof :: (self.control ++ buf)).length = m at kept
  obtain ⟨controls, readsControl, quiet⟩ := reads_control self
  refine ⟨controls, List.replicate m (.ignored idle), ?_, quiet, quiet_idle m⟩
  have payload : frames.Reads (self.control ++ buf ++ List.replicate m idle)
      (controls ++ sent ++ List.replicate m (.ignored idle)) := (readsControl.trans reads).trans (reads_idle m)
  have extracted : extractBytes (bitsOf (List.replicate (p + 1) preamble ++ sof ::
      (self.control ++ buf ++ List.replicate m idle)) ++ tail) (8 * p + 16) =
        self.control ++ buf ++ List.replicate m idle := by
    have behind := extractBytes_bitsOf (bitsOf (List.replicate (p + 1) preamble ++ [sof]))
      (self.control ++ buf ++ List.replicate m idle) short
    rw [← bitsOf_append, length_bitsOf, List.append_assoc, List.length_append, List.length_replicate] at behind
    exact behind
  rw [framesOf, length_bitsOf, cut, kept, List.append_assoc (List.replicate (p + 1) preamble), List.cons_append,
    findLock_preamble]
  dsimp only
  rw [extracted, show frames.read _ = _ from payload]

end ContinuousTransport

end Acrobe.Nsl
