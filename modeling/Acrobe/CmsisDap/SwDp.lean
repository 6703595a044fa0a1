import Acrobe.Arm.SwDp
import Acrobe.Lib.LittleEndian
import Acrobe.Lib.Transition

/-!
# The debug port of a CMSIS-DAP probe

`CmsisDapSwDp.flush_ops` queues a DAP_Transfer slot for each register access of a batch, and before it a write of
SELECT where the access needs another value than the one the driver believes the target holds. The probe executes the
slots of a transfer up to the first one that is not acknowledged; the driver takes its last SELECT for the target's
whatever was executed.
-/

namespace Acrobe.CmsisDap
open Arm.Dp LittleEndian Acrobe.Lib

def xferAPnDP : Nat := 1 <<< 0

def xferRnW : Nat := 1 <<< 1

def xferA2 : Nat := 1 <<< 2

def xferA3 : Nat := 1 <<< 3

def defaultIdleCycles : Nat := 32

/-! ### Slots -/

/-- `__select_for`, for the four kinds of register access. -/
def selectFor (cur : Nat) : Op → Nat
  | .apRead addr | .apWrite addr _ =>
    ((addr >>> 24) &&& 0xff) <<< 24 ||| ((addr >>> 4) &&& 0xf) <<< 4 ||| (cur &&& 0xf)
  | .dpRead addr | .dpWrite addr _ => (cur &&& 0xFFFFFFF0) ||| ((addr >>> 4) &&& 0xf)
  | _ => cur

def encodeTransferRaw (ap read : Bool) (addr data : Nat) : Nat × Bytes :=
  let request := if ap then xferAPnDP else 0
  let request := if read then request ||| xferRnW else request
  let lo := addr &&& 0xc
  let request := if lo &&& 0x4 ≠ 0 then request ||| xferA2 else request
  let request := if lo &&& 0x8 ≠ 0 then request ||| xferA3 else request
  (request, if read then [] else split (data &&& 0xFFFFFFFF) 4)

/-- `__encode_transfer`, for the four kinds of register access. -/
def encodeTransfer : Op → Nat × Bytes
  | .apRead addr => encodeTransferRaw true true addr 0
  | .apWrite addr data => encodeTransferRaw true false addr data
  | .dpRead addr => encodeTransferRaw false true addr 0
  | .dpWrite addr data => encodeTransferRaw false false addr data
  | _ => (0, [])

/-- A slot of a DAP_Transfer: the access of an operation, or a write of SELECT that stands for none. -/
inductive Slot where
  | writeSelect (value : Nat)
  | access (op : Op)

namespace Slot

def encode : Slot → Nat × Bytes
  | .writeSelect value => encodeTransferRaw false false selectReg value
  | .access op => encodeTransfer op

def requestSize (slot : Slot) : Nat := 1 + slot.encode.2.length

def responseSize (slot : Slot) : Nat := if slot.encode.1 &&& xferRnW ≠ 0 then 4 else 0

def isAccess : Slot → Bool
  | .writeSelect _ => false
  | .access _ => true

end Slot

/-! ### Lowering a batch -/

/-- What `flush_ops` waits for. -/
inductive Await where
  | xferGroup (encoded : List Slot)
  | swjSequence (count : Nat) (payload : Bytes)
  | writeAbort (value : Nat)

def Await.slots : Await → List Slot
  | .xferGroup encoded => encoded
  | _ => []

/-- `_swj_chunks` of that many zero bits. -/
def swjChunks (bits : Nat) : List (Nat × Bytes) :=
  (List.range ((bits + 255) / 256)).map fun chunk =>
    let count := min 256 (bits - 256 * chunk)
    (if count = 256 then 0 else count, List.replicate ((count + 7) / 8) 0)

/-- The local variables of `flush_ops`. -/
structure Lowering where
  select : Nat
  encoded : List Slot
  awaits : List Await

namespace Lowering

def flushRun (lowering : Lowering) : Lowering :=
  if lowering.encoded = [] then lowering
  else { lowering with encoded := [], awaits := lowering.awaits ++ [.xferGroup lowering.encoded] }

def emitSelectIfChanged (lowering : Lowering) (cur : Nat) (op : Op) : Lowering :=
  let newSelect := selectFor cur op
  if lowering.select = newSelect then lowering
  else { lowering with select := newSelect, encoded := lowering.encoded ++ [.writeSelect newSelect] }

/-- One round of the loop; `cur` is the cached SELECT, which stays the same while the batch is lowered. -/
def lower (cur : Nat) (lowering : Lowering) : Op → Lowering
  | .run cycles =>
    if defaultIdleCycles < cycles then
      let flushed := lowering.flushRun
      { flushed with
        awaits := flushed.awaits ++
          (swjChunks (cycles - defaultIdleCycles)).map fun chunk => .swjSequence chunk.1 chunk.2 }
    else lowering
  | .abort what =>
    let flushed := lowering.flushRun
    { flushed with awaits := flushed.awaits ++ [.writeAbort (what &&& 0xFFFFFFFF)] }
  | .other _ => lowering
  | op =>
    let selected := lowering.emitSelectIfChanged cur op
    { selected with encoded := selected.encoded ++ [.access op] }

def slots (lowering : Lowering) : List Slot := lowering.awaits.flatMap Await.slots ++ lowering.encoded

end Lowering

def lowerBatch (cur : Nat) (batch : List Op) : Lowering :=
  (batch.foldl (Lowering.lower cur) ⟨cur, [], []⟩).flushRun

/-! ### Packets -/

/-- The inner loop of `__flush_xfer_group`: the slots that fit into a packet, and the others. -/
def packet (limit requests responses : Nat) : List Slot → List Slot × List Slot
  | [] => ([], [])
  | slot :: slots =>
    if limit < requests + slot.requestSize ∨ limit < responses + slot.responseSize then ([], slot :: slots)
    else
      let rest := packet limit (requests + slot.requestSize) (responses + slot.responseSize) slots
      (slot :: rest.1, rest.2)

/-- The outer loop; a slot that does not fit into a packet of its own is left out. Each round takes a slot, so that as
many rounds as there are slots are enough. -/
def packets (limit : Nat) : Nat → List Slot → List (List Slot)
  | 0, _ | _, [] => []
  | rounds + 1, slot :: slots =>
    match packet limit 0 0 (slot :: slots) with
    | ([], _) => packets limit rounds slots
    | (front, rest) => front :: packets limit rounds rest

inductive Command where
  | transfer (slots : List Slot)
  | swjSequence (count : Nat) (payload : Bytes)
  | writeAbort (value : Nat)

def Command.slots : Command → List Slot
  | .transfer slots => slots
  | _ => []

def Await.commands (packetSize : Nat) : Await → List Command
  | .xferGroup encoded => (packets (packetSize - 3) encoded.length encoded).map .transfer
  | .swjSequence count payload => [.swjSequence count payload]
  | .writeAbort value => [.writeAbort value]

def commands (packetSize : Nat) (awaits : List Await) : List Command := awaits.flatMap (Await.commands packetSize)

/-! ### The probe and the target -/

/-- What a probe does with the commands of a batch, by their indices: the number of slots of a DAP_Transfer that it
executes, and whether it accepts a DAP_SWJ_Sequence. -/
structure Probe where
  completes : Nat → Nat
  accepts : Nat → Bool

/-- SELECT is the register of the debug port at address 8. -/
def Slot.select (slot : Slot) (select : Nat) : Nat :=
  if slot.encode.1 &&& 0xf = xferA3 then combine slot.encode.2 else select

/-- The cached SELECT, that of the target, and the accesses executed with the SELECT they found. -/
structure Port where
  cache : Nat
  select : Nat
  log : List (Op × Nat)

def start : Port := ⟨0, 0, []⟩

namespace Port

def execute (port : Port) (slot : Slot) : Port :=
  match slot with
  | .writeSelect _ => { port with select := slot.select port.select }
  | .access op => { port with select := slot.select port.select, log := port.log ++ [(op, port.select)] }

/-- Runs the commands from index `k` on and says whether none of them raised; a transfer of more than 255 slots has no
encoding. -/
def issue (probe : Probe) : Nat → Port → List Command → Port × Bool
  | _, port, [] => (port, true)
  | k, port, .transfer slots :: rest =>
    if 255 < slots.length then (port, false)
    else issue probe (k + 1) ((slots.take (probe.completes k)).foldl execute port) rest
  | k, port, .swjSequence _ _ :: rest => if probe.accepts k then issue probe (k + 1) port rest else (port, false)
  | k, port, .writeAbort _ :: rest => issue probe (k + 1) port rest

end Port

/-- A batch and what the probe does with it. -/
structure Event where
  batch : List Op
  probe : Probe

def Port.flushOps (packetSize : Nat) (port : Port) (event : Event) : Port :=
  let lowering := lowerBatch port.cache event.batch
  match port.issue event.probe 0 (commands packetSize lowering.awaits) with
  | (issued, true) => { issued with cache := lowering.select }
  | (issued, false) => issued

def Port.step (packetSize : Nat) (port : Port) (event : Event) : Option Port := some (port.flushOps packetSize event)

/-! ### What an access needs -/

/-- APSEL and APBANKSEL for an access of an access port, DPBANKSEL for one of the debug port. -/
def Needs : Op → Nat → Prop
  | .apRead addr, select | .apWrite addr _, select =>
    select / 2 ^ 24 % 256 = addr / 2 ^ 24 % 256 ∧ select / 16 % 16 = addr / 16 % 16
  | .dpRead addr, select | .dpWrite addr _, select => select % 16 = addr / 16 % 16
  | _, _ => True

def WritesSelect : Op → Prop
  | .dpWrite addr _ => addr &&& 0xc = selectReg
  | _ => False

/-- Every access was executed with the SELECT it needs. -/
def Port.Selected (port : Port) : Prop := ∀ entry ∈ port.log, Needs entry.1 entry.2

instance (op : Op) (select : Nat) : Decidable (Needs op select) := by
  cases op <;> unfold Needs <;> infer_instance

theorem needs_selectFor (cur : Nat) (op : Op) : Needs op (selectFor cur op) := by
  cases op with
  | apRead addr =>
    rw [selectFor, ap_select_eq]
    exact ⟨by omega, by omega⟩
  | apWrite addr data =>
    rw [selectFor, ap_select_eq]
    exact ⟨by omega, by omega⟩
  | dpRead addr => exact dp_select_mod cur addr
  | dpWrite addr data => exact dp_select_mod cur addr
  | abort what => trivial
  | run cycles => trivial
  | other typeName => trivial

theorem selectFor_lt (cur : Nat) {op : Op} (shaped : op.access.isSome) : selectFor cur op < 2 ^ 32 := by
  cases op with
  | apRead addr => exact ap_select_lt cur addr
  | apWrite addr data => exact ap_select_lt cur addr
  | dpRead addr => exact dp_select_lt cur addr
  | dpWrite addr data => exact dp_select_lt cur addr
  | abort what => cases shaped
  | run cycles => cases shaped
  | other typeName => cases shaped

/-! ### What a slot does to SELECT -/

theorem and_mask (data : Nat) : data &&& 0xFFFFFFFF = data % 2 ^ 32 := Nat.and_two_pow_sub_one_eq_mod data 32

@[simp] theorem select_writeSelect (value select : Nat) : (Slot.writeSelect value).select select = value % 2 ^ 32 := by
  have byte : (Slot.writeSelect value).encode = (xferA3, split (value &&& 0xFFFFFFFF) 4) := rfl
  have selects : xferA3 &&& 0xf = xferA3 := rfl
  rw [Slot.select, byte, if_pos selects, combine_split, and_mask]
  exact Nat.mod_mod _ _

theorem address_cases (addr : Nat) : addr &&& 0xc = 0 ∨ addr &&& 0xc = 4 ∨ addr &&& 0xc = 8 ∨ addr &&& 0xc = 12 := by
  have low : addr &&& 0xc = addr % 16 &&& 0xc := by
    rw [← and_low_nibble, Nat.and_assoc]
    rfl
  have all : ∀ nibble < 16, nibble &&& 0xc = 0 ∨ nibble &&& 0xc = 4 ∨ nibble &&& 0xc = 8 ∨ nibble &&& 0xc = 12 := by
    decide
  rw [low]
  exact all _ (Nat.mod_lt _ (by decide))

theorem select_access {op : Op} (plain : ¬ WritesSelect op) (select : Nat) :
    (Slot.access op).select select = select := by
  refine if_neg fun selects => ?_
  rw [Slot.encode] at selects
  cases op with
  | apRead addr =>
    rcases address_cases addr with lo | lo | lo | lo <;>
      simp [encodeTransfer, encodeTransferRaw, lo, xferA3, xferA2, xferRnW, xferAPnDP] at selects
  | apWrite addr data =>
    rcases address_cases addr with lo | lo | lo | lo <;>
      simp [encodeTransfer, encodeTransferRaw, lo, xferA3, xferA2, xferAPnDP] at selects
  | dpRead addr =>
    rcases address_cases addr with lo | lo | lo | lo <;>
      simp [encodeTransfer, encodeTransferRaw, lo, xferA3, xferA2, xferRnW] at selects
  | dpWrite addr data =>
    rcases address_cases addr with lo | lo | lo | lo
    · simp [encodeTransfer, encodeTransferRaw, lo, xferA3] at selects
    · simp [encodeTransfer, encodeTransferRaw, lo, xferA3, xferA2] at selects
    · exact plain lo
    · simp [encodeTransfer, encodeTransferRaw, lo, xferA3, xferA2] at selects
  | abort what => simp [encodeTransfer, xferA3] at selects
  | run cycles => simp [encodeTransfer, xferA3] at selects
  | other typeName => simp [encodeTransfer, xferA3] at selects

/-! ### The queue of a batch -/

/-- Where SELECT starts as `select` and every slot is executed, each access has the SELECT it needs, and SELECT ends as
`last`. -/
def Tracks : Nat → List Slot → Nat → Prop
  | select, [], last => select = last
  | _, .writeSelect value :: slots, last => value < 2 ^ 32 ∧ Tracks value slots last
  | select, .access op :: slots, last => Needs op select ∧ ¬ WritesSelect op ∧ Tracks select slots last

theorem Tracks.append {select middle last : Nat} {front back : List Slot} (first : Tracks select front middle)
    (second : Tracks middle back last) : Tracks select (front ++ back) last := by
  induction front generalizing select with
  | nil =>
    cases first
    exact second
  | cons slot front ih =>
    cases slot with
    | writeSelect value => exact ⟨first.1, ih first.2⟩
    | access op => exact ⟨first.1, first.2.1, ih first.2.2⟩

namespace Lowering

@[simp] theorem select_flushRun (lowering : Lowering) : lowering.flushRun.select = lowering.select := by
  rw [flushRun]
  split <;> rfl

@[simp] theorem encoded_flushRun (lowering : Lowering) : lowering.flushRun.encoded = [] := by
  rw [flushRun]
  split
  · assumption
  · rfl

@[simp] theorem slots_flushRun (lowering : Lowering) : lowering.flushRun.slots = lowering.slots := by
  rw [flushRun]
  split
  · rfl
  · simp [slots, Await.slots]

theorem slots_emitSelectIfChanged (lowering : Lowering) (cur : Nat) (op : Op) :
    (lowering.emitSelectIfChanged cur op).slots = lowering.slots ++
      if lowering.select = selectFor cur op then [] else [.writeSelect (selectFor cur op)] := by
  rw [emitSelectIfChanged]
  split
  · exact (List.append_nil _).symm
  · exact (List.append_assoc ..).symm

theorem select_emitSelectIfChanged (lowering : Lowering) (cur : Nat) (op : Op) :
    (lowering.emitSelectIfChanged cur op).select = selectFor cur op := by
  rw [emitSelectIfChanged]
  split
  · assumption
  · rfl

theorem tracks_access {lowering : Lowering} {cur : Nat} {op : Op} (tracks : Tracks cur lowering.slots lowering.select)
    (shaped : op.access.isSome) (plain : ¬ WritesSelect op) :
    Tracks cur ((lowering.emitSelectIfChanged cur op).slots ++ [.access op])
      (lowering.emitSelectIfChanged cur op).select := by
  have needed : Tracks (selectFor cur op) [.access op] (selectFor cur op) := ⟨needs_selectFor cur op, plain, rfl⟩
  rw [slots_emitSelectIfChanged, select_emitSelectIfChanged]
  refine Tracks.append (tracks.append ?_) needed
  split
  · assumption
  · exact ⟨selectFor_lt cur shaped, rfl⟩

theorem slots_awaiting (lowering : Lowering) {awaits : List Await} (quiet : awaits.flatMap Await.slots = []) :
    { lowering.flushRun with awaits := lowering.flushRun.awaits ++ awaits }.slots = lowering.slots := by
  rw [← slots_flushRun lowering, slots, slots, List.flatMap_append, quiet, List.append_nil]

theorem tracks_lower {lowering : Lowering} {cur : Nat} {op : Op} (tracks : Tracks cur lowering.slots lowering.select)
    (plain : ¬ WritesSelect op) : Tracks cur (lowering.lower cur op).slots (lowering.lower cur op).select := by
  have access (shaped : op.access.isSome) :
      Tracks cur { lowering.emitSelectIfChanged cur op with
        encoded := (lowering.emitSelectIfChanged cur op).encoded ++ [Slot.access op] }.slots
        (lowering.emitSelectIfChanged cur op).select := by
    rw [slots, ← List.append_assoc]
    exact tracks_access tracks shaped plain
  cases op with
  | apRead addr => exact access rfl
  | apWrite addr data => exact access rfl
  | dpRead addr => exact access rfl
  | dpWrite addr data => exact access rfl
  | abort what =>
    rw [lower, slots_awaiting lowering rfl]
    exact (select_flushRun lowering).symm ▸ tracks
  | run cycles =>
    rw [lower]
    split
    · have quiet : ((swjChunks (cycles - defaultIdleCycles)).map fun chunk =>
          Await.swjSequence chunk.1 chunk.2).flatMap Await.slots = [] := by
        rw [List.flatMap_map]
        exact List.flatMap_eq_nil_iff.mpr fun _ _ => rfl
      rw [slots_awaiting lowering quiet]
      exact (select_flushRun lowering).symm ▸ tracks
    · exact tracks
  | other typeName => exact tracks

end Lowering

def queue (cur : Nat) (batch : List Op) : List Slot := (lowerBatch cur batch).awaits.flatMap Await.slots

theorem tracks_queue (cur : Nat) {batch : List Op} (plain : ∀ op ∈ batch, ¬ WritesSelect op) :
    Tracks cur (queue cur batch) (lowerBatch cur batch).select := by
  have lowered (ops : List Op) (member : ∀ op ∈ ops, ¬ WritesSelect op) (lowering : Lowering)
      (tracks : Tracks cur lowering.slots lowering.select) :
      Tracks cur (ops.foldl (Lowering.lower cur) lowering).slots (ops.foldl (Lowering.lower cur) lowering).select := by
    induction ops generalizing lowering with
    | nil => exact tracks
    | cons op ops ih =>
      exact ih (fun op later => member op (List.mem_cons_of_mem _ later)) _
        (Lowering.tracks_lower tracks (member op (List.mem_cons_self ..)))
  have tracks := lowered batch plain ⟨cur, [], []⟩ rfl
  have all := Lowering.slots_flushRun (batch.foldl (Lowering.lower cur) ⟨cur, [], []⟩)
  rw [Lowering.slots, Lowering.encoded_flushRun, List.append_nil] at all
  rw [queue, lowerBatch, all, Lowering.select_flushRun]
  exact tracks

/-! ### Packing -/

theorem packet_append (limit requests responses : Nat) (slots : List Slot) :
    (packet limit requests responses slots).1 ++ (packet limit requests responses slots).2 = slots := by
  induction slots generalizing requests responses with
  | nil => rfl
  | cons slot slots ih =>
    rw [packet]
    split
    · rfl
    · exact congrArg (slot :: ·) (ih _ _)

theorem packets_sublist (limit rounds : Nat) (slots : List Slot) :
    (packets limit rounds slots).flatten.Sublist slots := by
  induction rounds generalizing slots with
  | zero => exact List.nil_sublist _
  | succ rounds ih =>
    cases slots with
    | nil => exact List.nil_sublist _
    | cons slot slots =>
      have whole := packet_append limit 0 0 (slot :: slots)
      rw [packets]
      split
      · exact (ih slots).cons slot
      · rename_i front rest nonempty same
        rw [same] at whole
        rw [List.flatten_cons, ← whole]
        exact (List.Sublist.refl _).append (ih rest)

theorem encode_length_le (slot : Slot) : slot.encode.2.length ≤ 4 := by
  have raw (ap read : Bool) (addr data : Nat) : (encodeTransferRaw ap read addr data).2.length ≤ 4 := by
    cases read
    · exact Nat.le_of_eq (length_split _ 4)
    · exact Nat.zero_le _
  cases slot with
  | writeSelect value => exact raw ..
  | access op =>
    cases op with
    | apRead addr => exact raw ..
    | apWrite addr data => exact raw ..
    | dpRead addr => exact raw ..
    | dpWrite addr data => exact raw ..
    | abort what => exact Nat.zero_le _
    | run cycles => exact Nat.zero_le _
    | other typeName => exact Nat.zero_le _

theorem packet_cons {limit : Nat} (room : 5 ≤ limit) (slot : Slot) (slots : List Slot) :
    ∃ front rest, packet limit 0 0 (slot :: slots) = (slot :: front, rest) := by
  have payload := encode_length_le slot
  have response : slot.responseSize ≤ 4 := by
    rw [Slot.responseSize]
    split <;> omega
  refine ⟨_, _, if_neg ?_⟩
  rw [Slot.requestSize]
  omega

theorem packets_flatten {limit : Nat} (room : 5 ≤ limit) (rounds : Nat) {slots : List Slot}
    (enough : slots.length ≤ rounds) : (packets limit rounds slots).flatten = slots := by
  induction rounds generalizing slots with
  | zero =>
    rw [List.eq_nil_of_length_eq_zero (Nat.le_zero.mp enough)]
    rfl
  | succ rounds ih =>
    cases slots with
    | nil => rfl
    | cons slot slots =>
      obtain ⟨front, rest, same⟩ := packet_cons room slot slots
      have whole := packet_append limit 0 0 (slot :: slots)
      rw [same] at whole
      have shorter : rest.length ≤ rounds := by
        have lengths := congrArg List.length whole
        simp only [List.length_append, List.length_cons] at lengths enough
        omega
      rw [packets, same]
      exact (congrArg (slot :: front ++ ·) (ih shorter)).trans whole

theorem commands_slots (packetSize : Nat) (awaits : List Await) :
    ((commands packetSize awaits).flatMap Command.slots).Sublist (awaits.flatMap Await.slots) := by
  induction awaits with
  | nil => exact List.Sublist.refl _
  | cons await awaits ih =>
    rw [commands, List.flatMap_cons, List.flatMap_append, List.flatMap_cons]
    refine List.Sublist.append ?_ ih
    cases await with
    | xferGroup encoded =>
      rw [Await.commands, List.flatMap_map]
      exact List.flatMap_id ▸ packets_sublist ..
    | swjSequence count payload => exact List.Sublist.refl _
    | writeAbort value => exact List.Sublist.refl _

theorem commands_all {packetSize : Nat} (room : 8 ≤ packetSize) (awaits : List Await) :
    (commands packetSize awaits).flatMap Command.slots = awaits.flatMap Await.slots := by
  induction awaits with
  | nil => rfl
  | cons await awaits ih =>
    rw [commands, List.flatMap_cons, List.flatMap_append, List.flatMap_cons]
    refine congrArg₂ (· ++ ·) ?_ ih
    cases await with
    | xferGroup encoded =>
      rw [Await.commands, List.flatMap_map]
      exact List.flatMap_id.trans (packets_flatten (by omega) _ (Nat.le_refl _))
    | swjSequence count payload => rfl
    | writeAbort value => rfl

/-! ### Execution -/

/-- The executed slots hold every write of SELECT that is queued. -/
inductive Covers : List Slot → List Slot → Prop
  | nil : Covers [] []
  | execute {executed queued : List Slot} (slot : Slot) (covers : Covers executed queued) :
      Covers (slot :: executed) (slot :: queued)
  | skip {executed queued : List Slot} (op : Op) (covers : Covers executed queued) :
      Covers executed (.access op :: queued)

namespace Covers

theorem append {executed queued more behind : List Slot} (first : Covers executed queued)
    (second : Covers more behind) : Covers (executed ++ more) (queued ++ behind) := by
  induction first with
  | nil => exact second
  | execute slot covers ih => exact .execute slot ih
  | skip op covers ih => exact .skip op ih

theorem of_sublist {executed queued : List Slot} (sublist : executed.Sublist queued)
    (accesses : queued.all Slot.isAccess) : Covers executed queued := by
  induction sublist with
  | slnil => exact .nil
  | cons slot sublist ih =>
    rw [List.all_cons, Bool.and_eq_true] at accesses
    cases slot with
    | writeSelect value => cases accesses.1
    | access op => exact .skip op (ih accesses.2)
  | cons_cons slot sublist ih =>
    rw [List.all_cons, Bool.and_eq_true] at accesses
    exact .execute slot (ih accesses.2)

theorem take (slots : List Slot) (n : Nat) (accesses : (slots.drop n).all Slot.isAccess) :
    Covers (slots.take n) slots := by
  have front : Covers (slots.take n) (slots.take n) := by
    induction slots.take n with
    | nil => exact .nil
    | cons slot slots ih => exact .execute slot ih
  have back : Covers [] (slots.drop n) := of_sublist (List.nil_sublist _) accesses
  have whole := front.append back
  rwa [List.append_nil, List.take_append_drop] at whole

end Covers

theorem Tracks.execute {port : Port} {executed queued : List Slot} {last : Nat}
    (tracks : Tracks port.select queued last) (covers : Covers executed queued) (selected : port.Selected) :
    (executed.foldl Port.execute port).Selected ∧ (executed.foldl Port.execute port).select = last := by
  induction covers generalizing port with
  | nil => exact ⟨selected, tracks⟩
  | execute slot covers ih =>
    cases slot with
    | writeSelect value =>
      obtain ⟨small, tracks⟩ := tracks
      refine ih ?_ selected
      rwa [Port.execute, select_writeSelect, Nat.mod_eq_of_lt small]
    | access op =>
      obtain ⟨needs, plain, tracks⟩ := tracks
      refine ih ?_ ?_
      · rwa [Port.execute, select_access plain]
      · intro entry member
        rcases List.mem_append.mp member with before | now
        · exact selected entry before
        · rw [List.mem_singleton.mp now]
          exact needs
  | skip op covers ih => exact ih tracks.2.2 selected

def executed (probe : Probe) : Nat → List Command → List Slot
  | _, [] => []
  | k, .transfer slots :: rest =>
    if 255 < slots.length then [] else slots.take (probe.completes k) ++ executed probe (k + 1) rest
  | k, .swjSequence _ _ :: rest => if probe.accepts k then executed probe (k + 1) rest else []
  | k, .writeAbort _ :: rest => executed probe (k + 1) rest

theorem Port.issue_eq (probe : Probe) (k : Nat) (port : Port) (commands : List Command) :
    (port.issue probe k commands).1 = (executed probe k commands).foldl Port.execute port := by
  induction commands generalizing k port with
  | nil => rfl
  | cons command commands ih =>
    cases command with
    | transfer slots =>
      rw [issue, executed]
      split
      · rfl
      · rw [List.foldl_append]
        exact ih _ _
    | swjSequence count payload =>
      rw [issue, executed]
      split
      · exact ih _ _
      · rfl
    | writeAbort value => exact ih _ _

theorem executed_sublist (probe : Probe) (k : Nat) (commands : List Command) :
    (executed probe k commands).Sublist (commands.flatMap Command.slots) := by
  induction commands generalizing k with
  | nil => exact List.Sublist.refl _
  | cons command commands ih =>
    rw [List.flatMap_cons]
    cases command with
    | transfer slots =>
      rw [executed]
      split
      · exact List.nil_sublist _
      · exact (List.take_sublist _ _).append (ih _)
    | swjSequence count payload =>
      rw [executed]
      split
      · exact ih _
      · exact List.nil_sublist _
    | writeAbort value => exact ih _

/-- No transfer is stopped before its last write of SELECT, and nothing raises. -/
def carried (probe : Probe) : Nat → List Command → Bool
  | _, [] => true
  | k, .transfer slots :: rest =>
    decide (slots.length ≤ 255) && (slots.drop (probe.completes k)).all Slot.isAccess && carried probe (k + 1) rest
  | k, .swjSequence _ _ :: rest => probe.accepts k && carried probe (k + 1) rest
  | k, .writeAbort _ :: rest => carried probe (k + 1) rest

theorem carried_covers {probe : Probe} {k : Nat} {commands : List Command} (carries : carried probe k commands)
    (port : Port) :
    Covers (executed probe k commands) (commands.flatMap Command.slots) ∧ (port.issue probe k commands).2 := by
  induction commands generalizing k port with
  | nil => exact ⟨.nil, rfl⟩
  | cons command commands ih =>
    rw [List.flatMap_cons]
    cases command with
    | transfer slots =>
      simp only [carried, Bool.and_eq_true, decide_eq_true_eq] at carries
      obtain ⟨⟨short, accesses⟩, carries⟩ := carries
      obtain ⟨covers, returned⟩ := ih carries ((slots.take (probe.completes k)).foldl Port.execute port)
      rw [executed, Port.issue, if_neg (Nat.not_lt.mpr short), if_neg (Nat.not_lt.mpr short)]
      exact ⟨(Covers.take slots _ accesses).append covers, returned⟩
    | swjSequence count payload =>
      simp only [carried, Bool.and_eq_true] at carries
      rw [executed, Port.issue, if_pos carries.1, if_pos carries.1]
      exact ih carries.2 port
    | writeAbort value => exact ih carries port

/-! ### Runs -/

/-- The batch needs no write of SELECT, or it runs to its end with all of them executed. -/
def Serves (packetSize : Nat) (port : Port) (event : Event) : Prop :=
  (queue port.cache event.batch).all Slot.isAccess = true ∨
    8 ≤ packetSize ∧ carried event.probe 0 (commands packetSize (lowerBatch port.cache event.batch).awaits) = true

instance (packetSize : Nat) (port : Port) (event : Event) : Decidable (Serves packetSize port event) :=
  inferInstanceAs (Decidable (_ ∨ _))

/-- The cache tells the truth. -/
structure Port.Sound (port : Port) : Prop where
  cached : port.cache = port.select
  selected : port.Selected

theorem Tracks.of_accesses {select last : Nat} {slots : List Slot} (tracks : Tracks select slots last)
    (accesses : slots.all Slot.isAccess) : select = last := by
  induction slots with
  | nil => exact tracks
  | cons slot slots ih =>
    rw [List.all_cons, Bool.and_eq_true] at accesses
    cases slot with
    | writeSelect value => cases accesses.1
    | access op => exact ih tracks.2.2 accesses.2

theorem Port.execute_cache (port : Port) (slots : List Slot) : (slots.foldl execute port).cache = port.cache := by
  induction slots generalizing port with
  | nil => rfl
  | cons slot slots ih =>
    refine (ih (port.execute slot)).trans ?_
    cases slot <;> rfl

theorem Port.Sound.flushOps {packetSize : Nat} {port : Port} {event : Event} (sound : port.Sound)
    (plain : ∀ op ∈ event.batch, ¬ WritesSelect op) (serves : Serves packetSize port event) :
    (port.flushOps packetSize event).Sound := by
  have tracks := tracks_queue port.cache plain
  have issued := port.issue_eq event.probe 0 (commands packetSize (lowerBatch port.cache event.batch).awaits)
  have found : Tracks port.select (queue port.cache event.batch) (lowerBatch port.cache event.batch).select := by
    rw [← sound.cached]
    exact tracks
  rw [Port.flushOps]
  rcases serves with accesses | ⟨room, carries⟩
  · have covers := Covers.of_sublist ((executed_sublist event.probe 0 _).trans (commands_slots packetSize _)) accesses
    obtain ⟨selected, last⟩ := found.execute covers sound.selected
    rw [← issued] at selected last
    have same := tracks.of_accesses accesses
    have kept := port.execute_cache (executed event.probe 0
      (commands packetSize (lowerBatch port.cache event.batch).awaits))
    rw [← issued] at kept
    split
    · rename_i after returned
      rw [returned] at selected last
      exact ⟨last.symm, selected⟩
    · rename_i after raised
      rw [raised] at selected last kept
      exact ⟨kept.trans (same.trans last.symm), selected⟩
  · obtain ⟨covers, returned⟩ := carried_covers carries port
    rw [commands_all room] at covers
    obtain ⟨selected, last⟩ := found.execute covers sound.selected
    rw [← issued] at selected last
    split
    · rename_i after returned
      rw [returned] at selected last
      exact ⟨last.symm, selected⟩
    · rename_i after raised
      rw [raised] at returned
      cases returned

theorem sound_start : start.Sound := ⟨rfl, nofun⟩

/-- In a run whose batches write SELECT only through the cache and are served, every access finds what it needs. -/
theorem accesses_selected {packetSize : Nat} {events : List Event} {last : Port}
    (plain : ∀ event ∈ events, ∀ op ∈ event.batch, ¬ WritesSelect op)
    (served : Along (Port.step packetSize) (Serves packetSize) start events)
    (ran : events.foldlM (Port.step packetSize) start = some last) : last.Selected := by
  have sound : last.Sound := by
    refine foldlM_along ?_ sound_start (served.and plain) ran
    intro port event next sound met stepped
    cases stepped
    exact sound.flushOps met.2 met.1
  exact sound.selected

/-- A read through access port 1 of which the probe executes the first `completes` slots, and then the same read with
its first slot executed. -/
def readTwice (completes : Nat) : List Event :=
  [⟨[.apRead 0x01000000], fun _ => completes, fun _ => true⟩, ⟨[.apRead 0x01000000], fun _ => 1, fun _ => true⟩]

theorem accesses_selected_after_fault :
    ∃ last, (readTwice 1).foldlM (Port.step 64) start = some last ∧
      last.log = [(.apRead 0x01000000, 0x01000000)] ∧ last.Selected := by
  have plain : ∀ event ∈ readTwice 1, ∀ op ∈ event.batch, ¬ WritesSelect op := by
    simp [readTwice, WritesSelect]
  exact ⟨_, rfl, by decide, accesses_selected plain (by decide) rfl⟩

/-- Where the write of SELECT itself is not acknowledged, the next access goes to the wrong access port. -/
theorem unacknowledged_select_missed :
    (∀ event ∈ readTwice 0, ∀ op ∈ event.batch, ¬ WritesSelect op) ∧
      ∃ last, (readTwice 0).foldlM (Port.step 64) start = some last ∧ last.log = [(.apRead 0x01000000, 0)] ∧
        ¬ last.Selected := by
  refine ⟨by simp [readTwice, WritesSelect], _, rfl, by decide, fun selected => ?_⟩
  exact absurd (selected _ (List.mem_singleton_self _)) (by decide)

end Acrobe.CmsisDap
