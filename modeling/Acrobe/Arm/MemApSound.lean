import Acrobe.Arm.MemAp
import Acrobe.Memory.BulkSound

/-!
# Lowered batches at the access port

A lowered batch makes the accesses of the batch in order, each at the low half of its address below
the upper half that TAR_HI holds, which the lowering never writes.
-/

namespace Acrobe.Arm
open LittleEndian Acrobe.Lib Acrobe.Memory

/-! ### Masks -/

theorem and_three (addr : Nat) : addr &&& 3 = addr % 4 := Nat.and_two_pow_sub_one_eq_mod addr 2

theorem and_ffffffff (addr : Nat) : addr &&& 0xffffffff = addr % 2 ^ 32 :=
  Nat.and_two_pow_sub_one_eq_mod addr 32

theorem two_pow_bytes (count : Nat) : 2 ^ (count * 8) = 256 ^ count := by
  rw [Nat.mul_comm, Nat.pow_mul]

theorem and_segment (addr : Nat) : addr &&& 0xFFFFFC00 = addr / 1024 % 2 ^ 22 * 1024 := by
  have mask : 0xFFFFFC00 = (2 ^ 22 - 1) * 2 ^ 10 := by decide
  have segment : 1024 = 2 ^ 10 := by decide
  apply Nat.eq_of_testBit_eq
  intro i
  rw [mask, segment, Nat.testBit_and, Nat.testBit_mul_two_pow, Nat.testBit_mul_two_pow, Nat.testBit_mod_two_pow,
    Nat.testBit_two_pow_sub_one, Nat.testBit_div_two_pow]
  by_cases above : 10 ≤ i
  · rw [decide_eq_true above, Bool.true_and, Bool.true_and, Nat.sub_add_cancel above, Bool.and_comm]
  · rw [decide_eq_false above, Bool.false_and, Bool.false_and, Bool.and_false]

theorem width_bytes_le (width : Width) : width.bytes ≤ 4 := by
  cases width <;> decide

theorem lane_le {addr : Nat} {width : Width} (aligned : addr % width.bytes = 0) : addr % 4 + width.bytes ≤ 4 := by
  cases width <;> simp only [Width.bytes] at aligned ⊢ <;> omega

/-! ### Lanes -/

theorem lanes_span (ap : MemAp) {addr : Nat} {width : Width} (aligned : addr % width.bytes = 0) :
    ((ap.lanes addr width).take (addr % 4 + width.bytes)).drop (addr % 4) = ap.memory.read addr width.bytes := by
  have inside := lane_le aligned
  have count : (ap.lanes addr width).length = 4 := by rw [MemAp.lanes, List.length_map, List.length_range]
  apply List.ext_getElem?
  intro i
  rw [List.getElem?_drop, List.getElem?_take]
  by_cases here : i < width.bytes
  · have lane : addr / 4 * 4 + (addr % 4 + i) = addr + i := by omega
    rw [if_pos (by omega), ByteMemory.getElem?_read _ _ here, MemAp.lanes, List.getElem?_map,
      List.getElem?_range (by omega), Option.map_some, if_pos (by omega), lane]
  · rw [if_neg (by omega), List.getElem?_eq_none (by rw [ByteMemory.length_read]; omega)]

theorem laneResult_read (ap : MemAp) {addr op : Nat} {width : Width} (aligned : addr % width.bytes = 0)
    (lane : op % 4 = addr % 4) :
    laneResult (combine (ap.lanes addr width)) (.read width op) =
      .int (combine (ap.memory.read addr width.bytes)) := by
  have inside := lane_le aligned
  have count : (ap.lanes addr width).length = 4 := by rw [MemAp.lanes, List.length_map, List.length_range]
  have bytes := split_combine (ap.lanes addr width)
  have value := combine_drop_take (combine (ap.lanes addr width)) 4 (addr % 4) (addr % 4 + width.bytes) inside
    (Nat.le_add_right _ _)
  rw [count] at bytes
  rw [bytes, lanes_span ap aligned, Nat.add_sub_cancel_left] at value
  rw [laneResult, and_three, lane, Nat.shiftRight_eq_div_pow, Nat.one_shiftLeft, Nat.and_two_pow_sub_one_eq_mod,
    two_pow_bytes, two_pow_bytes, value]

theorem lane_written {addr op : Nat} {width : Width} (data : Nat) (aligned : addr % width.bytes = 0)
    (lane : op % 4 = addr % 4) :
    ((split ((data <<< ((op &&& 3) * 8)) &&& 0xffffffff) 4).drop (addr % 4)).take width.bytes =
      split data width.bytes := by
  have inside := lane_le aligned
  have placed : split ((data <<< ((op &&& 3) * 8)) &&& 0xffffffff) 4 =
      split (data * 256 ^ (addr % 4)) (addr % 4) ++ split data (4 - addr % 4) := by
    rw [and_three, and_ffffffff, lane, Nat.shiftLeft_eq, two_pow_bytes, show 2 ^ 32 = 256 ^ 4 by decide, split_mod]
    have joined := split_add (data * 256 ^ (addr % 4)) (addr % 4) (4 - addr % 4)
    rw [Nat.mul_div_cancel _ (Nat.pow_pos (by decide)), Nat.add_sub_cancel' (by omega)] at joined
    exact joined
  have rest : split data (4 - addr % 4) = split data width.bytes ++
      split (data / 256 ^ width.bytes) (4 - addr % 4 - width.bytes) := by
    rw [← split_add, Nat.add_sub_cancel' (by omega)]
  rw [placed, List.drop_left' (length_split _ _), rest, List.take_left' (length_split _ _)]

/-! ### The cached registers -/

/-- What the lowering takes to be in CSW and TAR is there. -/
structure Tracks (cache : TarCache) (ap : MemAp) : Prop where
  csw : ∀ csw, cache.csw = some csw → ap.csw = csw
  tar : ∀ tar, cache.tar = some tar → ap.tarLo = some (tar % 2 ^ 32)

theorem csw_size (width : Width) : cswWith (sizeFor width) cswAddrIncSingle % 8 = sizeFor width := by
  cases width <;> decide

theorem csw_addrInc (width : Width) : cswWith (sizeFor width) cswAddrIncSingle / 16 % 4 = 1 := by
  cases width <;> decide

namespace MemAp

theorem run_append (ap : MemAp) (front back : List Posted) :
    ap.run (front ++ back) =
      (((ap.run front).1.run back).1, (ap.run front).2 ++ ((ap.run front).1.run back).2) := by
  induction front generalizing ap with
  | nil => rfl
  | cons posted front ih => rw [List.cons_append, run, run, ih, List.append_assoc]

theorem access_csw (ap : MemAp) (data : Nat) :
    ap.access (.write ap.version.csw data) = ({ ap with csw := data }, 0) := by
  rw [access, if_pos rfl]

theorem access_tarLo (ap : MemAp) (data : Nat) :
    ap.access (.write ap.version.tarLo data) = ({ ap with tarLo := some data }, 0) := by
  have other : ap.version.tarLo ≠ ap.version.csw := by
    rw [ApVersion.tarLo, ApVersion.csw]
    omega
  rw [access, if_neg other, if_pos rfl]

theorem access_writeDrw (ap : MemAp) (data : Nat) :
    ap.access (.write ap.version.drw data) = (ap.writeDrw data, 0) := by
  have notCsw : ap.version.drw ≠ ap.version.csw := by
    rw [ApVersion.drw, ApVersion.csw]
    omega
  have notLow : ap.version.drw ≠ ap.version.tarLo := by
    rw [ApVersion.drw, ApVersion.tarLo]
    omega
  have notHigh : ap.version.drw ≠ ap.version.tarHi := by
    rw [ApVersion.drw, ApVersion.tarHi]
    omega
  rw [access, if_neg notCsw, if_neg notLow, if_neg notHigh, if_pos rfl]

theorem access_readDrw (ap : MemAp) : ap.access (.read ap.version.drw) = ap.readDrw := by
  rw [access, if_pos rfl]

end MemAp

/-! ### One operation -/

section Step
variable {cache : TarCache} {ap : MemAp}

/-- The port set up for an access of `width` bytes at the low half of `addr`. -/
def MemAp.setUp (ap : MemAp) (width : Width) (addr : Nat) : MemAp :=
  { ap with csw := cswWith (sizeFor width) cswAddrIncSingle, tarLo := some (addr % 2 ^ 32) }

theorem run_cswWrites (tracks : Tracks cache ap) (csw : Nat) :
    ap.run (if cache.csw ≠ some csw then [⟨.write ap.version.csw csw, none⟩] else []) =
      ({ ap with csw := csw }, []) := by
  by_cases cached : cache.csw = some csw
  · rw [if_neg (not_not.mpr cached), MemAp.run, ← tracks.csw csw cached]
  · rw [if_pos cached, MemAp.run, MemAp.access_csw]
    rfl

theorem run_tarWrites (tracks : Tracks cache ap) (addr : Nat) :
    ap.run (if cache.tar ≠ some addr then [⟨.write ap.version.tarLo (addr &&& 0xffffffff), none⟩] else []) =
      ({ ap with tarLo := some (addr % 2 ^ 32) }, []) := by
  by_cases cached : cache.tar = some addr
  · rw [if_neg (not_not.mpr cached), MemAp.run, ← tracks.tar addr cached]
  · rw [if_pos cached, MemAp.run, MemAp.access_tarLo, and_ffffffff]
    rfl

theorem run_setup (tracks : Tracks cache ap) (width : Width) (addr : Nat) :
    ap.run (cswTarSetup ap.version addr (sizeFor width) cache).2 = (ap.setUp width addr, []) := by
  have tarTracks : Tracks ⟨none, cache.tar⟩ { ap with csw := cswWith (sizeFor width) cswAddrIncSingle } :=
    ⟨fun _ missing => (Option.some_ne_none _ missing.symm).elim, tracks.tar⟩
  have tarWritten := run_tarWrites tarTracks addr
  rw [cswTarSetup, MemAp.run_append, run_cswWrites tracks, tarWritten]
  rfl

variable {width : Width} {addr : Nat}

theorem low_aligned (aligned : addr % width.bytes = 0) : addr % 2 ^ 32 % width.bytes = 0 := by
  cases width <;> simp only [Width.bytes] at aligned ⊢ <;> omega

theorem setUp_target (aligned : addr % width.bytes = 0) :
    (ap.setUp width addr).target = some (addr % 2 ^ 32, width) := by
  have size : (ap.setUp width addr).size = some width := by
    rw [MemAp.size, MemAp.setUp, csw_size]
    cases width <;> rfl
  rw [MemAp.target, size, MemAp.setUp]
  exact if_pos (low_aligned aligned)

theorem setUp_nextTarLo (tar sizeBytes : Nat) :
    (ap.setUp width addr).nextTarLo tar sizeBytes =
      if (tar + sizeBytes) / 1024 = tar / 1024 then some (tar + sizeBytes) else none := by
  rw [MemAp.nextTarLo, MemAp.setUp, csw_addrInc]
  rfl

theorem tarAdvance_tracks {tar : Nat} (predicted : tarAdvance addr width.bytes = some tar) :
    (ap.setUp width addr).nextTarLo (addr % 2 ^ 32) width.bytes = some (tar % 2 ^ 32) := by
  have small := width_bytes_le width
  rw [tarAdvance, and_segment, and_segment] at predicted
  by_cases crosses : (addr + width.bytes) / 1024 % 2 ^ 22 * 1024 = addr / 1024 % 2 ^ 22 * 1024
  · rw [if_neg (not_not.mpr crosses)] at predicted
    cases predicted
    rw [setUp_nextTarLo, if_pos (by omega)]
    congr 1
    omega
  · rw [if_pos crosses] at predicted
    cases predicted

/-- The operation that the port performs when it is asked for `op`. -/
def MemAp.reached (ap : MemAp) : RegisterOp → RegisterOp
  | .read width addr => .read width (ap.high + addr % 2 ^ 32)
  | .write width addr data => .write width (ap.high + addr % 2 ^ 32) data

def busAccess : RegisterOp → BusAccess
  | .read width addr => ⟨false, width, addr⟩
  | .write width addr _ => ⟨true, width, addr⟩

theorem high_lane (ap : MemAp) (addr : Nat) : (ap.high + addr % 2 ^ 32) % 4 = addr % 4 := by
  rw [MemAp.high]
  split <;> omega

theorem high_aligned (ap : MemAp) (aligned : addr % width.bytes = 0) :
    (ap.high + addr % 2 ^ 32) % width.bytes = 0 := by
  have lane := high_lane ap addr
  cases width <;> simp only [Width.bytes] at aligned ⊢ <;> omega

/-- What one operation of the batch leaves and completes with. -/
structure Performed (cache : TarCache) (ap : MemAp) (op : RegisterOp) (done : MemAp × List Result) : Prop where
  tracks : Tracks cache done.1
  version : done.1.version = ap.version
  cfg : done.1.cfg = ap.cfg
  tarHi : done.1.tarHi = ap.tarHi
  memory : done.1.memory = (execRegister ap.memory (ap.reached op)).1
  log : done.1.log = ap.log ++ [some (busAccess (ap.reached op))]
  results : done.2.map .ok = [(execRegister ap.memory (ap.reached op)).2]

theorem emit_performed (tracks : Tracks cache ap) {op : RegisterOp} (aligned : op.Aligned) :
    Performed (emit ap.version op cache).1 ap op (ap.run (emit ap.version op cache).2) := by
  rw [emit, MemAp.run_append, run_setup tracks]
  cases op with
  | read width addr =>
    have place : addr % width.bytes = 0 := aligned
    have drw : (ap.setUp width addr).access (drwAccess ap.version (.read width addr)) =
        (ap.setUp width addr).readDrw := MemAp.access_readDrw (ap.setUp width addr)
    have value := laneResult_read (ap.setUp width addr) (high_aligned ap place) (high_lane ap addr).symm
    rw [MemAp.run, RegisterOp.width, RegisterOp.addr, drw, MemAp.readDrw, setUp_target place]
    constructor
    · exact ⟨fun csw cached => Option.some.inj cached, fun tar predicted => tarAdvance_tracks predicted⟩
    · rfl
    · rfl
    · rfl
    · rw [MemAp.reached, execRegister_read _ (high_aligned ap place)]
      rfl
    · rfl
    · rw [MemAp.reached, execRegister_read _ (high_aligned ap place)]
      exact congrArg (fun result => [Except.ok result]) value
  | write width addr data =>
    have place : addr % width.bytes = 0 := aligned
    have drw : (ap.setUp width addr).access (drwAccess ap.version (.write width addr data)) =
        ((ap.setUp width addr).writeDrw ((data <<< ((addr &&& 3) * 8)) &&& 0xffffffff), 0) :=
      MemAp.access_writeDrw (ap.setUp width addr) _
    have bytes := lane_written data (low_aligned place) (Nat.mod_mod_of_dvd addr (by decide : 4 ∣ 2 ^ 32)).symm
    rw [MemAp.run, RegisterOp.width, RegisterOp.addr, drw, MemAp.writeDrw, setUp_target place]
    dsimp only
    rw [bytes]
    constructor
    · exact ⟨fun csw cached => Option.some.inj cached, fun tar predicted => tarAdvance_tracks predicted⟩
    · rfl
    · rfl
    · rfl
    · rw [MemAp.reached, execRegister_write _ _ (high_aligned ap place)]
      rfl
    · rfl
    · rw [MemAp.reached, execRegister_write _ _ (high_aligned ap place)]
      rfl

end Step

/-! ### Batches -/

theorem reached_congr {ap other : MemAp} (cfg : other.cfg = ap.cfg) (tarHi : other.tarHi = ap.tarHi) :
    other.reached = ap.reached := by
  have high : other.high = ap.high := by rw [MemAp.high, MemAp.high, cfg, tarHi]
  funext op
  cases op <;> simp only [MemAp.reached, high]

theorem lowerFrom_reaches {cache : TarCache} {ap : MemAp} (tracks : Tracks cache ap) (ops : List RegisterOp)
    (aligned : ∀ op ∈ ops, op.Aligned) :
    (ap.run (lowerFrom ap.version cache ops)).1.memory = (lowerRegisterOps ap.memory (ops.map ap.reached)).1 ∧
      (ap.run (lowerFrom ap.version cache ops)).1.log =
        ap.log ++ (ops.map ap.reached).map (fun op => some (busAccess op)) ∧
      (ap.run (lowerFrom ap.version cache ops)).2.map .ok =
        (lowerRegisterOps ap.memory (ops.map ap.reached)).2 := by
  induction ops generalizing cache ap with
  | nil => exact ⟨rfl, (List.append_nil _).symm, rfl⟩
  | cons op ops ih =>
    have here := emit_performed tracks (aligned op List.mem_cons_self)
    have later := ih here.tracks fun other member => aligned other (List.mem_cons_of_mem _ member)
    rw [here.version, reached_congr here.cfg here.tarHi, here.memory, here.log] at later
    obtain ⟨memory, log, results⟩ := later
    rw [lowerFrom, MemAp.run_append, List.map_cons, lowerRegisterOps]
    refine ⟨memory, ?_, ?_⟩
    · rw [log, List.append_assoc, List.map_cons, List.singleton_append]
    · rw [List.map_append, here.results, results, List.singleton_append]

/-- Each operation of the batch makes its own access, and the memory and the futures are those of the
accesses made one by one. -/
def Exact (ap : MemAp) (batch : List RegisterOp) : Prop :=
  (ap.run (lowerBatch ap.version batch)).1.log = ap.log ++ batch.map (fun op => some (busAccess op)) ∧
    (ap.run (lowerBatch ap.version batch)).1.memory = (lowerRegisterOps ap.memory batch).1 ∧
    (ap.run (lowerBatch ap.version batch)).2.map .ok = (lowerRegisterOps ap.memory batch).2

theorem reached_eq_iff (ap : MemAp) (op : RegisterOp) :
    busAccess (ap.reached op) = busAccess op ↔ ap.high + op.addr % 2 ^ 32 = op.addr := by
  cases op <;> simp [MemAp.reached, busAccess, RegisterOp.addr]

theorem reached_eq {ap : MemAp} {op : RegisterOp} (same : ap.high + op.addr % 2 ^ 32 = op.addr) :
    ap.reached op = op := by
  cases op <;> rw [RegisterOp.addr] at same <;> rw [MemAp.reached, same]

theorem high_eq_iff {ap : MemAp} {addr : Nat} (representable : addr < 2 ^ addrSizeBits ap.cfg) :
    ap.high + addr % 2 ^ 32 = addr ↔ (ap.cfg &&& cfgLa ≠ 0 → addr / 2 ^ 32 = ap.tarHi) := by
  rw [addrSizeBits] at representable
  rw [MemAp.high]
  by_cases la : ap.cfg &&& cfgLa ≠ 0
  · rw [if_pos la, imp_iff_right la]
    omega
  · rw [if_neg la] at representable ⊢
    rw [Nat.zero_add, Nat.mod_eq_of_lt representable]
    exact ⟨fun _ la' => absurd la' la, fun _ => rfl⟩

/-- A batch is lowered exactly when the upper half of every address is the one in TAR_HI, where there
is a TAR_HI. -/
theorem lowerBatch_exact_iff (ap : MemAp) (batch : List RegisterOp) (aligned : ∀ op ∈ batch, op.Aligned)
    (representable : ∀ op ∈ batch, op.addr < 2 ^ addrSizeBits ap.cfg) :
    Exact ap batch ↔ (ap.cfg &&& cfgLa ≠ 0 → ∀ op ∈ batch, op.addr / 2 ^ 32 = ap.tarHi) := by
  have empty : Tracks ⟨none, none⟩ ap :=
    ⟨fun _ missing => (Option.some_ne_none _ missing.symm).elim,
      fun _ missing => (Option.some_ne_none _ missing.symm).elim⟩
  obtain ⟨memory, log, results⟩ := lowerFrom_reaches empty batch aligned
  constructor
  · intro exact la op member
    have logged := exact.1
    rw [lowerBatch, log, List.append_cancel_left_eq, List.map_map, List.map_inj_left] at logged
    have same := (reached_eq_iff ap op).mp (Option.some.inj (logged op member))
    exact (high_eq_iff (representable op member)).mp same la
  · intro upper
    have same : batch.map ap.reached = batch := by
      rw [List.map_congr_left, List.map_id']
      intro op member
      exact reached_eq ((high_eq_iff (representable op member)).mpr fun la => upper la op member)
    rw [Exact, lowerBatch, memory, log, results, same]
    exact ⟨rfl, rfl, rfl⟩

/-- A port with large addresses whose TAR_HI holds `tarHi`. -/
def largePort (tarHi : Nat) : MemAp :=
  ⟨.v1, cfgLa, fun _ => 0, 0, none, tarHi, fun addr => UInt8.ofNat addr, []⟩

theorem lowerBatch_across_segments :
    Exact (largePort 1)
      [read32 0x1000003FC, read32 0x100000400, write8 0x100000404 7, read16 0x100000404, read16 0x100000404] := by
  apply (lowerBatch_exact_iff (largePort 1) _ _ _).mpr
  · intro _
    decide
  · decide
  · decide

/-- A word above 4 GiB is read at the low half of its address. -/
theorem lowerBatch_above_four_gib : ¬ Exact (largePort 0) [read32 0x100000000] := by
  intro exact
  have logged := exact.1
  revert logged
  decide

end Acrobe.Arm
