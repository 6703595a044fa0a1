import Mathlib
import Acrobe.Jop.Bytestream

/-!
# The JoP encoder

Each encoder checks its arguments and writes one command. The decoder reads the command back, unless a
long scan comes with more data bytes than its bits need.
-/

namespace Acrobe.Jop
open LittleEndian Incremental BitString

/-- A `BitString` and its `data`, which may hold more bytes than the bits need. -/
structure Given where
  bits : BitString
  data : Bytes
  agree : bits = BitString.ofNat (combine data) bits.length

def header (opcode field : Nat) : UInt8 := UInt8.ofNat (opcode <<< 5 ||| field % 32)

def nibbles (tms tdi : BitString) : UInt8 := UInt8.ofNat (toNat tdi ||| toNat tms <<< 4)

def shortPayload (tms tdi : BitString) : Bytes :=
  (List.range ((tms.length + 3) / 4)).map fun k =>
    nibbles (slice tms (4 * k) (4 * k + 4)) (slice tdi (4 * k) (4 * k + 4))

def encodeShortCustomTmsTdi (tms tdi : BitString) : Except PyErr Bytes :=
  let n := tms.length
  if n = 0 ∨ shortMaxBits < n then .error (.valueError s!"SHORT shift size out of range: {n}")
  else if tdi.length ≠ n then .error (.valueError "tms/tdi length mismatch")
  else .ok (header cmdShortCustomTmsTdi (n - 1) :: shortPayload tms tdi)

def encodeLongFixedTmsCustomTdi (tdi : Given) : Except PyErr Bytes :=
  let n := tdi.bits.length
  if n = 0 ∨ longMaxBits < n then .error (.valueError s!"LONG shift size out of range: {n}")
  else
    let field := n - 1
    .ok (header cmdLongFixedTmsCustomTdi field :: UInt8.ofNat (field >>> 5) :: Storage.ljust tdi.data ((n + 7) / 8))

def encodeLongFixedTmsTdi (numBits : Int) : Except PyErr Bytes :=
  if numBits ≤ 0 ∨ numBits > longMaxBits then .error (.valueError s!"LONG idle size out of range: {numBits}")
  else
    let field := numBits.toNat - 1
    .ok [header cmdLongFixedTmsTdi field, UInt8.ofNat (field >>> 5)]

def encodeWriteTdoEnableFifo (duration : Int) (tdoEnable eopGen : Bool) : Except PyErr Bytes :=
  if duration ≤ 0 ∨ duration > 2 ^ 15 then .error (.valueError s!"capture duration out of range: {duration}")
  else
    let field := duration.toNat - 1
    .ok [header cmdWriteTdoEnableFifo field, UInt8.ofNat (field >>> 5),
      UInt8.ofNat (tdoEnable.toNat <<< 7 ||| eopGen.toNat <<< 6 ||| (field >>> 13) % 4)]

def encodeRetrieveInfo : Bytes := [UInt8.ofNat (cmdConfig <<< 5 ||| configRetrieveInfo)]

def encodeResetTdoFifo : Bytes := [UInt8.ofNat (cmdConfig <<< 5 ||| configResetTdoFifo)]

/-- A call of one of the encoders. -/
inductive Command where
  | retrieveInfo
  | resetTdoFifo
  | writeTdoEnableFifo (duration : Int) (tdoEnable eopGen : Bool)
  | shortCustomTmsTdi (tms tdi : BitString)
  | longFixedTmsCustomTdi (tdi : Given)
  | longFixedTmsTdi (numBits : Int)

namespace Command

def encode : Command → Except PyErr Bytes
  | retrieveInfo => .ok encodeRetrieveInfo
  | resetTdoFifo => .ok encodeResetTdoFifo
  | writeTdoEnableFifo duration tdoEnable eopGen => encodeWriteTdoEnableFifo duration tdoEnable eopGen
  | shortCustomTmsTdi tms tdi => encodeShortCustomTmsTdi tms tdi
  | longFixedTmsCustomTdi tdi => encodeLongFixedTmsCustomTdi tdi
  | longFixedTmsTdi numBits => encodeLongFixedTmsTdi numBits

/-- The operation that a command asks for. -/
def op : Command → Option Op
  | retrieveInfo => some .retrieveInfo
  | resetTdoFifo => some .resetTdoFifo
  | writeTdoEnableFifo duration tdoEnable eopGen =>
    if positive : 0 < duration.toNat then
      some (.pushTdoCapture { duration := duration.toNat, tdoEnable, eopGen, positive })
    else none
  | shortCustomTmsTdi tms tdi =>
    if same : tms.length = tdi.length then some (.shift { tms, tdi, same }) else none
  | longFixedTmsCustomTdi tdi =>
    some (.shift { tms := zeros tdi.bits.length, tdi := tdi.bits, same := length_zeros _ })
  | longFixedTmsTdi numBits =>
    some (.shift { tms := zeros numBits.toNat, tdi := zeros numBits.toNat, same := rfl })

/-- The data bytes that the encoder sends after those that the length announces. -/
def surplus : Command → Bytes
  | longFixedTmsCustomTdi tdi => tdi.data.drop ((tdi.bits.length + 7) / 8)
  | _ => []

def Exact : Command → Prop
  | longFixedTmsCustomTdi tdi => tdi.data.length ≤ (tdi.bits.length + 7) / 8
  | _ => True

instance (command : Command) : Decidable command.Exact := by
  unfold Exact
  split <;> infer_instance

theorem exact_iff (command : Command) : command.Exact ↔ command.surplus = [] := by
  unfold Exact surplus
  split
  · exact List.drop_eq_nil_iff.symm
  · exact ⟨fun _ => rfl, fun _ => trivial⟩

end Command

/-! ### Bits of a byte -/

theorem header_toNat {opcode : Nat} (field : Nat) (known : opcode < 8) :
    (header opcode field).toNat = 32 * opcode + field % 32 := by
  rw [header, ← Nat.shiftLeft_add_eq_or_of_lt (Nat.mod_lt _ (by decide)), Nat.shiftLeft_eq, UInt8.toNat_ofNat']
  omega

theorem header_opcode {opcode : Nat} (field : Nat) (known : opcode < 8) :
    ((header opcode field).toNat >>> 5) % 8 = opcode := by
  rw [header_toNat field known, Nat.shiftRight_eq_div_pow]
  omega

theorem header_low {opcode : Nat} (field : Nat) (known : opcode < 8) :
    (header opcode field).toNat % 32 = field % 32 := by
  rw [header_toNat field known]
  omega

theorem field_long {field : Nat} (small : field < 2 ^ 13) :
    (UInt8.ofNat (field >>> 5)).toNat <<< 5 ||| field % 32 = field := by
  rw [← Nat.shiftLeft_add_eq_or_of_lt (Nat.mod_lt _ (by decide)), UInt8.toNat_ofNat', Nat.shiftRight_eq_div_pow,
    Nat.shiftLeft_eq]
  omega

theorem ofNat_mod (value n : Nat) : BitString.ofNat (value % 2 ^ n) n = BitString.ofNat value n := by
  have roundTrip := ofNat_toNat (BitString.ofNat value n)
  rwa [toNat_ofNat, length_ofNat] at roundTrip

theorem ofNat_congr {value other n : Nat} (same : value % 2 ^ n = other % 2 ^ n) :
    BitString.ofNat value n = BitString.ofNat other n := by
  rw [← ofNat_mod value, same, ofNat_mod]

theorem ofNat_add (value m n : Nat) :
    BitString.ofNat value (m + n) = BitString.ofNat value m ++ BitString.ofNat (value / 2 ^ m) n := by
  induction m generalizing value with
  | zero => rw [Nat.zero_add, Nat.pow_zero, Nat.div_one]; rfl
  | succ m ih =>
    rw [show m + 1 + n = (m + n) + 1 by omega, BitString.ofNat, BitString.ofNat, ih, Nat.div_div_eq_div_mul,
      Nat.pow_succ', List.cons_append]

theorem ofNat_groups (value m : Nat) :
    (List.range m).flatMap (fun k => BitString.ofNat (value / 2 ^ (4 * k)) 4) = BitString.ofNat value (4 * m) := by
  induction m with
  | zero => rfl
  | succ m ih =>
    rw [List.range_succ, List.flatMap_append, ih, Nat.mul_succ, ofNat_add]
    rfl

theorem take_groups {bits : BitString} {m : Nat} (enough : bits.length ≤ 4 * m) :
    ((List.range m).flatMap fun k => BitString.ofNat (toNat bits / 2 ^ (4 * k)) 4).take bits.length = bits := by
  obtain ⟨spare, total⟩ := Nat.exists_eq_add_of_le enough
  rw [ofNat_groups, total, ofNat_add, List.take_left' (length_ofNat _ _), ofNat_toNat]

theorem nibbles_toNat (tms tdi : BitString) (k : Nat) :
    (nibbles (slice tms (4 * k) (4 * k + 4)) (slice tdi (4 * k) (4 * k + 4))).toNat =
      toNat tdi / 2 ^ (4 * k) % 16 + 16 * (toNat tms / 2 ^ (4 * k) % 16) := by
  rw [nibbles, Storage.toNat_slice _ _ _ (by omega), Storage.toNat_slice _ _ _ (by omega),
    Nat.add_sub_cancel_left, Nat.or_comm, ← Nat.shiftLeft_add_eq_or_of_lt (Nat.mod_lt _ (by decide)),
    Nat.shiftLeft_eq, UInt8.toNat_ofNat']
  omega

theorem nibbles_low (tms tdi : BitString) (k : Nat) :
    BitString.ofNat (nibbles (slice tms (4 * k) (4 * k + 4)) (slice tdi (4 * k) (4 * k + 4))).toNat 4 =
      BitString.ofNat (toNat tdi / 2 ^ (4 * k)) 4 := by
  apply ofNat_congr
  rw [nibbles_toNat]
  omega

theorem nibbles_high (tms tdi : BitString) (k : Nat) :
    BitString.ofNat ((nibbles (slice tms (4 * k) (4 * k + 4)) (slice tdi (4 * k) (4 * k + 4))).toNat >>> 4) 4 =
      BitString.ofNat (toNat tms / 2 ^ (4 * k)) 4 := by
  apply ofNat_congr
  rw [nibbles_toNat, Nat.shiftRight_eq_div_pow]
  omega

/-! ### Each command is read back -/

theorem decodeOne_header {opcode : Nat} (field : Nat) (payload : Bytes) (known : opcode < 8) :
    decodeOne (header opcode field :: payload) =
      if opcode = cmdConfig then decodeConfig (header opcode field).toNat
      else if opcode = cmdWriteTdoEnableFifo then decodeCapture (field % 32) payload
      else if opcode = cmdShortCustomTmsTdi then decodeShort (field % 32) payload
      else if opcode = cmdLongFixedTmsCustomTdi ∨ opcode = cmdLongFixedTmsTdi then
        decodeLong opcode (field % 32) payload
      else .malformed s!"unknown JoP opcode {binary opcode 3}" := by
  rw [decodeOne, header_opcode field known, header_low field known]

theorem decode_short {tms tdi : BitString} {bytes : Bytes} (encoded : encodeShortCustomTmsTdi tms tdi = .ok bytes) :
    ∃ op, (Command.shortCustomTmsTdi tms tdi).op = some op ∧
      ∀ more, decodeOne (bytes ++ more) = .item op bytes.length := by
  rw [encodeShortCustomTmsTdi] at encoded
  split at encoded
  · cases encoded
  rename_i inside
  split at encoded
  · cases encoded
  rename_i matching
  cases encoded
  rw [Decidable.not_not] at matching
  have size : tms.length ≤ 32 := by
    rw [shortMaxBits] at inside
    omega
  have field : (tms.length - 1) % 32 + 1 = tms.length := by omega
  have length : (shortPayload tms tdi).length = (tms.length + 3) / 4 := by
    rw [shortPayload, List.length_map, List.length_range]
  refine ⟨.shift { tms, tdi, same := matching.symm }, dif_pos matching.symm, fun more => ?_⟩
  have front : (shortPayload tms tdi ++ more).take ((tms.length + 3) / 4) = shortPayload tms tdi :=
    List.take_left' length
  rw [List.cons_append, decodeOne_header _ _ (by decide), if_neg (by decide), if_neg (by decide), if_pos rfl,
    decodeShort]
  simp only [field]
  have tmsBits : ((shortPayload tms tdi).flatMap fun byte => BitString.ofNat (byte.toNat >>> 4) 4).take tms.length =
      tms := by
    simp only [shortPayload, List.flatMap_map, nibbles_high]
    exact take_groups (by omega)
  have tdiBits : ((shortPayload tms tdi).flatMap fun byte => BitString.ofNat byte.toNat 4).take tms.length = tdi := by
    simp only [shortPayload, List.flatMap_map, nibbles_low, ← matching]
    exact take_groups (by omega)
  rw [if_neg (by rw [List.length_append, length]; omega)]
  simp only [front, tmsBits, tdiBits]
  rw [List.length_cons, length]
  simp only [Nat.add_comm 1]

theorem decode_longIdle {numBits : Int} {bytes : Bytes} (encoded : encodeLongFixedTmsTdi numBits = .ok bytes)
    (more : Bytes) :
    decodeOne (bytes ++ more) =
      .item (.shift { tms := zeros numBits.toNat, tdi := zeros numBits.toNat, same := rfl }) bytes.length := by
  rw [encodeLongFixedTmsTdi] at encoded
  split at encoded
  · cases encoded
  rename_i inside
  cases encoded
  rw [longMaxBits] at inside
  have small : numBits.toNat - 1 < 2 ^ 13 := by omega
  rw [List.cons_append, decodeOne_header _ _ (by decide), if_neg (by decide), if_neg (by decide), if_neg (by decide),
    if_pos (.inr rfl), List.cons_append, decodeLong]
  simp only [field_long small, Nat.sub_add_cancel (show 1 ≤ numBits.toNat by omega)]
  rfl

theorem drop_ljust (data : Bytes) (width : Nat) : (Storage.ljust data width).drop width = data.drop width := by
  rw [Storage.ljust, List.drop_append, List.drop_of_length_le (Nat.le_of_eq List.length_replicate), List.append_nil]

theorem ljust_split (data : Bytes) (width : Nat) :
    Storage.ljust data width = (Storage.ljust data width).take width ++ data.drop width := by
  rw [← drop_ljust, List.take_append_drop]

theorem length_front_ljust (data : Bytes) (width : Nat) : ((Storage.ljust data width).take width).length = width := by
  rw [List.length_take, Storage.BitString.length_ljust]
  omega

theorem combine_front_ljust (data : Bytes) {width n : Nat} (enough : n ≤ 8 * width) :
    BitString.ofNat (combine ((Storage.ljust data width).take width)) n = BitString.ofNat (combine data) n := by
  apply ofNat_congr
  obtain ⟨spare, total⟩ := Nat.exists_eq_add_of_le enough
  have whole := Storage.BitString.combine_ljust data width
  rw [ljust_split, combine_append, length_front_ljust, Storage.two_pow_bytes, total, Nat.pow_add, Nat.mul_assoc] at whole
  rw [← whole, Nat.add_mul_mod_self_left]

theorem decode_long {tdi : Given} {bytes : Bytes} (encoded : encodeLongFixedTmsCustomTdi tdi = .ok bytes) :
    ∃ core, bytes = core ++ tdi.data.drop ((tdi.bits.length + 7) / 8) ∧
      ∀ more, decodeOne (core ++ more) =
        .item (.shift { tms := zeros tdi.bits.length, tdi := tdi.bits, same := length_zeros _ }) core.length := by
  rw [encodeLongFixedTmsCustomTdi] at encoded
  dsimp only at encoded
  split at encoded
  · cases encoded
  rename_i inside
  cases encoded
  rw [longMaxBits] at inside
  have small : tdi.bits.length - 1 < 2 ^ 13 := by omega
  generalize width : (tdi.bits.length + 7) / 8 = nData
  have bytes : BitString.ofNat (combine ((Storage.ljust tdi.data nData).take nData)) tdi.bits.length =
      BitString.ofNat (combine tdi.data) tdi.bits.length := combine_front_ljust tdi.data (by omega)
  refine ⟨header cmdLongFixedTmsCustomTdi (tdi.bits.length - 1) :: UInt8.ofNat ((tdi.bits.length - 1) >>> 5) ::
    (Storage.ljust tdi.data nData).take nData, by rw [List.cons_append, List.cons_append, ← ljust_split], fun more => ?_⟩
  rw [List.cons_append, decodeOne_header _ _ (by decide), if_neg (by decide), if_neg (by decide), if_neg (by decide),
    if_pos (.inl rfl), List.cons_append, decodeLong]
  simp only [field_long small, Nat.sub_add_cancel (show 1 ≤ tdi.bits.length by omega), width]
  rw [if_neg (by decide), if_neg (by rw [List.length_append, length_front_ljust]; omega)]
  simp only [List.take_left' (length_front_ljust tdi.data nData), bytes, ← tdi.agree]
  rw [List.length_cons, List.length_cons, length_front_ljust, Nat.add_comm 2]

theorem third_byte (tdoEnable eopGen : Bool) {top : Nat} (small : top < 4) :
    (UInt8.ofNat (tdoEnable.toNat <<< 7 ||| eopGen.toNat <<< 6 ||| top)).toNat % 4 = top ∧
      (UInt8.ofNat (tdoEnable.toNat <<< 7 ||| eopGen.toNat <<< 6 ||| top)).toNat.testBit 7 = tdoEnable ∧
      (UInt8.ofNat (tdoEnable.toNat <<< 7 ||| eopGen.toNat <<< 6 ||| top)).toNat.testBit 6 = eopGen := by
  revert tdoEnable eopGen top
  decide

theorem field_capture {field : Nat} (small : field < 2 ^ 15) :
    (field >>> 13 % 4) <<< 13 ||| (UInt8.ofNat (field >>> 5)).toNat <<< 5 ||| field % 32 = field := by
  have low : field % 32 < 2 ^ 5 := Nat.mod_lt _ (by decide)
  have mid : (UInt8.ofNat (field >>> 5)).toNat <<< 5 + field % 32 = field % 2 ^ 13 := by
    rw [UInt8.toNat_ofNat', Nat.shiftRight_eq_div_pow, Nat.shiftLeft_eq]
    omega
  rw [Nat.or_assoc, ← Nat.shiftLeft_add_eq_or_of_lt low, mid,
    ← Nat.shiftLeft_add_eq_or_of_lt (Nat.mod_lt _ (by decide)), Nat.shiftRight_eq_div_pow, Nat.shiftLeft_eq]
  omega

theorem decode_capture {duration : Int} {tdoEnable eopGen : Bool} {bytes : Bytes}
    (encoded : encodeWriteTdoEnableFifo duration tdoEnable eopGen = .ok bytes) :
    ∃ op, (Command.writeTdoEnableFifo duration tdoEnable eopGen).op = some op ∧
      ∀ more, decodeOne (bytes ++ more) = .item op bytes.length := by
  rw [encodeWriteTdoEnableFifo] at encoded
  split at encoded
  · cases encoded
  rename_i inside
  cases encoded
  have positive : 0 < duration.toNat := by omega
  have small : duration.toNat - 1 < 2 ^ 15 := by omega
  have third := third_byte tdoEnable eopGen (Nat.mod_lt ((duration.toNat - 1) >>> 13) (by decide))
  refine ⟨.pushTdoCapture { duration := duration.toNat, tdoEnable, eopGen, positive }, dif_pos positive, fun more => ?_⟩
  rw [List.cons_append, decodeOne_header _ _ (by decide), if_neg (by decide), if_pos rfl, List.cons_append,
    List.cons_append, decodeCapture]
  simp only [third.1, third.2.1, third.2.2, field_capture small, Nat.sub_add_cancel positive]
  rfl

theorem decode_command {command : Command} {bytes : Bytes} (encoded : command.encode = .ok bytes) :
    ∃ core op, bytes = core ++ command.surplus ∧ command.op = some op ∧
      ∀ more, decodeOne (core ++ more) = .item op core.length := by
  cases command with
  | retrieveInfo =>
    cases encoded
    exact ⟨_, _, (List.append_nil _).symm, rfl, fun more => rfl⟩
  | resetTdoFifo =>
    cases encoded
    exact ⟨_, _, (List.append_nil _).symm, rfl, fun more => rfl⟩
  | writeTdoEnableFifo duration tdoEnable eopGen =>
    obtain ⟨op, asked, decoded⟩ := decode_capture encoded
    exact ⟨bytes, op, (List.append_nil _).symm, asked, decoded⟩
  | shortCustomTmsTdi tms tdi =>
    obtain ⟨op, asked, decoded⟩ := decode_short encoded
    exact ⟨bytes, op, (List.append_nil _).symm, asked, decoded⟩
  | longFixedTmsCustomTdi tdi =>
    obtain ⟨core, total, decoded⟩ := decode_long encoded
    exact ⟨core, _, total, rfl, decoded⟩
  | longFixedTmsTdi numBits => exact ⟨bytes, _, (List.append_nil _).symm, rfl, decode_longIdle encoded⟩

/-! ### Sequences of commands -/

namespace JopDecoder

def result (outcome : Outcome UInt8 Op String) : Except String (List Op × JopDecoder) :=
  match outcome.error with
  | some text => .error text
  | none => .ok (outcome.items, { buf := outcome.rest })

theorem feedAll_eq {self : JopDecoder} (settled : format.Settled self.buf) (chunks : List Bytes) :
    self.feedAll chunks = result (format.read (self.buf ++ chunks.flatten)) := by
  induction chunks generalizing self with
  | nil =>
    rw [List.flatten_nil, List.append_nil, settled.read]
    rfl
  | cons data chunks ih =>
    rw [List.flatten_cons, ← List.append_assoc, feedAll, feed]
    dsimp only
    cases failed : (format.read (self.buf ++ data)).error with
    | some text => rw [result, Format.read_append_malformed failed]
    | none =>
      dsimp only
      rw [ih (Format.settled_rest failed), Format.read_append failed, result, result]
      dsimp only
      cases (format.read ((format.read (self.buf ++ data)).rest ++ chunks.flatten)).error <;> rfl

theorem feedAll_start (chunks : List Bytes) : start.feedAll chunks = result (format.read chunks.flatten) :=
  feedAll_eq (show format.Settled start.buf from format.empty) chunks

end JopDecoder

/-- The frames that the encoders return for the commands. -/
def Encoded (commands : List Command) (frames : List Bytes) : Prop :=
  List.Forall₂ (fun command bytes => command.encode = .ok bytes) commands frames

/-- The stream decodes to what the commands ask for, with nothing held back. -/
def Decodes (commands : List Command) (stream : Bytes) : Prop :=
  ∃ ops : List Op, commands.map Command.op = ops.map some ∧ format.Reads stream ops

theorem decodes_cons {command : Command} {commands : List Command} {bytes rest : Bytes}
    (encoded : command.encode = .ok bytes) (exact : command.Exact) :
    Decodes (command :: commands) (bytes ++ rest) ↔ Decodes commands rest := by
  obtain ⟨core, op, total, asked, decoded⟩ := decode_command encoded
  rw [command.exact_iff.mp exact, List.append_nil] at total
  subst total
  have whole : format.front bytes = .item op bytes.length := by
    have alone := decoded []
    rwa [List.append_nil] at alone
  have more := (Format.reads_item whole).append rest
  constructor
  · rintro ⟨ops, asks, reads⟩
    rw [Format.Reads, more] at reads
    rw [List.map_cons, asked] at asks
    cases ops with
    | nil => cases asks
    | cons first ops =>
      injection asks with head tail
      refine ⟨ops, tail, ?_⟩
      injection reads with items error left
      injection items with _ later
      have later : (format.read rest).items = ops := later
      rw [Format.Reads, ← later, ← error, ← left]
  · rintro ⟨ops, asks, reads⟩
    refine ⟨op :: ops, by rw [List.map_cons, List.map_cons, asked, asks], ?_⟩
    exact (Format.reads_item whole).trans reads

theorem exact_of_decodes {command : Command} {bytes : Bytes} (encoded : command.encode = .ok bytes)
    (decodes : Decodes [command] bytes) : command.Exact := by
  obtain ⟨core, op, total, asked, decoded⟩ := decode_command encoded
  obtain ⟨ops, asks, reads⟩ := decodes
  rw [List.map_cons, List.map_nil, asked] at asks
  match ops with
  | [] => cases asks
  | _ :: _ :: _ => cases asks
  | [_] =>
    have front : format.front (core ++ command.surplus) = .item op core.length := decoded command.surplus
    rw [Format.Reads, total, Format.read_item front, List.drop_left] at reads
    injection reads with items error rest
    injection items with _ later
    have nothing : format.Reads command.surplus [] := by rw [Format.Reads, ← later, ← error, ← rest]
    exact command.exact_iff.mpr nothing.eq_nil

theorem decodes_exact {commands : List Command} {frames : List Bytes} (encoded : Encoded commands frames)
    (exact : ∀ command ∈ commands, command.Exact) : Decodes commands frames.flatten := by
  induction encoded with
  | nil => exact ⟨[], rfl, Format.reads_nil⟩
  | cons first _ ih =>
    rw [List.flatten_cons, decodes_cons first (exact _ List.mem_cons_self)]
    exact ih fun command member => exact command (List.mem_cons_of_mem _ member)

theorem exact_of_prefixes {commands : List Command} {frames : List Bytes} (encoded : Encoded commands frames)
    (decodes : ∀ k, Decodes (commands.take k) (frames.take k).flatten) : ∀ command ∈ commands, command.Exact := by
  induction encoded with
  | nil => exact fun command member => absurd member List.not_mem_nil
  | @cons command bytes commands frames first _ ih =>
    have exact : command.Exact := by
      apply exact_of_decodes first
      have one := decodes 1
      rwa [List.take_succ_cons, List.take_zero, List.take_succ_cons, List.take_zero, List.flatten_singleton] at one
    intro other member
    rcases List.mem_cons.mp member with rfl | member
    · exact exact
    · refine ih (fun k => ?_) other member
      have longer := decodes (k + 1)
      rwa [List.take_succ_cons, List.take_succ_cons, List.flatten_cons, decodes_cons first exact] at longer

theorem decodes_iff (commands : List Command) (stream : Bytes) :
    Decodes commands stream ↔ ∀ chunks : List Bytes, chunks.flatten = stream →
      ∃ ops : List Op, commands.map Command.op = ops.map some ∧
        JopDecoder.start.feedAll chunks = .ok (ops, .start) := by
  constructor
  · rintro ⟨ops, asks, reads⟩ chunks rfl
    refine ⟨ops, asks, ?_⟩
    rw [JopDecoder.feedAll_start, show format.read chunks.flatten = _ from reads]
    rfl
  · intro fed
    obtain ⟨ops, asks, result⟩ := fed [stream] List.flatten_singleton
    refine ⟨ops, asks, ?_⟩
    rw [JopDecoder.feedAll_start, List.flatten_singleton] at result
    rw [Format.Reads]
    cases outcome : format.read stream with
    | mk items error rest =>
      rw [outcome] at result
      cases error with
      | some text => cases result
      | none =>
        cases result
        rfl

/-- Commands go through the stream unchanged, however it is cut, exactly when no long scan has surplus
data bytes. -/
theorem codec_round_trip_iff {commands : List Command} {frames : List Bytes} (encoded : Encoded commands frames) :
    (∀ command ∈ commands, command.Exact) ↔
      ∀ k, ∀ chunks : List Bytes, chunks.flatten = (frames.take k).flatten →
        ∃ ops : List Op, (commands.take k).map Command.op = ops.map some ∧
          JopDecoder.start.feedAll chunks = .ok (ops, .start) := by
  constructor
  · intro exact k
    apply (decodes_iff _ _).mp
    exact decodes_exact (List.forall₂_take k encoded) fun command member => exact command (List.mem_of_mem_take member)
  · intro fed
    exact exact_of_prefixes encoded fun k => (decodes_iff _ _).mpr (fed k)

/-- `BitString(b"\x01\x02", 8)`. -/
def surplusTdi : Given := { bits := BitString.ofNat 1 8, data := [1, 2], agree := by decide }

example : ((Storage.BitString.ofBytes [1, 2] (some 8)).bind fun bits => bits.data).map Prod.fst = .ok [1, 2] := rfl

theorem surplus_byte_decoded : ¬∀ (commands : List Command) (frames chunks : List Bytes),
    Encoded commands frames → chunks.flatten = frames.flatten →
      ∃ (ops : List Op) (last : JopDecoder), commands.map Command.op = ops.map some ∧
        JopDecoder.start.feedAll chunks = .ok (ops, last) := by
  intro fed
  have encoded : Encoded [.longFixedTmsCustomTdi surplusTdi] [[0xA7, 0x00, 0x01, 0x02]] :=
    .cons (by decide) .nil
  obtain ⟨ops, last, -, result⟩ := fed _ _ [[0xA7, 0x00, 0x01, 0x02]] encoded rfl
  have refused : JopDecoder.start.feedAll [[0xA7, 0x00, 0x01, 0x02]] =
      .error "unknown CMD_CONFIG sub-op 0b10" := by decide
  rw [refused] at result
  cases result

theorem codec_round_trip_cut : JopDecoder.start.feedAll [[0x40], [0x00, 0xC0, 0xA7], [0x00], [0x01, 0x00]] =
    .ok ([.pushTdoCapture { duration := 1, tdoEnable := true, eopGen := true, positive := by decide },
      .shift { tms := zeros 8, tdi := BitString.ofNat 1 8, same := by decide }, .retrieveInfo], .start) := by
  have encoded : Encoded [.writeTdoEnableFifo 1 true true,
      .longFixedTmsCustomTdi { bits := BitString.ofNat 1 8, data := [1], agree := by decide }, .retrieveInfo]
      [[0x40, 0x00, 0xC0], [0xA7, 0x00, 0x01], [0x00]] :=
    .cons (by decide) (.cons (by decide) (.cons (by decide +kernel) .nil))
  obtain ⟨ops, asks, result⟩ := (codec_round_trip_iff encoded).mp (by decide) 3
    [[0x40], [0x00, 0xC0, 0xA7], [0x00], [0x01, 0x00]] rfl
  rw [result]
  match ops with
  | [] | [_] | [_, _] | _ :: _ :: _ :: _ :: _ => cases asks
  | [first, second, third] =>
    injection asks with first asks
    injection asks with second asks
    injection asks with third
    cases first
    cases second
    cases third
    rfl

end Acrobe.Jop
