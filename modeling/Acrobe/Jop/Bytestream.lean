import Acrobe.Lib.Incremental
import Acrobe.BitString.Object

/-!
# The JoP byte stream

Commands to the hub controller are a byte with the opcode in its high three bits, followed by a
payload. The decoder keeps the bytes of an incomplete command until the rest of it arrives.
-/

namespace Acrobe.Jop
open LittleEndian Incremental BitString

def cmdConfig : Nat := 0b000
def cmdWriteTdoEnableFifo : Nat := 0b010
def cmdShortCustomTmsTdi : Nat := 0b100
def cmdLongFixedTmsCustomTdi : Nat := 0b101
def cmdLongFixedTmsTdi : Nat := 0b110

def configRetrieveInfo : Nat := 0b00
def configResetTdoFifo : Nat := 0b01

def configInfoResponseByte : UInt8 := 0x00

def tdoFifoDepth : Nat := 2

def shortMaxBits : Nat := 32
def longMaxBits : Nat := 8192

/-- A capture window covers at least one clock. -/
structure PushTdoCapture where
  duration : Nat
  tdoEnable : Bool
  eopGen : Bool
  positive : 0 < duration
  deriving DecidableEq

/-- Always equal-length TMS and TDI. -/
structure Shift where
  tms : BitString
  tdi : BitString
  same : tms.length = tdi.length
  deriving DecidableEq

def Shift.numBits (self : Shift) : Nat := self.tms.length

inductive Op where
  | retrieveInfo
  | resetTdoFifo
  | pushTdoCapture (capture : PushTdoCapture)
  | shift (scan : Shift)
  deriving DecidableEq

/-! ### Decoder -/

/-- `f"{value:#0{width + 2}b}"`. -/
def binary (value width : Nat) : String :=
  "0b" ++ String.ofList ((BitString.ofNat value width).reverse.map fun bit => if bit then '1' else '0')

def decodeConfig (first : Nat) : Front Op String :=
  let sub := first % 4
  if sub = configRetrieveInfo then .item .retrieveInfo 1
  else if sub = configResetTdoFifo then .item .resetTdoFifo 1
  else .malformed s!"unknown CMD_CONFIG sub-op {binary sub 2}"

def decodeCapture (low5 : Nat) : Bytes → Front Op String
  | mid8 :: third :: _ =>
    let durationField := (third.toNat % 4) <<< 13 ||| mid8.toNat <<< 5 ||| low5
    .item (.pushTdoCapture
      { duration := durationField + 1
        tdoEnable := third.toNat.testBit 7
        eopGen := third.toNat.testBit 6
        positive := Nat.succ_pos _ }) 3
  | _ => .truncated

theorem length_nibbles (payload : Bytes) (n : Nat) (low high : UInt8 → Nat) :
    ((payload.flatMap fun byte => BitString.ofNat (low byte) 4).take n).length =
      ((payload.flatMap fun byte => BitString.ofNat (high byte) 4).take n).length := by
  simp only [List.length_take, List.length_flatMap, length_ofNat]

/-- Four bits of TDI in the low half of each byte, four of TMS in the high half. -/
def decodeShort (low5 : Nat) (payload : Bytes) : Front Op String :=
  let nBits := low5 + 1
  let nData := (nBits + 3) / 4
  if payload.length < nData then .truncated
  else
    let tdiBits := (payload.take nData).flatMap fun byte => BitString.ofNat byte.toNat 4
    let tmsBits := (payload.take nData).flatMap fun byte => BitString.ofNat (byte.toNat >>> 4) 4
    .item (.shift { tms := tmsBits.take nBits, tdi := tdiBits.take nBits, same := length_nibbles _ _ _ _ }) (1 + nData)

def decodeLong (opcode low5 : Nat) : Bytes → Front Op String
  | [] => .truncated
  | second :: payload =>
    let nBits := (second.toNat <<< 5 ||| low5) + 1
    if opcode = cmdLongFixedTmsTdi then .item (.shift { tms := zeros nBits, tdi := zeros nBits, same := rfl }) 2
    else
      let nData := (nBits + 7) / 8
      if payload.length < nData then .truncated
      else .item (.shift
        { tms := zeros nBits
          tdi := BitString.ofNat (combine (payload.take nData)) nBits
          same := (length_zeros _).trans (length_ofNat _ _).symm }) (2 + nData)

def decodeOne : Bytes → Front Op String
  | [] => .truncated
  | first :: payload =>
    let opcode := (first.toNat >>> 5) % 8
    let low5 := first.toNat % 32
    if opcode = cmdConfig then decodeConfig first.toNat
    else if opcode = cmdWriteTdoEnableFifo then decodeCapture low5 payload
    else if opcode = cmdShortCustomTmsTdi then decodeShort low5 payload
    else if opcode = cmdLongFixedTmsCustomTdi ∨ opcode = cmdLongFixedTmsTdi then decodeLong opcode low5 payload
    else .malformed s!"unknown JoP opcode {binary opcode 3}"

/-! ### What is complete stays as it is -/

/-- A command read at the front of a buffer is inside it, and more bytes do not change it. What is
malformed is so from its first byte on. -/
structure Stable (front : Bytes → Front Op String) (before : Nat) : Prop where
  consumes : ∀ {payload op n}, front payload = .item op n → 0 < n ∧ n ≤ before + payload.length
  item : ∀ {payload op n}, front payload = .item op n → ∀ more, front (payload ++ more) = .item op n
  malformed : ∀ {payload text}, front payload = .malformed text → ∀ other, front other = .malformed text

theorem stable_config (first : Nat) : Stable (fun _ => decodeConfig first) 1 where
  consumes := by
    intro payload op n found
    rw [decodeConfig] at found
    split at found
    · cases found
      omega
    · split at found
      · cases found
        omega
      · cases found
  item := fun found _ => found
  malformed := fun found _ => found

theorem stable_capture (low5 : Nat) : Stable (decodeCapture low5) 1 where
  consumes := by
    intro payload op n found
    match payload with
    | [] | [_] => cases found
    | mid8 :: third :: rest =>
      cases found
      simp only [List.length_cons]
      omega
  item := by
    intro payload op n found more
    match payload with
    | [] | [_] => cases found
    | mid8 :: third :: rest => exact found
  malformed := by
    intro payload text found
    match payload with
    | [] | [_] | _ :: _ :: _ => cases found

theorem stable_short (low5 : Nat) : Stable (decodeShort low5) 1 where
  consumes := by
    intro payload op n found
    rw [decodeShort] at found
    dsimp only at found
    split at found
    · cases found
    · cases found
      omega
  item := by
    intro payload op n found more
    rw [decodeShort] at found ⊢
    dsimp only at found ⊢
    split at found
    · cases found
    · rename_i long
      simp only [if_neg (show ¬(payload ++ more).length < (low5 + 1 + 3) / 4 by rw [List.length_append]; omega),
        List.take_append_of_le_length (Nat.le_of_not_lt long)]
      exact found
  malformed := by
    intro payload text found
    rw [decodeShort] at found
    dsimp only at found
    split at found <;> cases found

theorem stable_long (opcode low5 : Nat) : Stable (decodeLong opcode low5) 1 where
  consumes := by
    intro payload op n found
    cases payload with
    | nil => cases found
    | cons second payload =>
      rw [decodeLong] at found
      dsimp only at found
      rw [List.length_cons]
      split at found
      · cases found
        omega
      · split at found
        · cases found
        · cases found
          omega
  item := by
    intro payload op n found more
    cases payload with
    | nil => cases found
    | cons second payload =>
      rw [List.cons_append]
      rw [decodeLong] at found ⊢
      dsimp only at found ⊢
      split at found
      · rename_i fixed
        rw [if_pos fixed]
        exact found
      · rename_i custom
        rw [if_neg custom]
        split at found
        · cases found
        · rename_i long
          rw [if_neg (by rw [List.length_append]; omega)]
          simp only [List.take_append_of_le_length (Nat.le_of_not_lt long)]
          exact found
  malformed := by
    intro payload text found
    cases payload with
    | nil => cases found
    | cons second payload =>
      rw [decodeLong] at found
      dsimp only at found
      split at found
      · cases found
      · split at found <;> cases found

theorem stable_unknown (text : String) : Stable (fun _ => .malformed text) 1 where
  consumes := by
    intro payload op n found
    cases found
  item := fun found _ => found
  malformed := fun found _ => found

theorem decodeOne_cons (first : UInt8) :
    ∃ front, Stable front 1 ∧ ∀ payload, decodeOne (first :: payload) = front payload := by
  by_cases config : first.toNat >>> 5 % 8 = cmdConfig
  · exact ⟨_, stable_config first.toNat, fun payload => by rw [decodeOne]; exact if_pos config⟩
  by_cases capture : first.toNat >>> 5 % 8 = cmdWriteTdoEnableFifo
  · exact ⟨_, stable_capture (first.toNat % 32),
      fun payload => by rw [decodeOne]; exact (if_neg config).trans (if_pos capture)⟩
  by_cases short : first.toNat >>> 5 % 8 = cmdShortCustomTmsTdi
  · exact ⟨_, stable_short (first.toNat % 32),
      fun payload => by rw [decodeOne]; exact (if_neg config).trans ((if_neg capture).trans (if_pos short))⟩
  by_cases long : first.toNat >>> 5 % 8 = cmdLongFixedTmsCustomTdi ∨ first.toNat >>> 5 % 8 = cmdLongFixedTmsTdi
  · exact ⟨_, stable_long (first.toNat >>> 5 % 8) (first.toNat % 32), fun payload => by
      rw [decodeOne]
      exact (if_neg config).trans ((if_neg capture).trans ((if_neg short).trans (if_pos long)))⟩
  · exact ⟨_, stable_unknown s!"unknown JoP opcode {binary (first.toNat >>> 5 % 8) 3}", fun payload => by
      rw [decodeOne]
      exact (if_neg config).trans ((if_neg capture).trans ((if_neg short).trans (if_neg long)))⟩

def format : Format UInt8 Op String where
  front := decodeOne
  empty := rfl
  consumes := by
    intro buf op n found
    match buf with
    | [] => cases found
    | first :: payload =>
      obtain ⟨front, stable, same⟩ := decodeOne_cons first
      rw [same] at found
      rw [List.length_cons, Nat.add_comm]
      exact stable.consumes found
  item_append := by
    intro buf op n found more
    match buf with
    | [] => cases found
    | first :: payload =>
      obtain ⟨front, stable, same⟩ := decodeOne_cons first
      rw [same] at found
      rw [List.cons_append, same]
      exact stable.item found more
  malformed_append := by
    intro buf text found more
    match buf with
    | [] => cases found
    | first :: payload =>
      obtain ⟨front, stable, same⟩ := decodeOne_cons first
      rw [same] at found
      rw [List.cons_append, same]
      exact stable.malformed found _

theorem malformed_first {first : UInt8} {payload : Bytes} {text : String}
    (malformed : decodeOne (first :: payload) = .malformed text) (other : Bytes) :
    decodeOne (first :: other) = .malformed text := by
  obtain ⟨front, stable, same⟩ := decodeOne_cons first
  rw [same] at malformed ⊢
  exact stable.malformed malformed other

structure JopDecoder where
  buf : Bytes
  deriving DecidableEq

namespace JopDecoder

def start : JopDecoder := { buf := [] }

def feed (self : JopDecoder) (data : Bytes) : Except String (List Op) × JopDecoder :=
  let outcome := format.read (self.buf ++ data)
  match outcome.error with
  | some text => (.error text, { buf := outcome.rest })
  | none => (.ok outcome.items, { buf := outcome.rest })

def feedAll (self : JopDecoder) : List Bytes → Except String (List Op × JopDecoder)
  | [] => .ok ([], self)
  | data :: chunks =>
    match self.feed data with
    | (.error text, _) => .error text
    | (.ok ops, next) => do
      let (later, last) ← feedAll next chunks
      .ok (ops ++ later, last)

end JopDecoder

end Acrobe.Jop
