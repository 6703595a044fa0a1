import Acrobe.Prelude
import Acrobe.Lib.LittleEndian
import Acrobe.Lib.ReflectedRegister

/-!
# Checksums

`Crc` of the utilities: a polynomial, an initial state and the conventions for the order of bits and
bytes.
-/

namespace Acrobe
open LittleEndian ReflectedCrc

structure Crc where
  poly : Nat
  init : Nat
  popLsb : Bool
  order0AtLsb : Bool
  complementInput : Bool
  complementState : Bool
  spillBitswap : Bool
  spillBig : Bool

namespace Crc
variable (crc : Crc)

def order : Nat := Nat.log2 crc.poly

def byteWidth : Nat := (crc.order + 7) / 8

def wbit : Nat := 1 <<< crc.order

def mask : Nat := crc.wbit - 1

def stateComp : Nat := if crc.complementState then crc.mask else 0

/-! ### Bits -/

def bitsIterate (word width : Nat) (popLsb : Bool) : List Bool :=
  if popLsb then lowBits word width else (lowBits word width).reverse

def bytesIterate (data : Bytes) (popLsb : Bool) : List Bool := data.flatMap fun byte => bitsIterate byte.toNat 8 popLsb

/-- The bits of a word in the other order. -/
def swib (word width : Nat) : Nat := BitString.toNat (lowBits word width).reverse

def forward (state : Nat) (bit : Bool) : Nat :=
  if crc.order0AtLsb then
    let state := (state <<< 1) ^^^ (bit.toNat <<< crc.order)
    if state &&& crc.wbit ≠ 0 then state ^^^ crc.poly else state
  else
    let state := state ^^^ bit.toNat
    (if state % 2 = 1 then state ^^^ crc.poly else state) >>> 1

def forwardBytes (state : Nat) (data : Bytes) : Nat := (bytesIterate data crc.popLsb).foldl crc.forward state

/-! ### Values -/

def update (state : Nat) (data : Bytes) : Nat :=
  let data := if crc.complementInput then data.map fun byte => ~~~byte else data
  crc.stateComp ^^^ crc.forwardBytes (crc.stateComp ^^^ state) data

def asInt (state : Nat) : Nat := if crc.spillBitswap then swib state crc.order else state

def asBytes (state : Nat) : Bytes :=
  let bytes := split (crc.asInt state) crc.byteWidth
  if crc.spillBig then bytes.reverse else bytes

def checkState : Nat := crc.update (crc.init &&& crc.mask) (crc.asBytes (crc.init &&& crc.mask))

def calcBytes (data : Bytes) : Bytes := crc.asBytes (crc.update (crc.init &&& crc.mask) data)

def isValid (data : Bytes) : Bool := crc.update (crc.init &&& crc.mask) data == crc.checkState

/-- The algorithm that is registered as `hdlc`. -/
def hdlc : Crc where
  poly := 0x10811
  init := 0
  popLsb := true
  order0AtLsb := false
  complementInput := false
  complementState := true
  spillBitswap := false
  spillBig := false

/-! ### Checked data -/

theorem lowBits_mod (word count : Nat) : lowBits (word % 2 ^ count) count = lowBits word count := by
  induction count generalizing word with
  | zero => rfl
  | succ count ih =>
    have low : word % 2 ^ (count + 1) % 2 = word % 2 := Nat.mod_mod_of_dvd word (Dvd.intro_left (2 ^ count) rfl)
    have high : word % 2 ^ (count + 1) / 2 = word / 2 % 2 ^ count := by
      rw [Nat.pow_succ, Nat.mul_comm, Nat.mod_mul_right_div_self]
    rw [lowBits, lowBits, low, high, ih]

theorem lowBits_add (word first second : Nat) :
    lowBits word (first + second) = lowBits word first ++ lowBits (word / 2 ^ first) second := by
  induction first generalizing word with
  | zero => rw [Nat.zero_add, Nat.pow_zero, Nat.div_one]; rfl
  | succ first ih =>
    rw [Nat.succ_add, lowBits, lowBits, ih, Nat.div_div_eq_div_mul, Nat.pow_succ, Nat.mul_comm 2]
    rfl

theorem bytesIterate_split (word count : Nat) : bytesIterate (split word count) true = lowBits word (8 * count) := by
  induction count generalizing word with
  | zero => rfl
  | succ count ih =>
    have tail : bytesIterate (split (word / 256) count) true = lowBits (word / 2 ^ 8) (8 * count) := ih (word / 256)
    have head : bitsIterate (UInt8.ofNat word).toNat 8 true = lowBits word 8 := by
      rw [bitsIterate, if_pos rfl, UInt8.toNat_ofNat']
      exact lowBits_mod word 8
    rw [split, bytesIterate, List.flatMap_cons, head, Nat.mul_succ, Nat.add_comm, lowBits_add, ← tail]
    rfl

theorem feed_lt {state : Nat} (bit : Bool) (small : state < 2 ^ 16) : feed 0x10811 state bit < 2 ^ 16 := by
  have low : bit.toNat < 2 ^ 16 := Nat.lt_of_le_of_lt (Bool.toNat_le bit) (by decide)
  have fed : state ^^^ bit.toNat < 2 ^ 17 := Nat.lt_trans (Nat.xor_lt_two_pow small low) (by decide)
  have wide : (if (state ^^^ bit.toNat) % 2 = 1 then (state ^^^ bit.toNat) ^^^ 0x10811 else state ^^^ bit.toNat) < 2 ^ 17 := by
    split
    · exact Nat.xor_lt_two_pow fed (by decide)
    · exact fed
  rw [feed, shift, Nat.shiftRight_one]
  omega

theorem foldl_feed_lt {state : Nat} (bits : List Bool) (small : state < 2 ^ 16) :
    bits.foldl (feed 0x10811) state < 2 ^ 16 := by
  induction bits generalizing state with
  | nil => exact small
  | cons bit bits ih => exact ih (feed_lt bit small)

theorem hdlc_order : hdlc.order = 16 := by decide

theorem hdlc_mask : hdlc.mask = 2 ^ 16 - 1 := by rw [mask, wbit, hdlc_order]; rfl

theorem hdlc_update (data : Bytes) :
    hdlc.update (hdlc.init &&& hdlc.mask) data =
      (2 ^ 16 - 1) ^^^ (bytesIterate data true).foldl (feed 0x10811) (2 ^ 16 - 1) := by
  have comp : hdlc.stateComp = 2 ^ 16 - 1 := hdlc_mask
  rw [update, comp, hdlc_mask, show hdlc.init = 0 from rfl, Nat.zero_and, Nat.xor_zero]
  rfl

theorem hdlc_asBytes (state : Nat) : hdlc.asBytes state = split state 2 := by
  rw [asBytes, byteWidth, hdlc_order]
  rfl

theorem hdlc_checkState :
    hdlc.checkState = (2 ^ 16 - 1) ^^^ (lowBits 0 (8 * 2)).foldl (feed 0x10811) (2 ^ (8 * 2) - 1) := by
  rw [checkState, hdlc_update, hdlc_asBytes, bytesIterate_split, hdlc_mask, show hdlc.init = 0 from rfl, Nat.zero_and]

theorem hdlc_isValid (data : Bytes) : hdlc.isValid (data ++ hdlc.calcBytes data) = true := by
  have state : (bytesIterate data true).foldl (feed 0x10811) (2 ^ 16 - 1) < 2 ^ 16 :=
    foldl_feed_lt (bytesIterate data true) (by decide)
  have joined : bytesIterate (data ++ hdlc.calcBytes data) true =
      bytesIterate data true ++ bytesIterate (hdlc.calcBytes data) true := List.flatMap_append
  rw [isValid, beq_iff_eq, hdlc_checkState, hdlc_update, joined, List.foldl_append, calcBytes, hdlc_update, hdlc_asBytes,
    bytesIterate_split]
  congr 1
  apply feed_complement
  generalize (bytesIterate data true).foldl (feed 0x10811) (2 ^ 16 - 1) = register at state
  have small : (2 ^ 16 - 1) ^^^ register < 2 ^ (8 * 2) := Nat.xor_lt_two_pow (by decide) state
  rw [Nat.mod_eq_of_lt small, Nat.xor_comm (2 ^ 16 - 1), ← Nat.xor_assoc, Nat.xor_self, Nat.zero_xor]

end Crc

end Acrobe
