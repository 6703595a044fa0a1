import Acrobe.Hdlc.Crc
import Acrobe.Lib.Exceptional

/-!
# Checksum algorithms

`Crc` of the utilities, as the constructor builds it: with the order that it takes from the logarithm of the polynomial,
which is computed in floating point.
-/

namespace Acrobe.Checksum
open LittleEndian ReflectedCrc
open Acrobe.Crc (bitsIterate bytesIterate swib)

/-- `int(math.log2(n))`. The logarithm is rounded to a double, and may so reach the next integer. -/
structure Log2 where
  value : Nat → Nat
  log2_le (n : Nat) : Nat.log2 n ≤ value n
  value_le (n : Nat) : value n ≤ Nat.log2 n + 1
  value_eq (n : Nat) : n + n / 2 ^ 20 < 2 ^ (Nat.log2 n + 1) → value n = Nat.log2 n

/-- All ones of more than 53 bits are the next power of two as a double. -/
def doubleLog2 : Log2 where
  value n := if 2 ^ 53 ≤ n ∧ n + 1 = 2 ^ (Nat.log2 n + 1) then Nat.log2 n + 1 else Nat.log2 n
  log2_le n := by split <;> omega
  value_le n := by split <;> omega
  value_eq n clear := by
    rw [if_neg]
    rintro ⟨large, ones⟩
    omega

inductive ByteOrder where
  | little
  | big
  deriving DecidableEq

/-- What the constructor is called with. -/
@[ext]
structure Arguments where
  poly : Nat
  init : Nat
  popLsb : Bool
  order0AtLsb : Bool
  complementInput : Bool
  complementState : Bool
  spillBitswap : Bool
  spillByteOrder : ByteOrder
  deriving DecidableEq

/-- The constructor shifts by the order less one, and less two where exponent 0 is at the highest bit. -/
def minimalOrder (order0AtLsb : Bool) : Nat := if order0AtLsb then 1 else 2

structure Crc extends Arguments where
  order : Nat
  poly_odd : poly % 2 = 1
  poly_lt : poly < 2 ^ (order + 1)
  init_lt : init < 2 ^ order
  order_ge : minimalOrder order0AtLsb ≤ order

theorem mask_or_wbit (order : Nat) : (1 <<< order - 1) ||| 1 <<< order = 2 ^ (order + 1) - 1 := by
  rw [Nat.one_shiftLeft]
  apply Nat.eq_of_testBit_eq
  intro i
  rw [Nat.testBit_or, Nat.testBit_two_pow_sub_one, Nat.testBit_two_pow_sub_one, Nat.testBit_two_pow]
  grind

namespace Crc

def create (log2 : Log2) (arguments : Arguments) : Except PyErr Crc :=
  if odd : arguments.poly % 2 = 1 then
    let order := log2.value arguments.poly
    let wbit := 1 <<< order
    let mask := wbit - 1
    if enough : minimalOrder arguments.order0AtLsb ≤ order then
      .ok { arguments with
        init := arguments.init &&& mask
        poly := arguments.poly &&& (mask ||| wbit)
        order := order
        poly_odd := by
          rw [mask_or_wbit, Nat.and_two_pow_sub_one_eq_mod, Nat.pow_succ, Nat.mod_mul_left_mod]
          exact odd
        poly_lt := by
          rw [mask_or_wbit, Nat.and_two_pow_sub_one_eq_mod]
          exact Nat.mod_lt _ (Nat.two_pow_pos _)
        init_lt := by
          rw [show mask = 2 ^ order - 1 by rw [← Nat.one_shiftLeft], Nat.and_two_pow_sub_one_eq_mod]
          exact Nat.mod_lt _ (Nat.two_pow_pos _)
        order_ge := enough }
    else .error (.valueError "negative shift count")
  else .error .assertionError

theorem create_ok {log2 : Log2} {arguments : Arguments} {crc : Crc} (created : create log2 arguments = .ok crc) :
    crc.order = log2.value arguments.poly ∧
      crc.toArguments = { arguments with init := arguments.init % 2 ^ log2.value arguments.poly } := by
  have bound : arguments.poly < 2 ^ (log2.value arguments.poly + 1) :=
    Nat.lt_of_lt_of_le Nat.lt_log2_self (Nat.pow_le_pow_right (by decide) (Nat.succ_le_succ (log2.log2_le arguments.poly)))
  rw [create] at created
  split at created
  · dsimp only at created
    split at created
    · obtain rfl := Except.ok.inj created
      refine ⟨rfl, ?_⟩
      dsimp only
      rw [mask_or_wbit, Nat.and_two_pow_sub_one_eq_mod, Nat.mod_eq_of_lt bound, Nat.one_shiftLeft, Nat.and_two_pow_sub_one_eq_mod]
    · cases created
  · cases created

variable (crc : Crc)

def byteWidth : Nat := (crc.order + 7) / 8

def wbit : Nat := 1 <<< crc.order

def mask : Nat := crc.wbit - 1

def unit : Nat := if crc.order0AtLsb then 1 else 1 <<< (crc.order - 1)

def two : Nat := if crc.order0AtLsb then 2 else 1 <<< (crc.order - 2)

def stateComp : Nat := if crc.complementState then crc.mask else 0

/-! ### Steps -/

def forward (state : Nat) (bit : Bool) : Except PyErr Nat :=
  if crc.order0AtLsb then
    let state := (state <<< 1) ^^^ (bit.toNat <<< crc.order)
    let state := if state &&& crc.wbit ≠ 0 then state ^^^ crc.poly else state
    -- `state & ~self.mask`
    if state >>> crc.order ≠ 0 then .error .assertionError else .ok state
  else
    let state := state ^^^ bit.toNat
    .ok ((if state % 2 = 1 then state ^^^ crc.poly else state) >>> 1)

def backward (state : Nat) (bit : Bool) : Nat :=
  if crc.order0AtLsb then
    let state := if state % 2 = 1 then state ^^^ crc.poly else state
    (state ^^^ (bit.toNat <<< crc.order)) >>> 1
  else
    let state := state <<< 1
    (if state &&& crc.wbit ≠ 0 then state ^^^ crc.poly else state) ^^^ bit.toNat

def forwardBits (state : Nat) (bits : List Bool) : Except PyErr Nat := bits.foldlM crc.forward state

def forwardBytes (state : Nat) (data : Bytes) : Except PyErr Nat := crc.forwardBits state (bytesIterate data crc.popLsb)

def backwardBytes (state : Nat) (data : Bytes) : Nat :=
  (bytesIterate data.reverse !crc.popLsb).foldl crc.backward state

/-- One pass of the loop of `_gfmul`, with the result and the factor. -/
def gfmulStep (registers : Nat × Nat) (bit : Bool) : Except PyErr (Nat × Nat) := do
  let (r, a) := registers
  let next ← crc.forward a false
  return (if bit then r ^^^ a else r, next)

def gfmul (a b : Nat) : Except PyErr Nat := do
  let (r, _) ← (bitsIterate b crc.order crc.order0AtLsb).foldlM crc.gfmulStep (0, a)
  return r

/-- The loop of `_gfexp`. -/
def gfexpLoop (r x n : Nat) : Except PyErr Nat :=
  if n = 0 then .ok r
  else do
    let r ← if n % 2 = 1 then crc.gfmul r x else pure r
    let x ← crc.gfmul x x
    gfexpLoop r x (n / 2)

def gfexp (x n : Nat) : Except PyErr Nat := crc.gfexpLoop crc.unit x n

def forwardMany (state stepCount : Nat) : Except PyErr Nat := do
  let power ← crc.gfexp crc.two stepCount
  crc.gfmul state power

def backwardMany (state stepCount : Nat) : Nat := (fun state => crc.backward state false)^[stepCount] state

/-! ### Values -/

def not_ (data : Bytes) : Bytes := data.map (· ^^^ 0xFF)

def update (state : Nat) (data : Bytes) : Except PyErr Nat := do
  let data := if crc.complementInput then not_ data else data
  let state ← crc.forwardBytes (crc.stateComp ^^^ state) data
  return crc.stateComp ^^^ state

def unupdate (state : Nat) (data : Bytes) : Nat :=
  let data := if crc.complementInput then not_ data else data
  crc.stateComp ^^^ crc.backwardBytes (crc.stateComp ^^^ state) data

def updateSeek (state bitCount : Nat) : Except PyErr Nat := do
  let state := crc.stateComp ^^^ state
  let state ←
    if crc.complementInput then crc.forwardBits state (List.replicate bitCount true)
    else crc.forwardMany state bitCount
  return crc.stateComp ^^^ state

def asInt (state : Nat) : Nat := if crc.spillBitswap then swib state crc.order else state

def toBytes (value width : Nat) : ByteOrder → Bytes
  | .little => split value width
  | .big => (split value width).reverse

def asBytes (state : Nat) : Bytes := toBytes (crc.asInt state) crc.byteWidth crc.spillByteOrder

/-- `calc` -/
def calcInt (data : Bytes) : Except PyErr Nat := (crc.update crc.init data).map crc.asInt

def calcBytes (data : Bytes) : Except PyErr Bytes := (crc.update crc.init data).map crc.asBytes

def checkState : Except PyErr Nat := crc.update crc.init (crc.asBytes crc.init)

def isValid (data : Bytes) : Except PyErr Bool := do
  let state ← crc.update crc.init data
  let checkState ← crc.checkState
  return state == checkState

def appendTo (data : Bytes) : Except PyErr Bytes := do
  let spilled ← crc.calcBytes data
  return data ++ spilled

def orderSwapped (log2 : Log2) : Except PyErr Crc :=
  create log2 { crc.toArguments with
    poly := swib crc.poly (crc.order + 1)
    init := swib crc.init crc.order
    order0AtLsb := !crc.order0AtLsb
    spillBitswap := !crc.spillBitswap }

end Crc

end Acrobe.Checksum
