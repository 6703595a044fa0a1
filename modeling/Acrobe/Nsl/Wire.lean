import Acrobe.Lib.Incremental
import Acrobe.BitString.Object

/-!
# The wire of the continuous transport

After a preamble and a start byte, a batch is a stream of frames: data with their length and an end of
packet mark, and control frames.
-/

namespace Acrobe.Nsl
open LittleEndian Incremental BitString

def preamble : UInt8 := 0x55
def sof : UInt8 := 0xd5
def idle : UInt8 := 0xf0
def credit : UInt8 := 0xf1
def txLevel : UInt8 := 0xf2
def setPadBase : UInt8 := 0xf8

def dataCtrlBit : UInt8 := 0x80
def dataLastBit : UInt8 := 0x40
def dataLenMask : UInt8 := 0x3f
def dataBytesMax : Nat := 64

inductive Frame where
  | data (last : Bool) (bytes : Bytes)
  | credit (value : Nat)
  | txLevel (value : Nat)
  | ignored (header : UInt8)
  deriving DecidableEq

/-! ### Decoding of frames -/

def decodeData (header : UInt8) (rest : Bytes) : Front Frame Empty :=
  let count := (header &&& dataLenMask).toNat + 1
  if rest.length < count then .truncated
  else .item (.data (header &&& dataLastBit != 0) (rest.take count)) (1 + count)

def decodeValue (frame : Nat → Frame) : Bytes → Front Frame Empty
  | low :: high :: _ => .item (frame (low.toNat ||| high.toNat <<< 8)) 3
  | _ => .truncated

def decodeFrame : Bytes → Front Frame Empty
  | [] => .truncated
  | header :: rest =>
    if header &&& dataCtrlBit = 0 then decodeData header rest
    else if header = credit then decodeValue .credit rest
    else if header = txLevel then decodeValue .txLevel rest
    else .item (.ignored header) 1

theorem decodeData_item {header : UInt8} {rest : Bytes} {frame : Frame} {n : Nat}
    (item : decodeData header rest = .item frame n) :
    0 < n ∧ n ≤ 1 + rest.length ∧ ∀ more, decodeData header (rest ++ more) = .item frame n := by
  rw [decodeData] at item
  split at item
  · cases item
  · rename_i long
    cases item
    refine ⟨by omega, by omega, fun more => ?_⟩
    rw [decodeData, if_neg (by rw [List.length_append]; omega), List.take_append_of_le_length (by omega)]

theorem decodeValue_item {make : Nat → Frame} {rest : Bytes} {frame : Frame} {n : Nat}
    (item : decodeValue make rest = .item frame n) :
    0 < n ∧ n ≤ 1 + rest.length ∧ ∀ more, decodeValue make (rest ++ more) = .item frame n := by
  match rest with
  | [] | [_] => cases item
  | low :: high :: rest =>
    cases item
    refine ⟨by decide, ?_, fun more => rfl⟩
    simp only [List.length_cons]
    omega

theorem decodeFrame_item {buf : Bytes} {frame : Frame} {n : Nat} (item : decodeFrame buf = .item frame n) :
    0 < n ∧ n ≤ buf.length ∧ ∀ more, decodeFrame (buf ++ more) = .item frame n := by
  match buf with
  | [] => cases item
  | header :: rest =>
    rw [List.length_cons, Nat.add_comm]
    by_cases isData : header &&& dataCtrlBit = 0
    · simp only [List.cons_append, decodeFrame, if_pos isData] at item ⊢
      exact decodeData_item item
    by_cases isCredit : header = credit
    · simp only [List.cons_append, decodeFrame, if_neg isData, if_pos isCredit] at item ⊢
      exact decodeValue_item item
    by_cases isLevel : header = txLevel
    · simp only [List.cons_append, decodeFrame, if_neg isData, if_neg isCredit, if_pos isLevel] at item ⊢
      exact decodeValue_item item
    · simp only [List.cons_append, decodeFrame, if_neg isData, if_neg isCredit, if_neg isLevel] at item ⊢
      cases item
      exact ⟨by decide, by omega, fun more => rfl⟩

def frames : Format UInt8 Frame Empty where
  front := decodeFrame
  empty := rfl
  consumes := fun item => ⟨(decodeFrame_item item).1, (decodeFrame_item item).2.1⟩
  item_append := fun item => (decodeFrame_item item).2.2
  malformed_append := fun {_ error} _ => nomatch error

/-! ### The start of a batch -/

/-- The preamble and the start byte, LSB first. -/
def sync : BitString := BitString.ofNat (preamble.toNat ||| sof.toNat <<< 8) 16

def syncSearchBits : Nat := 64

/-- The position of the first bit after the lock. -/
def findSof (tdo : BitString) : Option Nat :=
  ((List.range (syncSearchBits + 1)).find? fun k => k + 16 ≤ tdo.length ∧ slice tdo k (k + 16) = sync).map (· + 16)

/-- The whole bytes from a position on. -/
def extractBytes (tdo : BitString) (off : Nat) : Bytes :=
  (List.range ((tdo.length - off) / 8)).map fun i => UInt8.ofNat (toNat (slice tdo (off + 8 * i) (off + 8 * i + 8)))

end Acrobe.Nsl
