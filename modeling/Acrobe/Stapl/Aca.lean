import Acrobe.Lib.BackReference
import Acrobe.Stapl.Evaluate

/-!
# Compressed Boolean arrays

The text of a compressed array packs six bits into a character, least significant first. The bits
are a length of 32 bits and blocks: three literal bytes, or an offset and a count that repeat
output. The decompressor fills a buffer of the announced length.
-/

namespace Acrobe.Stapl.Aca
open LittleEndian Acrobe.Storage Acrobe.Lib

/-! ### Text -/

def acaAlphabet : List Char := "0123456789ABCDEFGHIJKLMNOPQRSTUVWXYZabcdefghijklmnopqrstuvwxyz_@".toList

def stdAlphabet : List Char := "ABCDEFGHIJKLMNOPQRSTUVWXYZabcdefghijklmnopqrstuvwxyz0123456789+/".toList

def whitespace : List Char := [' ', '\t', '\n', '\r']

def swibFrom (result word : Nat) : Nat → Nat
  | 0 => result
  | width + 1 => swibFrom (result * 2 + word % 2) (word / 2) width

/-- `swib`: the low bits of a word in reverse order. -/
def swib (word width : Nat) : Nat := swibFrom 0 word width

/-- The table of `bitswap8` holds every byte with its bits reversed. -/
def bitswap8 (data : Bytes) : Bytes := data.map fun byte => UInt8.ofNat (swib byte.toNat 8)

/-- `_ACA_TO_STD`: whitespace is dropped, other characters stay. -/
def acaToStd (c : Char) : Option Char :=
  if c ∈ whitespace then none
  else match acaAlphabet.idxOf? c with
    | some i => stdAlphabet[swib i 6]?
    | none => some c

/-- The byte that a character ends, after so many characters of its group of four. -/
def quadByte : List Nat → Nat → Bytes
  | [a], value => [UInt8.ofNat (a * 4 + value / 16)]
  | [_, b], value => [UInt8.ofNat (b % 16 * 16 + value / 4)]
  | [_, _, c], value => [UInt8.ofNat (c % 4 * 64 + value)]
  | _, _ => []

/-- `binascii.a2b_base64`, not strict: characters outside of the alphabet are skipped, and padding that
completes a group ends the data. -/
def a2bBase64 (quad : List Nat) (pads : Nat) : List Char → Except Error Bytes
  | [] => if quad = [] then .ok [] else .error .valueError
  | c :: rest =>
    if c = '=' then
      if 2 ≤ quad.length then
        if 4 ≤ quad.length + (pads + 1) then .ok [] else a2bBase64 quad (pads + 1) rest
      else a2bBase64 quad pads rest
    else
      match stdAlphabet.idxOf? c with
      | none => a2bBase64 quad pads rest
      | some value => do
        let bytes ← a2bBase64 (if quad.length = 3 then [] else quad ++ [value]) 0 rest
        return quadByte quad value ++ bytes

/-- `base64.b64decode`, which takes ASCII only. -/
def b64decode (text : List Char) : Except Error Bytes :=
  if text.any (fun c => 128 ≤ c.toNat) then .error .valueError else a2bBase64 [] 0 text

def textToBits (text : List Char) : Except Error Bytes := do
  let asStd := text.filterMap acaToStd
  let decoded ← b64decode (asStd ++ List.replicate ((4 - asStd.length % 4) % 4) 'A')
  return bitswap8 decoded

/-! ### Blocks -/

def bitLength (n : Nat) : Nat := if n = 0 then 0 else Nat.log2 n + 1

def offsetFieldWidth (outputPos : Nat) : Nat := if outputPos = 0 then 1 else min (bitLength outputPos) 13

/-- `output[start:stop] = data`. -/
def setSlice (output : Bytes) (start stop : Nat) (data : Bytes) : Bytes :=
  output.take start ++ data ++ output.drop stop

def invalidBackReference (offset outputPos : Nat) : Error :=
  .assertionError ("Invalid back-reference: offset=" ++ toString offset ++ ", pos=" ++ toString outputPos)

def sizeMismatch (outputPos length : Nat) : Error :=
  .assertionError ("Decompressed size mismatch: got " ++ toString outputPos ++ ", expected " ++ toString length)

/-- The loop of `decompress`. Every round reads at least one bit, so the number of bits bounds the
rounds. -/
def decompressFrom (compressed : Bits) (length : Nat) : Nat → Bytes → Nat → Nat → Except Error Bytes
  | fuel, output, outputPos, compressedPos =>
    if outputPos < length then
      match fuel, compressed[compressedPos]? with
      | fuel + 1, some false =>
        let n := min (length - outputPos) 3
        let data := Bits.pack (BitString.slice compressed (compressedPos + 1) (compressedPos + 1 + 8 * n))
        decompressFrom compressed length fuel (setSlice output outputPos (outputPos + n) data)
          (outputPos + n) (compressedPos + 1 + 8 * n)
      | fuel + 1, some true =>
        let n := offsetFieldWidth outputPos
        let offset := BitString.toNat (BitString.slice compressed (compressedPos + 1) (compressedPos + 1 + n))
        let count := BitString.toNat
          (BitString.slice compressed (compressedPos + 1 + n) (compressedPos + 1 + n + 8))
        if outputPos < offset then .error (invalidBackReference offset outputPos)
        else
          let refPos := outputPos - offset
          let copyCount := min count (length - outputPos)
          let data := (output.take (refPos + copyCount)).drop refPos
          decompressFrom compressed length fuel (setSlice output outputPos (outputPos + copyCount) data)
            (outputPos + copyCount) (compressedPos + 1 + n + 8)
      | _, _ => .error .indexError
    else if outputPos = length then .ok output
    else .error (sizeMismatch outputPos length)

def decompress (text : List Char) : Except Error Bytes := do
  let data ← textToBits text
  let compressed := Bits.ofBytes data none
  let length := BitString.toNat (BitString.slice compressed 0 32)
  decompressFrom compressed length (compressed.length + 1) (List.replicate length 0) 0 32

/-! ### The format -/

inductive Token where
  | literal (bytes : Bytes)
  | backReference (offset count : Nat)

def Token.size : Token → Nat
  | .literal bytes => bytes.length
  | .backReference _ count => count

def Token.expand (out : Bytes) : Token → Bytes
  | .literal bytes => out ++ bytes
  | .backReference offset count => BackReference.run 0 offset out count

def expand (tokens : List Token) : Bytes := tokens.foldl Token.expand []

/-- Literals have three bytes, the last token perhaps fewer; a back-reference stays in the output. -/
def WellFormed (pos : Nat) : List Token → Prop
  | [] => True
  | .literal bytes :: rest => (bytes.length = 3 ∨ bytes.length < 3 ∧ rest = []) ∧ WellFormed (pos + bytes.length) rest
  | .backReference offset count :: rest =>
    (1 ≤ offset ∧ offset ≤ pos ∧ offset ≤ 2 ^ 13 - 1 ∧ count ≤ 255) ∧ WellFormed (pos + count) rest

def Token.encode (pos : Nat) : Token → Bits
  | .literal bytes => false :: Bits.ofBytes bytes none
  | .backReference offset count => true :: (BitString.ofNat offset (offsetFieldWidth pos) ++ BitString.ofNat count 8)

def encodeFrom (pos : Nat) : List Token → Bits
  | [] => []
  | token :: rest => token.encode pos ++ encodeFrom (pos + token.size) rest

def encodeBits (tokens : List Token) : Bits :=
  BitString.ofNat (expand tokens).length 32 ++ encodeFrom 0 tokens

/-- The bits in groups of six, the last one filled up with zeros. -/
def sextets : Bits → List Nat
  | [] => []
  | a :: b :: c :: d :: e :: f :: rest => BitString.toNat [a, b, c, d, e, f] :: sextets rest
  | short => [BitString.toNat short]

/-- A text that encodes the bits, with whitespace anywhere. -/
def Encodes (text : List Char) (bits : Bits) : Prop :=
  text.filter (· ∉ whitespace) = (sextets bits).map fun value => acaAlphabet.getD value ' '

/-- The bytes that a back-reference reads of its own output are zero. -/
def RunsOfZeros (out : Bytes) : List Token → Prop
  | [] => True
  | .literal bytes :: rest => RunsOfZeros (out ++ bytes) rest
  | .backReference offset count :: rest =>
    BackReference.Repeats 0 offset out count ∧ RunsOfZeros (BackReference.run 0 offset out count) rest

end Acrobe.Stapl.Aca
