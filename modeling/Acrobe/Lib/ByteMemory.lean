import Acrobe.Lib.LittleEndian

/-!
# Byte memories

A memory gives a byte at every address. Reading and writing a span of bytes is split and joined by
`read_add` and `write_append`.
-/

namespace Acrobe.Lib
open LittleEndian

abbrev ByteMemory := Nat → UInt8

namespace ByteMemory

def read (memory : ByteMemory) (addr : Nat) : Nat → Bytes
  | 0 => []
  | size + 1 => memory addr :: read memory (addr + 1) size

def write (memory : ByteMemory) (addr : Nat) (data : Bytes) : ByteMemory := fun a =>
  if addr ≤ a ∧ a < addr + data.length then data.getD (a - addr) 0 else memory a

def writeStrobed (memory : ByteMemory) (addr : Nat) (data : Bytes) (strobe : Nat) : ByteMemory := fun a =>
  if addr ≤ a ∧ a < addr + data.length ∧ strobe.testBit (a - addr) then data.getD (a - addr) 0 else memory a

variable (memory : ByteMemory) (addr : Nat)

@[simp] theorem length_read (size : Nat) : (memory.read addr size).length = size := by
  induction size generalizing addr with
  | zero => rfl
  | succ size ih => rw [read, List.length_cons, ih]

theorem read_add (size more : Nat) :
    memory.read addr (size + more) = memory.read addr size ++ memory.read (addr + size) more := by
  induction size generalizing addr with
  | zero => rw [Nat.zero_add]; rfl
  | succ size ih =>
    rw [Nat.succ_add, read, read, ih, List.cons_append, Nat.add_assoc, Nat.add_comm 1]

theorem read_slice {offset width size : Nat} (inside : offset + width ≤ size) :
    ((memory.read addr size).drop offset).take width = memory.read (addr + offset) width := by
  obtain ⟨rest, rfl⟩ := Nat.exists_eq_add_of_le inside
  rw [Nat.add_assoc, read_add, List.drop_left' (length_read memory addr offset), read_add,
    List.take_left' (length_read memory (addr + offset) width)]

theorem getElem?_read {size i : Nat} (inside : i < size) : (memory.read addr size)[i]? = some (memory (addr + i)) := by
  induction size generalizing addr i with
  | zero => omega
  | succ size ih =>
    cases i with
    | zero => rfl
    | succ i =>
      rw [read, List.getElem?_cons_succ, ih (addr + 1) (by omega), Nat.add_assoc, Nat.add_comm 1]

@[simp] theorem write_nil : memory.write addr [] = memory := by
  funext a
  rw [write, if_neg]
  rw [List.length_nil]
  omega

theorem write_append (front back : Bytes) :
    memory.write addr (front ++ back) = (memory.write addr front).write (addr + front.length) back := by
  funext a
  simp only [write, List.length_append]
  by_cases first : addr ≤ a ∧ a < addr + front.length
  · rw [if_pos (by omega), if_neg (by omega), if_pos first, List.getD_eq_getElem?_getD, List.getD_eq_getElem?_getD,
      List.getElem?_append_left (by omega)]
  · rw [if_neg first]
    by_cases second : addr + front.length ≤ a ∧ a < addr + front.length + back.length
    · rw [if_pos (by omega), if_pos second, List.getD_eq_getElem?_getD, List.getD_eq_getElem?_getD,
        List.getElem?_append_right (by omega), Nat.sub_sub]
    · rw [if_neg (by omega), if_neg second]

end ByteMemory
end Acrobe.Lib

/-!
## Accesses that wrap

The address of an access steps through a window and starts again at its beginning. Inside of one window it is an
access to a span of bytes.
-/

namespace Acrobe.Lib.ByteMemory
open LittleEndian

def advance (window pos : Nat) : Nat := pos / window * window + (pos + 1) % window

def readWrapped (memory : ByteMemory) (window pos : Nat) : Nat → Bytes
  | 0 => []
  | size + 1 => memory pos :: readWrapped memory window (advance window pos) size

def writeWrapped (memory : ByteMemory) (window pos : Nat) : Bytes → ByteMemory
  | [] => memory
  | byte :: data => writeWrapped (memory.write pos [byte]) window (advance window pos) data

variable {window pos : Nat}

theorem mod_succ_inside (inside : pos % window + 1 < window) : (pos + 1) % window = pos % window + 1 := by
  rw [Nat.add_mod, Nat.mod_eq_of_lt (show 1 < window by omega), Nat.mod_eq_of_lt inside]

theorem advance_inside (inside : pos % window + 1 < window) : advance window pos = pos + 1 := by
  have split := Nat.div_add_mod pos window
  rw [advance, mod_succ_inside inside, Nat.mul_comm]
  omega

theorem readWrapped_inside (memory : ByteMemory) {size : Nat} (inside : pos % window + size ≤ window) :
    memory.readWrapped window pos size = memory.read pos size := by
  induction size generalizing pos with
  | zero => rfl
  | succ size ih =>
    rw [readWrapped, read]
    cases size with
    | zero => rfl
    | succ size =>
      rw [advance_inside (by omega), ih (by rw [mod_succ_inside (by omega)]; omega)]

theorem writeWrapped_inside (memory : ByteMemory) {data : Bytes} (inside : pos % window + data.length ≤ window) :
    memory.writeWrapped window pos data = memory.write pos data := by
  induction data generalizing memory pos with
  | nil => rw [writeWrapped, write_nil]
  | cons byte data ih =>
    rw [List.length_cons] at inside
    have split : memory.write pos (byte :: data) = (memory.write pos [byte]).write (pos + 1) data :=
      write_append memory pos [byte] data
    rw [writeWrapped, split]
    cases data with
    | nil => rw [writeWrapped, write_nil]
    | cons next data =>
      rw [List.length_cons] at inside
      rw [advance_inside (by omega), ih _ (by rw [mod_succ_inside (by omega), List.length_cons]; omega)]

end Acrobe.Lib.ByteMemory
