import Mathlib

/-!
# Shift registers

A register, output end first. Symbols enter at the far end while as many leave
at the output end.
-/

namespace Acrobe.Lib.ShiftRegister
variable {α : Type*}

def contents (reg input : List α) : List α := (reg ++ input).drop input.length

def output (reg input : List α) : List α := (reg ++ input).take input.length

theorem length_contents (reg input : List α) : (contents reg input).length = reg.length := by
  rw [contents, List.length_drop, List.length_append, Nat.add_sub_cancel]

theorem contents_of_length_eq {reg input : List α} (length : reg.length = input.length) :
    contents reg input = input := by
  rw [contents, ← length, List.drop_left]

end Acrobe.Lib.ShiftRegister
