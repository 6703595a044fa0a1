import Acrobe.Jtag.ChainFlush
import Acrobe.Jtag.ChainGeometry
import Acrobe.Lib.ShiftRegister

/-!
# The scan path

The hardware a chain describes: the TAPs between TDI and TDO, the instruction
each TAP holds and the register a scan goes through. A scan of the instruction
registers loads each TAP of the path with its own segment; a TAP outside is not
touched.
-/

namespace Acrobe.Jtag
open BitString Lib Tiling

/-- `path` has the TDO end first. `captured` is what a TAP loads in Capture-IR,
`data` what it loads in Capture-DR under an instruction, `register` the
concatenation of the registers being scanned. -/
structure ScanPath where
  path : List Tap
  ir : Tap → Nat
  captured : Tap → BitString
  data : Tap → Nat → BitString
  resetIr : Tap → Nat
  column : Column := .dr
  register : BitString := []

namespace ScanPath

def load (ir : Tap → Nat) : List Tap → BitString → Tap → Nat
  | [], _ => ir
  | tap :: path, bits => load (Function.update ir tap (toNat (bits.take tap.irlen))) path (bits.drop tap.irlen)

def resetAll (hw : ScanPath) : Tap → Nat := fun tap => if tap ∈ hw.path then hw.resetIr tap else hw.ir tap

def exec (hw : ScanPath) : Op → ScanPath
  | .captureIr => { hw with column := .ir, register := hw.path.flatMap hw.captured }
  | .captureDr => { hw with column := .dr, register := hw.path.flatMap fun tap => hw.data tap (hw.ir tap) }
  | .shift s =>
    let register := ShiftRegister.contents hw.register s.tdi
    match hw.column with
    | .ir => { hw with register, ir := load hw.ir hw.path register }
    | .dr => { hw with register }
  | .reset _ | .swdToJtag => { hw with ir := hw.resetAll }
  | .run _ | .other _ => hw

def tdo (hw : ScanPath) (tdi : BitString) : BitString := ShiftRegister.output hw.register tdi

def run (hw : ScanPath) (ops : List Op) : ScanPath := ops.foldl exec hw

theorem run_append (hw : ScanPath) (xs ys : List Op) : hw.run (xs ++ ys) = (hw.run xs).run ys := List.foldl_append

structure Keeps (hw hw' : ScanPath) : Prop where
  path : hw'.path = hw.path
  captured : hw'.captured = hw.captured
  data : hw'.data = hw.data
  resetIr : hw'.resetIr = hw.resetIr

theorem keeps_exec (hw : ScanPath) (op : Op) : Keeps hw (hw.exec op) := by
  cases op with
  | shift s =>
    simp only [exec]
    split <;> exact ⟨rfl, rfl, rfl, rfl⟩
  | _ => exact ⟨rfl, rfl, rfl, rfl⟩

theorem Keeps.refl (hw : ScanPath) : Keeps hw hw := ⟨rfl, rfl, rfl, rfl⟩

theorem Keeps.trans {a b c : ScanPath} (h : Keeps a b) (h' : Keeps b c) : Keeps a c :=
  ⟨h'.1.trans h.1, h'.2.trans h.2, h'.3.trans h.3, h'.4.trans h.4⟩

theorem keeps_run (hw : ScanPath) (ops : List Op) : Keeps hw (hw.run ops) := by
  induction ops generalizing hw with
  | nil => exact .refl hw
  | cons op ops ih => exact (keeps_exec hw op).trans (ih (hw.exec op))

/-! ### Instruction scans -/

theorem load_of_notMem {ir : Tap → Nat} {path : List Tap} {bits : BitString} {tap : Tap} (outside : tap ∉ path) :
    load ir path bits tap = ir tap := by
  induction path generalizing ir bits with
  | nil => rfl
  | cons other path ih =>
    rw [List.mem_cons, not_or] at outside
    rw [load, ih outside.2, Function.update_of_ne outside.1]

theorem load_split {ir : Tap → Nat} {pre post : List Tap} {tap : Tap} {bits : BitString}
    (nodup : (pre ++ tap :: post).Nodup) :
    load ir (pre ++ tap :: post) bits tap = toNat ((bits.drop (irWidth pre)).take tap.irlen) := by
  induction pre generalizing ir bits with
  | nil =>
    rw [List.nil_append, load, load_of_notMem (List.nodup_cons.mp nodup).1, Function.update_self]
    rfl
  | cons other pre ih =>
    rw [List.cons_append, load, ih (List.nodup_cons.mp nodup).2, List.drop_drop, irWidth_cons]

theorem length_captured {path : List Tap} {captured : Tap → BitString}
    (captures : ∀ tap ∈ path, (captured tap).length = tap.irlen) : (path.flatMap captured).length = irWidth path := by
  induction path with
  | nil => rfl
  | cons tap path ih =>
    rw [List.flatMap_cons, List.length_append, captures tap List.mem_cons_self,
      ih fun tap member => captures tap (List.mem_cons_of_mem _ member), irWidth_cons]

/-- What a scan of the whole path leaves: `value` in one TAP, BYPASS in the others. -/
def selecting (tap : Tap) (value : Nat) (path : List Tap) (ir : Tap → Nat) : Tap → Nat := fun other =>
  if other = tap then value else if other ∈ path then other.bypass else ir other

theorem load_selecting {ir : Tap → Nat} {pre post : List Tap} {tap : Tap} {value : Nat}
    (nodup : (pre ++ tap :: post).Nodup) (fits : value < 2 ^ tap.irlen) :
    load ir (pre ++ tap :: post) (ones (irWidth pre) ++ ofNat value tap.irlen ++ ones (irWidth post)) =
      selecting tap value (pre ++ tap :: post) ir := by
  funext other
  unfold selecting
  by_cases itself : other = tap
  · subst itself
    rw [if_pos rfl, load_split nodup, List.append_assoc, List.drop_left' (length_ones _),
      List.take_left' (length_ofNat _ _), toNat_ofNat, Nat.mod_eq_of_lt fits]
  · rw [if_neg itself]
    by_cases member : other ∈ pre ++ tap :: post
    · rw [if_pos member]
      obtain ⟨before, after, split⟩ := List.append_of_mem member
      rw [split, load_split (split ▸ nodup), Tap.bypass, ← toNat_ones]
      congr 1
      rcases split_cases split with ⟨_, same, _⟩ | ⟨mid, rfl, rfl⟩ | ⟨mid, rfl, rfl⟩
      · exact (itself same.symm).elim
      · have skip : (ones (irWidth pre) ++ ofNat value tap.irlen).length = irWidth pre + tap.irlen := by simp
        rw [irWidth_append, irWidth_cons, irWidth_append, irWidth_cons, ← Nat.add_assoc, ← List.drop_drop,
          List.drop_left' skip, ← List.append_nil (ones _)]
        exact take_drop_ones [] (by omega)
      · rw [irWidth_append, irWidth_cons, List.append_assoc]
        exact take_drop_ones _ (by omega)
    · rw [if_neg member, load_of_notMem member]

/-- The hardware and the chain agree on what is between TDI and TDO. -/
structure Follows (hw : ScanPath) (ch : Chain) : Prop where
  tiles : ch.Tiles hw.path
  captures : ∀ c ∈ ch.contexts, (hw.captured c.tap).length = c.tap.irlen

theorem Follows.captures_path {hw : ScanPath} {ch : Chain} (follows : hw.Follows ch) :
    ∀ tap ∈ hw.path, (hw.captured tap).length = tap.irlen := by
  intro tap listed
  obtain ⟨c, member, rfl, _⟩ := follows.tiles.listed tap listed
  exact follows.captures c member

def SamePath (hw hw' : ScanPath) : Prop := hw'.path = hw.path ∧ hw'.captured = hw.captured

theorem run_irScan {hw : ScanPath} {ch : Chain} (follows : hw.Follows ch) {ctx : Context}
    (member : ctx ∈ ch.contexts) (enabled : ctx.enabled = true) {value : Nat} (fits : value < 2 ^ ctx.tap.irlen)
    (readTdo : Bool) :
    SamePath hw (hw.run (Chain.irScan ctx value readTdo)) ∧
      (hw.run (Chain.irScan ctx value readTdo)).ir = selecting ctx.tap value hw.path hw.ir := by
  obtain ⟨pre, post, split, irPre, irPost, _⟩ := follows.tiles.split member enabled
  have bits : Chain.padWith ones ctx.irPre (ofNat value ctx.tap.irlen) ctx.irPost =
      ones (irWidth pre) ++ ofNat value ctx.tap.irlen ++ ones (irWidth post) := by
    rw [Chain.padWith, irPre, irPost, Int.toNat_natCast, Int.toNat_natCast]
  have whole : ShiftRegister.contents (hw.path.flatMap hw.captured)
      (ones (irWidth pre) ++ ofNat value ctx.tap.irlen ++ ones (irWidth post)) =
      ones (irWidth pre) ++ ofNat value ctx.tap.irlen ++ ones (irWidth post) := by
    apply ShiftRegister.contents_of_length_eq
    rw [length_captured follows.captures_path, split]
    simp
  refine ⟨⟨rfl, rfl⟩, ?_⟩
  show load hw.ir hw.path (ShiftRegister.contents (hw.path.flatMap hw.captured)
    (Chain.padWith ones ctx.irPre (ofNat value ctx.tap.irlen) ctx.irPost)) = _
  rw [bits, whole, split]
  exact load_selecting (split ▸ follows.tiles.nodup) fits

end ScanPath
end Acrobe.Jtag
