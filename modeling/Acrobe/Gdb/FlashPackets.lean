import Acrobe.Gdb.Message
import Acrobe.Target.Loadable

/-!
# Flash packets

The responder collects the data of `vFlashWrite` and forgets them with the next `vFlashErase`; `vFlashDone` gives them
to `Loadable.write`, which erases every flash of the target before it programs them. The range of a `vFlashErase` is
not looked at.
-/

namespace Acrobe.Gdb.FlashPackets
open LittleEndian Overlay Target

/-- What the flash packets use of a `Responder`. -/
structure Responder where
  loadable : Option (List Region)
  flashImage : List (Chunk UInt8)

def ok : Bytes := ascii "OK"

/-- `message.error(1)` -/
def error1 : Bytes := ascii "E01"

def colon : UInt8 := 0x3A

/-- `int(digits, 16)` of hex digits; the other spellings that it accepts are left out. -/
def intHex (digits : Bytes) : Option Nat :=
  if digits = [] then none
  else digits.foldlM (fun value byte => (Packet.hexValue byte).map fun digit => 16 * value + digit) 0

def vFlashErase (responder : Responder) (_args : Bytes) : Bytes × Responder :=
  if responder.loadable.isNone then (error1, responder) else (ok, { responder with flashImage := [] })

/-- `none` where `int` raises. -/
def vFlashWrite (responder : Responder) (args : Bytes) : Option (Bytes × Responder) :=
  if responder.loadable.isNone then some (error1, responder)
  else
    match args.idxOf? colon with
    | none => some (error1, responder)
    | some index =>
      (intHex (args.take index)).map fun addr =>
        (ok, { responder with flashImage := responder.flashImage ++ [((addr : Int), args.drop (index + 1))] })

def vFlashDone (responder : Responder) : Bytes × Responder :=
  match responder.loadable with
  | none => (error1, responder)
  | some regions => (ok, ⟨some (write regions ⟨⟨responder.flashImage⟩, true, false⟩), []⟩)

/-- `__v_dispatch`, for the packets about flash; the others are `none` too. -/
def vDispatch (responder : Responder) (payload : Bytes) : Option (Bytes × Responder) :=
  if (ascii "vFlashErase:").isPrefixOf payload then
    some (vFlashErase responder (payload.drop (ascii "vFlashErase:").length))
  else if (ascii "vFlashWrite:").isPrefixOf payload then
    vFlashWrite responder (payload.drop (ascii "vFlashWrite:").length)
  else if payload = ascii "vFlashDone" then some (vFlashDone responder)
  else none

def handleAll (responder : Responder) : List Bytes → Option (List Bytes × Responder)
  | [] => some ([], responder)
  | payload :: payloads =>
    (vDispatch responder payload).bind fun (reply, next) =>
      (handleAll next payloads).map fun (replies, last) => (reply :: replies, last)

/-! ### Sessions -/

/-- A packet between the first one of a session and `vFlashDone`. -/
inductive FlashPacket where
  | erase (args : Bytes)
  | write (digits data : Bytes)

namespace FlashPacket

def payload : FlashPacket → Bytes
  | .erase args => ascii "vFlashErase:" ++ args
  | .write digits data => ascii "vFlashWrite:" ++ (digits ++ colon :: data)

/-- The address of a write is a hex number. -/
def Valid : FlashPacket → Prop
  | .erase _ => True
  | .write digits _ => (intHex digits).isSome = true

def isErase : FlashPacket → Bool
  | .erase _ => true
  | .write _ _ => false

def chunk? : FlashPacket → Option (Chunk UInt8)
  | .erase _ => none
  | .write digits data => (intHex digits).map fun addr => ((addr : Int), data)

end FlashPacket

def written (packets : List FlashPacket) : List (Chunk UInt8) := packets.filterMap FlashPacket.chunk?

/-- What a cell that is not written holds after a session. -/
def blank (region : Region) (k : Nat) : UInt8 :=
  match region with
  | .flash bank => bank.geometry.erasedValue
  | .plain memory => memory.cells k

/-- A region has the data of the writes, and is blank around them. -/
structure Programmed (chunks : List (Chunk UInt8)) (before after : Region) : Prop where
  address : after.address = before.address
  size : after.size = before.size
  cells : ∀ k < before.size, after.cells k = (lookup (before.address + k) chunks).getD (blank before k)

/-! ### Packets -/

theorem hexValue_ne_colon {byte : UInt8} {digit : Nat} (value : Packet.hexValue byte = some digit) : byte ≠ colon := by
  rintro rfl
  cases value

theorem colon_not_mem {digits : Bytes} (valid : (intHex digits).isSome = true) : colon ∉ digits := by
  have folded : ∀ (start : Nat), (digits.foldlM (fun value byte =>
      (Packet.hexValue byte).map fun digit => 16 * value + digit) start).isSome = true → colon ∉ digits := by
    clear valid
    induction digits with
    | nil => exact fun _ _ => List.not_mem_nil
    | cons byte digits ih =>
      intro start valid
      cases value : Packet.hexValue byte with
      | none => simp [List.foldlM_cons, value] at valid
      | some digit =>
        simp only [List.foldlM_cons, value, Option.map_some, Option.bind_eq_bind, Option.bind_some] at valid
        refine fun member => ?_
        rcases List.mem_cons.mp member with same | later
        · exact hexValue_ne_colon value same.symm
        · exact ih _ valid later
  unfold intHex at valid
  split at valid
  · cases valid
  · exact folded 0 valid

theorem vDispatch_erase (regions : List Region) (image : List (Chunk UInt8)) (args : Bytes) :
    vDispatch ⟨some regions, image⟩ (FlashPacket.erase args).payload = some (ok, ⟨some regions, []⟩) := rfl

theorem vDispatch_write (regions : List Region) (image : List (Chunk UInt8)) {digits data : Bytes} {addr : Nat}
    (value : intHex digits = some addr) :
    vDispatch ⟨some regions, image⟩ (FlashPacket.write digits data).payload =
      some (ok, ⟨some regions, image ++ [((addr : Int), data)]⟩) := by
  have absent : colon ∉ digits := colon_not_mem (by rw [value]; rfl)
  have index : (digits ++ colon :: data).idxOf? colon = some digits.length := by
    clear value
    induction digits with
    | nil => rfl
    | cons byte digits ih =>
      have other : (byte == colon) = false := by
        simp only [List.mem_cons, not_or] at absent
        exact beq_eq_false_iff_ne.mpr (Ne.symm absent.1)
      rw [List.cons_append, List.idxOf?_cons, other]
      simp [ih (fun member => absent (List.mem_cons_of_mem _ member))]
  have dispatched : vDispatch ⟨some regions, image⟩ (FlashPacket.write digits data).payload =
      vFlashWrite ⟨some regions, image⟩ (digits ++ colon :: data) := rfl
  rw [dispatched, vFlashWrite]
  simp [index, value]

theorem vDispatch_done (regions : List Region) (image : List (Chunk UInt8)) :
    vDispatch ⟨some regions, image⟩ (ascii "vFlashDone") =
      some (ok, ⟨some (write regions ⟨⟨image⟩, true, false⟩), []⟩) := rfl

def collect (image : List (Chunk UInt8)) (packet : FlashPacket) : List (Chunk UInt8) :=
  if packet.isErase then [] else image ++ packet.chunk?.toList

theorem handleAll_packets (regions : List Region) (image : List (Chunk UInt8)) {packets : List FlashPacket}
    (valid : ∀ packet ∈ packets, packet.Valid) (rest : List Bytes) :
    handleAll ⟨some regions, image⟩ (packets.map FlashPacket.payload ++ rest) =
      (handleAll ⟨some regions, packets.foldl collect image⟩ rest).map fun (replies, last) =>
        (List.replicate packets.length ok ++ replies, last) := by
  induction packets generalizing image with
  | nil => cases same : handleAll ⟨some regions, image⟩ rest <;> simp [same]
  | cons packet packets ih =>
    have later := ih (collect image packet) fun other member => valid other (List.mem_cons_of_mem _ member)
    have first : vDispatch ⟨some regions, image⟩ packet.payload = some (ok, ⟨some regions, collect image packet⟩) := by
      cases packet with
      | erase args => exact vDispatch_erase regions image args
      | write digits data =>
        obtain ⟨addr, value⟩ := Option.isSome_iff_exists.mp (valid _ (List.mem_cons_self ..))
        rw [vDispatch_write regions image value]
        simp [collect, FlashPacket.isErase, FlashPacket.chunk?, value]
    rw [List.map_cons, List.cons_append, handleAll, first, Option.bind_some]
    dsimp only
    rw [later, List.foldl_cons]
    cases handleAll ⟨some regions, packets.foldl collect (collect image packet)⟩ rest <;> rfl

/-- No `vFlashErase` comes after a `vFlashWrite`. -/
def ErasesFirst (packets : List FlashPacket) : Prop :=
  packets.Pairwise fun front back => back.isErase = true → front.isErase = true

instance (packets : List FlashPacket) : Decidable (ErasesFirst packets) :=
  inferInstanceAs (Decidable (List.Pairwise _ packets))

theorem collect_writes {packets : List FlashPacket} (writes : ∀ packet ∈ packets, packet.isErase = false)
    (image : List (Chunk UInt8)) : packets.foldl collect image = image ++ written packets := by
  induction packets generalizing image with
  | nil => exact (List.append_nil image).symm
  | cons packet packets ih =>
    have first := writes packet (List.mem_cons_self ..)
    rw [List.foldl_cons, ih fun other member => writes other (List.mem_cons_of_mem _ member)]
    rw [collect, first, if_neg Bool.false_ne_true, List.append_assoc, written, written, List.filterMap_cons]
    cases packet.chunk? <;> rfl

theorem collect_all {packets : List FlashPacket} (ordered : ErasesFirst packets) :
    packets.foldl collect [] = written packets := by
  induction packets with
  | nil => rfl
  | cons packet packets ih =>
    obtain ⟨before, later⟩ := List.pairwise_cons.mp ordered
    cases packet with
    | erase args => exact ih later
    | write digits data =>
      have writes : ∀ other ∈ FlashPacket.write digits data :: packets, other.isErase = false := by
        intro other member
        rcases List.mem_cons.mp member with rfl | behind
        · rfl
        · exact Bool.eq_false_iff.mpr fun erases => nomatch before other behind erases
      exact collect_writes writes []

/-! ### Programming -/

/-- What `vFlashDone` does to a region, where the order of the addresses makes no difference. -/
theorem programmed_write {chunks : List (Chunk UInt8)} (agrees : MemoryMap.Agrees ⟨chunks⟩) {region : Region}
    (nor : ∀ bank, region = .flash bank → bank.geometry.erasedValue = 0xFF) :
    Programmed chunks region (region.write ⟨⟨chunks⟩, true, false⟩) := by
  have place := region.write_place ⟨⟨chunks⟩, true, false⟩
  have meets : region.Meets ⟨⟨chunks⟩, true, false⟩ := by
    intro k value inside here
    refine ⟨?_, ?_⟩
    · exact (agrees _).trans ((lookup_eq _ chunks).symm.trans here)
    · cases region with
      | flash bank =>
        refine ⟨?_, .inl rfl⟩
        rw [nor bank rfl]
        exact UInt8.neg_one_and
      | plain memory => trivial
  refine ⟨place.1, place.2, fun k inside => ?_⟩
  cases here : lookup (region.address + k) chunks with
  | some value =>
    have reads := meets.reads k value
    rw [place.1, place.2] at reads
    exact reads inside here
  | none =>
    cases region with
    | flash bank => exact Region.write_erased rfl inside here
    | plain memory => exact Region.write_kept inside here

/-- A session whose erases come first, and where overlapping writes agree with the order of their addresses, leaves
the data of its writes in every region, and every flash erased around them. -/
theorem flash_session_programs (regions : List Region) {packets : List FlashPacket}
    (nor : ∀ bank, Region.flash bank ∈ regions → bank.geometry.erasedValue = 0xFF)
    (valid : ∀ packet ∈ packets, packet.Valid) (ordered : ErasesFirst packets)
    (agrees : MemoryMap.Agrees ⟨written packets⟩) :
    ∃ after, handleAll ⟨some regions, []⟩ (packets.map FlashPacket.payload ++ [ascii "vFlashDone"]) =
        some (List.replicate (packets.length + 1) ok, ⟨some after, []⟩) ∧
      (∀ region ∈ after, ∃ before ∈ regions, Programmed (written packets) before region) ∧
      ∀ before ∈ regions, ∃ region ∈ after, Programmed (written packets) before region := by
  have each {region : Region} (member : region ∈ regions) :
      Programmed (written packets) region (region.write ⟨⟨written packets⟩, true, false⟩) :=
    programmed_write agrees fun bank same => nor bank (same ▸ member)
  refine ⟨write regions ⟨⟨written packets⟩, true, false⟩, ?_, ?_, ?_⟩
  · rw [handleAll_packets regions [] valid, collect_all ordered, handleAll, vDispatch_done]
    simp [handleAll, List.replicate_succ']
  · intro region member
    obtain ⟨before, present, rfl⟩ := mem_write.mp member
    exact ⟨before, present, each present⟩
  · intro before present
    exact ⟨_, mem_write.mpr ⟨before, present, rfl⟩, each present⟩

/-- A flash of two pages of four bytes, with zeros in it. -/
def zeroed : Region :=
  .flash ⟨⟨0, 8, 4, 4, 0xFF, ⟨2, rfl⟩, ⟨2, rfl⟩, by decide, by decide⟩, false, fun _ => 0⟩

/-- Erase the first page, and write a byte of it. -/
def firstPage : List FlashPacket := [.erase (ascii "0,4"), .write (ascii "1") [0x12]]

theorem flash_session_programs_first_page :
    ∃ after, handleAll ⟨some [zeroed], []⟩ (firstPage.map FlashPacket.payload ++ [ascii "vFlashDone"]) =
        some ([ok, ok, ok], ⟨some after, []⟩) ∧
      ∀ region ∈ after, ∃ before ∈ [zeroed], Programmed [(1, [0x12])] before region := by
  have nor : ∀ bank, Region.flash bank ∈ [zeroed] → bank.geometry.erasedValue = 0xFF := by
    intro bank member
    cases List.mem_singleton.mp member
    rfl
  have valid : ∀ packet ∈ firstPage, packet.Valid := by
    simp only [firstPage, List.forall_mem_cons]
    exact ⟨trivial, rfl, nofun⟩
  have agrees : MemoryMap.Agrees ⟨written firstPage⟩ := by
    intro a
    change (topmost a [(1, [0x12])]).bind _ = (lastCovering a [(1, [0x12])]).bind _
    simp only [topmost, lastCovering, Option.none_or]
  obtain ⟨after, handled, programmed, -⟩ := flash_session_programs [zeroed] nor valid (by decide) agrees
  exact ⟨after, handled, programmed⟩

/-- What the packets ask for: the pages that an erase names are erased, the data of the writes are stored in the order
of the packets, and the rest is kept. -/
def Asked (erased : Nat → Bool) (chunks : List (Chunk UInt8)) (before after : Region) : Prop :=
  ∀ k < before.size, after.cells k = (lookup (before.address + k) chunks).getD
    (if erased (before.address + k) then 0xFF else before.cells k)

/-- The second page is erased too, though no packet names it. -/
theorem other_page_erased :
    ∃ after, handleAll ⟨some [zeroed], []⟩ (firstPage.map FlashPacket.payload ++ [ascii "vFlashDone"]) =
        some ([ok, ok, ok], ⟨some [after], []⟩) ∧
      ¬ Asked (fun address => decide (address < 4)) [(1, [0x12])] zeroed after := by
  refine ⟨_, rfl, fun asked => ?_⟩
  have here := asked 4 (by decide)
  revert here
  decide

end Acrobe.Gdb.FlashPackets
