import Acrobe.Lib.Machine
import Acrobe.Lib.Exceptional
import Acrobe.Lib.LittleEndian

/-!
# Chunked framing

`Chunked` cuts a frame into chunks with a size of 14 bits in front of each. One byte controls of the
stream assert and release the reset of what lies downstream of the unframer.
-/

namespace Acrobe.Bnoc.Chunked
open LittleEndian Lib Exceptional Machine

def ctrlFlag : UInt8 := 0x80

def resetMarker : UInt8 := 0xc0

def releaseMarker : UInt8 := 0x80

def lastFlag : UInt8 := 0x40

def sizeHiMask : UInt8 := 0x3f

def maxEmitChunk : Nat := 2048

def resetSpray : Nat := maxEmitChunk + 8

inductive Error where
  | empty
  | shortRead (length size : Nat)

def Error.message : Error → String
  | .empty => "Chunked cannot carry empty frames"
  | .shortRead length size => s!"Chunked: short read ({length}/{size})"

def reset : Bytes := List.replicate resetSpray resetMarker ++ [releaseMarker]

/-! ### Sending -/

def chunkHeader (take : Nat) (last : Bool) : Bytes :=
  let n := take - 1
  let b0 := UInt8.ofNat (n >>> 8) &&& sizeHiMask
  [if last then b0 ||| lastFlag else b0, UInt8.ofNat (n &&& 0xff)]

/-- The loop of `packetize` over what it has not sent yet. -/
def packetizeFrom (rest : Bytes) : Bytes :=
  if rest.length = 0 then []
  else
    let take := min maxEmitChunk rest.length
    let last := decide (take ≥ rest.length)
    chunkHeader take last ++ rest.take take ++ packetizeFrom (rest.drop take)
termination_by rest.length
decreasing_by
  rw [List.length_drop, maxEmitChunk]
  omega

def packetize (data : Bytes) : Except Error Bytes :=
  if data = [] then .error .empty else .ok (packetizeFrom data)

def packetizeAll : List Bytes → Except Error Bytes
  | [] => .ok []
  | frame :: frames => do
    let packet ← packetize frame
    let rest ← packetizeAll frames
    return packet ++ rest

/-! ### Receiving -/

def sizeField (b0 b1 : UInt8) : Nat := (b0 &&& sizeHiMask).toNat <<< 8 ||| b1.toNat

/-- The loop of `recvOne` with the frame so far. -/
def recvFrom (frame : Bytes) : Bytes → Except Error (Bytes × Bytes)
  | [] => .error (.shortRead 0 1)
  | b0 :: pipe =>
    if b0 &&& ctrlFlag ≠ 0 then recvFrom [] pipe
    else
      match pipe with
      | [] => .error (.shortRead 0 1)
      | b1 :: pipe =>
        let size := sizeField b0 b1 + 1
        if pipe.length < size then .error (.shortRead pipe.length size)
        else
          let frame := frame ++ pipe.take size
          if b0 &&& lastFlag ≠ 0 then .ok (frame, pipe.drop size) else recvFrom frame (pipe.drop size)
termination_by pipe => pipe.length
decreasing_by
  · exact Nat.lt_succ_self _
  · rw [List.length_drop, List.length_cons, List.length_cons]
    omega

def recvOne (pipe : Bytes) : Except Error (Bytes × Bytes) := recvFrom [] pipe

def recvMany : Nat → Bytes → Except Error (List Bytes × Bytes)
  | 0, pipe => .ok ([], pipe)
  | count + 1, pipe => do
    let (frame, pipe) ← recvOne pipe
    let (frames, pipe) ← recvMany count pipe
    return (frame :: frames, pipe)

/-! ### The unframer of the device -/

inductive Phase where
  | header
  | size (b0 : UInt8)
  /-- So many bytes follow the next one. -/
  | payload (last : Bool) (more : Nat)

structure Unframer where
  phase : Phase
  inReset : Bool
  frame : Bytes

inductive Event where
  | reset
  | release
  | frame (data : Bytes)

def Unframer.idle : Unframer := { phase := .header, inReset := false, frame := [] }

/-- What goes downstream while it is in reset is lost. -/
def Unframer.push (self : Unframer) (byte : UInt8) : Unframer :=
  if self.inReset then self else { self with frame := self.frame ++ [byte] }

def Unframer.complete (self : Unframer) : Unframer × Option Event :=
  if self.inReset then ({ self with phase := .header }, none)
  else ({ self with phase := .header, frame := [] }, some (.frame self.frame))

def unframer : Machine Unframer UInt8 (Option Event) where
  step self byte :=
    match self.phase with
    | .header =>
      if byte &&& ctrlFlag = 0 then ({ self with phase := .size byte }, none)
      else if byte &&& resetMarker = resetMarker then ({ self with inReset := true, frame := [] }, some .reset)
      else ({ self with inReset := false, frame := [] }, some .release)
    | .size b0 => ({ self with phase := .payload (b0 &&& lastFlag != 0) (sizeField b0 byte) }, none)
    | .payload last 0 =>
      if last then (self.push byte).complete else ({ self.push byte with phase := .header }, none)
    | .payload last (more + 1) => ({ self.push byte with phase := .payload last more }, none)

/-! ### Round trip -/

theorem sizeField_eq (b0 b1 : UInt8) : sizeField b0 b1 = (b0 &&& sizeHiMask).toNat * 256 + b1.toNat := by
  rw [sizeField, ← Nat.shiftLeft_add_eq_or_of_lt (UInt8.toNat_lt b1), Nat.shiftLeft_eq]

/-- What a header says to the unframer. -/
structure Announces (b0 b1 : UInt8) (take : Nat) (last : Bool) : Prop where
  data : b0 &&& ctrlFlag = 0
  last : (b0 &&& lastFlag != 0) = last
  short : (b0 &&& sizeHiMask).toNat ≤ 7
  size : sizeField b0 b1 + 1 = take

theorem announces_chunkHeader {take : Nat} (filled : 0 < take) (fits : take ≤ maxEmitChunk) (last : Bool) :
    ∃ b0 b1, chunkHeader take last = [b0, b1] ∧ Announces b0 b1 take last := by
  have high : (take - 1) >>> 8 < 8 := by
    rw [Nat.shiftRight_eq_div_pow]
    rw [maxEmitChunk] at fits
    omega
  have flags : ∀ k < 8, ∀ last : Bool,
      let b0 := if last then UInt8.ofNat k &&& sizeHiMask ||| lastFlag else UInt8.ofNat k &&& sizeHiMask
      b0 &&& ctrlFlag = 0 ∧ (b0 &&& lastFlag != 0) = last ∧ (b0 &&& sizeHiMask).toNat = k := by decide
  obtain ⟨data, marked, size⟩ := flags _ high last
  refine ⟨_, _, rfl, data, marked, by omega, ?_⟩
  have low : (UInt8.ofNat ((take - 1) &&& 0xff)).toNat = (take - 1) % 256 := by
    rw [UInt8.toNat_ofNat', show (0xff : Nat) = 2 ^ 8 - 1 from rfl, Nat.and_two_pow_sub_one_eq_mod]
    exact Nat.mod_mod _ _
  rw [sizeField_eq, size, low, Nat.shiftRight_eq_div_pow]
  omega

theorem takes_part {last : Bool} {more : Nat} {data : Bytes} (within : data.length ≤ more) (frame : Bytes) :
    unframer.Takes ⟨.payload last more, false, frame⟩ data []
      ⟨.payload last (more - data.length), false, frame ++ data⟩ := by
  induction data generalizing more frame with
  | nil =>
    rw [List.append_nil]
    exact takes_nil _
  | cons byte data ih =>
    obtain ⟨more, rfl⟩ := Nat.exists_eq_add_of_lt (Nat.lt_of_lt_of_le (Nat.succ_pos _) within)
    rw [List.length_cons] at within ⊢
    have rest := @ih more (by omega) (frame ++ [byte])
    rw [List.append_assoc] at rest
    rw [Nat.zero_add, Nat.add_sub_add_right]
    exact .cons rfl rest

def completed (last : Bool) (frame : Bytes) : List Event := if last then [.frame frame] else []

def kept (last : Bool) (frame : Bytes) : Unframer := ⟨.header, false, if last then [] else frame⟩

theorem takes_payload {last : Bool} {more : Nat} {data : Bytes} (length : data.length = more + 1) (frame : Bytes) :
    unframer.Takes ⟨.payload last more, false, frame⟩ data (completed last (frame ++ data))
      (kept last (frame ++ data)) := by
  induction data generalizing more frame with
  | nil => cases length
  | cons byte data ih =>
    cases more with
    | zero =>
      obtain rfl := List.eq_nil_of_length_eq_zero (Nat.succ.inj length)
      cases last <;> exact takes_one rfl
    | succ more =>
      have rest := ih (Nat.succ.inj length) (frame ++ [byte])
      rw [List.append_assoc] at rest
      exact .cons rfl rest

theorem takes_size {b0 b1 : UInt8} {take : Nat} {last : Bool} (announces : Announces b0 b1 take last) (frame : Bytes) :
    unframer.Takes ⟨.header, false, frame⟩ [b0, b1] [] ⟨.payload last (take - 1), false, frame⟩ := by
  have low : unframer.step ⟨.header, false, frame⟩ b0 = (⟨.size b0, false, frame⟩, none) := by
    change (if b0 &&& ctrlFlag = 0 then _ else _) = _
    rw [if_pos announces.data]
  have high : unframer.step ⟨.size b0, false, frame⟩ b1 = (⟨.payload last (take - 1), false, frame⟩, none) := by
    change (Unframer.mk (.payload (b0 &&& lastFlag != 0) (sizeField b0 b1)) false frame, none) = _
    rw [announces.last, ← announces.size, Nat.add_sub_cancel]
  exact .cons low (takes_one high)

theorem takes_chunk {data : Bytes} (filled : 0 < data.length) (fits : data.length ≤ maxEmitChunk) (last : Bool)
    (frame : Bytes) :
    unframer.Takes ⟨.header, false, frame⟩ (chunkHeader data.length last ++ data) (completed last (frame ++ data))
      (kept last (frame ++ data)) := by
  obtain ⟨b0, b1, same, announces⟩ := announces_chunkHeader filled fits last
  rw [same]
  exact (takes_size announces frame).append (takes_payload (by omega) frame)

@[simp] theorem packetizeFrom_nil : packetizeFrom [] = [] := by
  rw [packetizeFrom, if_pos List.length_nil]

theorem packetizeFrom_cases {rest : Bytes} (filled : rest ≠ []) :
    ∃ chunk more last, rest = chunk ++ more ∧ 0 < chunk.length ∧ chunk.length ≤ maxEmitChunk ∧
      (last = true ↔ more = []) ∧
      packetizeFrom rest = chunkHeader chunk.length last ++ chunk ++ packetizeFrom more := by
  have length := List.length_pos_of_ne_nil filled
  refine ⟨rest.take (min maxEmitChunk rest.length), rest.drop (min maxEmitChunk rest.length),
    decide (min maxEmitChunk rest.length ≥ rest.length), (List.take_append_drop _ _).symm, ?_, ?_, ?_, ?_⟩
  · rw [List.length_take, maxEmitChunk]
    omega
  · rw [List.length_take]
    omega
  · rw [decide_eq_true_iff, List.drop_eq_nil_iff]
  · rw [packetizeFrom, if_neg (by omega), List.length_take, Nat.min_assoc, Nat.min_self]

theorem takes_packetizeFrom {rest : Bytes} (filled : rest ≠ []) (frame : Bytes) :
    unframer.Takes ⟨.header, false, frame⟩ (packetizeFrom rest) [.frame (frame ++ rest)] .idle := by
  induction length : rest.length using Nat.strongRecOn generalizing rest frame with
  | ind count ih =>
    obtain ⟨chunk, more, last, rfl, positive, fits, ends, same⟩ := packetizeFrom_cases filled
    have first := takes_chunk positive fits last frame
    rw [same]
    cases last with
    | true =>
      obtain rfl := ends.mp rfl
      rw [packetizeFrom_nil, List.append_nil, List.append_nil]
      exact first
    | false =>
      have others := ih more.length (by rw [← length, List.length_append]; omega)
        (fun empty => Bool.false_ne_true (ends.mpr empty)) (frame ++ chunk) rfl
      rw [List.append_assoc] at others
      exact first.append others

theorem packetizeAll_cons {frame stream : Bytes} {frames : List Bytes}
    (packetized : packetizeAll (frame :: frames) = .ok stream) :
    frame ≠ [] ∧ ∃ rest, packetizeAll frames = .ok rest ∧ stream = packetizeFrom frame ++ rest := by
  obtain ⟨packet, first, packetized⟩ := except_bind_ok packetized
  obtain ⟨rest, others, packetized⟩ := except_bind_ok packetized
  cases packetized
  rw [packetize] at first
  split at first
  · cases first
  · rename_i filled
    cases first
    exact ⟨filled, rest, others, rfl⟩

theorem packetizeAll_ok {frames : List Bytes} (filled : ∀ frame ∈ frames, frame ≠ []) :
    ∃ stream, packetizeAll frames = .ok stream := by
  induction frames with
  | nil => exact ⟨[], rfl⟩
  | cons frame frames ih =>
    obtain ⟨rest, others⟩ := ih fun frame member => filled frame (List.mem_cons_of_mem _ member)
    refine ⟨packetizeFrom frame ++ rest, ?_⟩
    rw [packetizeAll, packetize, if_neg (filled frame List.mem_cons_self), others]
    rfl

theorem takes_packets {frames : List Bytes} {stream : Bytes} (packetized : packetizeAll frames = .ok stream) :
    unframer.Takes .idle stream (frames.map .frame) .idle := by
  induction frames generalizing stream with
  | nil =>
    cases packetized
    exact takes_nil _
  | cons frame frames ih =>
    obtain ⟨filled, rest, others, rfl⟩ := packetizeAll_cons packetized
    exact (takes_packetizeFrom filled []).append (ih others)

/-! ### Round trip through the host -/

theorem recvFrom_chunk {chunk : Bytes} (filled : 0 < chunk.length) (fits : chunk.length ≤ maxEmitChunk) (last : Bool)
    (frame rest : Bytes) :
    recvFrom frame (chunkHeader chunk.length last ++ chunk ++ rest) =
      if last then .ok (frame ++ chunk, rest) else recvFrom (frame ++ chunk) rest := by
  obtain ⟨b0, b1, same, announces⟩ := announces_chunkHeader filled fits last
  have marked := announces.last
  rw [same, List.append_assoc]
  change recvFrom frame (b0 :: b1 :: (chunk ++ rest)) = _
  rw [recvFrom, if_neg (not_not_intro announces.data)]
  dsimp only
  rw [announces.size, if_neg (by rw [List.length_append]; omega), List.take_left' rfl, List.drop_left' rfl]
  cases last with
  | true => rw [if_pos (bne_iff_ne.mp marked), if_pos rfl]
  | false =>
    have unmarked : b0 &&& lastFlag = 0 := bne_eq_false_iff_eq.mp marked
    rw [if_neg (not_not_intro unmarked), if_neg Bool.false_ne_true]

theorem recvFrom_packet {data : Bytes} (filled : data ≠ []) (frame rest : Bytes) :
    recvFrom frame (packetizeFrom data ++ rest) = .ok (frame ++ data, rest) := by
  induction length : data.length using Nat.strongRecOn generalizing data frame with
  | ind count ih =>
    obtain ⟨chunk, more, last, rfl, positive, fits, ends, same⟩ := packetizeFrom_cases filled
    rw [same, List.append_assoc, recvFrom_chunk positive fits]
    cases last with
    | true =>
      obtain rfl := ends.mp rfl
      rw [packetizeFrom_nil, if_pos rfl, List.append_nil, List.nil_append]
    | false =>
      rw [if_neg Bool.false_ne_true, ih more.length (by rw [← length, List.length_append]; omega)
        (fun empty => Bool.false_ne_true (ends.mpr empty)) (frame ++ chunk) rfl, List.append_assoc]

theorem recvMany_packets {frames : List Bytes} {stream : Bytes} (packetized : packetizeAll frames = .ok stream)
    (rest : Bytes) : recvMany frames.length (stream ++ rest) = .ok (frames, rest) := by
  induction frames generalizing stream with
  | nil =>
    cases packetized
    rfl
  | cons frame frames ih =>
    obtain ⟨filled, sent, others, rfl⟩ := packetizeAll_cons packetized
    rw [List.length_cons, recvMany, recvOne, List.append_assoc, recvFrom_packet filled]
    change (recvMany frames.length (sent ++ rest) >>= _) = _
    rw [ih others]
    rfl

/-! ### Resynchronisation -/

/-- What an interrupted host leaves behind. -/
structure Stale (left : Unframer) : Prop where
  released : left.inReset = false
  short : match left.phase with
    | .header => True
    | .size b0 => (b0 &&& sizeHiMask).toNat ≤ 7
    | .payload _ more => more < maxEmitChunk

theorem stale_chunk {chunk : Bytes} (filled : 0 < chunk.length) (fits : chunk.length ≤ maxEmitChunk) (last : Bool)
    (frame : Bytes) {cut : Nat} (inside : cut < (chunkHeader chunk.length last ++ chunk).length) :
    Stale (unframer.finish ⟨.header, false, frame⟩ ((chunkHeader chunk.length last ++ chunk).take cut)) := by
  obtain ⟨b0, b1, same, announces⟩ := announces_chunkHeader filled fits last
  rw [same] at inside ⊢
  rw [List.length_append] at inside
  match cut with
  | 0 => exact ⟨rfl, trivial⟩
  | 1 =>
    have first : unframer.finish ⟨.header, false, frame⟩ [b0] = ⟨.size b0, false, frame⟩ := by
      change (if b0 &&& ctrlFlag = 0 then _ else _ : Unframer × Option Event).1 = _
      rw [if_pos announces.data]
    change Stale (unframer.finish ⟨.header, false, frame⟩ [b0])
    rw [first]
    exact ⟨rfl, announces.short⟩
  | cut + 2 =>
    have within : (chunk.take cut).length ≤ chunk.length - 1 := by
      rw [List.length_take]
      change cut + 2 < 2 + chunk.length at inside
      omega
    rw [finish_take_append (takes_size announces frame).finish, if_neg (by change ¬cut + 2 < 2; omega)]
    change Stale (unframer.finish _ (chunk.take cut))
    rw [(takes_part within frame).finish]
    exact ⟨rfl, Nat.lt_of_le_of_lt (Nat.sub_le _ _) (by omega)⟩

theorem stale_packetizeFrom {data : Bytes} (filled : data ≠ []) (frame : Bytes) {cut : Nat}
    (inside : cut < (packetizeFrom data).length) :
    Stale (unframer.finish ⟨.header, false, frame⟩ ((packetizeFrom data).take cut)) := by
  induction length : data.length using Nat.strongRecOn generalizing data frame cut with
  | ind count ih =>
    obtain ⟨chunk, more, last, rfl, positive, fits, ends, same⟩ := packetizeFrom_cases filled
    rw [same] at inside ⊢
    rw [finish_take_append (takes_chunk positive fits last frame).finish]
    split
    · rename_i within
      exact stale_chunk positive fits last frame within
    · rename_i beyond
      rw [List.length_append] at inside
      cases last with
      | true =>
        obtain rfl := ends.mp rfl
        rw [packetizeFrom_nil] at inside
        exact absurd inside beyond
      | false =>
        exact ih more.length (by rw [← length, List.length_append]; omega)
          (fun empty => Bool.false_ne_true (ends.mpr empty)) (frame ++ chunk) (by omega) rfl

theorem stale_cut {frames : List Bytes} {stream : Bytes} (packetized : packetizeAll frames = .ok stream) (cut : Nat) :
    Stale (unframer.finish .idle (stream.take cut)) := by
  induction frames generalizing stream cut with
  | nil =>
    cases packetized
    rw [List.take_nil]
    exact ⟨rfl, trivial⟩
  | cons frame frames ih =>
    obtain ⟨filled, rest, others, rfl⟩ := packetizeAll_cons packetized
    have first : unframer.Takes .idle (packetizeFrom frame) [.frame frame] .idle := takes_packetizeFrom filled []
    rw [finish_take_append first.finish]
    split
    · rename_i inside
      exact stale_packetizeFrom filled [] inside
    · exact ih others _

theorem takes_markers (count : Nat) (inReset : Bool) (frame : Bytes) :
    unframer.Takes ⟨.header, inReset, frame⟩ (List.replicate count resetMarker ++ [releaseMarker])
      (List.replicate count .reset ++ [.release]) .idle := by
  induction count generalizing inReset frame with
  | zero => exact takes_one rfl
  | succ count ih => exact .cons rfl (ih true [])

theorem takes_swallowed {last : Bool} {more count : Nat} (within : more + 1 < count) (frame : Bytes) :
    ∃ events, .reset ∈ events ∧
      unframer.Takes ⟨.payload last more, false, frame⟩ (List.replicate count resetMarker ++ [releaseMarker]) events
        .idle := by
  obtain ⟨left, rfl⟩ := Nat.exists_eq_add_of_lt within
  rw [Nat.add_assoc, List.replicate_add, List.append_assoc]
  refine ⟨_, ?_, (takes_payload List.length_replicate frame).append (takes_markers (left + 1) false _)⟩
  exact List.mem_append_right _ (List.mem_append_left _ (List.mem_replicate.mpr ⟨Nat.succ_ne_zero _, rfl⟩))

theorem takes_reset {left : Unframer} (stale : Stale left) :
    ∃ events, .reset ∈ events ∧ unframer.Takes left reset events .idle := by
  obtain ⟨phase, inReset, frame⟩ := left
  obtain ⟨released, short⟩ := stale
  obtain rfl : inReset = false := released
  cases phase with
  | header =>
    refine ⟨_, ?_, takes_markers resetSpray false frame⟩
    exact List.mem_append_left _ (List.mem_replicate.mpr ⟨by decide, rfl⟩)
  | payload last more =>
    change more < maxEmitChunk at short
    exact takes_swallowed (by rw [resetSpray]; omega) frame
  | size b0 =>
    -- the first marker is taken for the rest of the header
    change (b0 &&& sizeHiMask).toNat ≤ 7 at short
    have size : sizeField b0 resetMarker + 1 < resetSpray - 1 := by
      rw [sizeField_eq, resetSpray, maxEmitChunk, show resetMarker.toNat = 192 from rfl]
      omega
    obtain ⟨events, marked, takes⟩ := @takes_swallowed (b0 &&& lastFlag != 0) _ _ size frame
    have first : unframer.step ⟨.size b0, false, frame⟩ resetMarker =
        (⟨.payload (b0 &&& lastFlag != 0) (sizeField b0 resetMarker), false, frame⟩, none) := rfl
    exact ⟨events, marked, .cons first takes⟩

/-- Frames come back, from the unframer and from the host, and after any interruption the reset sequence leads
the unframer to a header and out of reset. -/
theorem chunked_round_trip (frames : List Bytes) (filled : ∀ frame ∈ frames, frame ≠ []) :
    ∃ stream, packetizeAll frames = .ok stream ∧ unframer.Takes .idle stream (frames.map .frame) .idle ∧
      recvMany frames.length stream = .ok (frames, []) ∧
      ∀ cut < stream.length, ∀ later sent, packetizeAll later = .ok sent →
        ∃ events, .reset ∈ events ∧ unframer.Takes (unframer.finish .idle (stream.take cut)) reset events .idle ∧
          unframer.Takes (unframer.finish .idle (stream.take cut ++ reset)) sent (later.map .frame) .idle := by
  obtain ⟨stream, packetized⟩ := packetizeAll_ok filled
  have received := recvMany_packets packetized []
  rw [List.append_nil] at received
  refine ⟨stream, packetized, takes_packets packetized, received, fun cut _ later sent sending => ?_⟩
  obtain ⟨events, marked, takes⟩ := takes_reset (stale_cut packetized cut)
  refine ⟨events, marked, takes, ?_⟩
  rw [finish_append, takes.finish]
  exact takes_packets sending

theorem chunked_round_trip_two :
    ∃ stream, packetizeAll [[1], [2, 3]] = .ok stream ∧
      unframer.Takes .idle stream (([[1], [2, 3]] : List Bytes).map .frame) .idle ∧
      recvMany 2 stream = .ok ([[1], [2, 3]], []) ∧
      ∀ cut < stream.length, ∀ later sent, packetizeAll later = .ok sent →
        ∃ events, .reset ∈ events ∧ unframer.Takes (unframer.finish .idle (stream.take cut)) reset events .idle ∧
          unframer.Takes (unframer.finish .idle (stream.take cut ++ reset)) sent (later.map .frame) .idle :=
  chunked_round_trip [[1], [2, 3]] (by simp)

end Acrobe.Bnoc.Chunked
