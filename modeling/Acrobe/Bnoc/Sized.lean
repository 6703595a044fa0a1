import Acrobe.Lib.Machine
import Acrobe.Lib.Exceptional
import Acrobe.Lib.LittleEndian

/-!
# Sized framing

`Sized` puts a 16-bit size in front of every payload. A header of all ones makes the framer on the
other side of the pipe drain the stream until a zero byte.
-/

namespace Acrobe.Bnoc.Sized
open LittleEndian Lib Exceptional Machine

def resetFfCount : Nat := 1023

def maxFrameSize : Nat := 0x10000

inductive Error where
  | empty
  | tooLarge (length : Nat)
  | shortHeader (length : Nat)
  | oversized (size : Nat)
  | shortPayload (length size : Nat)
  deriving DecidableEq

def Error.message : Error → String
  | .empty => "Sized cannot carry empty frames"
  | .tooLarge length => s!"Sized frame too large: {length} > 65535 bytes"
  | .shortHeader length => s!"Sized: short read on size header ({length}/2)"
  | .oversized size => s!"Sized: oversized frame announced ({size} > {maxFrameSize})"
  | .shortPayload length size => s!"Sized: short read on payload ({length}/{size})"

def reset : Bytes := List.replicate resetFfCount 0xff ++ [0x00]

def packetize (data : Bytes) : Except Error Bytes :=
  if data = [] then .error .empty
  else
    let size := data.length - 1
    if size > 0xfffe then .error (.tooLarge data.length) else .ok (split size 2 ++ data)

def recvOne (pipe : Bytes) : Except Error (Bytes × Bytes) :=
  let header := pipe.take 2
  if header.length ≠ 2 then .error (.shortHeader header.length)
  else
    let size := combine header + 1
    if size > maxFrameSize then .error (.oversized size)
    else
      let payload := (pipe.drop 2).take size
      if payload.length ≠ size then .error (.shortPayload payload.length size)
      else .ok (payload, (pipe.drop 2).drop size)

def packetizeAll : List Bytes → Except Error Bytes
  | [] => .ok []
  | frame :: frames => do
    let packet ← packetize frame
    let rest ← packetizeAll frames
    return packet ++ rest

theorem packetize_ok_iff {data packet : Bytes} :
    packetize data = .ok packet ↔
      0 < data.length ∧ data.length ≤ 0xffff ∧ packet = split (data.length - 1) 2 ++ data := by
  rw [packetize]
  by_cases empty : data = []
  · rw [if_pos empty, empty]
    exact ⟨nofun, fun both => absurd both.1 (Nat.lt_irrefl 0)⟩
  · have filled := List.length_pos_of_ne_nil empty
    rw [if_neg empty]
    dsimp only
    split
    · exact ⟨nofun, fun both => by omega⟩
    · exact ⟨fun same => ⟨filled, by omega, (Except.ok.inj same).symm⟩, fun both => congrArg Except.ok both.2.2.symm⟩

theorem packetizeAll_cons {frame stream : Bytes} {frames : List Bytes}
    (packetized : packetizeAll (frame :: frames) = .ok stream) :
    ∃ packet rest, packetize frame = .ok packet ∧ packetizeAll frames = .ok rest ∧ stream = packet ++ rest := by
  obtain ⟨packet, first, packetized⟩ := except_bind_ok packetized
  obtain ⟨rest, others, packetized⟩ := except_bind_ok packetized
  cases packetized
  exact ⟨packet, rest, first, others, rfl⟩

/-! ### The framer of the device -/

inductive Framer where
  | header
  | size (low : UInt8)
  /-- So many bytes follow the next one. -/
  | payload (more : Nat) (received : Bytes)
  | invalid
  deriving DecidableEq

def framer : Machine Framer UInt8 (Option Bytes) where
  step
    | .header, byte => (.size byte, none)
    | .size low, byte =>
      let size := combine [low, byte]
      (if size = 0xffff then .invalid else .payload size [], none)
    | .payload 0 received, byte => (.header, some (received ++ [byte]))
    | .payload (more + 1) received, byte => (.payload more (received ++ [byte]), none)
    | .invalid, byte => (if byte = 0x00 then .header else .invalid, none)

theorem step_size (low byte : UInt8) :
    framer.step (.size low) byte =
      (if combine [low, byte] = 0xffff then .invalid else .payload (combine [low, byte]) [], none) := rfl

theorem takes_part {more : Nat} {data : Bytes} (within : data.length ≤ more) (received : Bytes) :
    framer.Takes (.payload more received) data [] (.payload (more - data.length) (received ++ data)) := by
  induction data generalizing more received with
  | nil =>
    rw [List.append_nil]
    exact takes_nil _
  | cons byte data ih =>
    obtain ⟨more, rfl⟩ := Nat.exists_eq_add_of_lt (Nat.lt_of_lt_of_le (Nat.succ_pos _) within)
    rw [List.length_cons] at within ⊢
    have rest := @ih more (by omega) (received ++ [byte])
    rw [List.append_assoc] at rest
    rw [Nat.zero_add, Nat.add_sub_add_right]
    exact .cons rfl rest

theorem takes_payload {more : Nat} {data : Bytes} (length : data.length = more + 1) (received : Bytes) :
    framer.Takes (.payload more received) data [received ++ data] .header := by
  induction data generalizing more received with
  | nil => cases length
  | cons byte data ih =>
    cases more with
    | zero =>
      obtain rfl := List.eq_nil_of_length_eq_zero (Nat.succ.inj length)
      exact takes_one rfl
    | succ more =>
      have rest := ih (Nat.succ.inj length) (received ++ [byte])
      rw [List.append_assoc] at rest
      exact .cons rfl rest

theorem takes_drain (count : Nat) : framer.Takes .invalid (List.replicate count 0xff ++ [0x00]) [] .header := by
  induction count with
  | zero => exact takes_one rfl
  | succ count ih =>
    have one : framer.step .invalid 0xff = (.invalid, none) := rfl
    exact .cons one ih

theorem takes_size {size : Nat} (fits : size < 0xffff) : framer.Takes .header (split size 2) [] (.payload size []) := by
  have value : combine (split size 2) = size := by
    rw [combine_split]
    omega
  have high : framer.step (.size (UInt8.ofNat size)) (UInt8.ofNat (size / 256)) = (.payload size [], none) := by
    rw [step_size]
    change (if combine (split size 2) = 0xffff then Framer.invalid else .payload (combine (split size 2)) [], none) = _
    rw [value, if_neg (by omega)]
  have low : framer.step .header (UInt8.ofNat size) = (.size (UInt8.ofNat size), none) := rfl
  exact .cons low (takes_one high)

theorem takes_packet {frame packet : Bytes} (packetized : packetize frame = .ok packet) :
    framer.Takes .header packet [frame] .header := by
  obtain ⟨filled, fits, rfl⟩ := packetize_ok_iff.mp packetized
  exact (takes_size (by omega)).append (takes_payload (by omega) [])

theorem takes_packets {frames : List Bytes} {stream : Bytes} (packetized : packetizeAll frames = .ok stream) :
    framer.Takes .header stream frames .header := by
  induction frames generalizing stream with
  | nil =>
    cases packetized
    exact takes_nil _
  | cons frame frames ih =>
    obtain ⟨packet, rest, first, others, rfl⟩ := packetizeAll_cons packetized
    exact (takes_packet first).append (ih others)

/-! ### Resynchronisation -/

/-- After the reset sequence the framer is at a header and receives what is sent then. -/
structure Resynchronises (left : Framer) : Prop where
  boundary : framer.finish left reset = .header
  later : ∀ frames stream, packetizeAll frames = .ok stream →
    framer.Takes (framer.finish left reset) stream frames .header

/-- What the framer may be waiting for when the burst begins. -/
def Framer.Recovers : Framer → Prop
  | .header => True
  | .size low => low = 0xff
  | .payload more _ => more + 1 ≤ 1021 ∨ more + 1 = 1024
  | .invalid => True

theorem finish_burst (count : Nat) :
    framer.finish .header (List.replicate count 0xff ++ [0x00]) = .header ↔ 2 ≤ count := by
  match count with
  | 0 => decide
  | 1 => decide
  | count + 2 =>
    have drained := (takes_drain count).finish
    exact ⟨fun _ => by omega, fun _ => drained⟩

theorem reset_within {more : Nat} (within : more < resetFfCount) (received : Bytes) :
    framer.finish (.payload more received) reset =
      framer.finish .header (List.replicate (resetFfCount - (more + 1)) 0xff ++ [0x00]) := by
  have cut : reset = List.replicate (more + 1) 0xff ++ (List.replicate (resetFfCount - (more + 1)) 0xff ++ [0x00]) := by
    rw [reset, ← List.append_assoc, ← List.replicate_add, Nat.add_sub_cancel' within]
  rw [cut, finish_append, (takes_payload List.length_replicate received).finish]

theorem length_reset : reset.length = resetFfCount + 1 := by
  rw [reset, List.length_append, List.length_replicate]
  rfl

theorem finish_reset_iff (left : Framer) : framer.finish left reset = .header ↔ left.Recovers := by
  cases left with
  | header => exact iff_of_true ((finish_burst resetFfCount).mpr (by decide)) trivial
  | invalid => exact iff_of_true (takes_drain resetFfCount).finish trivial
  | size low =>
    have behind : reset = 0xff :: (List.replicate (resetFfCount - 1) 0xff ++ [0x00]) := by
      rw [reset, ← List.cons_append, ← List.replicate_succ]
      rfl
    rw [behind, finish_cons, step_size]
    change _ ↔ low = 0xff
    have value : combine [low, 0xff] = low.toNat + 0xff00 := rfl
    have all : low = 0xff ↔ low.toNat = 0xff := UInt8.toNat_inj.symm
    rw [value, all]
    split
    · rename_i full
      exact iff_of_true (takes_drain _).finish (by omega)
    · rename_i other
      have length : (List.replicate (resetFfCount - 1) 0xff ++ [0x00] : Bytes).length = resetFfCount := by
        rw [List.length_append, List.length_replicate]
        rfl
      rw [(takes_part (by rw [length, resetFfCount]; omega) []).finish]
      exact iff_of_false nofun (by omega)
  | payload more received =>
    change _ ↔ more + 1 ≤ 1021 ∨ more + 1 = 1024
    rcases Nat.lt_trichotomy more resetFfCount with within | rfl | beyond
    · rw [reset_within within, finish_burst]
      rw [resetFfCount] at within ⊢
      omega
    · exact iff_of_true (takes_payload length_reset received).finish (.inr rfl)
    · rw [(takes_part (by rw [length_reset]; omega) received).finish]
      rw [resetFfCount] at beyond
      exact iff_of_false nofun (by omega)

theorem resynchronises_of_boundary {left : Framer} (boundary : framer.finish left reset = .header) :
    Resynchronises left where
  boundary := boundary
  later := fun _ _ packetized => by
    rw [boundary]
    exact takes_packets packetized

/-- Where a host may stop in a stream of frames: at a header, behind half of a header of all ones, or with
at most 1021 or exactly 1024 bytes of a payload to come. -/
def RecoversAt : List Bytes → Nat → Prop
  | [], _ => True
  | frame :: frames, cut =>
    if cut < frame.length + 2 then
      cut = 0 ∨ cut = 1 ∧ frame.length % 256 = 0 ∨
        2 ≤ cut ∧ (frame.length + 2 - cut ≤ 1021 ∨ frame.length + 2 - cut = 1024)
    else RecoversAt frames (cut - (frame.length + 2))

instance decidableRecoversAt : (frames : List Bytes) → (cut : Nat) → Decidable (RecoversAt frames cut)
  | [], _ => .isTrue trivial
  | frame :: frames, cut =>
    have := decidableRecoversAt frames (cut - (frame.length + 2))
    inferInstanceAs (Decidable (if cut < frame.length + 2 then _ else RecoversAt frames (cut - (frame.length + 2))))

theorem recovers_packet {frame packet : Bytes} (packetized : packetize frame = .ok packet) {cut : Nat}
    (inside : cut < frame.length + 2) :
    (framer.finish .header (packet.take cut)).Recovers ↔
      cut = 0 ∨ cut = 1 ∧ frame.length % 256 = 0 ∨
        2 ≤ cut ∧ (frame.length + 2 - cut ≤ 1021 ∨ frame.length + 2 - cut = 1024) := by
  obtain ⟨filled, fits, rfl⟩ := packetize_ok_iff.mp packetized
  match cut with
  | 0 => exact iff_of_true trivial (.inl rfl)
  | 1 =>
    change UInt8.ofNat (frame.length - 1) = 0xff ↔ _
    have low : UInt8.ofNat (frame.length - 1) = 0xff ↔ (frame.length - 1) % 256 = 255 := by
      rw [← UInt8.toNat_inj, UInt8.toNat_ofNat']
      rfl
    rw [low]
    omega
  | cut + 2 =>
    have within : (frame.take cut).length ≤ frame.length - 1 := by
      rw [List.length_take]
      omega
    rw [finish_take_append (takes_size (by omega)).finish, if_neg (by rw [length_split]; omega), length_split,
      Nat.add_sub_cancel, (takes_part within []).finish, List.length_take]
    change _ + 1 ≤ 1021 ∨ _ + 1 = 1024 ↔ _
    omega

theorem recovers_iff {frames : List Bytes} {stream : Bytes} (packetized : packetizeAll frames = .ok stream)
    (cut : Nat) : (framer.finish .header (stream.take cut)).Recovers ↔ RecoversAt frames cut := by
  induction frames generalizing stream cut with
  | nil =>
    cases packetized
    rw [List.take_nil]
    exact Iff.rfl
  | cons frame frames ih =>
    obtain ⟨packet, rest, first, others, rfl⟩ := packetizeAll_cons packetized
    have length : packet.length = frame.length + 2 := by
      rw [(packetize_ok_iff.mp first).2.2, List.length_append, length_split, Nat.add_comm]
    rw [finish_take_append (takes_packet first).finish, length, RecoversAt]
    split
    · rename_i inside
      exact recovers_packet first inside
    · exact ih others _

/-- The burst brings the framer back to a header exactly from these cuts of the stream before. -/
theorem resynchronises_iff {frames : List Bytes} {stream : Bytes} (packetized : packetizeAll frames = .ok stream)
    (cut : Nat) : Resynchronises (framer.finish .header (stream.take cut)) ↔ RecoversAt frames cut := by
  rw [← recovers_iff packetized, ← finish_reset_iff]
  exact ⟨Resynchronises.boundary, resynchronises_of_boundary⟩

/-- One byte of the payload is missing. -/
theorem resynchronises_before_last :
    Resynchronises (framer.finish .header (([1, 0, 7, 8] : Bytes).take 3)) ↔ RecoversAt [[7, 8]] 3 :=
  resynchronises_iff (by decide : packetizeAll [[7, 8]] = .ok [1, 0, 7, 8]) 3

/-- Half of the header of a frame of one byte is enough to swallow the whole reset sequence. -/
theorem half_header_swallows_reset :
    packetizeAll [[7]] = .ok [0, 0, 7] ∧ ¬Resynchronises (framer.finish .header (([0, 0, 7] : Bytes).take 1)) := by
  refine ⟨rfl, fun recovers => ?_⟩
  have low : (0 : UInt8) = 0xff := (finish_reset_iff (.size 0)).mp recovers.boundary
  cases low

end Acrobe.Bnoc.Sized
