import Acrobe.Hdlc.Crc

/-!
# HDLC framing

`Hdlc` puts flags around a payload and its checksum and escapes the bytes inside. The unframer keeps
its state from one chunk of the stream to the next.
-/

namespace Acrobe.Hdlc
open LittleEndian

def flag : UInt8 := 0x7E

def escapeByte : UInt8 := 0x7D

def escapeMangle : UInt8 := 0x20

def escapedBytes : List UInt8 := [0x7D, 0x7E, 0x03, 0x11, 0x13, 0x91, 0x93]

def escape (data : Bytes) : Bytes :=
  data.flatMap fun byte => if escapedBytes.contains byte then [escapeByte, byte ^^^ escapeMangle] else [byte]

def packetize (payload : Bytes) : Bytes := [flag] ++ escape (payload ++ Crc.hdlc.calcBytes payload) ++ [flag]

/-! ### Receiving -/

structure Unframer where
  frame : Option Bytes
  escaped : Bool
  frames : List Bytes

namespace Unframer

def start : Unframer := { frame := none, escaped := false, frames := [] }

/-- Frames that are too short, or whose checksum is wrong, are dropped. -/
def deliver (self : Unframer) (frame : Bytes) : Unframer :=
  if frame.length < 2 then self
  else if Crc.hdlc.isValid frame then { self with frames := self.frames ++ [frame.take (frame.length - 2)] }
  else self

def feedByte (self : Unframer) (byte : UInt8) : Unframer :=
  if byte = flag then
    let self := match self.frame with
      | some frame => if frame ≠ [] then self.deliver frame else self
      | none => self
    { self with frame := some [], escaped := false }
  else
    match self.frame with
    | none => self
    | some frame =>
      if self.escaped then { self with frame := some (frame ++ [byte ^^^ escapeMangle]), escaped := false }
      else if byte = escapeByte then { self with escaped := true }
      else { self with frame := some (frame ++ [byte]) }

def feed (self : Unframer) (data : Bytes) : Unframer := data.foldl feedByte self

end Unframer

/-! ### Round trip -/

namespace Unframer

def Idle (self : Unframer) : Prop := self.escaped = false ∧ (self.frame = none ∨ self.frame = some [])

theorem mangled_ne_flag {byte : UInt8} (member : byte ∈ escapedBytes) : byte ^^^ escapeMangle ≠ flag := by
  have all : ∀ byte ∈ escapedBytes, byte ^^^ escapeMangle ≠ flag := by decide +kernel
  exact all byte member

theorem mangled_twice (byte : UInt8) : (byte ^^^ escapeMangle) ^^^ escapeMangle = byte := by
  rw [UInt8.xor_assoc, UInt8.xor_self, UInt8.xor_zero]

theorem feed_append (self : Unframer) (front back : Bytes) : self.feed (front ++ back) = (self.feed front).feed back :=
  List.foldl_append

theorem feed_chunks (self : Unframer) (chunks : List Bytes) : chunks.foldl feed self = self.feed chunks.flatten := by
  induction chunks generalizing self with
  | nil => rfl
  | cons chunk chunks ih => rw [List.foldl_cons, ih, List.flatten_cons, feed_append]

theorem feed_flag {self : Unframer} (idle : self.Idle) : self.feed [flag] = ⟨some [], false, self.frames⟩ := by
  obtain ⟨-, outside | outside⟩ := idle
  · change self.feedByte flag = _
    rw [feedByte, if_pos rfl, outside]
  · change self.feedByte flag = _
    rw [feedByte, if_pos rfl, outside]
    rfl

theorem feed_escape (frame data : Bytes) (frames : List Bytes) :
    feed ⟨some frame, false, frames⟩ (escape data) = ⟨some (frame ++ data), false, frames⟩ := by
  induction data generalizing frame with
  | nil => rw [List.append_nil]; rfl
  | cons byte data ih =>
    have one : feed ⟨some frame, false, frames⟩
        (if escapedBytes.contains byte then [escapeByte, byte ^^^ escapeMangle] else [byte]) =
        ⟨some (frame ++ [byte]), false, frames⟩ := by
      by_cases special : escapedBytes.contains byte = true
      · have member := List.contains_iff_mem.mp special
        rw [if_pos special]
        change feedByte ⟨some frame, true, frames⟩ (byte ^^^ escapeMangle) = _
        rw [feedByte, if_neg (mangled_ne_flag member)]
        dsimp only
        rw [if_pos rfl, mangled_twice]
      · have plain : byte ∉ escapedBytes := fun member => special (List.contains_iff_mem.mpr member)
        rw [if_neg special]
        change feedByte ⟨some frame, false, frames⟩ byte = _
        rw [feedByte, if_neg (by rintro rfl; exact plain (by decide))]
        dsimp only
        rw [if_neg Bool.false_ne_true, if_neg (by rintro rfl; exact plain (by decide))]
    rw [escape, List.flatMap_cons, feed_append, one]
    exact (ih _).trans (by rw [List.append_assoc]; rfl)

theorem length_calcBytes (payload : Bytes) : (Crc.hdlc.calcBytes payload).length = 2 := length_split _ 2

theorem feed_packetize {self : Unframer} (idle : self.Idle) (payload : Bytes) :
    self.feed (packetize payload) = ⟨some [], false, self.frames ++ [payload]⟩ := by
  have length : (payload ++ Crc.hdlc.calcBytes payload).length = payload.length + 2 := by
    rw [List.length_append, length_calcBytes]
  have filled : payload ++ Crc.hdlc.calcBytes payload ≠ [] := by
    intro empty
    rw [empty] at length
    cases length
  rw [packetize, feed_append, feed_append, feed_flag idle, feed_escape, List.nil_append]
  rw [feed, List.foldl_cons, List.foldl_nil, feedByte, if_pos rfl]
  dsimp only
  rw [if_pos filled, deliver, if_neg (by omega), if_pos (Crc.hdlc_isValid payload), length, Nat.add_sub_cancel,
    List.take_left]

theorem feed_packets {self : Unframer} (idle : self.Idle) (payloads : List Bytes) :
    (self.feed (payloads.flatMap packetize)).frames = self.frames ++ payloads := by
  induction payloads generalizing self with
  | nil => exact (List.append_nil _).symm
  | cons payload payloads ih =>
    rw [List.flatMap_cons, feed_append, feed_packetize idle, ih ⟨rfl, .inr rfl⟩, List.append_assoc]
    rfl

end Unframer

/-- However the frames of a list of payloads are cut into chunks, the unframer delivers the payloads. -/
theorem framing_round_trip (payloads chunks : List Bytes) (cut : chunks.flatten = payloads.flatMap packetize) :
    (chunks.foldl Unframer.feed .start).frames = payloads := by
  rw [Unframer.feed_chunks, cut]
  exact Unframer.feed_packets ⟨rfl, .inl rfl⟩ payloads

/-- A payload of a flag and an escape, cut behind an escape byte, and an empty one. -/
theorem framing_round_trip_cut :
    (List.foldl Unframer.feed .start
      [((packetize [0x7E, 0x7D]).take 2), ((packetize [0x7E, 0x7D]).drop 2 ++ packetize [])]).frames =
      [[0x7E, 0x7D], []] :=
  framing_round_trip [[0x7E, 0x7D], []] _ (by decide)

end Acrobe.Hdlc
