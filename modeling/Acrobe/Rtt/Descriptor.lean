import Acrobe.Lib.Ring

/-!
# The channels of RTT

A channel is a descriptor of six words and a ring buffer. The host refuses a descriptor that it cannot make
sense of, or that has changed where only the host or nobody writes.
-/

namespace Acrobe.Rtt

structure Descriptor where
  name : Nat
  buf : Nat
  size : Nat
  wrOff : Nat
  rdOff : Nat
  flags : Nat

/-- The fields that the target does not touch after its initialisation. -/
structure Fixed where
  name : Nat
  buf : Nat
  size : Nat
  flags : Nat
  deriving DecidableEq

def Descriptor.fixed (desc : Descriptor) : Fixed :=
  { name := desc.name, buf := desc.buf, size := desc.size, flags := desc.flags }

def Fixed.text (self : Fixed) : String := s!"({self.name}, {self.buf}, {self.size}, {self.flags})"

structure Ram where
  name : String
  address : Nat
  stop : Nat

def maxBufferSize : Nat := 64 * 1024

/-- `0x{value:08x}` -/
def hexAddress (value : Nat) : String :=
  let digits := Nat.toDigits 16 value
  "0x" ++ String.ofList (List.replicate (8 - digits.length) '0' ++ digits)

/-- One side in `resolve_descriptors`. -/
def checkSide (ram : Ram) (label : String) (desc : Descriptor) : Except String Unit :=
  if ¬(0 < desc.size ∧ desc.size ≤ maxBufferSize) then
    .error s!"{label} buffer size {desc.size} out of sanity range (1..{maxBufferSize})"
  else if ¬(ram.address ≤ desc.buf ∧ desc.buf < ram.stop) then
    .error (s!"{label} buffer @ {hexAddress desc.buf} is outside parent Ram " ++
      s!"{hexAddress ram.address}-{hexAddress ram.stop}")
  else if ram.stop < desc.buf + desc.size then
    .error s!"{label} buffer @ {hexAddress desc.buf}+{desc.size} extends past parent Ram end {hexAddress ram.stop}"
  else if desc.size ≤ desc.wrOff ∨ desc.size ≤ desc.rdOff then
    .error s!"{label} offsets WrOff={desc.wrOff} RdOff={desc.rdOff} past buffer size {desc.size}"
  else .ok ()

/-- The write offset of the target, when nothing has drifted. -/
def validateUpDescriptor (ref : Fixed) (upBufRdoff : Nat) (desc : Descriptor) : Except String Nat :=
  if desc.fixed ≠ ref then
    .error (s!"UP descriptor fixed fields drifted (ref={ref.text}, now={desc.fixed.text}) " ++
      "— firmware likely reset")
  else if desc.rdOff ≠ upBufRdoff then
    .error s!"UP RdOff moved by target ({desc.rdOff} != cached {upBufRdoff}) — firmware likely reset"
  else if desc.size ≤ desc.wrOff then .error s!"UP WrOff={desc.wrOff} >= size {desc.size} — corrupted"
  else .ok desc.wrOff

def validateDownDescriptor (ref : Fixed) (downBufWroff : Nat) (desc : Descriptor) : Except String Unit :=
  if desc.fixed ≠ ref then
    .error (s!"DOWN descriptor fixed fields drifted (ref={ref.text}, now={desc.fixed.text}) " ++
      "— firmware likely reset")
  else if desc.wrOff ≠ downBufWroff then
    .error s!"DOWN WrOff moved by target ({desc.wrOff} != cached {downBufWroff}) — firmware likely reset"
  else if desc.size ≤ desc.rdOff then .error s!"DOWN RdOff={desc.rdOff} >= size {desc.size} — corrupted"
  else .ok ()

/-- The memory of the target that a channel has. -/
structure Channel where
  descriptor : Descriptor
  cells : Nat → UInt8

/-- How the target has initialised a channel. -/
structure Layout where
  fixed : Fixed
  offset : Nat
  cells : Nat → UInt8
  inside : offset < fixed.size

def Layout.channel (layout : Layout) : Channel where
  descriptor := {
    name := layout.fixed.name
    buf := layout.fixed.buf
    size := layout.fixed.size
    wrOff := layout.offset
    rdOff := layout.offset
    flags := layout.fixed.flags }
  cells := layout.cells

def Channel.store (channel : Channel) (offset : Nat) (byte : UInt8) : Channel :=
  { channel with cells := Ring.set channel.cells offset byte }

def Channel.setWrOff (channel : Channel) (wrOff : Nat) : Channel :=
  { channel with descriptor := { channel.descriptor with wrOff } }

def Channel.setRdOff (channel : Channel) (rdOff : Nat) : Channel :=
  { channel with descriptor := { channel.descriptor with rdOff } }

/-- How many bytes are published and not released. -/
def Channel.used (channel : Channel) : Nat :=
  Ring.distance channel.descriptor.size channel.descriptor.rdOff channel.descriptor.wrOff

/-- A channel that holds a stream: its offsets are those of two positions. -/
structure Channel.Streams (channel : Channel) (layout : Layout) (stream : List UInt8) (tail head : Nat) : Prop where
  fixed : channel.descriptor.fixed = layout.fixed
  rdOff : channel.descriptor.rdOff = Ring.slot layout.fixed.size layout.offset tail
  wrOff : channel.descriptor.wrOff = Ring.slot layout.fixed.size layout.offset head
  ordered : tail ≤ head
  published : head ≤ stream.length
  holds : Ring.Holds layout.fixed.size layout.offset channel.cells stream tail

theorem Channel.Streams.size {channel : Channel} {layout : Layout} {stream : List UInt8} {tail head : Nat}
    (streams : channel.Streams layout stream tail head) : channel.descriptor.size = layout.fixed.size :=
  congrArg Fixed.size streams.fixed

theorem Channel.Streams.used {channel : Channel} {layout : Layout} {stream : List UInt8} {tail head : Nat}
    (streams : channel.Streams layout stream tail head) : channel.used = head - tail := by
  have room := streams.holds.room
  have published := streams.published
  rw [Channel.used, streams.rdOff, streams.wrOff, streams.size,
    Ring.distance_slot streams.ordered (by omega)]

theorem Layout.streams (layout : Layout) : layout.channel.Streams layout [] 0 0 where
  fixed := rfl
  rdOff := (Nat.mod_eq_of_lt layout.inside).symm
  wrOff := (Nat.mod_eq_of_lt layout.inside).symm
  ordered := Nat.le_refl 0
  published := Nat.le_refl 0
  holds := {
    behind := Nat.le_refl 0
    room := by
      have inside := layout.inside
      rw [List.length_nil]
      omega
    cell := nofun }

end Acrobe.Rtt
