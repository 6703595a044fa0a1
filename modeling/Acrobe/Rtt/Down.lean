import Acrobe.Rtt.Descriptor

/-!
# The DOWN channel

A writer stores a chunk, moves the write offset in its cache, and then writes it to the memory of the target.
The pump reads the descriptor from that memory and compares it with the cache.
-/

namespace Acrobe.Rtt
open Ring

/-- The pump is to establish the control block, has read its descriptor, is between two polls, or has read the
descriptor of one. -/
inductive DownPhase where
  | lost
  | located (desc : Descriptor)
  | idle
  | sampled (desc : Descriptor)

/-- The writer that holds the lock, with the bytes of its data that are published and those still to come. -/
inductive Writer where
  | free
  | asking (sent remaining : List UInt8)
  | asked (sent remaining : List UInt8) (rdoff : Nat)
  | storing (sent stored : List UInt8) (todo : List (Nat × UInt8)) (rest : List UInt8) (newWr : Nat)
  | publishing (sent stored rest : List UInt8) (newWr : Nat)

structure Down where
  ram : Ram
  channel : Channel
  fetched : List UInt8
  received : List UInt8
  downRef : Fixed
  downBufWroff : Nat
  phase : DownPhase
  raised : List String
  posted : List (List UInt8)
  waiting : List (List UInt8)
  writer : Writer
  completed : List (List UInt8)

inductive DownEvent where
  | fetch
  | release (n : Nat)
  | locate
  | establish
  | sample
  | validate
  | write (data : List UInt8)
  | acquire
  | ask
  | push
  | store
  | advance
  | publish

namespace Down

def start (ram : Ram) (layout : Layout) : Down where
  ram := ram
  channel := layout.channel
  fetched := []
  received := []
  downRef := ⟨0, 0, 0, 0⟩
  downBufWroff := 0
  phase := .lost
  raised := []
  posted := []
  waiting := []
  writer := .free
  completed := []

def fetch (self : Down) : Down :=
  let desc := self.channel.descriptor
  if self.fetched.length < self.channel.used then
    { self with fetched := self.fetched ++ [self.channel.cells ((desc.rdOff + self.fetched.length) % desc.size)] }
  else self

def release (self : Down) (n : Nat) : Down :=
  let desc := self.channel.descriptor
  if n ≤ self.fetched.length then
    { self with
      channel := self.channel.setRdOff ((desc.rdOff + n) % desc.size)
      received := self.received ++ self.fetched.take n
      fetched := self.fetched.drop n }
  else self

/-! ### The pump -/

def locate (self : Down) : Down :=
  match self.phase with
  | .lost => { self with phase := .located self.channel.descriptor }
  | _ => self

def establish (self : Down) : Down :=
  match self.phase with
  | .located desc =>
    match checkSide self.ram "DOWN" desc with
    | .ok () => { self with downRef := desc.fixed, downBufWroff := desc.wrOff, phase := .idle }
    | .error error => { self with phase := .lost, raised := self.raised ++ [error] }
  | _ => self

def sample (self : Down) : Down :=
  match self.phase with
  | .idle => { self with phase := .sampled self.channel.descriptor }
  | _ => self

def validate (self : Down) : Down :=
  match self.phase with
  | .sampled desc =>
    match validateDownDescriptor self.downRef self.downBufWroff desc with
    | .ok () => { self with phase := .idle }
    | .error error => { self with phase := .lost, raised := self.raised ++ [error] }
  | _ => self

/-! ### The writer -/

def ready (self : Down) : Bool :=
  match self.phase with
  | .lost | .located _ => false
  | .idle | .sampled _ => true

def downFreeSpace (self : Down) (rdoff : Nat) : Nat :=
  if self.downBufWroff < rdoff then rdoff - self.downBufWroff - 1
  else self.downRef.size - self.downBufWroff + rdoff - 1

/-- The writes of a chunk, in two parts when it wraps. -/
def placed (size wr : Nat) (data : List UInt8) : List (Nat × UInt8) :=
  if wr + data.length ≤ size then (List.range' wr data.length).zip data
  else
    let first := size - wr
    (List.range' wr first).zip (data.take first) ++ (List.range' 0 (data.length - first)).zip (data.drop first)

/-- The lock goes to the write that waits the longest, and one of no data is over at once. -/
def acquire (self : Down) : Down :=
  match self.writer, self.waiting with
  | .free, [] :: waiting => { self with waiting, completed := self.completed ++ [[]] }
  | .free, data :: waiting => if self.ready then { self with waiting, writer := .asking [] data } else self
  | _, _ => self

def ask (self : Down) : Down :=
  match self.writer with
  | .asking sent remaining => { self with writer := .asked sent remaining self.channel.descriptor.rdOff }
  | _ => self

def push (self : Down) : Down :=
  match self.writer with
  | .asked sent remaining rdoff =>
    let free := self.downFreeSpace rdoff
    if free = 0 then { self with writer := .asking sent remaining }
    else
      let chunk := remaining.take free
      { self with
        writer := .storing sent [] (placed self.downRef.size self.downBufWroff chunk) (remaining.drop free)
          ((self.downBufWroff + chunk.length) % self.downRef.size) }
  | _ => self

def store (self : Down) : Down :=
  match self.writer with
  | .storing sent stored ((offset, byte) :: todo) rest newWr =>
    { self with
      channel := self.channel.store offset byte
      writer := .storing sent (stored ++ [byte]) todo rest newWr }
  | _ => self

def advance (self : Down) : Down :=
  match self.writer with
  | .storing sent stored [] rest newWr =>
    { self with downBufWroff := newWr, writer := .publishing sent stored rest newWr }
  | _ => self

def publish (self : Down) : Down :=
  match self.writer with
  | .publishing sent stored rest newWr =>
    let channel := self.channel.setWrOff newWr
    match rest with
    | [] => { self with channel, writer := .free, completed := self.completed ++ [sent ++ stored] }
    | _ :: _ => { self with channel, writer := .asking (sent ++ stored) rest }
  | _ => self

def step (self : Down) : DownEvent → Down
  | .fetch => self.fetch
  | .release n => self.release n
  | .locate => self.locate
  | .establish => self.establish
  | .sample => self.sample
  | .validate => self.validate
  | .write data => { self with posted := self.posted ++ [data], waiting := self.waiting ++ [data] }
  | .acquire => self.acquire
  | .ask => self.ask
  | .push => self.push
  | .store => self.store
  | .advance => self.advance
  | .publish => self.publish

def run (self : Down) (events : List DownEvent) : Down := events.foldl step self

end Down

namespace Writer

/-- The bytes of the current write that are published. -/
def sent : Writer → List UInt8
  | .free => []
  | .asking sent _ => sent
  | .asked sent _ _ => sent
  | .storing sent _ _ _ _ => sent
  | .publishing sent _ _ _ => sent

/-- The bytes in the buffer that are not published. -/
def stored : Writer → List UInt8
  | .storing _ stored _ _ _ => stored
  | .publishing _ stored _ _ => stored
  | _ => []

def todo : Writer → List (Nat × UInt8)
  | .storing _ _ todo _ _ => todo
  | _ => []

/-- The data of the current write. -/
def current : Writer → List (List UInt8)
  | .free => []
  | .asking sent remaining => [sent ++ remaining]
  | .asked sent remaining _ => [sent ++ remaining]
  | .storing sent stored todo rest _ => [sent ++ stored ++ todo.map Prod.snd ++ rest]
  | .publishing sent stored rest _ => [sent ++ stored ++ rest]

end Writer

namespace Down

/-- The bytes that have been published, in the order in which they were. -/
def stream (self : Down) : List UInt8 := self.completed.flatten ++ self.writer.sent

/-- The offsets of the bytes that the target has not read. -/
def unread (self : Down) : List Nat :=
  (List.range self.channel.used).map fun k =>
    (self.channel.descriptor.rdOff + k) % self.channel.descriptor.size

/-- What the two sides of the channel are promised. -/
structure Kept (down : Down) : Prop where
  raised : down.raised = []
  spared : ∀ write ∈ down.writer.todo, write.1 ∉ down.unread
  ordered : down.completed ++ down.writer.current ++ down.waiting = down.posted
  through : down.received ++ contents down.channel.cells down.channel.descriptor.size
    down.channel.descriptor.rdOff down.channel.used = down.stream
  fetched : down.received ++ down.fetched <+: down.stream

/-- The pump validates against the offset that the descriptor was read with, and the host accepts the control
block that it finds. -/
def Agrees (self : Down) : DownEvent → Prop
  | .establish => match self.phase with
    | .located desc => checkSide self.ram "DOWN" desc = .ok ()
    | _ => True
  | .validate => match self.phase with
    | .sampled desc => desc.wrOff = self.downBufWroff
    | _ => True
  | _ => True

def Agreeing (self : Down) : List DownEvent → Prop
  | [] => True
  | event :: events => self.Agrees event ∧ (self.step event).Agreeing events

end Down

end Acrobe.Rtt
