import Acrobe.Arm.Dp
import Acrobe.Lib.Ledger

/-!
# The debug port over SWD

`SwDp.flush_ops` lowers a batch to reads and writes on the wire. The data of an AP read come with the
next AP read, or with a read of RDBUFF, which the driver inserts before anything that would destroy
them.
-/

namespace Acrobe.Arm.Dp

inductive Wire where
  | access (access : Access)
  | run (cycles : Nat)
  | targetSelect (target : Nat)

/-- An operation posted to the SWD interface; its index in the batch stands for its future. -/
structure Post where
  wire : Wire
  own : Option Own

inductive Outcome where
  | result (value : Option Nat)
  | typeError (text : String)

structure SwDp where
  version : Version
  targetsel : Option Nat
  select : Nat
  select1 : Option Nat

namespace SwDp

def apIdleCycles : Nat := 32

/-! ### Lowering -/

/-- The local variables of `flush_ops`. A record binds the future of an operation to that of a post. -/
structure Flush where
  select : Nat
  select1 : Option Nat
  pending : Option Nat
  posts : List Post
  records : List (Nat × Nat)
  settled : List (Nat × Outcome)

def selectFor1 (version : Version) : Op → Option Nat
  | .apRead addr | .apWrite addr _ => if version.usesSelect1 then some (addr >>> 32) else none
  | _ => none

def apSelect (version : Version) (addr cur : Nat) : Nat :=
  if version.adi6 then (addr &&& 0xFFFFFFF0) ||| (cur &&& 0xf)
  else ((addr >>> 24) &&& 0xff) <<< 24 ||| ((addr >>> 4) &&& 0xf) <<< 4 ||| (cur &&& 0xf)

def dpSelect (addr cur : Nat) : Nat := (cur &&& 0xFFFFFFF0) ||| ((addr >>> 4) &&& 0xf)

/-- `__select_for`, for the four kinds of register access. -/
def selectFor (version : Version) (cur : Nat) : Op → Nat
  | .apRead addr | .apWrite addr _ => apSelect version addr cur
  | .dpRead addr | .dpWrite addr _ => dpSelect addr cur
  | _ => cur

namespace Flush

/-- Posts a wire operation and binds futures to its future. -/
def post (self : Flush) (wire : Wire) (own : Option Own) (futures : List Nat) : Flush :=
  { self with
    posts := self.posts ++ [⟨wire, own⟩]
    records := self.records ++ futures.map fun future => (future, self.posts.length) }

def drainPending (self : Flush) : Flush :=
  match self.pending with
  | none => self
  | some future => { self.post (.access (.read false rdbuff)) none [future] with pending := none }

def writeSelect (self : Flush) (value : Nat) : Flush :=
  if self.select ≠ value then
    { self.drainPending.post (.access (.write false selectReg value)) none [] with select := value }
  else self

def writeSelect1 (self : Flush) (value : Option Nat) : Flush :=
  match value with
  | none => self
  | some value =>
    if some value ≠ self.select1 then
      let self := self.drainPending.writeSelect ((self.select &&& 0xFFFFFFF0) ||| ((select1Reg >>> 4) &&& 0xf))
      { self.post (.access (.write false (select1Reg &&& 0xc) value)) none [] with select1 := some value }
    else self

/-- `select_for`. -/
def choose (self : Flush) (version : Version) (op : Op) : Flush :=
  let self := self.writeSelect1 (selectFor1 version op)
  self.writeSelect (selectFor version self.select op)

/-- No write of SELECT among the posts since `before`. -/
def elided (self before : Flush) : Bool :=
  (self.posts.drop before.posts.length).all fun post =>
    match post.wire with
    | .access access => !access.writesSelect
    | _ => true

def settle (self : Flush) (future : Nat) (outcome : Outcome) : Flush :=
  { self with settled := self.settled ++ [(future, outcome)] }

def issue (self : Flush) (op : Op) (future : Nat) (elided : Bool) : Flush :=
  let own : Option Own := some ⟨op, future, elided⟩
  match op with
  | .dpRead addr =>
    if addr &&& 0xc = rdbuff then
      { self.post (.access (.read false (addr &&& 0xc))) own (self.pending.toList ++ [future]) with pending := none }
    else self.post (.access (.read false (addr &&& 0xc))) own [future]
  | .dpWrite addr data => self.drainPending.post (.access (.write false (addr &&& 0xc) data)) own [future]
  | .apRead addr =>
    { (self.post (.access (.read true (addr &&& 0xc))) own self.pending.toList).post (.run apIdleCycles) none [] with
      pending := some future }
  | .apWrite addr data =>
    (self.drainPending.post (.access (.write true (addr &&& 0xc) data)) own [future]).post (.run apIdleCycles) none []
  | _ => self

def lower (self : Flush) (version : Version) (op : Op) (future : Nat) : Flush :=
  match op with
  | .run cycles => (self.post (.run cycles) (some ⟨op, future, true⟩) []).settle future (.result none)
  | .abort what => self.drainPending.post (.access (.write false abortReg what)) (some ⟨op, future, true⟩) [future]
  | .other typeName => self.settle future (.typeError ("SwDp can't lower " ++ typeName))
  | _ =>
    let chosen := self.choose version op
    chosen.issue op future (chosen.elided self)

def lowerFrom (version : Version) (self : Flush) (future : Nat) : List Op → Flush
  | [] => self
  | op :: ops => lowerFrom version (self.lower version op future) (future + 1) ops

end Flush

/-- The start of `flush_ops`: where another target is selected, the cached values are dropped. -/
def begin (self : SwDp) (currentTarget : Option Nat) : Flush :=
  match self.targetsel with
  | none => ⟨self.select, self.select1, none, [], [], []⟩
  | some target =>
    if currentTarget ≠ some target then ⟨0, none, none, [⟨.targetSelect target, none⟩], [], []⟩
    else ⟨self.select, self.select1, none, [⟨.targetSelect target, none⟩], [], []⟩

def flushOps (self : SwDp) (currentTarget : Option Nat) (batch : List Op) : Flush :=
  (Flush.lowerFrom self.version (self.begin currentTarget) 0 batch).drainPending

/-- The object after the posts of a batch. -/
def cached (self : SwDp) (flush : Flush) : SwDp := { self with select := flush.select, select1 := flush.select1 }

end SwDp

/-! ### The port -/

/-- An SW-DP that is selected and acknowledges every access OK; one that answers WAIT or FAULT, and the exceptions that
its futures get then, are left out. `posted` is the result of the last AP read, until it is destroyed; RESEND repeats
the data of the last AP read or RDBUFF read. -/
structure SwPort (State : Type) where
  selection : Selection
  posted : Option Nat
  resend : Nat
  state : State

/-- The data phase of a wire operation, and what it did. -/
structure Reply where
  data : Option Nat
  event : Option Event

namespace SwPort
variable {State : Type} (version : Version) (device : Device State)

def buffered (port : SwPort State) : Nat := port.posted.getD (device.unknown port.state)

def access (port : SwPort State) (access : Access) : Reply × SwPort State :=
  let register := access.register version port.selection
  match access with
  | .read true _ =>
    let value := device.read register port.state
    (⟨some (port.buffered device), some (.read register value.1)⟩,
      { port with posted := some value.1, resend := port.buffered device, state := value.2 })
  | .read false addr =>
    if addr &&& 0xc = rdbuff then
      (⟨some (port.buffered device), some (.read register (port.buffered device))⟩,
        { port with posted := none, resend := port.buffered device })
    else if addr &&& 0xc = selectReg then (⟨some port.resend, some (.read register port.resend)⟩, port)
    else
      let value := device.read register port.state
      (⟨some value.1, some (.read register value.1)⟩, { port with state := value.2 })
  | .write _ _ data =>
    (⟨none, some (.write register (data % 2 ^ 32))⟩,
      { port with
        selection := port.selection.after version access
        posted := none
        state := device.write register (data % 2 ^ 32) port.state })

/-- The port is the one behind the preamble, which leaves SELECT at 0 where it is sent. -/
def perform (port : SwPort State) : Wire → Reply × SwPort State
  | .access access => port.access version device access
  | .run _ | .targetSelect _ => (⟨none, none⟩, port)

def exec (port : SwPort State) : List Post → List Reply × SwPort State
  | [] => ([], port)
  | post :: posts =>
    let here := port.perform version device post.wire
    let later := exec here.2 posts
    (here.1 :: later.1, later.2)

end SwPort

namespace SwDp

/-- The end of `flush_ops`: the first record of a future settles it, unless it is settled before. -/
def Flush.outcome (self : Flush) (replies : List Reply) (future : Nat) : Option Outcome :=
  ((self.settled.find? fun entry => entry.1 == future).map Prod.snd).or
    ((Ledger.lookup self.records replies future).map fun reply => .result reply.data)

end SwDp

end Acrobe.Arm.Dp
