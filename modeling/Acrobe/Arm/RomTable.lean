import Mathlib
import Acrobe.Lib.Unfolding

/-!
# ROM tables

The walk of a CoreSight ROM table starts each child before it reads the next entry. A child that is a ROM table is
walked in turn, and one that is a MEM-AP discovers the component at the base of the memory behind it, however deep. The
walk comes to an end if and only if nothing it reaches is nested in itself.
-/

namespace Acrobe.Arm.RomTable

/-! ### Identification -/

structure PartId where
  jep106Bank : Nat
  jep106Id : Nat
  partNo : Nat
  revision : Nat
  deriving DecidableEq

structure DevArch where
  architect : Nat
  archid : Nat
  revision : Nat
  present : Bool
  deriving DecidableEq

structure ComponentIds where
  cidrClass : Option Nat
  partid : PartId
  cmod : Nat
  revAnd : Nat
  sizeLog2 : Nat
  devarch : Option DevArch
  devtype : Option Nat
  devid : Option Nat
  deriving DecidableEq

/-- The memories of a target, which stay as they are during the discovery. A read of a word gives nothing where it
raises `DpAccessFailure`; `behind` is the memory that the MEM-AP at an address gives access to. -/
structure Memories (β : Type) where
  read32 : β → Nat → Option Nat
  behind : β → Nat → β

/-- The way to a memory. -/
@[ext]
structure Bus (β : Type) where
  memory : β
  addrSizeBits : Nat

variable {β κ : Type}

namespace Bus

def read32 (memories : Memories β) (bus : Bus β) (addr : Nat) : Option Nat := memories.read32 bus.memory addr

end Bus

def classRomTable : Nat := 0x1

def classCoresight : Nat := 0x9

/-- `ComponentIds.empty` -/
def emptyIds : ComponentIds := ⟨none, ⟨0, 0, 0, 0⟩, 0, 0, 0, none, none, none⟩

/-- `ComponentIds.read`: the fifteen registers in the order of their addresses. -/
def ComponentIds.read (memories : Memories β) (bus : Bus β) (base : Nat) : Option ComponentIds := do
  let devarch ← bus.read32 memories (base + 0xfbc)
  let devid ← bus.read32 memories (base + 0xfc8)
  let devtype ← bus.read32 memories (base + 0xfcc)
  let p4 ← bus.read32 memories (base + 0xfd0)
  let _ ← bus.read32 memories (base + 0xfd4)
  let _ ← bus.read32 memories (base + 0xfd8)
  let _ ← bus.read32 memories (base + 0xfdc)
  let p0 ← bus.read32 memories (base + 0xfe0)
  let p1 ← bus.read32 memories (base + 0xfe4)
  let p2 ← bus.read32 memories (base + 0xfe8)
  let p3 ← bus.read32 memories (base + 0xfec)
  let c0 ← bus.read32 memories (base + 0xff0)
  let c1 ← bus.read32 memories (base + 0xff4)
  let c2 ← bus.read32 memories (base + 0xff8)
  let c3 ← bus.read32 memories (base + 0xffc)
  if c0 &&& 0xff ≠ 0x0d ∨ c2 &&& 0xff ≠ 0x05 ∨ c3 &&& 0xff ≠ 0xb1 ∨ (c1 &&& 0xff) &&& 0xf ≠ 0x0 then some emptyIds
  else
    let cidrClass := ((c1 &&& 0xff) >>> 4) &&& 0xf
    let coresight := cidrClass = classCoresight
    some
      { cidrClass := some cidrClass
        partid := ⟨p4 &&& 0xf, ((p2 &&& 0x7) <<< 4) ||| ((p1 >>> 4) &&& 0xf), ((p1 &&& 0xf) <<< 8) ||| (p0 &&& 0xff),
          (p2 >>> 4) &&& 0xf⟩
        cmod := p3 &&& 0xf
        revAnd := (p3 >>> 4) &&& 0xf
        sizeLog2 := (p4 >>> 4) &&& 0xf
        devarch :=
          if coresight then
            some ⟨(devarch >>> 21) &&& 0x7ff, devarch &&& 0xffff, (devarch >>> 16) &&& 0xf, (devarch >>> 20) &&& 1 ≠ 0⟩
          else none
        devtype := if coresight then some (devtype &&& 0xff) else none
        devid := if coresight then some (devid &&& 0xffffffff) else none }

/-! ### Classes -/

/-- The class that a component is made an instance of; `driver` for those that are registered and add no children when
they start. -/
inductive Class (κ : Type) where
  | romTable
  | memAp
  | memoryMapped
  | driver (handler : κ)

/-- What the registries hold for a key, without a default. -/
structure Registries (κ : Type) where
  socDb : PartId → Nat → Option (Class κ)
  devarchDb : DevArch → Option (Class κ)
  partDb : PartId → Option (Class κ)
  devtypeDb : Nat → Option (Class κ)

/-- `_pick_class` -/
def Registries.pickClass (registries : Registries κ) (ids : ComponentIds) : Class κ :=
  let byDevarch := (ids.devarch.filter fun devarch => devarch.present).bind registries.devarchDb
  let byPart := if ids.cidrClass.isSome then registries.partDb ids.partid else none
  let byDevtype := if ids.cidrClass = some classCoresight then ids.devtype.bind registries.devtypeDb else none
  match byDevarch with
  | some chosen => chosen
  | none =>
    if ids.cidrClass = some classRomTable then .romTable
    else ((byPart.or byDevtype).getD .memoryMapped)

/-- `__classify`: the override for the address goes before. -/
def Registries.classify (registries : Registries κ) (partid : PartId) (ids : ComponentIds) (addr : Nat) : Class κ :=
  (registries.socDb partid addr).getD (registries.pickClass ids)

/-! ### Entries -/

/-- A ROM table, with what identifies it. -/
structure Table (β : Type) where
  bus : Bus β
  base : Nat
  ids : ComponentIds

namespace Table

def entrySize (table : Table β) : Nat :=
  if table.ids.cidrClass = some classRomTable then 4
  else
    match table.ids.devid with
    | none => 4
    | some devid => if devid &&& 0xf = 0x1 then 8 else 4

def entryAreaEnd (table : Table β) : Nat := if table.ids.cidrClass = some classCoresight then 0x800 else 0xf00

def readEntry (memories : Memories β) (table : Table β) (offset : Nat) : Option Nat :=
  if table.entrySize = 4 then table.bus.read32 memories (table.base + offset)
  else do
    let lo ← table.bus.read32 memories (table.base + offset)
    let hi ← table.bus.read32 memories (table.base + (offset + 4))
    some ((hi <<< 32) ||| lo)

def signExtendOffset (entry entrySize : Nat) : Int :=
  if entrySize = 4 then
    let raw := entry &&& 0xfffff000
    if raw &&& 0x80000000 ≠ 0 then raw - 2 ^ 32 else raw
  else
    let raw := entry &&& 0xfffffffffffff000
    if raw &&& 2 ^ 63 ≠ 0 then raw - 2 ^ 64 else raw

/-- The address of a child, in as many bits as the bus has. -/
def childAddr (table : Table β) (entry : Nat) : Nat :=
  ((table.base + signExtendOffset entry table.entrySize) % 2 ^ table.bus.addrSizeBits).toNat

inductive EntryState where
  | final
  | skipped
  | present

def entryState (table : Table β) (entry : Nat) : EntryState :=
  if table.ids.cidrClass = some classCoresight then
    if entry &&& 0x3 = 0b00 then .final else if entry &&& 0x3 = 0b11 then .present else .skipped
  else if entry = 0 then .final
  else if entry &&& 0x1 ≠ 0 then .present
  else .skipped

end Table

/-! ### MEM-APs -/

def readBaseHi (memories : Memories β) (bus : Bus β) (base cfg : Nat) : Option Nat :=
  if cfg &&& 0x2 ≠ 0 then bus.read32 memories (base + 0xdf0) else some 0

/-- `_read_cfg_and_base`: the address size of the memory behind the MEM-AP and the address of the component at its base,
if there is one; nothing where a register cannot be read. -/
def readCfgAndBase (memories : Memories β) (bus : Bus β) (base : Nat) : Option (Nat × Option Nat) := do
  let cfg ← bus.read32 memories (base + 0xdf4)
  let addrSizeBits := if cfg &&& 0x2 ≠ 0 then 64 else 32
  let baseLo ← bus.read32 memories (base + 0xdf8)
  let baseHi ← readBaseHi memories bus base cfg
  if baseLo = 0xffffffff then some (addrSizeBits, none)
  else if baseLo &&& 0x2 ≠ 0 ∧ baseLo &&& 0x1 = 0 then some (addrSizeBits, none)
  else some (addrSizeBits, some (((baseHi &&& 0xffffffff) <<< 32) ||| (baseLo &&& 0xfffff000)))

/-- Where the start of a MEM-AP discovers a component. It reads IDR first, and a read that raises ends it. -/
def baseComponent (memories : Memories β) (bus : Bus β) (base : Nat) : Option (Bus β × Nat) := do
  let _ ← bus.read32 memories (base + 0xdfc)
  let (addrSizeBits, baseAddr) ← readCfgAndBase memories bus base
  baseAddr.map fun addr => (⟨memories.behind bus.memory base, addrSizeBits⟩, addr)

/-! ### Discovery -/

inductive FailureKind where
  | fault
  | empty

/-- The nodes that the discovery adds to the tree. -/
inductive Node (κ : Type) where
  | powerGate (addr : Nat) (kind : FailureKind)
  | component (addr : Nat) (chosen : Class κ) (children : List (Node κ))

/-- The components that add children when they start. -/
inductive Parent (β : Type) where
  | romTable (table : Table β)
  | memAp (bus : Bus β) (base : Nat)

namespace Parent

def bus : Parent β → Bus β
  | .romTable table => table.bus
  | .memAp bus _ => bus

def base : Parent β → Nat
  | .romTable table => table.base
  | .memAp _ base => base

def isTable : Parent β → Bool
  | .romTable _ => true
  | .memAp _ _ => false

/-- What tells the components apart that a discovery makes. -/
def key (parent : Parent β) : β × Nat × Nat × Bool :=
  (parent.bus.memory, parent.bus.addrSizeBits, parent.base, parent.isTable)

end Parent

def Class.parent (chosen : Class κ) (bus : Bus β) (addr : Nat) (ids : ComponentIds) : Option (Parent β) :=
  match chosen with
  | .romTable => some (.romTable ⟨bus, addr, ids⟩)
  | .memAp => some (.memAp bus addr)
  | .memoryMapped => none
  | .driver _ => none

/-- What the discovery is run with: `raises` tells which constructors raise an exception. -/
structure Setup (β κ : Type) where
  memories : Memories β
  registries : Registries κ
  raises : Class κ → Bus β → Nat → ComponentIds → Bool

/-- A component is made and started. `start` gives nothing while it has not come to an end. -/
def instantiate (setup : Setup β κ) (start : Parent β → Option (List (Node κ))) (chosen : Class κ) (bus : Bus β)
    (addr : Nat) (ids : ComponentIds) : Option (Node κ) :=
  if setup.raises chosen bus addr ids then some (.powerGate addr .fault)
  else
    match chosen.parent bus addr ids with
    | some parent => (start parent).map (.component addr chosen)
    | none => some (.component addr chosen [])

/-- `__discover_child` -/
def discoverChild (setup : Setup β κ) (start : Parent β → Option (List (Node κ))) (table : Table β) (addr : Nat) :
    Option (Node κ) :=
  match ComponentIds.read setup.memories table.bus addr with
  | none => some (.powerGate addr .fault)
  | some ids =>
    if ids.cidrClass = none then some (.powerGate addr .empty)
    else instantiate setup start (setup.registries.classify table.ids.partid ids addr) table.bus addr ids

/-- `_discover_base_component`, which makes the component before it looks for a preamble. -/
def discoverBaseComponent (setup : Setup β κ) (start : Parent β → Option (List (Node κ))) (bus : Bus β) (addr : Nat) :
    Option (Node κ) :=
  match ComponentIds.read setup.memories bus addr with
  | none => some (.powerGate addr .fault)
  | some ids =>
    let chosen := setup.registries.pickClass ids
    if ids.cidrClass = none ∧ setup.raises chosen bus addr ids = false then some (.powerGate addr .empty)
    else instantiate setup start chosen bus addr ids

/-- The loop of `__walk`: `count` more entries from `offset`. `discover` is `__discover_child`, which is awaited before
the next entry is read; it gives nothing while it has not come to an end. -/
def walk (memories : Memories β) (table : Table β) (discover : Nat → Option (Node κ)) :
    Nat → Nat → Option (List (Node κ))
  | 0, _ => some []
  | count + 1, offset =>
    match table.readEntry memories offset with
    | none => some []
    | some entry =>
      match table.entryState entry with
      | .final => some []
      | .skipped => walk memories table discover count (offset + table.entrySize)
      | .present =>
        (discover (table.childAddr entry)).bind fun child =>
          (walk memories table discover count (offset + table.entrySize)).map (child :: ·)

/-- `MemApV2.start`, and the start of the component that it adds. -/
def startMemAp (setup : Setup β κ) (start : Parent β → Option (List (Node κ))) (bus : Bus β) (base : Nat) :
    Option (List (Node κ)) :=
  match baseComponent setup.memories bus base with
  | none => some []
  | some (behind, addr) => (discoverBaseComponent setup start behind addr).map fun child => [child]

/-- The start of a ROM table or a MEM-AP and of all below it, nested to at most a depth. -/
def start (setup : Setup β κ) : Nat → Parent β → Option (List (Node κ))
  | 0, _ => none
  | depth + 1, .romTable table =>
    walk setup.memories table (discoverChild setup (start setup depth) table) (table.entryAreaEnd / table.entrySize) 0
  | depth + 1, .memAp bus base => startMemAp setup (start setup depth) bus base

mutual

def Node.visits : Node κ → List Nat
  | .powerGate addr _ => [addr]
  | .component addr _ children => addr :: visitsAll children

def visitsAll : List (Node κ) → List Nat
  | [] => []
  | node :: nodes => node.visits ++ visitsAll nodes

end

/-! ### Nesting -/

def childAddrs (memories : Memories β) (table : Table β) : Nat → Nat → List Nat
  | 0, _ => []
  | count + 1, offset =>
    match table.readEntry memories offset with
    | none => []
    | some entry =>
      match table.entryState entry with
      | .final => []
      | .skipped => childAddrs memories table count (offset + table.entrySize)
      | .present => table.childAddr entry :: childAddrs memories table count (offset + table.entrySize)

def Table.children (memories : Memories β) (table : Table β) : List Nat :=
  childAddrs memories table (table.entryAreaEnd / table.entrySize) 0

/-- A component with a preamble is made at an address, and adds children when it starts. -/
structure Makes (setup : Setup β κ) (chosen : Class κ) (bus : Bus β) (addr : Nat) (ids : ComponentIds)
    (child : Parent β) : Prop where
  read : ComponentIds.read setup.memories bus addr = some ids
  preamble : ids.cidrClass ≠ none
  made : setup.raises chosen bus addr ids = false
  parent : chosen.parent bus addr ids = some child

/-- An entry of a table, or the base of a MEM-AP, leads to the second component. -/
inductive Nested (setup : Setup β κ) : Parent β → Parent β → Prop where
  | entry {table : Table β} {addr : Nat} {ids : ComponentIds} {child : Parent β}
      (listed : addr ∈ table.children setup.memories)
      (makes : Makes setup (setup.registries.classify table.ids.partid ids addr) table.bus addr ids child) :
      Nested setup (.romTable table) child
  | base {bus behind : Bus β} {base addr : Nat} {ids : ComponentIds} {child : Parent β}
      (points : baseComponent setup.memories bus base = some (behind, addr))
      (makes : Makes setup (setup.registries.pickClass ids) behind addr ids child) : Nested setup (.memAp bus base) child

variable {setup : Setup β κ} {memories : Memories β} {table : Table β} {discover : Nat → Option (Node κ)}
  {starts : Parent β → Option (List (Node κ))} {chosen : Class κ} {bus : Bus β} {addr : Nat} {ids : ComponentIds}

theorem walk_isSome (count offset : Nat) :
    (walk memories table discover count offset).isSome ↔
      ∀ addr ∈ childAddrs memories table count offset, (discover addr).isSome := by
  induction count generalizing offset with
  | zero => simp [walk, childAddrs]
  | succ count ih =>
    rw [walk, childAddrs]
    cases table.readEntry memories offset with
    | none => simp
    | some entry =>
      dsimp only
      cases table.entryState entry with
      | final => simp
      | skipped => exact ih _
      | present =>
        dsimp only
        rw [List.forall_mem_cons, ← ih]
        cases discover (table.childAddr entry) with
        | none => simp
        | some child => simp

theorem walk_nodes {count offset : Nat} {nodes : List (Node κ)}
    (walked : walk memories table discover count offset = some nodes) :
    nodes.length ≤ count ∧ ∀ node ∈ nodes, ∃ addr, discover addr = some node := by
  induction count generalizing offset nodes with
  | zero =>
    obtain rfl : [] = nodes := by simpa [walk] using walked
    exact ⟨Nat.le_refl 0, nofun⟩
  | succ count ih =>
    rw [walk] at walked
    cases read : table.readEntry memories offset with
    | none =>
      obtain rfl : [] = nodes := by simpa [read] using walked
      exact ⟨Nat.zero_le _, nofun⟩
    | some entry =>
      rw [read] at walked
      dsimp only at walked
      cases state : table.entryState entry with
      | final =>
        obtain rfl : [] = nodes := by simpa [state] using walked
        exact ⟨Nat.zero_le _, nofun⟩
      | skipped =>
        rw [state] at walked
        obtain ⟨short, found⟩ := ih walked
        exact ⟨Nat.le_succ_of_le short, found⟩
      | present =>
        rw [state] at walked
        obtain ⟨child, discovered, rest⟩ := Option.bind_eq_some_iff.mp walked
        obtain ⟨later, inner, rfl⟩ := Option.map_eq_some_iff.mp rest
        obtain ⟨short, found⟩ := ih inner
        refine ⟨Nat.succ_le_succ short, ?_⟩
        intro node member
        obtain rfl | member := List.mem_cons.mp member
        · exact ⟨_, discovered⟩
        · exact found node member

/-! ### The discovery of a component -/

theorem instantiate_isSome :
    (instantiate setup starts chosen bus addr ids).isSome ↔
      ∀ child, setup.raises chosen bus addr ids = false → chosen.parent bus addr ids = some child →
        (starts child).isSome := by
  unfold instantiate
  by_cases raised : setup.raises chosen bus addr ids = true
  · simp [raised]
  · rw [if_neg raised]
    cases parent : chosen.parent bus addr ids with
    | none => simp
    | some child => simp [raised]

theorem discoverChild_isSome :
    (discoverChild setup starts table addr).isSome ↔
      ∀ ids child, Makes setup (setup.registries.classify table.ids.partid ids addr) table.bus addr ids child →
        (starts child).isSome := by
  unfold discoverChild
  constructor
  · intro discovered ids child makes
    rw [makes.read] at discovered
    dsimp only at discovered
    rw [if_neg makes.preamble, instantiate_isSome] at discovered
    exact discovered child makes.made makes.parent
  · intro ends
    cases read : ComponentIds.read setup.memories table.bus addr with
    | none => rfl
    | some ids =>
      dsimp only
      by_cases empty : ids.cidrClass = none
      · rw [if_pos empty]
        rfl
      · rw [if_neg empty, instantiate_isSome]
        intro child made parent
        exact ends ids child ⟨read, empty, made, parent⟩

theorem discoverBaseComponent_isSome :
    (discoverBaseComponent setup starts bus addr).isSome ↔
      ∀ ids child, Makes setup (setup.registries.pickClass ids) bus addr ids child → (starts child).isSome := by
  unfold discoverBaseComponent
  constructor
  · intro discovered ids child makes
    rw [makes.read] at discovered
    dsimp only at discovered
    rw [if_neg fun both => makes.preamble both.1, instantiate_isSome] at discovered
    exact discovered child makes.made makes.parent
  · intro ends
    cases read : ComponentIds.read setup.memories bus addr with
    | none => rfl
    | some ids =>
      dsimp only
      by_cases empty : ids.cidrClass = none ∧ setup.raises (setup.registries.pickClass ids) bus addr ids = false
      · rw [if_pos empty]
        rfl
      · rw [if_neg empty, instantiate_isSome]
        intro child made parent
        exact ends ids child ⟨read, fun preamble => empty ⟨preamble, made⟩, made, parent⟩

theorem start_unfolds (setup : Setup β κ) : Unfolds (Nested setup) fun depth parent => (start setup depth parent).isSome where
  zero := by
    intro parent
    cases parent <;> simp [start]
  succ := by
    intro depth parent
    cases parent with
    | romTable table =>
      rw [start, walk_isSome]
      constructor
      · intro discovered child nested
        cases nested with
        | entry listed makes => exact discoverChild_isSome.mp (discovered _ listed) _ child makes
      · intro ends addr listed
        rw [discoverChild_isSome]
        intro ids child makes
        exact ends child (.entry listed makes)
    | memAp bus base =>
      rw [start, startMemAp]
      constructor
      · intro discovered child nested
        cases nested with
        | base points makes =>
          rw [points, Option.isSome_map] at discovered
          exact discoverBaseComponent_isSome.mp discovered _ child makes
      · intro ends
        cases points : baseComponent setup.memories bus base with
        | none => rfl
        | some found =>
          rw [Option.isSome_map, discoverBaseComponent_isSome]
          intro ids child makes
          exact ends child (.base points makes)

/-! ### Visits -/

/-- How many components a component visits that is nested to at most a depth. -/
def visitBound : Nat → Nat
  | 0 => 0
  | depth + 1 => 960 * (1 + visitBound depth)

theorem Table.entries_le (table : Table β) : table.entryAreaEnd / table.entrySize ≤ 960 := by
  have size : 4 ≤ table.entrySize := by
    unfold entrySize
    split
    · decide
    · split
      · decide
      · split <;> decide
  have area : table.entryAreaEnd ≤ 0xf00 := by
    unfold entryAreaEnd
    split <;> decide
  calc table.entryAreaEnd / table.entrySize ≤ 0xf00 / table.entrySize := Nat.div_le_div_right area
    _ ≤ 0xf00 / 4 := Nat.div_le_div_left size (by decide)

theorem visitsAll_le {nodes : List (Node κ)} {bound : Nat} (small : ∀ node ∈ nodes, node.visits.length ≤ bound) :
    (visitsAll nodes).length ≤ nodes.length * bound := by
  induction nodes with
  | nil => simp [visitsAll]
  | cons node nodes ih =>
    have first := small node (List.mem_cons_self ..)
    have later := ih fun other member => small other (List.mem_cons_of_mem _ member)
    rw [visitsAll, List.length_append, List.length_cons, Nat.succ_mul]
    omega

section
variable {node : Node κ} {bound : Nat}
  (below : ∀ parent nodes, starts parent = some nodes → (visitsAll nodes).length ≤ bound)
include below

theorem instantiate_visits (found : instantiate setup starts chosen bus addr ids = some node) :
    node.visits.length ≤ 1 + bound := by
  unfold instantiate at found
  split at found
  · cases found
    exact Nat.le_add_right 1 bound
  · split at found
    · obtain ⟨children, inner, rfl⟩ := Option.map_eq_some_iff.mp found
      have short := below _ _ inner
      rw [Node.visits, List.length_cons]
      omega
    · cases found
      exact Nat.le_add_right 1 bound

theorem discoverChild_visits (found : discoverChild setup starts table addr = some node) :
    node.visits.length ≤ 1 + bound := by
  unfold discoverChild at found
  split at found
  · cases found
    exact Nat.le_add_right 1 bound
  · split at found
    · cases found
      exact Nat.le_add_right 1 bound
    · exact instantiate_visits below found

theorem discoverBaseComponent_visits (found : discoverBaseComponent setup starts bus addr = some node) :
    node.visits.length ≤ 1 + bound := by
  unfold discoverBaseComponent at found
  split at found
  · cases found
    exact Nat.le_add_right 1 bound
  · dsimp only at found
    split at found
    · cases found
      exact Nat.le_add_right 1 bound
    · exact instantiate_visits below found

end

theorem start_visits {depth : Nat} {parent : Parent β} {nodes : List (Node κ)}
    (started : start setup depth parent = some nodes) : (visitsAll nodes).length ≤ visitBound depth := by
  induction depth generalizing parent nodes with
  | zero => cases parent <;> cases started
  | succ depth ih =>
    have below : ∀ parent nodes, start setup depth parent = some nodes → (visitsAll nodes).length ≤ visitBound depth :=
      fun _ _ => ih
    have few : nodes.length ≤ 960 ∧ ∀ node ∈ nodes, node.visits.length ≤ 1 + visitBound depth := by
      cases parent with
      | romTable table =>
        rw [start] at started
        obtain ⟨short, found⟩ := walk_nodes started
        refine ⟨short.trans table.entries_le, ?_⟩
        intro node member
        obtain ⟨addr, discovered⟩ := found node member
        exact discoverChild_visits below discovered
      | memAp bus base =>
        rw [start, startMemAp] at started
        cases points : baseComponent setup.memories bus base with
        | none =>
          rw [points] at started
          cases started
          exact ⟨Nat.zero_le _, fun _ member => absurd member List.not_mem_nil⟩
        | some found =>
          rw [points] at started
          obtain ⟨child, discovered, rfl⟩ := Option.map_eq_some_iff.mp started
          refine ⟨Nat.le_of_ble_eq_true rfl, ?_⟩
          intro node member
          obtain rfl := List.mem_singleton.mp member
          exact discoverBaseComponent_visits below discovered
    calc (visitsAll nodes).length ≤ nodes.length * (1 + visitBound depth) := visitsAll_le few.2
      _ ≤ 960 * (1 + visitBound depth) := Nat.mul_le_mul_right _ few.1

/-! ### Termination -/

theorem Table.childAddr_lt (table : Table β) (entry : Nat) : table.childAddr entry < 2 ^ table.bus.addrSizeBits := by
  have positive : (0 : Int) < 2 ^ table.bus.addrSizeBits := by positivity
  have low := Int.emod_lt_of_pos (table.base + signExtendOffset entry table.entrySize) positive
  have high := Int.emod_nonneg (table.base + signExtendOffset entry table.entrySize) (Int.ne_of_gt positive)
  rw [childAddr, Int.toNat_lt high]
  exact_mod_cast low

theorem childAddrs_lt {count offset : Nat} (listed : addr ∈ childAddrs memories table count offset) :
    addr < 2 ^ table.bus.addrSizeBits := by
  induction count generalizing offset with
  | zero => cases listed
  | succ count ih =>
    rw [childAddrs] at listed
    split at listed
    · cases listed
    · split at listed
      · cases listed
      · exact ih listed
      · obtain rfl | listed := List.mem_cons.mp listed
        · exact table.childAddr_lt _
        · exact ih listed

theorem baseComponent_lt {behind : Bus β} {base : Nat} (points : baseComponent memories bus base = some (behind, addr)) :
    behind.addrSizeBits ≤ 64 ∧ addr < 2 ^ 64 := by
  unfold baseComponent readCfgAndBase at points
  simp only [Option.bind_eq_bind, Option.bind_eq_some_iff, Option.map_eq_some_iff] at points
  obtain ⟨_, -, ⟨addrSizeBits, baseAddr⟩, ⟨cfg, -, baseLo, -, baseHi, -, found⟩, _, rfl, same⟩ := points
  have narrow : (if cfg &&& 0x2 ≠ 0 then 64 else 32) ≤ 64 := by split <;> decide
  have low : ((baseHi &&& 0xffffffff) <<< 32) ||| (baseLo &&& 0xfffff000) < 2 ^ 64 := by
    have high : baseHi &&& 0xffffffff < 2 ^ 32 := Nat.and_lt_two_pow _ (by decide)
    exact Nat.or_lt_two_pow (Nat.shiftLeft_lt high) (Nat.and_lt_two_pow _ (by decide))
  split at found
  · cases found
  · split at found
    · cases found
    · cases found
      cases same
      exact ⟨narrow, low⟩

theorem Class.parent_place {child : Parent β} (parent : chosen.parent bus addr ids = some child) :
    child.bus = bus ∧ child.base = addr ∧ ∀ table, child = .romTable table → table.ids = ids := by
  cases chosen <;> cases parent <;> refine ⟨rfl, rfl, ?_⟩ <;> rintro table ⟨⟩
  rfl

theorem Makes.place {child : Parent β} (makes : Makes setup chosen bus addr ids child) :
    child.bus = bus ∧ child.base = addr ∧
      ∀ table, child = .romTable table → ComponentIds.read setup.memories table.bus table.base = some table.ids := by
  obtain ⟨rfl, rfl, own⟩ := Class.parent_place makes.parent
  refine ⟨rfl, rfl, ?_⟩
  rintro table rfl
  rw [own table rfl]
  exact makes.read

namespace Nested
variable {parent child : Parent β}

theorem read (nested : Nested setup parent child) :
    ∀ table, child = .romTable table → ComponentIds.read setup.memories table.bus table.base = some table.ids := by
  cases nested with
  | entry _ makes => exact makes.place.2.2
  | base _ makes => exact makes.place.2.2

theorem low {width : Nat} (wide : 64 ≤ width) (narrow : parent.bus.addrSizeBits ≤ width)
    (nested : Nested setup parent child) : child.bus.addrSizeBits ≤ width ∧ child.base < 2 ^ width := by
  cases nested with
  | entry listed makes =>
    obtain ⟨bus, base, -⟩ := makes.place
    rw [bus, base]
    exact ⟨narrow, (childAddrs_lt listed).trans_le (Nat.pow_le_pow_right (by decide) narrow)⟩
  | base points makes =>
    obtain ⟨bus, base, -⟩ := makes.place
    rw [bus, base]
    obtain ⟨small, below⟩ := baseComponent_lt points
    exact ⟨small.trans wide, below.trans_le (Nat.pow_le_pow_right (by decide) wide)⟩

theorem keyed {other first second : Parent β} (one : Nested setup parent first) (two : Nested setup other second)
    (same : first.key = second.key) : first = second := by
  obtain ⟨memory, width, base, kind⟩ : first.bus.memory = second.bus.memory ∧
      first.bus.addrSizeBits = second.bus.addrSizeBits ∧ first.base = second.base ∧ first.isTable = second.isTable := by
    simpa [Parent.key] using same
  have bus : first.bus = second.bus := Bus.ext memory width
  cases first with
  | romTable table =>
    cases second with
    | romTable table' =>
      have found := one.read table rfl
      have found' := two.read table' rfl
      obtain ⟨_, _, ids⟩ := table
      obtain ⟨_, _, ids'⟩ := table'
      cases bus
      cases base
      cases found.symm.trans found'
      rfl
    | memAp _ _ => cases kind
  | memAp _ _ =>
    cases second with
    | romTable _ => cases kind
    | memAp _ _ =>
      cases bus
      cases base
      rfl

end Nested

/-- The places that can be told apart where no address has more than `width` bits. -/
def keys (β : Type) [Fintype β] (width : Nat) : Finset (β × Nat × Nat × Bool) :=
  Finset.univ ×ˢ Finset.range (width + 1) ×ˢ Finset.range (2 ^ width) ×ˢ Finset.univ

theorem reached_low {parent child : Parent β} {width : Nat} (wide : 64 ≤ width) (narrow : parent.bus.addrSizeBits ≤ width)
    (path : Relation.TransGen (Nested setup) parent child) :
    child.bus.addrSizeBits ≤ width ∧ child.base < 2 ^ width := by
  induction path with
  | single nested => exact nested.low wide narrow
  | tail _ nested ih => exact nested.low wide ih.1

/-- The start of a ROM table comes to an end, with a bound on the visits that the number of memories and the width of
the addresses give, if and only if nothing that it reaches is nested in itself. -/
theorem start_ends_iff [Fintype β] (setup : Setup β κ) (table : Table β) :
    (∃ depth nodes, start setup depth (.romTable table) = some nodes ∧
        ∀ addr, (visitsAll nodes).count addr ≤ visitBound ((keys β (max table.bus.addrSizeBits 64)).card + 1)) ↔
      NoCycle (Nested setup) (.romTable table) := by
  constructor
  · rintro ⟨depth, nodes, started, -⟩
    exact (start_unfolds setup).noCycle (Option.isSome_of_eq_some started)
  · intro acyclic
    have last {child : Parent β} (path : Relation.TransGen (Nested setup) (.romTable table) child) :
        ∃ parent, Nested setup parent child := by
      cases path with
      | single nested => exact ⟨_, nested⟩
      | tail _ nested => exact ⟨_, nested⟩
    have inside : ∀ child, Relation.TransGen (Nested setup) (.romTable table) child →
        child.key ∈ keys β (max table.bus.addrSizeBits 64) := by
      intro child path
      obtain ⟨narrow, low⟩ := reached_low (Nat.le_max_right table.bus.addrSizeBits 64) (Nat.le_max_left _ _) path
      simp only [keys, Parent.key, Finset.mem_product, Finset.mem_univ, Finset.mem_range, true_and, and_true]
      exact ⟨Nat.lt_succ_of_le narrow, low⟩
    have keyed : ∀ first second, Relation.TransGen (Nested setup) (.romTable table) first →
        Relation.TransGen (Nested setup) (.romTable table) second → first.key = second.key → first = second := by
      intro first second firstPath secondPath same
      obtain ⟨_, one⟩ := last firstPath
      obtain ⟨_, two⟩ := last secondPath
      exact one.keyed two same
    obtain ⟨nodes, started⟩ :=
      Option.isSome_iff_exists.mp ((start_unfolds setup).ends_of_noCycle _ inside keyed acyclic)
    exact ⟨_, nodes, started, fun addr => List.count_le_length.trans (start_visits started)⟩

/-! ### A table that lists itself -/

/-- One ROM table of class 1 at address 0: its first two entries lead to itself, and there is no other. -/
def selfReferring : Setup Unit Unit where
  memories :=
    { read32 := fun _ addr =>
        some (match addr with
          | 0 => 0x3
          | 4 => 0x3
          | 0xff0 => 0x0d
          | 0xff4 => 0x10
          | 0xff8 => 0x05
          | 0xffc => 0xb1
          | _ => 0)
      behind := fun _ _ => () }
  registries := ⟨fun _ _ => none, fun _ => none, fun _ => none, fun _ => none⟩
  raises := fun _ _ _ _ => false

theorem self_referring_unending :
    ∃ table : Table Unit, ComponentIds.read selfReferring.memories table.bus table.base = some table.ids ∧
      ∀ depth, start selfReferring depth (.romTable table) = none := by
  let ids : ComponentIds := ⟨some 1, ⟨0, 0, 0, 0⟩, 0, 0, 0, none, none, none⟩
  let table : Table Unit := ⟨⟨(), 32⟩, 0, ids⟩
  have listed : table.base ∈ table.children selfReferring.memories := by decide
  have makes : Makes selfReferring (selfReferring.registries.classify ids.partid ids 0) table.bus 0 ids (.romTable table) :=
    ⟨by decide, by decide, rfl, rfl⟩
  refine ⟨table, makes.read, ?_⟩
  intro depth
  by_contra some_
  have acyclic := (start_unfolds selfReferring).noCycle (Option.ne_none_iff_isSome.mp some_)
  exact acyclic _ .refl (.single (.entry listed makes))

end Acrobe.Arm.RomTable
