import Mathlib
import Acrobe.Memory.BulkSound

/-!
# Batches of blobs

A component whose bus moves blocks of bytes lowers a blob to parts, each a transaction of its own. Its callers get what
a byte array gives, in whichever order the transactions complete, if the parts of each blob read or write its bytes.
-/

namespace Acrobe.Memory
open LittleEndian Acrobe.Lib

variable {τ : Type}

/-- A transaction of a blob, with the place of its bytes in the blob. -/
structure Part (τ : Type) where
  tx : τ
  offset : Int
  size : Nat

/-- What an operation is lowered to, and whether somebody waits for it. -/
structure Lowering (τ : Type) where
  parts : List (Part τ)
  size : Nat
  isRead : Bool
  wanted : Bool

/-- The place that a part has in the stream. -/
def Part.triple (part : Part τ) : Triple := ⟨.read .byte 0, part.offset, part.size⟩

def Lowering.triples (lowering : Lowering τ) : List Triple := lowering.parts.map Part.triple

def Lowering.txs (lowering : Lowering τ) : List τ := lowering.parts.map Part.tx

/-- The parts are attached to a pending blob; where there are none the caller gets its result at once. -/
def Lowering.expand (lowering : Lowering τ) (futures : Futures) (i position : Nat) : List Lowered × Futures :=
  expandBlob futures i position lowering.size lowering.isRead lowering.wanted lowering.triples

def expandFrom (i position : Nat) (futures : Futures) : List (Lowering τ) → List Lowered × Futures
  | [] => ([], futures)
  | lowering :: batch =>
    let here := lowering.expand futures i position
    let rest := expandFrom (i + 1) (position + here.1.length) here.2 batch
    (here.1 ++ rest.1, rest.2)

def runAll (run : ByteMemory → τ → ByteMemory × Except Error Result) (memory : ByteMemory) :
    List τ → ByteMemory × List (Except Error Result)
  | [] => (memory, [])
  | tx :: txs =>
    let here := run memory tx
    let rest := runAll run here.1 txs
    (rest.1, here.2 :: rest.2)

/-- The transactions of a batch run in order and complete in the given order. -/
def runBatch (run : ByteMemory → τ → ByteMemory × Except Error Result) (memory : ByteMemory)
    (batch : List (Lowering τ)) (order : List Nat) : Flushed :=
  let expanded := expandFrom 0 0 .initial batch
  let ran := runAll run memory (batch.flatMap Lowering.txs)
  { memory := ran.1, users := (order.foldl (complete expanded.1 ran.2) expanded.2).users }

/-! ### What a blob is lowered to -/

variable {run : ByteMemory → τ → ByteMemory × Except Error Result}

/-- The parts read the bytes under them and cover the blob. -/
structure Lowering.Reads (run : ByteMemory → τ → ByteMemory × Except Error Result) (lowering : Lowering τ)
    (addr size : Nat) : Prop where
  isRead : lowering.isRead = true
  sized : lowering.size = size
  reads : ∀ part ∈ lowering.parts, 0 ≤ addr + part.offset ∧
    ∀ memory, run memory part.tx = (memory, .ok (.bytes (memory.read (addr + part.offset).toNat part.size)))
  covers : ∀ j < size, ∃ part ∈ lowering.parts, part.offset ≤ j ∧ (j : Int) < part.offset + part.size

/-- The parts together write the data. -/
structure Lowering.Writes (run : ByteMemory → τ → ByteMemory × Except Error Result) (lowering : Lowering τ)
    (addr : Nat) (data : Bytes) : Prop where
  isRead : lowering.isRead = false
  writes : ∀ memory, (runAll run memory lowering.txs).1 = memory.write addr data
  ended : ∀ memory, ∀ answer ∈ (runAll run memory lowering.txs).2, ∃ value, answer = .ok value

/-- The lowering of an operation does what the operation does. -/
def Lowering.Performs (run : ByteMemory → τ → ByteMemory × Except Error Result) (lowering : Lowering τ) : Op → Prop
  | .register _ => False
  | .readBlob addr size => lowering.Reads run addr size
  | .writeBlob addr data => lowering.Writes run addr data

theorem runAll_append (memory : ByteMemory) (front back : List τ) :
    runAll run memory (front ++ back) =
      ((runAll run (runAll run memory front).1 back).1,
        (runAll run memory front).2 ++ (runAll run (runAll run memory front).1 back).2) := by
  induction front generalizing memory with
  | nil => rfl
  | cons tx front ih => rw [List.cons_append, runAll, ih, runAll, List.cons_append]

@[simp] theorem length_runAll (memory : ByteMemory) (txs : List τ) : (runAll run memory txs).2.length = txs.length := by
  induction txs generalizing memory with
  | nil => rfl
  | cons tx txs ih => rw [runAll, List.length_cons, List.length_cons, ih]

theorem runAll_reads {parts : List (Part τ)} {addr : Nat} (memory : ByteMemory)
    (reads : ∀ part ∈ parts, run memory part.tx =
      (memory, .ok (.bytes (memory.read (addr + part.offset).toNat part.size)))) :
    runAll run memory (parts.map Part.tx) =
      (memory, parts.map fun part => .ok (.bytes (memory.read (addr + part.offset).toNat part.size))) := by
  induction parts with
  | nil => rfl
  | cons part parts ih =>
    rw [List.map_cons, runAll, reads part (List.mem_cons_self ..), ih fun other member =>
      reads other (List.mem_cons_of_mem _ member), List.map_cons]

theorem Lowering.expand_length (lowering : Lowering τ) (futures : Futures) (i position : Nat) :
    (lowering.expand futures i position).1.length = lowering.txs.length := by
  have ops := congrArg List.length
    (@expandBlob_ops futures i position lowering.size lowering.isRead lowering.wanted lowering.triples)
  simpa [Lowering.expand, Lowering.triples, Lowering.txs] using ops

theorem Lowering.Performs.memory {lowering : Lowering τ} {op : Op} (performs : lowering.Performs run op)
    (memory : ByteMemory) : (runAll run memory lowering.txs).1 = (exec memory op).1 := by
  cases op with
  | register op => exact performs.elim
  | readBlob addr size =>
    obtain ⟨-, -, reads, -⟩ := performs
    rw [Lowering.txs, runAll_reads memory fun part member => (reads part member).2 memory, exec]
  | writeBlob addr data => exact performs.writes memory

theorem Lowering.Reads.assembled {lowering : Lowering τ} {addr size : Nat} (reads : lowering.Reads run addr size)
    (memory : ByteMemory) {frontOut backOut : List (Except Error Result)} {position : Nat}
    (lengths : frontOut.length = position) {later : Futures}
    (done : ∀ k < lowering.triples.length, later.done (position + k) = true) :
    assemble later (frontOut ++ ((runAll run memory lowering.txs).2 ++ backOut)) lowering.size
        (List.replicate lowering.size 0) (attach lowering.size lowering.isRead position lowering.triples).subFutures =
      .ok (memory.read addr size) := by
  obtain ⟨-, rfl, answers, covers⟩ := reads
  have ran := runAll_reads memory fun part member => (answers part member).2 memory
  have long : lowering.triples.length = lowering.parts.length := List.length_map _
  apply assemble_answered
  · intro entry member
    obtain ⟨k, small, rfl⟩ := List.mem_mapIdx.mp member
    have inside : k < lowering.parts.length := by rwa [long] at small
    have spot : lowering.triples[k] = (lowering.parts[k]).triple := List.getElem_map _
    have located := (answers _ (List.getElem_mem inside)).1
    refine ⟨by rw [spot]; exact located, .bytes (memory.read (addr + (lowering.parts[k]).offset).toNat (lowering.parts[k]).size),
      ?_, ?_⟩
    · rw [Futures.result, done k small, Lowering.txs, ran, ← lengths, getElem?_between (by rwa [List.length_map]),
        List.getElem?_map, List.getElem?_eq_getElem inside]
      rfl
    · rw [spot]
      rfl
  · exact List.length_replicate
  · intro j inside
    right
    obtain ⟨part, member, low, high⟩ := covers j inside
    obtain ⟨k, small, rfl⟩ := List.mem_iff_getElem.mp member
    have counted : k < lowering.triples.length := by rwa [long]
    have spot : lowering.triples[k] = (lowering.parts[k]).triple := List.getElem_map _
    refine ⟨_, List.mem_mapIdx.mpr ⟨k, counted, rfl⟩, ?_, ?_⟩
    · rw [spot]
      exact low
    · rw [spot]
      exact high

theorem Lowering.Performs.served {lowering : Lowering τ} {op : Op} (performs : lowering.Performs run op)
    (memory : ByteMemory) {front back : List Lowered} {frontOut backOut : List (Except Error Result)} {order : List Nat}
    {futures final : Futures} {i : Nat} (lengths : frontOut.length = front.length) (before : AllApart i front)
    (after : AllApart i back) (unresolved : futures.users i = .none)
    (users : final.users i = (lowering.expand futures i front.length).2.users i)
    (pendings : final.pendings i = (lowering.expand futures i front.length).2.pendings i)
    (every : order.Perm (awaited (front ++ ((lowering.expand futures i front.length).1 ++ back)))) :
    (order.foldl (complete (front ++ ((lowering.expand futures i front.length).1 ++ back))
      (frontOut ++ ((runAll run memory lowering.txs).2 ++ backOut))) final).users i =
      if lowering.wanted then some (.ok (exec memory op).2) else .none := by
  have answered : (runAll run memory lowering.txs).2.length = lowering.triples.length := by
    rw [length_runAll, Lowering.txs, Lowering.triples, List.length_map, List.length_map]
  cases op with
  | register op => exact performs.elim
  | readBlob addr size =>
    apply blob_entry_served lengths before after unresolved users pendings every answered
    · intro answer member
      rw [Lowering.txs, runAll_reads memory fun part member => (performs.reads part member).2 memory] at member
      obtain ⟨part, -, rfl⟩ := List.mem_map.mp member
      exact ⟨_, rfl⟩
    · intro none
      have zero : size = 0 := by
        by_contra positive
        obtain ⟨part, member, -⟩ := performs.covers 0 (Nat.pos_of_ne_zero positive)
        rw [List.map_eq_nil_iff.mp none] at member
        cases member
      rw [performs.isRead, exec, zero]
      rfl
    · intro later done _
      exact ⟨_, rfl, performs.assembled memory lengths done⟩
    · intro writes
      rw [performs.isRead] at writes
      cases writes
  | writeBlob addr data =>
    apply blob_entry_served lengths before after unresolved users pendings every answered (performs.ended memory)
    · intro _
      rw [performs.isRead]
      rfl
    · intro later done reads
      rw [performs.isRead] at reads
      cases reads
    · intro _
      rfl

/-! ### Batches -/

theorem expandFrom_waiters (batch : List (Lowering τ)) (i position : Nat) (futures : Futures) :
    ∀ entry ∈ (expandFrom i position futures batch).1, ∀ waiter, entry.2 = some waiter →
      ∃ j, i ≤ j ∧ (waiter = .user j ∨ waiter = .blob j) := by
  induction batch generalizing i position futures with
  | nil => exact nofun
  | cons lowering batch ih =>
    intro entry member waiter named
    obtain member | member := List.mem_append.mp member
    · exact ⟨i, Nat.le_refl i, expandBlob_waiters entry member waiter named⟩
    · obtain ⟨j, after, found⟩ := ih (i + 1) _ _ entry member waiter named
      exact ⟨j, by omega, found⟩

theorem expandFrom_futures (batch : List (Lowering τ)) (i position : Nat) (futures : Futures) {j : Nat} (before : j < i) :
    (expandFrom i position futures batch).2.users j = futures.users j ∧
      (expandFrom i position futures batch).2.pendings j = futures.pendings j := by
  induction batch generalizing i position futures with
  | nil => exact ⟨rfl, rfl⟩
  | cons lowering batch ih =>
    obtain ⟨users, pendings⟩ := ih (i + 1) (position + (lowering.expand futures i position).1.length)
      (lowering.expand futures i position).2 (by omega)
    obtain ⟨-, others⟩ := @expandBlob_futures futures i position lowering.wanted lowering.size lowering.isRead
      lowering.triples
    obtain ⟨sameUsers, samePendings⟩ := others j (by omega)
    exact ⟨users.trans sameUsers, pendings.trans samePendings⟩

theorem expandFrom_served {batch : List (Lowering τ)} {ops : List Op}
    (performs : List.Forall₂ (fun lowering op => lowering.Performs run op) batch ops) (i : Nat) (front : List Lowered)
    (frontOut : List (Except Error Result)) (memory : ByteMemory) (futures : Futures)
    (lengths : frontOut.length = front.length) (before : ∀ j, i ≤ j → AllApart j front)
    (unresolved : ∀ j, i ≤ j → futures.users j = .none) (order : List Nat)
    (every : order.Perm (awaited (front ++ (expandFrom i front.length futures batch).1))) :
    (runAll run memory (batch.flatMap Lowering.txs)).1 = (execAll memory ops).1 ∧
      ∀ k lowering result, batch[k]? = some lowering → (execAll memory ops).2[k]? = some result →
        (order.foldl (complete (front ++ (expandFrom i front.length futures batch).1)
          (frontOut ++ (runAll run memory (batch.flatMap Lowering.txs)).2))
          (expandFrom i front.length futures batch).2).users (i + k) =
          if lowering.wanted then some (.ok result) else .none := by
  induction performs generalizing i front frontOut memory futures with
  | nil => exact ⟨rfl, by rintro _ _ _ ⟨⟩⟩
  | @cons lowering op batch ops first _ ih =>
    obtain ⟨here, isHere⟩ : ∃ here, here = lowering.expand futures i front.length := ⟨_, rfl⟩
    obtain ⟨rest, isRest⟩ : ∃ rest, rest = expandFrom (i + 1) (front.length + here.1.length) here.2 batch := ⟨_, rfl⟩
    have whole : expandFrom i front.length futures (lowering :: batch) = (here.1 ++ rest.1, rest.2) := by
      rw [expandFrom, isRest, isHere]
    have count : here.1.length = lowering.txs.length := by rw [isHere, Lowering.expand_length]
    rw [whole] at every ⊢
    rw [List.flatMap_cons, runAll_append, first.memory, execAll]
    dsimp only at every ⊢
    have waiters : ∀ entry ∈ here.1, ∀ waiter, entry.2 = some waiter → waiter = .user i ∨ waiter = .blob i := by
      rw [isHere]
      exact expandBlob_waiters
    have others : ∀ j, i + 1 ≤ j → AllApart j (front ++ here.1) := by
      intro j after entry member waiter named
      obtain member | member := List.mem_append.mp member
      · exact before j (by omega) entry member waiter named
      · obtain rfl | rfl := waiters entry member waiter named
        · exact ⟨by rintro ⟨⟩; omega, by rintro ⟨⟩⟩
        · exact ⟨by rintro ⟨⟩, by rintro ⟨⟩; omega⟩
    have behind : AllApart i rest.1 := by
      intro entry member waiter named
      rw [isRest] at member
      obtain ⟨j, after, rfl | rfl⟩ := expandFrom_waiters batch (i + 1) _ here.2 entry member waiter named
      · exact ⟨by rintro ⟨⟩; omega, by rintro ⟨⟩⟩
      · exact ⟨by rintro ⟨⟩, by rintro ⟨⟩; omega⟩
    have clear : ∀ j, i + 1 ≤ j → here.2.users j = .none := by
      intro j after
      obtain ⟨-, same⟩ := @expandBlob_futures futures i front.length lowering.wanted lowering.size lowering.isRead
        lowering.triples
      rw [isHere, Lowering.expand, (same j (by omega)).1]
      exact unresolved j (by omega)
    have later := ih (i + 1) (front ++ here.1) (frontOut ++ (runAll run memory lowering.txs).2) (exec memory op).1 here.2
      (by rw [List.length_append, List.length_append, lengths, length_runAll, count]) others clear
    rw [List.length_append, ← isRest, List.append_assoc, List.append_assoc] at later
    obtain ⟨memories, served⟩ := later every
    refine ⟨memories, ?_⟩
    intro k found result entry expected
    cases k with
    | zero =>
      obtain rfl : lowering = found := Option.some.inj entry
      obtain rfl : (exec memory op).2 = result := Option.some.inj expected
      obtain ⟨users, pendings⟩ := expandFrom_futures batch (i + 1) (front.length + here.1.length) here.2
        (Nat.lt_succ_self i)
      rw [← isRest] at users pendings
      rw [isHere] at users pendings every ⊢
      exact first.served memory lengths (before i (Nat.le_refl i)) behind (unresolved i (Nat.le_refl i)) users pendings
        every
    | succ k =>
      have answer := served k found result entry expected
      rwa [show i + (k + 1) = i + 1 + k by omega]

/-- With its transactions completing in any order, a batch leaves the memory and delivers the results of its operations
run one after the other on a byte array. -/
theorem runBatch_sequential {batch : List (Lowering τ)} {ops : List Op}
    (performs : List.Forall₂ (fun lowering op => lowering.Performs run op) batch ops) (memory : ByteMemory)
    {order : List Nat} (every : order.Perm (awaited (expandFrom 0 0 .initial batch).1)) :
    (runBatch run memory batch order).memory = (execAll memory ops).1 ∧
      ∀ i lowering result, batch[i]? = some lowering → (execAll memory ops).2[i]? = some result →
        (runBatch run memory batch order).users i = if lowering.wanted then some (.ok result) else .none := by
  obtain ⟨memories, served⟩ := expandFrom_served performs 0 [] [] memory .initial rfl (fun _ _ => nofun)
    (fun _ _ => rfl) order every
  refine ⟨memories, ?_⟩
  intro i lowering result found expected
  have answer := served i lowering result found expected
  rwa [Nat.zero_add] at answer

end Acrobe.Memory
