import Mathlib
import Acrobe.Memory.Bulk

/-!
# Batches on a byte array

The chunks of a blob tile it with aligned accesses, over-wide reads cover it. So the lowered stream
leaves the memory that the operations leave one after the other, and whatever order its accesses
complete in, every caller gets what the operation reads there.
-/

namespace Acrobe.Memory
open LittleEndian Acrobe.Lib

/-! ### Chunks -/

/-- Aligned chunks side by side up to the end of the blob. -/
def Tiled (base size : Nat) : Nat → List Chunk → Prop
  | offset, [] => offset = size
  | offset, chunk :: rest =>
    chunk.offset = offset ∧ chunk.addr = base + offset ∧ chunk.addr % chunk.width.bytes = 0 ∧
      Tiled base size (offset + chunk.width.bytes) rest

variable {base size offset : Nat}

theorem trailingByte_tiled (short : size - offset ≤ 1) (inside : offset ≤ size) :
    Tiled base size offset (trailingByte (base + size) (base + offset) offset) := by
  unfold trailingByte
  split
  · exact ⟨rfl, rfl, Nat.mod_one _, show offset + 1 = size by omega⟩
  · show offset = size
    omega

theorem trailingHalf_tiled (short : size - offset ≤ 3) (inside : offset ≤ size)
    (even : (base + offset) % 2 = 0 ∨ size - offset < 2) :
    Tiled base size offset (trailingHalf (base + size) (base + offset) offset) := by
  unfold trailingHalf
  split
  · refine ⟨rfl, rfl, ?_, ?_⟩
    · show (base + offset) % 2 = 0
      omega
    · rw [Nat.add_assoc]
      exact trailingByte_tiled (by show size - (offset + 2) ≤ 1; omega) (by show offset + 2 ≤ size; omega)
  · exact trailingByte_tiled (by omega) inside

theorem streamWords_tiled (fuel : Nat) (enough : size - offset ≤ 4 * fuel + 3) (inside : offset ≤ size)
    (aligned : (base + offset) % 4 = 0 ∨ size - offset < 2) :
    Tiled base size offset (streamWords (base + size) fuel (base + offset) offset) := by
  induction fuel generalizing offset with
  | zero => exact trailingHalf_tiled (by omega) inside (by omega)
  | succ fuel ih =>
    unfold streamWords
    split
    · refine ⟨rfl, rfl, ?_, ?_⟩
      · show (base + offset) % 4 = 0
        omega
      · rw [Nat.add_assoc]
        show Tiled base size (offset + 4) _
        exact ih (by omega) (by omega) (by omega)
    · exact trailingHalf_tiled (by omega) inside (by omega)

theorem leadingHalf_tiled (inside : offset ≤ size) (even : (base + offset) % 2 = 0 ∨ size = offset) :
    Tiled base size offset (leadingHalf (base + size) size (base + offset) offset) := by
  unfold leadingHalf
  split
  · refine ⟨rfl, rfl, ?_, ?_⟩
    · show (base + offset) % 2 = 0
      omega
    · rw [Nat.add_assoc]
      show Tiled base size (offset + 2) _
      exact streamWords_tiled size (by omega) (by omega) (by omega)
  · exact streamWords_tiled size (by omega) inside (by omega)

theorem chunks_tiled (addr size : Nat) : Tiled addr size 0 (chunks addr size) := by
  unfold chunks
  split
  · refine ⟨rfl, rfl, Nat.mod_one _, ?_⟩
    show Tiled addr size (0 + 1) _
    exact leadingHalf_tiled (by omega) (by omega)
  · exact leadingHalf_tiled (by omega) (by omega)

theorem Tiled.inside {chunks : List Chunk} (tiled : Tiled base size offset chunks) : offset ≤ size := by
  induction chunks generalizing offset with
  | nil => exact Nat.le_of_eq tiled
  | cons chunk rest ih =>
    have later := ih tiled.2.2.2
    omega

theorem Tiled.member {chunks : List Chunk} (tiled : Tiled base size offset chunks) :
    ∀ chunk ∈ chunks, chunk.addr = base + chunk.offset ∧ chunk.addr % chunk.width.bytes = 0 := by
  induction chunks generalizing offset with
  | nil => simp
  | cons first rest ih =>
    obtain ⟨here, placed, aligned, later⟩ := tiled
    intro chunk member
    rcases List.mem_cons.mp member with rfl | member
    · exact ⟨by rw [placed, here], aligned⟩
    · exact ih later chunk member

theorem Tiled.covers {chunks : List Chunk} (tiled : Tiled base size offset chunks) {j : Nat} (after : offset ≤ j)
    (inside : j < size) : ∃ chunk ∈ chunks, chunk.offset ≤ j ∧ j < chunk.offset + chunk.width.bytes := by
  induction chunks generalizing offset with
  | nil =>
    have done : offset = size := tiled
    omega
  | cons first rest ih =>
    obtain ⟨here, -, -, later⟩ := tiled
    by_cases early : j < offset + first.width.bytes
    · exact ⟨first, List.mem_cons_self .., by omega, by omega⟩
    · obtain ⟨chunk, member, found⟩ := ih later (by omega)
      exact ⟨chunk, List.mem_cons_of_mem _ member, found⟩

/-! ### Writes -/

theorem execRegister_read (memory : ByteMemory) {width : Width} {addr : Nat} (aligned : addr % width.bytes = 0) :
    execRegister memory (.read width addr) = (memory, .ok (.int (combine (memory.read addr width.bytes)))) := by
  have good : (RegisterOp.read width addr).Aligned := aligned
  rw [execRegister, if_pos good]

theorem execRegister_write (memory : ByteMemory) {width : Width} {addr : Nat} (data : Nat)
    (aligned : addr % width.bytes = 0) :
    execRegister memory (.write width addr data) = (memory.write addr (split data width.bytes), .ok .none) := by
  have good : (RegisterOp.write width addr data).Aligned := aligned
  rw [execRegister, if_pos good]

theorem lowerRegisterOps_append (memory : ByteMemory) (front back : List RegisterOp) :
    lowerRegisterOps memory (front ++ back) =
      ((lowerRegisterOps (lowerRegisterOps memory front).1 back).1,
        (lowerRegisterOps memory front).2 ++ (lowerRegisterOps (lowerRegisterOps memory front).1 back).2) := by
  induction front generalizing memory with
  | nil => rfl
  | cons op front ih => simp only [List.cons_append, lowerRegisterOps, ih]

theorem length_lowerRegisterOps (memory : ByteMemory) (ops : List RegisterOp) :
    (lowerRegisterOps memory ops).2.length = ops.length := by
  induction ops generalizing memory with
  | nil => rfl
  | cons op ops ih => rw [lowerRegisterOps, List.length_cons, List.length_cons, ih]

theorem writes_run {data : Bytes} {chunks : List Chunk} (tiled : Tiled base data.length offset chunks)
    (memory : ByteMemory) :
    lowerRegisterOps memory (chunks.map fun chunk => .write chunk.width chunk.addr
      (combine ((data.drop chunk.offset).take chunk.width.bytes))) =
      (memory.write (base + offset) (data.drop offset), List.replicate chunks.length (.ok .none)) := by
  induction chunks generalizing offset memory with
  | nil =>
    have done : offset = data.length := tiled
    rw [done, List.drop_length, ByteMemory.write_nil]
    rfl
  | cons chunk rest ih =>
    obtain ⟨here, placed, aligned, later⟩ := tiled
    have room := later.inside
    have length : ((data.drop offset).take chunk.width.bytes).length = chunk.width.bytes := by
      rw [List.length_take, List.length_drop]
      omega
    have stored : split (combine ((data.drop offset).take chunk.width.bytes)) chunk.width.bytes =
        (data.drop offset).take chunk.width.bytes := by
      have roundTrip := split_combine ((data.drop offset).take chunk.width.bytes)
      rwa [length] at roundTrip
    have written : memory.write (base + offset) (data.drop offset) =
        (memory.write (base + offset) ((data.drop offset).take chunk.width.bytes)).write
          (base + (offset + chunk.width.bytes)) (data.drop (offset + chunk.width.bytes)) := by
      have parts := ByteMemory.write_append memory (base + offset) ((data.drop offset).take chunk.width.bytes)
        (data.drop (offset + chunk.width.bytes))
      rw [length, ← List.drop_drop, List.take_append_drop, Nat.add_assoc] at parts
      rw [parts, List.drop_drop]
    rw [List.map_cons, lowerRegisterOps, execRegister_write memory _ aligned]
    dsimp only
    rw [here, ih later, stored, placed, written]
    rfl

theorem writeOps_run (memory : ByteMemory) (addr : Nat) (data : Bytes) :
    lowerRegisterOps memory ((writeOps addr data).map Triple.op) =
      (memory.write addr data, List.replicate (writeOps addr data).length (.ok .none)) := by
  have ran := writes_run (chunks_tiled addr data.length) memory
  rw [Nat.add_zero, List.drop_zero] at ran
  rw [writeOps, List.map_map, List.length_map, ← ran]
  rfl

/-! ### Reads -/

/-- An aligned read at the place of the blob that the triple names. -/
def Triple.ReadsAt (addr : Nat) (triple : Triple) : Prop :=
  ∃ width spot, triple.op = .read width spot ∧ spot % width.bytes = 0 ∧ triple.size = width.bytes ∧
    (spot : Int) = addr + triple.offset

theorem readOps_readsAt (mode : Decomposition) (addr size : Nat) :
    ∀ triple ∈ mode.readOps addr size, triple.ReadsAt addr := by
  cases mode with
  | precise =>
    intro triple member
    obtain ⟨chunk, inside, rfl⟩ := List.mem_map.mp member
    obtain ⟨placed, aligned⟩ := (chunks_tiled addr size).member chunk inside
    refine ⟨chunk.width, chunk.addr, rfl, aligned, rfl, ?_⟩
    rw [placed]
    push_cast
    rfl
  | overwide =>
    intro triple member
    by_cases empty : size = 0
    · rw [Decomposition.readOps, if_pos empty] at member
      cases member
    · rw [Decomposition.readOps, if_neg empty] at member
      obtain ⟨k, -, rfl⟩ := List.mem_map.mp member
      refine ⟨.word, addr / 4 * 4 + 4 * k, rfl, ?_, rfl, ?_⟩
      · show (addr / 4 * 4 + 4 * k) % 4 = 0
        omega
      · show ((addr / 4 * 4 + 4 * k : Nat) : Int) = addr + ((addr / 4 * 4 + 4 * k : Nat) - (addr : Int))
        omega

theorem readOps_covers (mode : Decomposition) (addr size : Nat) {j : Nat} (inside : j < size) :
    ∃ triple ∈ mode.readOps addr size, triple.offset ≤ j ∧ (j : Int) < triple.offset + triple.size := by
  cases mode with
  | precise =>
    obtain ⟨chunk, member, first, last⟩ := (chunks_tiled addr size).covers (Nat.zero_le j) inside
    refine ⟨_, List.mem_map.mpr ⟨chunk, member, rfl⟩, ?_, ?_⟩
    · show (chunk.offset : Int) ≤ j
      omega
    · show (j : Int) < chunk.offset + chunk.width.bytes
      omega
  | overwide =>
    refine ⟨⟨read32 (addr / 4 * 4 + 4 * ((addr + j) / 4 - addr / 4)),
      (addr / 4 * 4 + 4 * ((addr + j) / 4 - addr / 4) : Nat) - (addr : Int), 4⟩, ?_, ?_, ?_⟩
    · unfold Decomposition.readOps
      rw [if_neg (by omega)]
      refine List.mem_map.mpr ⟨(addr + j) / 4 - addr / 4, List.mem_range.mpr ?_, rfl⟩
      omega
    · show ((addr / 4 * 4 + 4 * ((addr + j) / 4 - addr / 4) : Nat) : Int) - (addr : Int) ≤ j
      omega
    · show (j : Int) < ((addr / 4 * 4 + 4 * ((addr + j) / 4 - addr / 4) : Nat) : Int) - (addr : Int) + 4
      omega

/-- What a read completes with. -/
def Triple.outcome (memory : ByteMemory) (addr : Nat) (triple : Triple) : Except Error Result :=
  .ok (.int (combine (memory.read (addr + triple.offset).toNat triple.size)))

theorem reads_run (memory : ByteMemory) (addr : Nat) {triples : List Triple}
    (reads : ∀ triple ∈ triples, triple.ReadsAt addr) :
    lowerRegisterOps memory (triples.map Triple.op) = (memory, triples.map (Triple.outcome memory addr)) := by
  induction triples with
  | nil => rfl
  | cons triple triples ih =>
    obtain ⟨width, spot, op, aligned, size, located⟩ := reads triple (List.mem_cons_self ..)
    have found : (addr + triple.offset).toNat = spot := by omega
    rw [List.map_cons, List.map_cons, lowerRegisterOps, op, execRegister_read memory aligned]
    dsimp only
    rw [ih fun other member => reads other (List.mem_cons_of_mem _ member), Triple.outcome, size, found]

/-! ### Putting a blob together -/

theorem place_spec {buf raw : Bytes} (spot : Int) {width : Nat} (length : buf.length = size)
    (bytes : raw.length = width) :
    (place size buf spot width raw).length = size ∧ ∀ j < size,
      (place size buf spot width raw)[j]? =
        if spot ≤ j ∧ (j : Int) < spot + width then raw[(j - spot).toNat]? else buf[j]? := by
  obtain ⟨lo, first⟩ : ∃ lo, lo = (max 0 spot).toNat := ⟨_, rfl⟩
  obtain ⟨hi, last⟩ : ∃ hi, hi = (min (size : Int) (spot + width)).toNat := ⟨_, rfl⟩
  unfold place
  dsimp only
  rw [← first, ← last]
  by_cases outside : hi ≤ lo
  · rw [if_pos outside]
    refine ⟨length, ?_⟩
    intro j inside
    rw [if_neg (by omega)]
  · rw [if_neg outside]
    have front : (buf.take lo).length = lo := by
      rw [List.length_take]
      omega
    have middle : ((raw.take (hi - spot).toNat).drop (lo - spot).toNat).length = hi - lo := by
      rw [List.length_drop, List.length_take]
      omega
    refine ⟨?_, ?_⟩
    · rw [List.length_append, List.length_append, front, middle, List.length_drop]
      omega
    · intro j inside
      rw [List.append_assoc]
      by_cases before : j < lo
      · rw [List.getElem?_append_left (by omega), List.getElem?_take_of_lt before, if_neg (by omega)]
      · rw [List.getElem?_append_right (by omega), front]
        by_cases within : j < hi
        · rw [List.getElem?_append_left (by omega), List.getElem?_drop, List.getElem?_take_of_lt (by omega),
            if_pos (by omega)]
          congr 1
          omega
        · rw [List.getElem?_append_right (by omega), middle, List.getElem?_drop, if_neg (by omega)]
          congr 1
          omega

/-- An access that was completed with the bytes of its place in the blob. -/
def Delivered (memory : ByteMemory) (addr : Nat) (futures : Futures) (outcomes : List (Except Error Result))
    (entry : Int × Nat × Nat) : Prop :=
  0 ≤ addr + entry.1 ∧ futures.result outcomes entry.2.2 =
    .ok (.int (combine (memory.read (addr + entry.1).toNat entry.2.1)))

/-- The same, whether as a number or as bytes. -/
def Answered (memory : ByteMemory) (addr : Nat) (futures : Futures) (outcomes : List (Except Error Result))
    (entry : Int × Nat × Nat) : Prop :=
  0 ≤ addr + entry.1 ∧ ∃ result, futures.result outcomes entry.2.2 = .ok result ∧
    rawBytes entry.2.1 result = .ok (memory.read (addr + entry.1).toNat entry.2.1)

theorem Delivered.answered {memory : ByteMemory} {addr : Nat} {futures : Futures}
    {outcomes : List (Except Error Result)} {entry : Int × Nat × Nat}
    (delivered : Delivered memory addr futures outcomes entry) : Answered memory addr futures outcomes entry := by
  have small := combine_lt (memory.read (addr + entry.1).toNat entry.2.1)
  have whole := split_combine (memory.read (addr + entry.1).toNat entry.2.1)
  rw [ByteMemory.length_read] at small whole
  exact ⟨delivered.1, _, delivered.2, by rw [rawBytes, if_pos small, whole]⟩

theorem assemble_answered {memory : ByteMemory} {addr : Nat} {futures : Futures}
    {outcomes : List (Except Error Result)} {entries : List (Int × Nat × Nat)} {buf : Bytes}
    (answered : ∀ entry ∈ entries, Answered memory addr futures outcomes entry) (length : buf.length = size)
    (known : ∀ j < size, buf[j]? = some (memory (addr + j)) ∨
      ∃ entry ∈ entries, entry.1 ≤ j ∧ (j : Int) < entry.1 + entry.2.1) :
    assemble futures outcomes size buf entries = .ok (memory.read addr size) := by
  induction entries generalizing buf with
  | nil =>
    rw [assemble]
    congr 1
    apply List.ext_getElem?
    intro j
    by_cases inside : j < size
    · rcases known j inside with same | ⟨entry, none, -⟩
      · rw [same, ByteMemory.getElem?_read memory addr inside]
      · cases none
    · rw [List.getElem?_eq_none (by omega), List.getElem?_eq_none (by rw [ByteMemory.length_read]; omega)]
  | cons entry entries ih =>
    obtain ⟨located, result, ended, raw⟩ := answered entry (List.mem_cons_self ..)
    have later : ∀ other ∈ entries, Answered memory addr futures outcomes other :=
      fun other member => answered other (List.mem_cons_of_mem _ member)
    have elsewhere (j : Nat) (covered : ∃ other ∈ entry :: entries, other.1 ≤ j ∧ (j : Int) < other.1 + other.2.1)
        (outside : ¬(entry.1 ≤ j ∧ (j : Int) < entry.1 + entry.2.1)) :
        ∃ other ∈ entries, other.1 ≤ j ∧ (j : Int) < other.1 + other.2.1 := by
      obtain ⟨other, member, found⟩ := covered
      rcases List.mem_cons.mp member with rfl | member
      · exact (outside found).elim
      · exact ⟨other, member, found⟩
    obtain ⟨spot, width, position⟩ := entry
    rw [assemble]
    split
    · rename_i empty
      apply ih later length
      intro j inside
      exact (known j inside).imp_right fun covered => elsewhere j covered (by dsimp only; omega)
    · dsimp only at ended raw
      obtain ⟨sameLength, bytes⟩ := place_spec spot length
        (ByteMemory.length_read memory (addr + spot).toNat width)
      rw [ended]
      change (rawBytes width result >>= _) = _
      rw [raw]
      apply ih later sameLength
      intro j inside
      rw [bytes j inside]
      by_cases here : spot ≤ j ∧ (j : Int) < spot + width
      · left
        rw [if_pos here, ByteMemory.getElem?_read memory _ (by omega)]
        congr 2
        dsimp only at located
        omega
      · rw [if_neg here]
        exact (known j inside).imp_right fun covered => elsewhere j covered here

theorem assemble_delivered {memory : ByteMemory} {addr : Nat} {futures : Futures}
    {outcomes : List (Except Error Result)} {entries : List (Int × Nat × Nat)} {buf : Bytes}
    (delivered : ∀ entry ∈ entries, Delivered memory addr futures outcomes entry) (length : buf.length = size)
    (known : ∀ j < size, buf[j]? = some (memory (addr + j)) ∨
      ∃ entry ∈ entries, entry.1 ≤ j ∧ (j : Int) < entry.1 + entry.2.1) :
    assemble futures outcomes size buf entries = .ok (memory.read addr size) :=
  assemble_answered (fun entry member => (delivered entry member).answered) length known

/-! ### Completion -/

section
variable {lowered : List Lowered} {outcomes : List (Except Error Result)} {i : Nat}

/-- Nobody who waits at the position is the one of the given place in the batch. -/
def Apart (lowered : List Lowered) (i position : Nat) : Prop :=
  ∀ op waiter, lowered[position]? = some (op, some waiter) → waiter ≠ .user i ∧ waiter ≠ .blob i

theorem resolve_other (outcomes : List (Except Error Result)) {futures : Futures} {j : Nat} {pending : PendingBlob}
    (other : i ≠ j) :
    (resolve futures outcomes j pending).users i = futures.users i ∧
      (resolve futures outcomes j pending).pendings i = futures.pendings i := by
  unfold resolve
  repeat' split
  all_goals simp [Futures.setUser, other]

theorem onDone_other {futures : Futures} {j position : Nat} (other : i ≠ j) :
    (onDone futures outcomes j position).users i = futures.users i ∧
      (onDone futures outcomes j position).pendings i = futures.pendings i := by
  unfold onDone
  cases futures.pendings j with
  | none => exact ⟨rfl, rfl⟩
  | some pending =>
    dsimp only
    split
    · obtain ⟨users, pendings⟩ := resolve_other outcomes other
      exact ⟨users, pendings.trans (by simp [Futures.setPending, other])⟩
    · exact ⟨rfl, by simp [Futures.setPending, other]⟩

theorem complete_apart (outcomes : List (Except Error Result)) (futures : Futures) {position : Nat} (apart : Apart lowered i position) :
    (complete lowered outcomes futures position).users i = futures.users i ∧
      (complete lowered outcomes futures position).pendings i = futures.pendings i := by
  unfold complete
  dsimp only
  split
  · rename_i op j _ named _
    have different := (apart op _ named).1
    have other : i ≠ j := by
      rintro rfl
      exact different rfl
    exact ⟨by simp [Futures.setUser, other], rfl⟩
  · rename_i op j named
    have different := (apart op _ named).2
    have other : i ≠ j := by
      rintro rfl
      exact different rfl
    exact onDone_other other
  · exact ⟨rfl, rfl⟩

theorem resolve_done (futures : Futures) (j : Nat) (pending : PendingBlob) :
    (resolve futures outcomes j pending).done = futures.done := by
  unfold resolve
  repeat' split
  all_goals rfl

theorem complete_done (futures : Futures) (position p : Nat) :
    (complete lowered outcomes futures position).done p = if p = position then true else futures.done p := by
  unfold complete
  dsimp only
  split
  · rfl
  · unfold onDone
    split
    · rfl
    · dsimp only
      split
      · rw [resolve_done]
        rfl
      · rfl
  · rfl

theorem completions_apart (futures : Futures) {order : List Nat} (apart : ∀ position ∈ order, Apart lowered i position) :
    (order.foldl (complete lowered outcomes) futures).users i = futures.users i := by
  induction order generalizing futures with
  | nil => rfl
  | cons position order ih =>
    rw [List.foldl_cons, ih _ fun other member => apart other (List.mem_cons_of_mem _ member)]
    exact (complete_apart outcomes futures (apart position (List.mem_cons_self ..))).1

theorem completions_user (futures : Futures) {order : List Nat} {position : Nat} {op : RegisterOp}
    {outcome : Except Error Result} (named : lowered[position]? = some (op, some (.user i)))
    (ended : outcomes[position]? = some outcome)
    (apart : ∀ other ∈ order, other ≠ position → Apart lowered i other)
    (completed : position ∈ order ∨ futures.users i = some outcome) :
    (order.foldl (complete lowered outcomes) futures).users i = some outcome := by
  induction order generalizing futures with
  | nil => exact completed.resolve_left (by simp)
  | cons first order ih =>
    apply ih _ fun other member => apart other (List.mem_cons_of_mem _ member)
    by_cases here : first = position
    · right
      subst here
      unfold complete
      rw [named, ended]
      simp [Futures.setUser]
    · rw [(complete_apart outcomes futures (apart first (List.mem_cons_self ..) here)).1]
      exact completed.imp_left fun member => (List.mem_cons.mp member).resolve_left (Ne.symm here)

/-- The futures with one more access done and the blob waiting for one fewer. -/
def Futures.counted (futures : Futures) (i position remaining : Nat) (pending : PendingBlob) : Futures :=
  { futures with done := fun p => if p = position then true else futures.done p }.setPending i
    { pending with remaining := remaining, exception := .none }

theorem complete_own {futures : Futures} {position remaining : Nat} {op : RegisterOp} {pending : PendingBlob}
    {answer : Result} (named : lowered[position]? = some (op, some (.blob i)))
    (ended : outcomes[position]? = some (.ok answer))
    (waiting : futures.pendings i = some { pending with remaining := remaining + 1, exception := .none }) :
    complete lowered outcomes futures position =
      if remaining = 0 then resolve (futures.counted i position remaining pending) outcomes i
        { pending with remaining := remaining, exception := .none }
      else futures.counted i position remaining pending := by
  have answered : Futures.result { futures with done := fun p => if p = position then true else futures.done p }
      outcomes position = .ok answer := by
    unfold Futures.result
    dsimp only
    rw [if_pos rfl, ended]
  unfold complete
  dsimp only
  rw [named]
  dsimp only
  unfold onDone
  dsimp only
  rw [waiting]
  dsimp only
  rw [answered]
  rfl

theorem resolve_assembled {futures : Futures} {pending : PendingBlob} {result : Result}
    (unresolved : futures.users i = .none) (clean : pending.exception = .none)
    (assembled : pending.isRead = true → ∃ buf, result = .bytes buf ∧
      assemble futures outcomes pending.size (List.replicate pending.size 0) pending.subFutures = .ok buf)
    (written : pending.isRead = false → result = .none) :
    (resolve futures outcomes i pending).users i = some (.ok result) := by
  unfold resolve
  rw [unresolved, clean]
  cases reading : pending.isRead with
  | false =>
    rw [written reading]
    simp [Futures.setUser]
  | true =>
    obtain ⟨buf, rfl, read⟩ := assembled reading
    rw [read]
    simp [Futures.setUser]

theorem completions_blob {own : Nat → Bool} {pending : PendingBlob} {result : Result} (order : List Nat)
    (futures : Futures) (remaining : Nat) (positive : 0 < remaining)
    (named : ∀ position, own position = true → ∃ op, lowered[position]? = some (op, some (.blob i)))
    (ended : ∀ position, own position = true → ∃ answer, outcomes[position]? = some (.ok answer))
    (apart : ∀ position ∈ order, own position = false → Apart lowered i position)
    (assembled : ∀ after : Futures, (∀ position, own position = true → after.done position = true) →
      pending.isRead = true → ∃ buf, result = .bytes buf ∧
        assemble after outcomes pending.size (List.replicate pending.size 0) pending.subFutures = .ok buf)
    (written : pending.isRead = false → result = .none)
    (waiting : futures.pendings i = some { pending with remaining := remaining, exception := .none })
    (unresolved : futures.users i = .none) (count : (order.filter own).length = remaining)
    (reached : ∀ position, own position = true → futures.done position = true ∨ position ∈ order) :
    (order.foldl (complete lowered outcomes) futures).users i = some (.ok result) := by
  induction order generalizing futures remaining with
  | nil =>
    rw [List.filter_nil, List.length_nil] at count
    omega
  | cons position order ih =>
    have later : ∀ other ∈ order, own other = false → Apart lowered i other :=
      fun other member => apart other (List.mem_cons_of_mem _ member)
    have reachedNext : ∀ other, own other = true →
        (complete lowered outcomes futures position).done other = true ∨ other ∈ order := by
      intro other mine
      rw [complete_done]
      rcases reached other mine with done | member
      · left
        split
        · rfl
        · exact done
      · rcases List.mem_cons.mp member with rfl | member
        · left
          rw [if_pos rfl]
        · exact .inr member
    rw [List.foldl_cons]
    cases mine : own position with
    | false =>
      rw [List.filter_cons_of_neg (by simp [mine])] at count
      obtain ⟨users, pendings⟩ := complete_apart outcomes futures
        (apart position (List.mem_cons_self ..) mine)
      exact ih _ remaining positive later (pendings.trans waiting) (users.trans unresolved) count reachedNext
    | true =>
      obtain ⟨op, here⟩ := named position mine
      obtain ⟨answer, answered⟩ := ended position mine
      rw [List.filter_cons_of_pos (by simp [mine]), List.length_cons] at count
      obtain ⟨less, rfl⟩ : ∃ less, remaining = less + 1 := ⟨remaining - 1, by omega⟩
      have counted := complete_own here answered waiting
      by_cases last : less = 0
      · have others : ∀ other ∈ order, own other = false := by
          intro other member
          cases twice : own other with
          | false => rfl
          | true =>
            have some := List.length_pos_of_mem (List.mem_filter.mpr ⟨member, twice⟩)
            omega
        rw [completions_apart _ fun other member => later other member (others other member)]
        rw [if_pos last] at counted
        have done : ∀ other, own other = true → (futures.counted i position less pending).done other = true := by
          intro other also
          rcases reachedNext other also with done | member
          · rwa [counted, resolve_done] at done
          · rw [others other member] at also
            cases also
        rw [counted]
        exact resolve_assembled unresolved rfl (assembled _ done) written
      · rw [if_neg last] at counted
        apply ih _ less (by omega) later _ _ (by omega) reachedNext
        · rw [counted, Futures.counted, Futures.setPending]
          simp
        · rw [counted]
          exact unresolved

end

/-! ### Batches -/

theorem mem_awaited {lowered : List Lowered} {position : Nat} :
    position ∈ awaited lowered ↔ ∃ op waiter, lowered[position]? = some (op, some waiter) := by
  unfold awaited
  rw [List.mem_filter, List.mem_range]
  constructor
  · rintro ⟨-, named⟩
    split at named
    · rename_i op waiter found
      exact ⟨op, waiter, found⟩
    · cases named
  · rintro ⟨op, waiter, found⟩
    refine ⟨(List.getElem?_eq_some_iff.mp found).1, ?_⟩
    rw [found]

theorem nodup_awaited (lowered : List Lowered) : (awaited lowered).Nodup :=
  List.Nodup.filter _ List.nodup_range

theorem length_window {lowered : List Lowered} {order : List Nat} {start count : Nat}
    (every : order.Perm (awaited lowered))
    (window : ∀ k < count, ∃ op waiter, lowered[start + k]? = some (op, some waiter)) :
    (order.filter fun position => decide (start ≤ position ∧ position < start + count)).length = count := by
  have perm : (order.filter fun position => decide (start ≤ position ∧ position < start + count)).Perm
      (List.range' start count) := by
    rw [List.perm_ext_iff_of_nodup ((every.nodup_iff.mpr (nodup_awaited lowered)).filter _) List.nodup_range']
    intro position
    rw [List.mem_filter, every.mem_iff, mem_awaited, List.mem_range'_1, decide_eq_true_eq]
    constructor
    · rintro ⟨-, inside⟩
      exact inside
    · intro inside
      refine ⟨?_, inside⟩
      obtain ⟨op, waiter, found⟩ := window (position - start) (by omega)
      rw [show start + (position - start) = position by omega] at found
      exact ⟨op, waiter, found⟩
  rw [perm.length_eq, List.length_range']

section
variable {mode : Decomposition} {futures : Futures} {i position : Nat} {op : Op} {wanted : Bool}

theorem expandBlob_waiters {size : Nat} {isRead : Bool} {triples : List Triple} :
    ∀ entry ∈ (expandBlob futures i position size isRead wanted triples).1, ∀ waiter, entry.2 = some waiter →
      waiter = .user i ∨ waiter = .blob i := by
  unfold expandBlob
  split
  · intro entry member waiter named
    obtain ⟨triple, -, rfl⟩ := List.mem_map.mp member
    cases named
  · split
    · rintro entry ⟨⟩
    · intro entry member waiter named
      obtain ⟨triple, -, rfl⟩ := List.mem_map.mp member
      cases named
      exact .inr rfl

theorem expandOp_waiters : ∀ entry ∈ (expandOp mode futures i position op wanted).1, ∀ waiter,
    entry.2 = some waiter → waiter = .user i ∨ waiter = .blob i := by
  cases op with
  | register op =>
    intro entry member waiter named
    rw [List.mem_singleton.mp member] at named
    dsimp only at named
    split at named
    · cases named
      exact .inl rfl
    · cases named
  | readBlob addr size => exact expandBlob_waiters
  | writeBlob addr data => exact expandBlob_waiters

theorem expandBlob_futures {size : Nat} {isRead : Bool} {triples : List Triple} :
    (expandBlob futures i position size isRead wanted triples).2.done = futures.done ∧ ∀ j, j ≠ i →
      (expandBlob futures i position size isRead wanted triples).2.users j = futures.users j ∧
      (expandBlob futures i position size isRead wanted triples).2.pendings j = futures.pendings j := by
  unfold expandBlob
  split
  · exact ⟨rfl, fun _ _ => ⟨rfl, rfl⟩⟩
  · split
    · exact ⟨rfl, fun j other => ⟨by simp [Futures.setUser, other], rfl⟩⟩
    · exact ⟨rfl, fun j other => ⟨rfl, by simp [Futures.setPending, other]⟩⟩

theorem expandOp_futures (mode : Decomposition) (futures : Futures) (i position : Nat) (op : Op) (wanted : Bool) :
    (expandOp mode futures i position op wanted).2.done = futures.done ∧ ∀ j, j ≠ i →
      (expandOp mode futures i position op wanted).2.users j = futures.users j ∧
    (expandOp mode futures i position op wanted).2.pendings j = futures.pendings j := by
  cases op with
  | register op => exact ⟨rfl, fun _ _ => ⟨rfl, rfl⟩⟩
  | readBlob addr size => exact expandBlob_futures
  | writeBlob addr data => exact expandBlob_futures

theorem flushFrom_waiters (batch : List (Op × Bool)) (i position : Nat) (futures : Futures) :
    ∀ entry ∈ (flushFrom mode i position futures batch).1, ∀ waiter, entry.2 = some waiter →
      ∃ j, i ≤ j ∧ (waiter = .user j ∨ waiter = .blob j) := by
  induction batch generalizing i position futures with
  | nil => rintro entry ⟨⟩
  | cons first batch ih =>
    intro entry member waiter named
    rcases List.mem_append.mp member with member | member
    · exact ⟨i, Nat.le_refl i, expandOp_waiters entry member waiter named⟩
    · obtain ⟨j, after, found⟩ := ih (i + 1) _ _ entry member waiter named
      exact ⟨j, by omega, found⟩

theorem flushFrom_futures (mode : Decomposition) (batch : List (Op × Bool)) (i position : Nat) (futures : Futures) :
    (flushFrom mode i position futures batch).2.done = futures.done ∧ ∀ j, j < i →
      (flushFrom mode i position futures batch).2.users j = futures.users j ∧
      (flushFrom mode i position futures batch).2.pendings j = futures.pendings j := by
  induction batch generalizing i position futures with
  | nil => exact ⟨rfl, fun _ _ => ⟨rfl, rfl⟩⟩
  | cons first batch ih =>
    obtain ⟨op, wanted⟩ := first
    obtain ⟨done, others⟩ := expandOp_futures mode futures i position op wanted
    obtain ⟨laterDone, laterOthers⟩ := ih (i + 1)
      (position + (expandOp mode futures i position op wanted).1.length) (expandOp mode futures i position op wanted).2
    refine ⟨laterDone.trans done, ?_⟩
    intro j before
    obtain ⟨users, pendings⟩ := laterOthers j (by omega)
    obtain ⟨sameUsers, samePendings⟩ := others j (by omega)
    exact ⟨users.trans sameUsers, pendings.trans samePendings⟩

end

def Op.Aligned : Op → Prop
  | .register op => op.Aligned
  | _ => True

theorem blob_served {lowered : List Lowered} {outcomes : List (Except Error Result)} {order : List Nat}
    {futures : Futures} {i position size : Nat} {isRead : Bool} {triples : List Triple} {result : Result}
    (every : order.Perm (awaited lowered)) (nonempty : triples ≠ [])
    (named : ∀ k < triples.length, ∃ op, lowered[position + k]? = some (op, some (.blob i)))
    (ended : ∀ k < triples.length, ∃ answer, outcomes[position + k]? = some (.ok answer))
    (apart : ∀ p, ¬(position ≤ p ∧ p < position + triples.length) → Apart lowered i p)
    (assembled : ∀ after : Futures, (∀ k < triples.length, after.done (position + k) = true) → isRead = true →
      ∃ buf, result = .bytes buf ∧ assemble after outcomes size (List.replicate size 0)
        (attach size isRead position triples).subFutures = .ok buf)
    (written : isRead = false → result = .none)
    (waiting : futures.pendings i = some (attach size isRead position triples))
    (unresolved : futures.users i = .none) :
    (order.foldl (complete lowered outcomes) futures).users i = some (.ok result) := by
  have place {p : Nat} (own : decide (position ≤ p ∧ p < position + triples.length) = true) :
      ∃ k < triples.length, p = position + k := by
    have inside := of_decide_eq_true own
    exact ⟨p - position, by omega, by omega⟩
  have counted : futures.pendings i = some { attach size isRead position triples with
      remaining := triples.length, exception := .none } := waiting
  apply completions_blob order futures triples.length (List.length_pos_of_ne_nil nonempty) _ _
    (fun p _ outside => apart p (of_decide_eq_false outside)) _ written counted unresolved
    (length_window every fun k small => (named k small).imp fun op found => ⟨_, found⟩)
  · intro p own
    obtain ⟨k, small, rfl⟩ := place own
    obtain ⟨op, found⟩ := named k small
    exact .inr (every.mem_iff.mpr (mem_awaited.mpr ⟨op, _, found⟩))
  · intro p own
    obtain ⟨k, small, rfl⟩ := place own
    exact named k small
  · intro p own
    obtain ⟨k, small, rfl⟩ := place own
    exact ended k small
  · intro after done
    apply assembled after
    intro k small
    exact done (position + k) (decide_eq_true ⟨by omega, by omega⟩)

theorem getElem?_between {α : Type} {front here back : List α} {k : Nat} (inside : k < here.length) :
    (front ++ (here ++ back))[front.length + k]? = here[k]? := by
  rw [List.getElem?_append_right (by omega), Nat.add_sub_cancel_left, List.getElem?_append_left inside]

theorem getElem?_first {α : Type} (front here back : List α) (nonempty : 0 < here.length) :
    (front ++ (here ++ back))[front.length]? = here[0]? := by
  rw [List.getElem?_append_right (Nat.le_refl _), Nat.sub_self, List.getElem?_append_left nonempty]

/-- Those who wait in a list are not the one of the given place. -/
def AllApart (i : Nat) (entries : List Lowered) : Prop :=
  ∀ entry ∈ entries, ∀ waiter, entry.2 = some waiter → waiter ≠ .user i ∧ waiter ≠ .blob i

theorem apart_outside {i position : Nat} {front here back : List Lowered} (before : AllApart i front)
    (after : AllApart i back) (outside : ¬(front.length ≤ position ∧ position < front.length + here.length)) :
    Apart (front ++ (here ++ back)) i position := by
  intro op waiter found
  by_cases early : position < front.length
  · rw [List.getElem?_append_left early] at found
    exact before _ (List.mem_of_getElem? found) waiter rfl
  · rw [List.getElem?_append_right (by omega), List.getElem?_append_right (by omega)] at found
    exact after _ (List.mem_of_getElem? found) waiter rfl

theorem readBlob_assembled {memory : ByteMemory} {mode : Decomposition} {addr size position : Nat} {after : Futures}
    {outcomes : List (Except Error Result)}
    (ended : ∀ k (small : k < (mode.readOps addr size).length), outcomes[position + k]? =
      some (((mode.readOps addr size).get ⟨k, small⟩).outcome memory addr))
    (done : ∀ k < (mode.readOps addr size).length, after.done (position + k) = true) :
    assemble after outcomes size (List.replicate size 0)
      (attach size true position (mode.readOps addr size)).subFutures = .ok (memory.read addr size) := by
  apply assemble_delivered _ List.length_replicate
  · intro j inside
    right
    obtain ⟨triple, member, first, last⟩ := readOps_covers mode addr size inside
    obtain ⟨k, small, rfl⟩ := List.mem_iff_getElem.mp member
    exact ⟨_, List.mem_mapIdx.mpr ⟨k, small, rfl⟩, first, last⟩
  · intro entry member
    obtain ⟨k, small, rfl⟩ := List.mem_mapIdx.mp member
    obtain ⟨width, spot, -, -, -, located⟩ := readOps_readsAt mode addr size _ (List.getElem_mem small)
    refine ⟨by dsimp only; omega, ?_⟩
    unfold Futures.result
    dsimp only
    rw [done k small, ended k small]
    rfl

theorem blob_entry_served {front back : List Lowered} {frontOut backOut : List (Except Error Result)} {order : List Nat}
    {futures final : Futures} {i size : Nat} {isRead wanted : Bool} {triples : List Triple} {result : Result}
    {answers : List (Except Error Result)} (lengths : frontOut.length = front.length)
    (before : AllApart i front) (after : AllApart i back) (unresolved : futures.users i = .none)
    (users : final.users i = (expandBlob futures i front.length size isRead wanted triples).2.users i)
    (pendings : final.pendings i = (expandBlob futures i front.length size isRead wanted triples).2.pendings i)
    (every : order.Perm
      (awaited (front ++ ((expandBlob futures i front.length size isRead wanted triples).1 ++ back))))
    (answered : answers.length = triples.length) (ended : ∀ answer ∈ answers, ∃ value, answer = .ok value)
    (empty : triples = [] → result = if isRead then .bytes [] else .none)
    (assembled : ∀ later : Futures, (∀ k < triples.length, later.done (front.length + k) = true) → isRead = true →
      ∃ buf, result = .bytes buf ∧ assemble later (frontOut ++ (answers ++ backOut)) size (List.replicate size 0)
        (attach size isRead front.length triples).subFutures = .ok buf)
    (written : isRead = false → result = .none) :
    (order.foldl (complete (front ++ ((expandBlob futures i front.length size isRead wanted triples).1 ++ back))
      (frontOut ++ (answers ++ backOut))) final).users i = if wanted then some (.ok result) else .none := by
  cases wanted with
  | false =>
    have quiet : expandBlob futures i front.length size isRead false triples =
        (triples.map fun triple => (triple.op, .none), futures) := if_pos rfl
    rw [quiet] at users ⊢
    dsimp only
    rw [completions_apart, users]
    · exact unresolved
    · intro position _
      by_cases outside : front.length ≤ position ∧
          position < front.length + (triples.map fun triple => ((triple.op, .none) : Lowered)).length
      · intro op waiter found
        rw [show position = front.length + (position - front.length) by omega,
          getElem?_between (by omega), List.getElem?_map] at found
        obtain ⟨triple, -, same⟩ := Option.map_eq_some_iff.mp found
        cases same
      · exact apart_outside before after outside
  | true =>
    by_cases none : triples = []
    · have immediate : expandBlob futures i front.length size isRead true triples =
          ([], futures.setUser i (.ok (if isRead then .bytes [] else .none))) := by
        rw [expandBlob, if_neg (by decide), if_pos none]
      rw [immediate] at users ⊢
      rw [completions_apart, users, empty none]
      · simp [Futures.setUser]
      · intro position _
        exact apart_outside before after (by simp)
    · have pending : expandBlob futures i front.length size isRead true triples =
          (triples.map fun triple => (triple.op, some (.blob i)),
            futures.setPending i (attach size isRead front.length triples)) := by
        rw [expandBlob, if_neg (by decide), if_neg none]
      rw [pending] at users pendings every ⊢
      apply blob_served every none _ _ _ assembled written
      · rw [pendings]
        simp [Futures.setPending]
      · rw [users]
        exact unresolved
      · intro k small
        rw [getElem?_between (by rw [List.length_map]; exact small), List.getElem?_map,
          List.getElem?_eq_getElem small]
        exact ⟨_, rfl⟩
      · intro k small
        rw [← lengths, getElem?_between (by omega), List.getElem?_eq_getElem (by omega)]
        obtain ⟨value, same⟩ := ended _ (List.getElem_mem (show k < answers.length by omega))
        exact ⟨value, by rw [same]⟩
      · intro position outside
        exact apart_outside before after (by rw [List.length_map]; exact outside)

theorem expandBlob_ops {futures : Futures} {i position size : Nat} {isRead wanted : Bool} {triples : List Triple} :
    (expandBlob futures i position size isRead wanted triples).1.map Prod.fst = triples.map Triple.op := by
  unfold expandBlob
  split
  · rw [List.map_map]
    rfl
  · split
    · rename_i none
      rw [none]
      rfl
    · rw [List.map_map]
      rfl

/-- The accesses of one operation do to the memory what the operation does. -/
theorem expandOp_run (mode : Decomposition) (memory : ByteMemory) (futures : Futures) (i position : Nat) {op : Op}
    (wanted : Bool) (aligned : op.Aligned) :
    (lowerRegisterOps memory ((expandOp mode futures i position op wanted).1.map Prod.fst)).1 =
      (exec memory op).1 := by
  cases op with
  | register op =>
    cases op with
    | read width addr =>
      show (execRegister memory (.read width addr)).1 = _
      rw [execRegister_read memory aligned]
      rfl
    | write width addr data =>
      show (execRegister memory (.write width addr data)).1 = _
      rw [execRegister_write memory data aligned]
      rfl
  | readBlob addr size => rw [expandOp, expandBlob_ops, reads_run memory addr (readOps_readsAt mode addr size), exec]
  | writeBlob addr data => rw [expandOp, expandBlob_ops, writeOps_run, exec]

theorem readOps_nil {mode : Decomposition} {addr size : Nat} (none : mode.readOps addr size = []) : size = 0 := by
  rcases Nat.eq_zero_or_pos size with zero | positive
  · exact zero
  · obtain ⟨triple, member, -⟩ := readOps_covers mode addr size positive
    rw [none] at member
    cases member

/-- The caller of one operation gets its result, wherever the operation stands in the stream. -/
theorem expandOp_served {mode : Decomposition} {memory : ByteMemory} {front back : List Lowered}
    {frontOut backOut : List (Except Error Result)} {order : List Nat} {futures final : Futures} {i : Nat} {op : Op}
    {wanted : Bool} (aligned : op.Aligned) (lengths : frontOut.length = front.length)
    (before : AllApart i front) (after : AllApart i back) (unresolved : futures.users i = .none)
    (users : final.users i = (expandOp mode futures i front.length op wanted).2.users i)
    (pendings : final.pendings i = (expandOp mode futures i front.length op wanted).2.pendings i)
    (every : order.Perm (awaited (front ++ ((expandOp mode futures i front.length op wanted).1 ++ back)))) :
    (order.foldl (complete (front ++ ((expandOp mode futures i front.length op wanted).1 ++ back))
      (frontOut ++ ((lowerRegisterOps memory
        ((expandOp mode futures i front.length op wanted).1.map Prod.fst)).2 ++ backOut))) final).users i =
      if wanted then some (.ok (exec memory op).2) else .none := by
  cases op with
  | register op =>
    have answered : execRegister memory op = ((exec memory (.register op)).1, .ok (exec memory (.register op)).2) := by
      cases op with
      | read width addr => exact execRegister_read memory aligned
      | write width addr data => exact execRegister_write memory data aligned
    have ended : (frontOut ++ ((lowerRegisterOps memory
        ((expandOp mode futures i front.length (.register op) wanted).1.map Prod.fst)).2 ++ backOut))[front.length]? =
        some (.ok (exec memory (.register op)).2) := by
      rw [← lengths, getElem?_first _ _ _ (by exact Nat.one_pos)]
      show some (execRegister memory op).2 = _
      rw [answered]
    cases wanted with
    | false =>
      rw [completions_apart, users]
      · exact unresolved
      · intro position _
        by_cases here : position = front.length
        · subst here
          intro lowered waiter found
          rw [getElem?_first _ _ _ (by exact Nat.one_pos)] at found
          cases found
        · refine apart_outside before after ?_
          show ¬(front.length ≤ position ∧ position < front.length + 1)
          omega
    | true =>
      have named := getElem?_first front (expandOp mode futures i front.length (.register op) true).1 back Nat.one_pos
      refine completions_user final named ended ?_ (.inl (every.mem_iff.mpr (mem_awaited.mpr ⟨_, _, named⟩)))
      intro other _ elsewhere
      refine apart_outside before after ?_
      show ¬(front.length ≤ other ∧ other < front.length + 1)
      omega
  | readBlob addr size =>
    have ran := reads_run memory addr (readOps_readsAt mode addr size)
    rw [expandOp] at users pendings every ⊢
    rw [expandBlob_ops, ran]
    apply blob_entry_served lengths before after unresolved users pendings every
    · rw [List.length_map]
    · intro answer member
      obtain ⟨triple, -, rfl⟩ := List.mem_map.mp member
      exact ⟨_, rfl⟩
    · intro none
      rw [exec, readOps_nil none]
      rfl
    · intro later done _
      refine ⟨_, rfl, readBlob_assembled ?_ done⟩
      intro k small
      rw [← lengths, getElem?_between (by rw [List.length_map]; exact small), List.getElem?_map,
        List.getElem?_eq_getElem small]
      rfl
    · rintro ⟨⟩
  | writeBlob addr data =>
    have ran := writeOps_run memory addr data
    rw [expandOp] at users pendings every ⊢
    rw [expandBlob_ops, ran]
    apply blob_entry_served lengths before after unresolved users pendings every
    · rw [List.length_replicate]
    · intro answer member
      exact ⟨_, (List.mem_replicate.mp member).2⟩
    · intro _
      rfl
    · rintro later done ⟨⟩
    · intro _
      rfl

theorem flushFrom_served {mode : Decomposition} (batch : List (Op × Bool)) (aligned : ∀ entry ∈ batch, entry.1.Aligned)
    (i : Nat) (front : List Lowered) (frontOut : List (Except Error Result)) (memory : ByteMemory) (futures : Futures)
    (lengths : frontOut.length = front.length) (before : ∀ j, i ≤ j → AllApart j front)
    (unresolved : ∀ j, i ≤ j → futures.users j = .none) (order : List Nat)
    (every : order.Perm (awaited (front ++ (flushFrom mode i front.length futures batch).1))) :
    (lowerRegisterOps memory ((flushFrom mode i front.length futures batch).1.map Prod.fst)).1 =
      (execAll memory (batch.map Prod.fst)).1 ∧
    ∀ k op wanted result, batch[k]? = some (op, wanted) → (execAll memory (batch.map Prod.fst)).2[k]? = some result →
      (order.foldl (complete (front ++ (flushFrom mode i front.length futures batch).1)
        (frontOut ++ (lowerRegisterOps memory ((flushFrom mode i front.length futures batch).1.map Prod.fst)).2))
        (flushFrom mode i front.length futures batch).2).users (i + k) =
        if wanted then some (.ok result) else .none := by
  induction batch generalizing i front frontOut memory futures with
  | nil => exact ⟨rfl, by rintro k op wanted result ⟨⟩⟩
  | cons entry batch ih =>
    obtain ⟨op, wanted⟩ := entry
    have good := aligned (op, wanted) (List.mem_cons_self ..)
    have ran := expandOp_run mode memory futures i front.length wanted good
    obtain ⟨here, isHere⟩ : ∃ here, here = expandOp mode futures i front.length op wanted := ⟨_, rfl⟩
    obtain ⟨rest, isRest⟩ : ∃ rest, rest = flushFrom mode (i + 1) (front.length + here.1.length) here.2 batch := ⟨_, rfl⟩
    have whole : flushFrom mode i front.length futures ((op, wanted) :: batch) = (here.1 ++ rest.1, rest.2) := by
      rw [flushFrom, isRest, isHere]
    have joined := lowerRegisterOps_append memory (here.1.map Prod.fst) (rest.1.map Prod.fst)
    rw [← List.map_append] at joined
    rw [← isHere] at ran
    rw [ran] at joined
    rw [whole] at every ⊢
    dsimp only at every ⊢
    rw [List.map_cons, execAll, joined]
    dsimp only
    have waiters : ∀ entry ∈ here.1, ∀ waiter, entry.2 = some waiter → waiter = .user i ∨ waiter = .blob i := by
      rw [isHere]
      exact expandOp_waiters
    have others : ∀ j, i + 1 ≤ j → AllApart j (front ++ here.1) := by
      intro j after entry member waiter named
      rcases List.mem_append.mp member with member | member
      · exact before j (by omega) entry member waiter named
      · rcases waiters entry member waiter named with rfl | rfl
        · exact ⟨by rintro ⟨⟩; omega, by rintro ⟨⟩⟩
        · exact ⟨by rintro ⟨⟩, by rintro ⟨⟩; omega⟩
    have behind : AllApart i rest.1 := by
      intro entry member waiter named
      rw [isRest] at member
      obtain ⟨j, after, rfl | rfl⟩ := flushFrom_waiters batch (i + 1) _ here.2 entry member waiter named
      · exact ⟨by rintro ⟨⟩; omega, by rintro ⟨⟩⟩
      · exact ⟨by rintro ⟨⟩, by rintro ⟨⟩; omega⟩
    have clear : ∀ j, i + 1 ≤ j → here.2.users j = .none := by
      intro j after
      rw [isHere, ((expandOp_futures mode futures i front.length op wanted).2 j (by omega)).1]
      exact unresolved j (by omega)
    have later := ih (fun other member => aligned other (List.mem_cons_of_mem _ member)) (i + 1) (front ++ here.1)
      (frontOut ++ (lowerRegisterOps memory (here.1.map Prod.fst)).2) (exec memory op).1 here.2
      (by rw [List.length_append, List.length_append, lengths, length_lowerRegisterOps, List.length_map]) others clear
    rw [List.length_append, ← isRest, List.append_assoc, List.append_assoc] at later
    obtain ⟨memories, served⟩ := later every
    refine ⟨memories, ?_⟩
    intro k op' wanted' result found expected
    cases k with
    | zero =>
      cases found
      cases expected
      obtain ⟨-, untouched⟩ := flushFrom_futures mode batch (i + 1) (front.length + here.1.length) here.2
      obtain ⟨users, pendings⟩ := untouched i (Nat.lt_succ_self i)
      rw [← isRest] at users pendings
      rw [isHere] at users pendings every ⊢
      exact expandOp_served good lengths (before i (Nat.le_refl i)) behind (unresolved i (Nat.le_refl i)) users
        pendings every
    | succ k =>
      have answer := served k op' wanted' result found expected
      rw [show i + (k + 1) = i + 1 + k by omega]
      exact answer

/-- Through registers, precise or over-wide, and with the accesses completing in any order, a batch leaves the
memory and delivers the results of its operations run one after the other on a byte array. -/
theorem flush_sequential (mode : Decomposition) (memory : ByteMemory) (batch : List (Op × Bool))
    (aligned : ∀ entry ∈ batch, entry.1.Aligned) (order : List Nat)
    (every : order.Perm (awaited (flushOps mode batch).1)) :
    (flush mode memory batch order).memory = (execAll memory (batch.map Prod.fst)).1 ∧
    ∀ i op wanted result, batch[i]? = some (op, wanted) → (execAll memory (batch.map Prod.fst)).2[i]? = some result →
      (flush mode memory batch order).users i = if wanted then some (.ok result) else .none := by
  obtain ⟨memories, served⟩ := flushFrom_served batch aligned 0 [] [] memory .initial rfl
    (by rintro j - entry ⟨⟩) (fun _ _ => rfl) order every
  refine ⟨memories, ?_⟩
  intro i op wanted result found expected
  have answer := served i op wanted result found expected
  rw [Nat.zero_add] at answer
  exact answer

/-- A blob written over a word boundary and read back over-wide, its accesses completing last to first. -/
theorem flush_written_blob_read_back :
    (flush .overwide (fun addr => UInt8.ofNat addr)
      [(.writeBlob 3 [1, 2, 3, 4, 5], true), (.register (read32 4), true), (.readBlob 2 5, true)]
      [4, 3, 2, 1, 0]).users 2 = some (.ok (.bytes [2, 1, 2, 3, 4])) := by
  have aligned : ∀ entry ∈ [(Op.writeBlob 3 [1, 2, 3, 4, 5], true), (.register (read32 4), true), (.readBlob 2 5, true)],
      entry.1.Aligned := by
    simp [Op.Aligned, RegisterOp.Aligned, read32, Width.bytes]
  exact (flush_sequential .overwide (fun addr => UInt8.ofNat addr) _ aligned [4, 3, 2, 1, 0] (by decide)).2 2 _ _ _
    rfl rfl

end Acrobe.Memory
