import Acrobe.Memory.I2cMem

/-!
# Memories on an I2C bus, in use

The device of an accepted configuration gives and takes the bytes that a byte array does.
-/

namespace Acrobe.Memory.I2c
open LittleEndian Acrobe.Lib

namespace I2cMem

variable (mem : I2cMem)

theorem bankSize_pow : mem.bankSize = 256 ^ mem.addrBytes := by
  rw [bankSize, Nat.one_shiftLeft, Nat.mul_comm, Nat.pow_mul]

theorem bankSize_pos : 0 < mem.bankSize := by
  rw [bankSize_pow]
  exact Nat.pow_pos (by decide)

theorem totalSize_le : mem.totalSize ≤ ((mem.bankSize * 2 ^ mem.saddrBits : Nat) : Int) := by
  have addressable := mem.addressable
  rwa [Nat.shiftLeft_eq] at addressable

/-! ### Addresses -/

theorem transfer_at {addr : Nat} (inside : addr < mem.bankSize * 2 ^ mem.saddrBits) (memory : ByteMemory) (payload : Bytes)
    (sizeR : Nat) :
    mem.transfer memory ⟨(mem.addressEncode addr).1, (mem.addressEncode addr).2 ++ payload, sizeR⟩ =
      (memory.writeWrapped mem.pageSize addr payload,
        some ((memory.writeWrapped mem.pageSize addr payload).readWrapped mem.bankSize
          (Nat.iterate (ByteMemory.advance mem.pageSize) payload.length addr) sizeR)) := by
  have bankBits : addr >>> (mem.addrBytes * 8) = addr / mem.bankSize := by
    rw [Nat.shiftRight_eq_div_pow, bankSize, Nat.one_shiftLeft]
  have bank : addr / mem.bankSize < 2 ^ mem.saddrBits := Nat.div_lt_of_lt_mul inside
  have joined : (mem.saddr >>> mem.saddrBits <<< mem.saddrBits) ||| addr / mem.bankSize =
      mem.saddr / 2 ^ mem.saddrBits * 2 ^ mem.saddrBits + addr / mem.bankSize := by
    rw [← Nat.shiftLeft_add_eq_or_of_lt bank, Nat.shiftLeft_eq, Nat.shiftRight_eq_div_pow]
  have own : (mem.saddr / 2 ^ mem.saddrBits * 2 ^ mem.saddrBits + addr / mem.bankSize) / 2 ^ mem.saddrBits =
      mem.saddr / 2 ^ mem.saddrBits := by
    rw [Nat.add_comm, Nat.add_mul_div_right _ _ (Nat.two_pow_pos _), Nat.div_eq_of_lt bank, Nat.zero_add]
  have selected : (mem.saddr / 2 ^ mem.saddrBits * 2 ^ mem.saddrBits + addr / mem.bankSize) % 2 ^ mem.saddrBits =
      addr / mem.bankSize := by
    rw [Nat.add_comm, Nat.add_mul_mod_self_right, Nat.mod_eq_of_lt bank]
  have low : addr &&& (mem.bankSize - 1) = addr % mem.bankSize := by
    rw [bankSize, Nat.one_shiftLeft, Nat.and_two_pow_sub_one_eq_mod]
  have length : (split (addr % mem.bankSize) mem.addrBytes).reverse.length = mem.addrBytes := by
    rw [List.length_reverse, length_split]
  have decoded : combine ((split (addr % mem.bankSize) mem.addrBytes).reverse).reverse = addr % mem.bankSize := by
    rw [List.reverse_reverse, combine_split, ← bankSize_pow, Nat.mod_mod]
  have spot : addr / mem.bankSize * mem.bankSize + addr % mem.bankSize = addr := Nat.div_add_mod' addr mem.bankSize
  rw [transfer, addressEncode]
  dsimp only
  rw [low, bankBits, joined, Nat.shiftRight_eq_div_pow, Nat.shiftRight_eq_div_pow, if_pos own, selected,
    List.take_left' length, List.drop_left' length, decoded, spot]

theorem run_read (nack : Error) {chunk : Nat × Nat × Nat} (inside : chunk.2.1 < mem.bankSize * 2 ^ mem.saddrBits)
    (banked : chunk.2.1 % mem.bankSize + chunk.2.2 ≤ mem.bankSize) (memory : ByteMemory) :
    mem.run nack memory (mem.readPart chunk).tx = (memory, .ok (.bytes (memory.read chunk.2.1 chunk.2.2))) := by
  have ran := mem.transfer_at inside memory [] chunk.2.2
  rw [List.append_nil] at ran
  have bytes := ByteMemory.readWrapped_inside memory banked
  simp [run, readPart, makeTransaction, transaction, ran, itemIndex, ByteMemory.writeWrapped, bytes]

theorem run_write (nack : Error) {chunk : Nat × Nat × Bytes} (inside : chunk.2.1 < mem.bankSize * 2 ^ mem.saddrBits)
    (paged : chunk.2.1 % mem.pageSize + chunk.2.2.length ≤ mem.pageSize) (memory : ByteMemory) :
    mem.run nack memory (mem.writePart chunk).tx = (memory.write chunk.2.1 chunk.2.2, .ok .none) := by
  have ran := mem.transfer_at inside memory chunk.2.2 0
  have written := ByteMemory.writeWrapped_inside memory paged
  simp [run, writePart, makeTransaction, transaction, ran, written]

/-! ### Reads -/

variable {addr size : Nat}

theorem readChunks_bounds (fuel offset : Nat) :
    ∀ chunk ∈ mem.readChunks addr size fuel offset, chunk.2.1 = addr + chunk.1 ∧ chunk.2.1 < addr + size ∧
      chunk.2.1 % mem.bankSize + chunk.2.2 ≤ mem.bankSize := by
  induction fuel generalizing offset with
  | zero => exact nofun
  | succ fuel ih =>
    rw [readChunks]
    split
    · intro chunk member
      obtain rfl | member := List.mem_cons.mp member
      · have low := Nat.mod_lt (addr + offset) mem.bankSize_pos
        refine ⟨rfl, by dsimp only; omega, ?_⟩
        dsimp only
        omega
      · exact ih _ chunk member
    · exact nofun

theorem readChunks_covers (fuel offset : Nat) (enough : size - offset ≤ fuel) {j : Nat} (after : offset ≤ j)
    (inside : j < size) : ∃ chunk ∈ mem.readChunks addr size fuel offset, chunk.1 ≤ j ∧ j < chunk.1 + chunk.2.2 := by
  induction fuel generalizing offset with
  | zero => omega
  | succ fuel ih =>
    rw [readChunks, if_pos (by omega)]
    dsimp only
    have low := Nat.mod_lt (addr + offset) mem.bankSize_pos
    have some_ := mem.chunked
    by_cases here : j < offset + min (min mem.readChunk (size - offset)) (mem.bankSize - (addr + offset) % mem.bankSize)
    · exact ⟨_, List.mem_cons_self .., after, here⟩
    · obtain ⟨chunk, member, found⟩ := ih
        (offset + min (min mem.readChunk (size - offset)) (mem.bankSize - (addr + offset) % mem.bankSize)) (by omega)
        (by omega)
      exact ⟨chunk, List.mem_cons_of_mem _ member, found⟩

theorem reads (nack : Error) (inside : addr + size ≤ mem.bankSize * 2 ^ mem.saddrBits) (wanted : Bool) :
    (⟨(mem.readChunks addr size size 0).map mem.readPart, size, true, wanted⟩ : Lowering Posted).Reads (mem.run nack) addr
      size where
  isRead := rfl
  sized := rfl
  reads := by
    intro part member
    obtain ⟨chunk, among, rfl⟩ := List.mem_map.mp member
    obtain ⟨place, below, banked⟩ := mem.readChunks_bounds size 0 chunk among
    have located : ((addr : Int) + (mem.readPart chunk).offset).toNat = chunk.2.1 := by
      rw [place]
      exact Int.toNat_natCast (addr + chunk.1)
    refine ⟨?_, ?_⟩
    · exact Int.natCast_nonneg (addr + chunk.1)
    · intro memory
      rw [located]
      exact mem.run_read nack (by omega) banked memory
  covers := by
    intro j small
    obtain ⟨chunk, among, low, high⟩ := mem.readChunks_covers size 0 (by omega) (Nat.zero_le j) small
    refine ⟨mem.readPart chunk, List.mem_map_of_mem among, ?_, ?_⟩
    · exact Int.ofNat_le.mpr low
    · exact Int.ofNat_lt.mpr high

theorem writeChunks_run (nack : Error) {data : Bytes} (inside : addr + data.length ≤ mem.bankSize * 2 ^ mem.saddrBits)
    (fuel offset : Nat) (enough : data.length - offset ≤ fuel) (memory : ByteMemory) :
    (runAll (mem.run nack) memory
        (((mem.writeChunks addr data fuel offset).map mem.writePart).map Part.tx)).1 =
        memory.write (addr + offset) (data.drop offset) ∧
      ∀ answer ∈ (runAll (mem.run nack) memory
        (((mem.writeChunks addr data fuel offset).map mem.writePart).map Part.tx)).2, ∃ value, answer = .ok value := by
  induction fuel generalizing offset memory with
  | zero =>
    rw [List.drop_eq_nil_of_le (by omega), ByteMemory.write_nil]
    exact ⟨rfl, fun _ none => absurd none List.not_mem_nil⟩
  | succ fuel ih =>
    rw [writeChunks]
    by_cases more : offset < data.length
    · rw [if_pos more]
      dsimp only
      have low := Nat.mod_lt (addr + offset) mem.paged
      obtain ⟨count, isCount⟩ : ∃ count, count =
        min (mem.pageSize - (addr + offset) % mem.pageSize) (data.length - offset) := ⟨_, rfl⟩
      rw [← isCount]
      have length : ((data.drop offset).take count).length = count := by
        rw [List.length_take, List.length_drop]
        omega
      have here := mem.run_write nack (show (offset, addr + offset, (data.drop offset).take count).2.1 < _ by
        dsimp only; omega) (by rw [length]; dsimp only; omega) memory
      obtain ⟨written, ended⟩ := ih (offset + count) (by omega) (memory.write (addr + offset) ((data.drop offset).take count))
      rw [List.map_cons, List.map_cons, runAll, here]
      dsimp only
      refine ⟨?_, ?_⟩
      · have joined := memory.write_append (addr + offset) ((data.drop offset).take count) ((data.drop offset).drop count)
        rw [List.take_append_drop, length, List.drop_drop] at joined
        rw [written, joined, Nat.add_assoc]
      · intro answer member
        obtain rfl | member := List.mem_cons.mp member
        · exact ⟨_, rfl⟩
        · exact ended answer member
    · rw [if_neg more, List.drop_eq_nil_of_le (by omega), ByteMemory.write_nil]
      exact ⟨rfl, fun _ none => absurd none List.not_mem_nil⟩

theorem writes (nack : Error) {data : Bytes} (inside : addr + data.length ≤ mem.bankSize * 2 ^ mem.saddrBits) (wanted : Bool) :
    (⟨(mem.writeChunks addr data data.length 0).map mem.writePart, data.length, false, wanted⟩ : Lowering Posted).Writes
      (mem.run nack) addr data where
  isRead := rfl
  writes := fun memory => (mem.writeChunks_run nack inside data.length 0 (by omega) memory).1
  ended := fun memory => (mem.writeChunks_run nack inside data.length 0 (by omega) memory).2

/-! ### Batches -/

def Op.plain : Op → Memory.Op
  | .readBlob addr size => .readBlob addr.toNat size.toNat
  | .writeBlob addr data => .writeBlob addr.toNat data

/-- What an operation does to a byte array; nothing where it is refused. -/
def onArray (op : Op) : Memory.Op :=
  if mem.Accepts op then Op.plain op else .writeBlob 0 []

theorem InRange.bounds {mem : I2cMem} {addr size : Int} (range : mem.InRange addr size) :
    addr.toNat + size.toNat ≤ mem.bankSize * 2 ^ mem.saddrBits := by
  have total := mem.totalSize_le
  unfold InRange at range
  omega

theorem lower_refused {op : Op} (outside : ¬mem.Accepts op) (wanted : Bool) :
    mem.lower op wanted = .error ⟨(Op.range op).1, (Op.range op).2⟩ := by
  cases op with
  | readBlob addr size => exact if_neg outside
  | writeBlob addr data => exact if_neg outside

theorem lower_performs (nack : Error) (op : Op) (wanted : Bool) :
    (onBus (mem.lower op wanted)).Performs (mem.run nack) (mem.onArray op) := by
  by_cases range : mem.Accepts op
  · rw [onArray, if_pos range]
    cases op with
    | readBlob addr size =>
      have inside : mem.InRange addr size := range
      rw [lower, if_pos inside]
      exact mem.reads nack inside.bounds wanted
    | writeBlob addr data =>
      have inside : mem.InRange addr data.length := range
      rw [lower, if_pos inside]
      exact mem.writes nack inside.bounds wanted
  · rw [onArray, if_neg range, mem.lower_refused range]
    exact ⟨rfl, fun memory => (memory.write_nil 0).symm, fun _ => nofun⟩

theorem lower_wanted {op : Op} (range : mem.Accepts op) (wanted : Bool) :
    ∃ lowering, mem.lower op wanted = .ok lowering ∧ lowering.wanted = wanted := by
  cases op with
  | readBlob addr size => exact ⟨_, if_pos range, rfl⟩
  | writeBlob addr data => exact ⟨_, if_pos range, rfl⟩

/-- Only operations that somebody waits for are outside of the memory. -/
def Attended (batch : List (Op × Bool)) : Prop :=
  ∀ entry ∈ batch, entry.2 = false → mem.Accepts entry.1

theorem flushOps_eq {batch : List (Op × Bool)} (attended : mem.Attended batch) :
    mem.flushOps batch = batch.map fun entry => mem.lower entry.1 entry.2 := by
  induction batch with
  | nil => rfl
  | cons entry batch ih =>
    obtain ⟨op, wanted⟩ := entry
    have rest := ih fun other member => attended other (List.mem_cons_of_mem _ member)
    rw [flushOps, List.map_cons, rest]
    by_cases range : mem.Accepts op
    · obtain ⟨lowering, lowered, -⟩ := mem.lower_wanted range wanted
      rw [lowered]
    · have someone : wanted = true := by
        cases wanted with
        | true => rfl
        | false => exact absurd (attended (op, false) (List.mem_cons_self ..) rfl) range
      rw [mem.lower_refused range, someone]
      rfl

theorem exec_onArray (memory : ByteMemory) (op : Op) :
    mem.exec memory op = ((Memory.exec memory (mem.onArray op)).1,
      if mem.Accepts op then .ok (Memory.exec memory (mem.onArray op)).2
      else .error (.valueError ⟨(Op.range op).1, (Op.range op).2⟩)) := by
  unfold exec onArray
  split
  · cases op with
    | readBlob addr size => rfl
    | writeBlob addr data => rfl
  · rw [Memory.exec, ByteMemory.write_nil]

theorem execAll_onArray (memory : ByteMemory) (ops : List Op) :
    (mem.execAll memory ops).1 = (Memory.execAll memory (ops.map mem.onArray)).1 ∧
      ∀ (i : Nat) (op : Op) (result : Except Failure Result), ops[i]? = some op →
        (mem.execAll memory ops).2[i]? = some result →
        ∃ plain, (Memory.execAll memory (ops.map mem.onArray)).2[i]? = some plain ∧
          result = if mem.Accepts op then .ok plain
            else .error (.valueError ⟨(Op.range op).1, (Op.range op).2⟩) := by
  induction ops generalizing memory with
  | nil => exact ⟨rfl, nofun⟩
  | cons first ops ih =>
    obtain ⟨memories, results⟩ := ih (Memory.exec memory (mem.onArray first)).1
    rw [execAll, mem.exec_onArray, List.map_cons, Memory.execAll]
    refine ⟨memories, ?_⟩
    intro i op result entry expected
    cases i with
    | zero =>
      obtain rfl := Option.some.inj entry
      obtain rfl := Option.some.inj expected
      exact ⟨_, rfl, rfl⟩
    | succ i => exact results i op result entry expected

theorem posted_filter {batch : List (Op × Bool)} (attended : mem.Attended batch) :
    mem.posted batch =
      mem.posted (batch.filter fun entry => mem.Accepts entry.1) := by
  have inside : mem.Attended (batch.filter fun entry => mem.Accepts entry.1) :=
    fun entry member => attended entry (List.mem_of_mem_filter member)
  rw [posted, posted, mem.flushOps_eq attended, mem.flushOps_eq inside]
  clear attended inside
  induction batch with
  | nil => rfl
  | cons entry batch ih =>
    by_cases range : mem.Accepts entry.1
    · rw [List.filter_cons, if_pos (decide_eq_true range)]
      simp only [List.map_cons, List.flatMap_cons]
      rw [ih]
    · rw [List.filter_cons, if_neg (by rwa [decide_eq_true_eq])]
      simp only [List.map_cons, List.flatMap_cons]
      rw [ih, mem.lower_refused range]
      rfl

/-- Against a device whose writes wrap in a page and whose reads wrap in a bank, and with the transactions completing in
any order, a batch leaves the memory and delivers the results of its operations run one after the other on a byte
array; an operation out of range is refused and has nothing on the bus. -/
theorem flush_exact (nack : Error) (memory : ByteMemory) {batch : List (Op × Bool)} (attended : mem.Attended batch)
    {order : List Nat}
    (every : order.Perm (awaited (expandFrom 0 0 .initial ((mem.flushOps batch).map onBus)).1)) :
    (mem.flush nack memory batch order).memory = (mem.execAll memory (batch.map Prod.fst)).1 ∧
      (∀ i op wanted result, batch[i]? = some (op, wanted) →
        (mem.execAll memory (batch.map Prod.fst)).2[i]? = some result →
        (mem.flush nack memory batch order).users i = if wanted then some result else none) ∧
      mem.posted batch =
        mem.posted (batch.filter fun entry => mem.Accepts entry.1) ∧
      ∀ op wanted, ¬mem.Accepts op → mem.posted [(op, wanted)] = [] := by
  have lowered := mem.flushOps_eq attended
  have performs : List.Forall₂ (fun lowering op => lowering.Performs (mem.run nack) op)
      ((mem.flushOps batch).map onBus) ((batch.map Prod.fst).map mem.onArray) := by
    rw [lowered, List.map_map, List.map_map, List.forall₂_map_left_iff, List.forall₂_map_right_iff, List.forall₂_same]
    intro entry _
    exact mem.lower_performs nack entry.1 entry.2
  obtain ⟨memories, served⟩ := runBatch_sequential performs memory every
  obtain ⟨same, results⟩ := mem.execAll_onArray memory (batch.map Prod.fst)
  refine ⟨memories.trans same.symm, ?_, mem.posted_filter attended, ?_⟩
  · intro i op wanted result entry expected
    have named : (batch.map Prod.fst)[i]? = some op := by rw [List.getElem?_map, entry]; rfl
    have flushed : (mem.flushOps batch)[i]? = some (mem.lower op wanted) := by
      rw [lowered, List.getElem?_map, entry]
      rfl
    obtain ⟨plain, found, rfl⟩ := results i op result named expected
    have answer := served i (onBus (mem.lower op wanted)) plain (by rw [List.getElem?_map, flushed]; rfl) found
    unfold flush
    dsimp only
    rw [flushed]
    by_cases range : mem.Accepts op
    · obtain ⟨lowering, accepted, same⟩ := mem.lower_wanted range wanted
      rw [accepted] at answer ⊢
      dsimp only
      rw [answer, if_pos range]
      change Option.map _ (if lowering.wanted then _ else _) = _
      rw [same]
      cases wanted <;> rfl
    · have someone : wanted = true := by
        cases wanted with
        | true => rfl
        | false => exact absurd (attended (op, false) (List.mem_of_getElem? entry) rfl) range
      rw [mem.lower_refused range, if_neg range, someone]
      rfl
  · intro op wanted outside
    rw [posted, flushOps, mem.lower_refused outside]
    cases wanted <;> rfl

/-- A 24lc08: four banks of 256 bytes, pages of 16. -/
def lc08 : I2cMem where
  saddr := 0x50
  addrBytes := 1
  saddrBits := 2
  totalSize := 1024
  pageSize := 16
  readChunk := 256
  sevenBit := by decide
  prefixed := by decide
  paged := by decide
  chunked := by decide
  divides := by decide
  addressable := by decide

/-- Bytes over the end of a bank, written and read back, and a read out of range. -/
theorem flush_exact_lc08 :
    (lc08.flush .attributeError (fun _ => 0) [(.writeBlob 254 [1, 2, 3], true), (.readBlob 255 2, true),
      (.readBlob 1020 5, true)] [3, 2, 1, 0]).users 1 = some (.ok (.bytes [2, 3])) := by
  have attended : lc08.Attended [(.writeBlob 254 [1, 2, 3], true), (.readBlob 255 2, true), (.readBlob 1020 5, true)] := by
    simp [Attended]
  exact (lc08.flush_exact .attributeError (fun _ => 0) attended (by decide)).2.1 1 (.readBlob 255 2) true _ rfl rfl

end I2cMem
end Acrobe.Memory.I2c
