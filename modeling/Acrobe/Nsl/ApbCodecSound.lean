import Acrobe.Nsl.ApbCodec

/-!
# Blobs over the APB bridge

The commands of a blob are whole aligned words, and the bridge reads and writes with them the bytes that the blob names.
-/

namespace Acrobe.Nsl.Apb
open LittleEndian Acrobe.Lib Acrobe.Memory Futures

namespace ApbStreamCodec

variable (codec : ApbStreamCodec)

theorem dataBytes_cases : codec.dataBytes = 1 ∨ codec.dataBytes = 2 ∨ codec.dataBytes = 4 := by
  have bussed := codec.bussed
  unfold dataBytes
  omega

theorem dataBytes_pos : 0 < codec.dataBytes := by
  have cases := codec.dataBytes_cases
  omega

theorem maxRead_pos : 1 ≤ codec.maxRead := by
  rw [maxRead, Nat.one_shiftLeft]
  exact Nat.two_pow_pos _

/-! ### Fields -/

theorem address_fits {addr : Nat} (inside : addr < 2 ^ codec.addressWidth) : addr < 256 ^ codec.addressBytes := by
  have bits : codec.addressWidth ≤ 8 * codec.addressBytes := by
    unfold addressBytes
    omega
  calc addr < 2 ^ codec.addressWidth := inside
    _ ≤ 2 ^ (8 * codec.addressBytes) := Nat.pow_le_pow_right (by decide) bits
    _ = 256 ^ codec.addressBytes := by rw [Nat.pow_mul]

theorem count_fits {words : Nat} (few : words ≤ codec.maxRead) (some_ : 1 ≤ words) :
    words - 1 < 256 ^ codec.countBytes ∧ (words - 1) % 2 ^ max 1 codec.burstLengthL2 = words - 1 := by
  rw [maxRead, Nat.one_shiftLeft] at few
  have bits : codec.burstLengthL2 ≤ 8 * codec.countBytes := by
    unfold countBytes
    omega
  have low : words - 1 < 2 ^ codec.burstLengthL2 := by omega
  refine ⟨?_, Nat.mod_eq_of_lt ?_⟩
  · calc words - 1 < 2 ^ codec.burstLengthL2 := low
      _ ≤ 2 ^ (8 * codec.countBytes) := Nat.pow_le_pow_right (by decide) bits
      _ = 256 ^ codec.countBytes := by rw [Nat.pow_mul]
  · exact Nat.lt_of_lt_of_le low (Nat.pow_le_pow_right (by decide) (Nat.le_max_right ..))

theorem field_split {value size : Nat} (fits : value < 256 ^ size) (front back : Bytes) :
    field (front ++ (split value size ++ back)) front.length size = some value := by
  have inside : front.length + size ≤ (front ++ (split value size ++ back)).length := by
    rw [List.length_append, List.length_append, length_split]
    omega
  rw [field, if_pos inside, List.drop_left, List.take_left' (length_split value size), combine_split, Nat.mod_eq_of_lt fits]

theorem readWords_span (memory : ByteMemory) (words : Nat) {addr : Nat}
    (inside : addr + (words - 1) * codec.dataBytes < 2 ^ codec.addressWidth) :
    codec.readWords memory words addr = memory.read addr (words * codec.dataBytes) := by
  induction words generalizing addr with
  | zero => rw [Nat.zero_mul]; rfl
  | succ words ih =>
    rw [readWords, Nat.succ_mul, Nat.add_comm (words * codec.dataBytes), ByteMemory.read_add]
    cases words with
    | zero => rw [Nat.zero_mul]; rfl
    | succ words =>
      rw [Nat.add_sub_cancel, Nat.succ_mul] at inside
      rw [Nat.mod_eq_of_lt (by omega), ih (by rw [Nat.add_sub_cancel]; omega)]

theorem writeWords_span (memory : ByteMemory) (words : Nat) {addr : Nat} {data : Bytes}
    (length : data.length = words * codec.dataBytes)
    (inside : addr + (words - 1) * codec.dataBytes < 2 ^ codec.addressWidth) :
    codec.writeWords memory words addr data = memory.write addr data := by
  induction words generalizing memory addr data with
  | zero =>
    rw [Nat.zero_mul] at length
    rw [List.length_eq_zero_iff.mp length, ByteMemory.write_nil]
    rfl
  | succ words ih =>
    rw [Nat.succ_mul] at length
    have first : (data.take codec.dataBytes).length = codec.dataBytes := by
      rw [List.length_take]
      omega
    have split := memory.write_append addr (data.take codec.dataBytes) (data.drop codec.dataBytes)
    rw [List.take_append_drop, first] at split
    have rest : (data.drop codec.dataBytes).length = words * codec.dataBytes := by
      rw [List.length_drop]
      omega
    rw [writeWords, split]
    cases words with
    | zero =>
      rw [Nat.zero_mul] at rest
      rw [List.length_eq_zero_iff.mp rest, ByteMemory.write_nil]
      rfl
    | succ words =>
      rw [Nat.add_sub_cancel, Nat.succ_mul] at inside
      rw [Nat.mod_eq_of_lt (by omega), ih _ rest (by rw [Nat.add_sub_cancel]; omega)]

/-! ### Commands on the bridge -/

variable (identity : Bytes) (broken : Error)

theorem read_ok {addr words : Nat} (inside : addr < 2 ^ codec.addressWidth) (some_ : 1 ≤ words)
    (few : words ≤ codec.maxRead) :
    codec.read addr words =
      .ok (opcodeRead :: (split addr codec.addressBytes ++ split (words - 1) codec.countBytes)) := by
  have count := (codec.count_fits few some_).1
  rw [read, if_neg (not_not.mpr ⟨some_, few⟩), toBytes, if_pos (codec.address_fits inside), toBytes, if_pos count]
  rfl

theorem write_ok {addr : Nat} {data : Bytes} (inside : addr < 2 ^ codec.addressWidth) (some_ : data ≠ [])
    (whole : data.length % codec.dataBytes = 0) :
    codec.write addr data = .ok (opcodeWrite :: (split addr codec.addressBytes ++ data)) := by
  rw [write, if_neg (not_or.mpr ⟨some_, not_not.mpr whole⟩), toBytes, if_pos (codec.address_fits inside)]
  rfl

theorem run_read {addr words : Nat} (some_ : 1 ≤ words) (few : words ≤ codec.maxRead)
    (inside : addr + (words - 1) * codec.dataBytes < 2 ^ codec.addressWidth) (memory : ByteMemory) :
    codec.run identity broken memory ⟨.read, addr, words,
        opcodeRead :: (split addr codec.addressBytes ++ split (words - 1) codec.countBytes)⟩ =
      (memory, .ok (.bytes (memory.read addr (words * codec.dataBytes)))) := by
  obtain ⟨fits, masked⟩ := codec.count_fits few some_
  have address := field_split (codec.address_fits (Nat.lt_of_le_of_lt (Nat.le_add_right ..) inside)) [opcodeRead]
    (split (words - 1) codec.countBytes)
  have count := field_split fits ([opcodeRead] ++ split addr codec.addressBytes) []
  have front : ([opcodeRead] ++ split addr codec.addressBytes).length = 1 + codec.addressBytes := by
    rw [List.length_append, length_split, List.length_singleton]
  rw [front, List.append_nil, List.append_assoc] at count
  have words_ : words - 1 + 1 = words := Nat.sub_add_cancel some_
  have handled : codec.handle identity memory
      (opcodeRead :: (split addr codec.addressBytes ++ split (words - 1) codec.countBytes)) =
      (memory, memory.read addr (words * codec.dataBytes) ++ [0]) := by
    rw [handle, List.head?_cons]
    dsimp only
    rw [if_neg (by decide), if_pos rfl]
    have addressed : field (opcodeRead :: (split addr codec.addressBytes ++ split (words - 1) codec.countBytes)) 1
        codec.addressBytes = some addr := address
    have counted : field (opcodeRead :: (split addr codec.addressBytes ++ split (words - 1) codec.countBytes))
        (1 + codec.addressBytes) codec.countBytes = some (words - 1) := count
    rw [addressed, counted]
    dsimp only
    rw [masked, words_, codec.readWords_span memory words inside]
  have decoded : decode codec .read addr words (memory.read addr (words * codec.dataBytes) ++ [0]) =
      .result (some (memory.read addr (words * codec.dataBytes))) := by
    simp [decode, statusError]
  rw [run, handled, decoded]
  rfl

theorem run_write {addr words : Nat} {data : Bytes} (length : data.length = words * codec.dataBytes)
    (inside : addr + (words - 1) * codec.dataBytes < 2 ^ codec.addressWidth) (memory : ByteMemory) :
    codec.run identity broken memory ⟨.write, addr, words, opcodeWrite :: (split addr codec.addressBytes ++ data)⟩ =
      (memory.write addr data, .ok .none) := by
  have address := field_split (codec.address_fits (Nat.lt_of_le_of_lt (Nat.le_add_right ..) inside)) [opcodeWrite] data
  have body : (opcodeWrite :: (split addr codec.addressBytes ++ data)).drop (1 + codec.addressBytes) = data := by
    rw [Nat.add_comm, List.drop_succ_cons, List.drop_left' (length_split addr codec.addressBytes)]
  have count : data.length / codec.dataBytes = words := by
    rw [length, Nat.mul_div_cancel _ codec.dataBytes_pos]
  have whole : data.length % codec.dataBytes = 0 := by rw [length, Nat.mul_mod_left]
  have handled : codec.handle identity memory (opcodeWrite :: (split addr codec.addressBytes ++ data)) =
      (memory.write addr data, [0]) := by
    rw [handle, List.head?_cons]
    dsimp only
    rw [if_neg (by decide), if_neg (by decide), if_pos rfl]
    have addressed : field (opcodeWrite :: (split addr codec.addressBytes ++ data)) 1 codec.addressBytes = some addr := address
    rw [addressed]
    dsimp only
    rw [body, count, codec.writeWords_span memory words length inside, whole, if_pos rfl]
  have decoded : decode codec .write addr words [0] = .result none := by simp [decode, statusError]
  rw [run, handled, decoded]
  rfl

/-! ### Commands of a read -/

variable {addr size stop : Nat}

/-- A command of whole aligned words, the last of which begins below an address. -/
structure Planned (limit stop : Nat) (cmd : Command) : Prop where
  aligned : cmd.addr % codec.dataBytes = 0
  some_ : 1 ≤ cmd.words
  few : cmd.words ≤ limit
  below : cmd.addr + (cmd.words - 1) * codec.dataBytes < stop

theorem ceil_words {left words limit n : Nat} (positive : 0 < n) (some_ : 0 < left) (most : 1 ≤ limit)
    (count : words = min limit ((left + n - 1) / n)) :
    1 ≤ words ∧ words ≤ limit ∧ (words - 1) * n < left := by
  have one : 1 ≤ (left + n - 1) / n := (Nat.le_div_iff_mul_le positive).mpr (by omega)
  have up : (left + n - 1) / n * n ≤ left + n - 1 := Nat.div_mul_le_self _ _
  have mono : words * n ≤ (left + n - 1) / n * n := Nat.mul_le_mul_right n (by omega)
  refine ⟨by omega, by omega, ?_⟩
  rw [Nat.sub_mul, Nat.one_mul]
  omega

theorem readsFrom_planned (fuel : Nat) {cursor : Nat} (aligned : codec.dataBytes ∣ cursor) :
    ∀ cmd ∈ codec.readsFrom addr stop fuel cursor,
      cmd.kind = .read ∧ cmd.offset = (cmd.addr : Int) - addr ∧ cursor ≤ cmd.addr ∧ codec.Planned codec.maxRead stop cmd := by
  induction fuel generalizing cursor with
  | zero => exact nofun
  | succ fuel ih =>
    rw [readsFrom]
    by_cases more : cursor < stop
    · rw [if_pos more]
      dsimp only
      obtain ⟨some_, few, below⟩ := ceil_words codec.dataBytes_pos (Nat.sub_pos_of_lt more) codec.maxRead_pos rfl
      intro cmd member
      obtain rfl | member := List.mem_cons.mp member
      · refine ⟨rfl, rfl, Nat.le_refl _, Nat.mod_eq_zero_of_dvd aligned, some_, few, ?_⟩
        dsimp only
        omega
      · obtain ⟨kind, offset, after, planned⟩ := ih (Nat.dvd_add aligned (Nat.dvd_mul_left ..)) cmd member
        exact ⟨kind, offset, by omega, planned⟩
    · rw [if_neg more]
      exact nofun

theorem readsFrom_covers (fuel : Nat) {cursor spot : Nat} (enough : stop - cursor ≤ fuel) (after : cursor ≤ spot)
    (before : spot < stop) :
    ∃ cmd ∈ codec.readsFrom addr stop fuel cursor, cmd.addr ≤ spot ∧ spot < cmd.addr + cmd.words * codec.dataBytes := by
  induction fuel generalizing cursor with
  | zero => omega
  | succ fuel ih =>
    rw [readsFrom, if_pos (by omega)]
    dsimp only
    obtain ⟨words, count⟩ : ∃ words, words =
      min codec.maxRead ((stop - cursor + codec.dataBytes - 1) / codec.dataBytes) := ⟨_, rfl⟩
    obtain ⟨some_, -, -⟩ := ceil_words codec.dataBytes_pos (Nat.sub_pos_of_lt (by omega)) codec.maxRead_pos count
    rw [← count]
    have grows : 0 < words * codec.dataBytes := Nat.mul_pos some_ codec.dataBytes_pos
    by_cases here : spot < cursor + words * codec.dataBytes
    · exact ⟨_, List.mem_cons_self .., after, here⟩
    · obtain ⟨cmd, member, found⟩ := @ih (cursor + words * codec.dataBytes) (by omega) (by omega)
      exact ⟨cmd, List.mem_cons_of_mem _ member, found⟩

/-! ### Commands of a write -/

theorem floor_words {left words limit n : Nat} (some_ : 0 < left) (whole : left % n = 0)
    (most : 1 ≤ limit) (count : words = min limit (left / n)) :
    1 ≤ words ∧ words ≤ limit ∧ words * n ≤ left ∧ (words = limit ∨ words * n = left) := by
  have exact_ : left / n * n = left := Nat.div_mul_cancel (Nat.dvd_of_mod_eq_zero whole)
  have one : 1 ≤ left / n := by
    by_contra none
    rw [show left / n = 0 by omega, Nat.zero_mul] at exact_
    omega
  have mono : words * n ≤ left / n * n := Nat.mul_le_mul_right n (by omega)
  refine ⟨by omega, by omega, by omega, ?_⟩
  by_cases limited : limit ≤ left / n
  · left
    omega
  · right
    rw [show words = left / n by omega, exact_]

theorem writesFrom_planned {maxWords : Nat} (most : 1 ≤ maxWords) (begins : codec.dataBytes ∣ addr)
    (whole : codec.dataBytes ∣ size) (fuel : Nat) {offset : Nat} (aligned : codec.dataBytes ∣ offset) :
    ∀ cmd ∈ codec.writesFrom addr size maxWords fuel offset,
      cmd.kind = .write ∧ (∃ place : Nat, cmd.offset = place ∧ cmd.addr = addr + place ∧
        place + cmd.words * codec.dataBytes ≤ size) ∧ codec.Planned maxWords (addr + size) cmd := by
  induction fuel generalizing offset with
  | zero => exact nofun
  | succ fuel ih =>
    rw [writesFrom]
    by_cases more : offset < size
    · rw [if_pos more]
      dsimp only
      obtain ⟨words, count⟩ : ∃ words, words = min maxWords ((size - offset) / codec.dataBytes) := ⟨_, rfl⟩
      obtain ⟨some_, few, fits, -⟩ := floor_words (Nat.sub_pos_of_lt more)
        (Nat.mod_eq_zero_of_dvd (Nat.dvd_sub whole aligned)) most count
      rw [← count]
      intro cmd member
      obtain rfl | member := List.mem_cons.mp member
      · have last : (words - 1) * codec.dataBytes + codec.dataBytes = words * codec.dataBytes := by
          rw [← Nat.succ_mul, Nat.succ_eq_add_one, Nat.sub_add_cancel some_]
        have positive := codec.dataBytes_pos
        refine ⟨rfl, ⟨offset, rfl, rfl, by dsimp only; omega⟩,
          Nat.mod_eq_zero_of_dvd (Nat.dvd_add begins aligned), some_, few, ?_⟩
        dsimp only
        omega
      · exact ih (Nat.dvd_add aligned (Nat.dvd_mul_left ..)) cmd member
    · rw [if_neg more]
      exact nofun

end ApbStreamCodec

/-! ### Lowering -/

theorem mapM_map {α β ε : Type} {f : α → Except ε β} {g : α → β} {xs : List α} (each : ∀ x ∈ xs, f x = .ok (g x)) :
    xs.mapM f = .ok (xs.map g) := by
  induction xs with
  | nil => rfl
  | cons x xs ih =>
    rw [List.mapM_cons, each x (List.mem_cons_self ..), ih fun other member => each other (List.mem_cons_of_mem _ member)]
    rfl

namespace ApbSetup

variable (setup : ApbSetup) (identity : Bytes) (broken : Error) {addr size : Nat}

def readPart (cmd : Command) : Memory.Part Issue :=
  ⟨⟨.read, cmd.addr, cmd.words,
    opcodeRead :: (split cmd.addr setup.codec.addressBytes ++ split (cmd.words - 1) setup.codec.countBytes)⟩,
    cmd.offset, cmd.words * setup.codec.dataBytes⟩

def writePart (data : Bytes) (cmd : Command) : Memory.Part Issue :=
  ⟨⟨.write, cmd.addr, cmd.words, opcodeWrite :: (split cmd.addr setup.codec.addressBytes ++
    (data.drop cmd.offset.toNat).take (cmd.words * setup.codec.dataBytes))⟩,
    cmd.offset, cmd.words * setup.codec.dataBytes⟩

theorem cursor_aligned (addr : Nat) : setup.codec.dataBytes ∣ addr - addr % setup.codec.dataBytes :=
  Nat.dvd_sub_mod addr

theorem read_parts (data : Bytes) (inside : addr + size ≤ 2 ^ setup.codec.addressWidth) :
    (setup.codec.reads addr size).mapM (setup.part data) = .ok ((setup.codec.reads addr size).map setup.readPart) := by
  refine mapM_map ?_
  intro cmd member
  obtain ⟨kind, -, -, planned⟩ := setup.codec.readsFrom_planned _ (setup.cursor_aligned addr) cmd member
  have below := planned.below
  have frame : setup.codec.read cmd.addr cmd.words = .ok (setup.readPart cmd).tx.frame :=
    setup.codec.read_ok (by omega) planned.some_ planned.few
  unfold part ApbSetup.frame
  rw [kind]
  dsimp only
  rw [frame]
  rfl

theorem read_performs (inside : addr + size ≤ 2 ^ setup.codec.addressWidth) (wanted : Bool) :
    (⟨(setup.codec.reads addr size).map setup.readPart, size, true, wanted⟩ : Lowering Issue).Reads
      (setup.codec.run identity broken) addr size where
  isRead := rfl
  sized := rfl
  reads := by
    intro part member
    obtain ⟨cmd, among, rfl⟩ := List.mem_map.mp member
    obtain ⟨-, offset, -, planned⟩ := setup.codec.readsFrom_planned _ (setup.cursor_aligned addr) cmd among
    have below := planned.below
    have located : (addr : Int) + (setup.readPart cmd).offset = cmd.addr := by
      change (addr : Int) + cmd.offset = cmd.addr
      omega
    rw [located, Int.toNat_natCast]
    refine ⟨Int.natCast_nonneg _, ?_⟩
    intro memory
    exact setup.codec.run_read identity broken planned.some_ planned.few (by omega) memory
  covers := by
    intro j small
    have low := Nat.mod_le addr setup.codec.dataBytes
    obtain ⟨cmd, among, first, last⟩ := @ApbStreamCodec.readsFrom_covers setup.codec addr (addr + size)
      (addr + size - (addr - addr % setup.codec.dataBytes)) (addr - addr % setup.codec.dataBytes) (addr + j) (Nat.le_refl _) (by omega) (by omega)
    obtain ⟨-, offset, -, -⟩ := setup.codec.readsFrom_planned _ (setup.cursor_aligned addr) cmd among
    refine ⟨setup.readPart cmd, List.mem_map_of_mem among, ?_, ?_⟩
    · change cmd.offset ≤ j
      omega
    · change (j : Int) < cmd.offset + (cmd.words * setup.codec.dataBytes : Nat)
      omega

theorem write_parts {data : Bytes} (begins : setup.codec.dataBytes ∣ addr) (whole : setup.codec.dataBytes ∣ data.length)
    (inside : addr + data.length ≤ 2 ^ setup.codec.addressWidth) :
    (setup.codec.writesFrom addr data.length setup.maxWrite data.length 0).mapM (setup.part data) =
      .ok ((setup.codec.writesFrom addr data.length setup.maxWrite data.length 0).map (setup.writePart data)) := by
  refine mapM_map ?_
  intro cmd member
  obtain ⟨kind, ⟨place, offset, spot, fits⟩, planned⟩ :=
    setup.codec.writesFrom_planned setup.writing begins whole _ (Nat.dvd_zero _) cmd member
  have below := planned.below
  have length : ((data.drop cmd.offset.toNat).take (cmd.words * setup.codec.dataBytes)).length =
      cmd.words * setup.codec.dataBytes := by
    rw [offset, Int.toNat_natCast, List.length_take, List.length_drop]
    omega
  have nonempty : (data.drop cmd.offset.toNat).take (cmd.words * setup.codec.dataBytes) ≠ [] := by
    have positive := Nat.mul_pos planned.some_ setup.codec.dataBytes_pos
    apply List.ne_nil_of_length_pos
    omega
  have frame := setup.codec.write_ok (show cmd.addr < 2 ^ setup.codec.addressWidth by omega) nonempty
    (by rw [length, Nat.mul_mod_left])
  unfold part ApbSetup.frame
  rw [kind]
  dsimp only
  rw [frame]
  rfl

theorem writesFrom_run {data : Bytes}
    (whole : setup.codec.dataBytes ∣ data.length) (inside : addr + data.length ≤ 2 ^ setup.codec.addressWidth) (fuel : Nat)
    {offset : Nat} (aligned : setup.codec.dataBytes ∣ offset) (enough : data.length - offset ≤ fuel) (memory : ByteMemory) :
    (runAll (setup.codec.run identity broken) memory
        (((setup.codec.writesFrom addr data.length setup.maxWrite fuel offset).map (setup.writePart data)).map Memory.Part.tx)).1 =
        memory.write (addr + offset) (data.drop offset) ∧
      ∀ answer ∈ (runAll (setup.codec.run identity broken) memory
        (((setup.codec.writesFrom addr data.length setup.maxWrite fuel offset).map
          (setup.writePart data)).map Memory.Part.tx)).2, ∃ value, answer = .ok value := by
  induction fuel generalizing offset memory with
  | zero =>
    rw [List.drop_eq_nil_of_le (by omega), ByteMemory.write_nil]
    exact ⟨rfl, fun _ none => absurd none List.not_mem_nil⟩
  | succ fuel ih =>
    rw [ApbStreamCodec.writesFrom]
    by_cases more : offset < data.length
    · rw [if_pos more]
      dsimp only
      obtain ⟨words, count⟩ : ∃ words, words = min setup.maxWrite ((data.length - offset) / setup.codec.dataBytes) :=
        ⟨_, rfl⟩
      obtain ⟨some_, few, fits, last⟩ := ApbStreamCodec.floor_words (Nat.sub_pos_of_lt more)
        (Nat.mod_eq_zero_of_dvd (Nat.dvd_sub whole aligned)) setup.writing count
      rw [← count]
      have less : (words - 1) * setup.codec.dataBytes + setup.codec.dataBytes = words * setup.codec.dataBytes := by
        rw [← Nat.succ_mul, Nat.succ_eq_add_one, Nat.sub_add_cancel some_]
      have positive := setup.codec.dataBytes_pos
      have length : ((data.drop offset).take (words * setup.codec.dataBytes)).length = words * setup.codec.dataBytes := by
        rw [List.length_take, List.length_drop]
        omega
      have within : addr + offset + (words - 1) * setup.codec.dataBytes < 2 ^ setup.codec.addressWidth := by omega
      have here : setup.codec.run identity broken memory
          (setup.writePart data ⟨.write, addr + offset, words, offset⟩).tx =
          (memory.write (addr + offset) ((data.drop offset).take (words * setup.codec.dataBytes)), .ok .none) :=
        setup.codec.run_write identity broken length within memory
      have steps : setup.codec.dataBytes ≤ setup.maxWrite * setup.codec.dataBytes :=
        Nat.le_mul_of_pos_left _ setup.writing
      obtain ⟨written, ended⟩ := @ih (offset + setup.maxWrite * setup.codec.dataBytes)
        (Nat.dvd_add aligned (Nat.dvd_mul_left ..)) (by omega)
        (memory.write (addr + offset) ((data.drop offset).take (words * setup.codec.dataBytes)))
      have joined := memory.write_append (addr + offset) ((data.drop offset).take (words * setup.codec.dataBytes))
        ((data.drop offset).drop (words * setup.codec.dataBytes))
      rw [List.take_append_drop, length, List.drop_drop] at joined
      have rest : (memory.write (addr + offset) ((data.drop offset).take (words * setup.codec.dataBytes))).write
          (addr + (offset + setup.maxWrite * setup.codec.dataBytes))
          (data.drop (offset + setup.maxWrite * setup.codec.dataBytes)) =
          memory.write (addr + offset) (data.drop offset) := by
        obtain full | done := last
        · rw [joined, full, Nat.add_assoc]
        · have most : words * setup.codec.dataBytes ≤ setup.maxWrite * setup.codec.dataBytes :=
            Nat.mul_le_mul_right _ few
          rw [joined, List.drop_eq_nil_of_le (show data.length ≤ offset + setup.maxWrite * setup.codec.dataBytes by omega),
            List.drop_eq_nil_of_le (show data.length ≤ offset + words * setup.codec.dataBytes by omega),
            ByteMemory.write_nil, ByteMemory.write_nil]
      rw [List.map_cons, List.map_cons, runAll, here]
      refine ⟨written.trans rest, ?_⟩
      intro answer member
      obtain rfl | member := List.mem_cons.mp member
      · exact ⟨_, rfl⟩
      · exact ended answer member
    · rw [if_neg more, List.drop_eq_nil_of_le (by omega), ByteMemory.write_nil]
      exact ⟨rfl, fun _ none => absurd none List.not_mem_nil⟩

theorem write_performs {data : Bytes}
    (whole : setup.codec.dataBytes ∣ data.length) (inside : addr + data.length ≤ 2 ^ setup.codec.addressWidth) (wanted : Bool) :
    (⟨(setup.codec.writesFrom addr data.length setup.maxWrite data.length 0).map (setup.writePart data), data.length, false,
      wanted⟩ : Lowering Issue).Writes (setup.codec.run identity broken) addr data where
  isRead := rfl
  writes := fun memory =>
    (setup.writesFrom_run identity broken whole inside data.length (Nat.dvd_zero _) (Nat.sub_le ..) memory).1
  ended := fun memory =>
    (setup.writesFrom_run identity broken whole inside data.length (Nat.dvd_zero _) (Nat.sub_le ..) memory).2

/-! ### Operations -/

/-- No byte of the operation is outside of the address space, and a write is of whole aligned words. -/
structure Fits (op : BlobOp) : Prop where
  low : 0 ≤ op.addr
  high : op.addr + op.size ≤ ((2 ^ setup.codec.addressWidth : Nat) : Int)
  whole : op.isRead = false → op.addr % setup.codec.dataBytes = 0 ∧ op.size % setup.codec.dataBytes = 0

/-- An operation without bytes is not looked at. -/
def Accepts (op : BlobOp) : Prop := op.size = 0 ∨ setup.Fits op

def plain : BlobOp → Memory.Op
  | .readBlob addr size => .readBlob addr.toNat size
  | .writeBlob addr data => .writeBlob addr.toNat data

/-- The limit of a command's words. -/
def limit (op : BlobOp) : Nat := if op.isRead then setup.codec.maxRead else setup.maxWrite

/-- A lowering that does what its operation does, in whole aligned words. -/
structure Sound (op : BlobOp) (wanted : Bool) (lowering : Lowering Issue) : Prop where
  wanted : lowering.wanted = wanted
  performs : lowering.Performs (setup.codec.run identity broken) (plain op)
  aligned : ∀ part ∈ lowering.parts, part.tx.addr % setup.codec.dataBytes = 0
  counted : ∀ part ∈ lowering.parts, 1 ≤ part.tx.words ∧ part.tx.words ≤ setup.limit op

theorem lower_empty {op : BlobOp} (empty : op.size = 0) (wanted : Bool) :
    ∃ lowering, setup.lower op wanted = .ok lowering ∧ setup.Sound identity broken op wanted lowering := by
  refine ⟨_, if_pos empty, rfl, ?_, nofun, nofun⟩
  cases op with
  | readBlob addr size => exact ⟨rfl, empty.symm, nofun, fun j small => absurd (empty ▸ small) (Nat.not_lt_zero j)⟩
  | writeBlob addr data =>
    obtain rfl : data = [] := List.length_eq_zero_iff.mp empty
    exact ⟨rfl, fun memory => (memory.write_nil addr.toNat).symm, fun _ => nofun⟩

theorem lower_outside {op : BlobOp} (some_ : op.size ≠ 0)
    (outside : ¬(0 ≤ op.addr ∧ op.addr + op.size ≤ ((2 ^ setup.codec.addressWidth : Nat) : Int))) (wanted : Bool) :
    setup.lower op wanted = .error (.valueError (.outside op.addr op.size)) := by
  rw [lower, if_neg some_, Nat.one_shiftLeft, if_pos (by omega)]

theorem toNat_aligned {addr : Int} (low : 0 ≤ addr) (n : Nat) : addr.toNat % n = 0 ↔ addr % n = 0 := by
  rw [← Int.natCast_inj, Int.natCast_emod, Int.toNat_of_nonneg low, Int.natCast_zero]

theorem lower_inside {op : BlobOp} (some_ : op.size ≠ 0) (low : 0 ≤ op.addr)
    (high : op.addr + op.size ≤ ((2 ^ setup.codec.addressWidth : Nat) : Int)) (wanted : Bool) :
    setup.lower op wanted = (do
      let commands ← setup.commands op
      let parts ← commands.mapM (setup.part op.data)
      .ok ⟨parts, op.size, op.isRead, wanted⟩) := by
  rw [lower, if_neg some_, Nat.one_shiftLeft, if_neg (by omega)]

theorem read_sound {addr : Int} (some_ : size ≠ 0) (low : 0 ≤ addr)
    (high : addr + size ≤ ((2 ^ setup.codec.addressWidth : Nat) : Int)) (wanted : Bool) :
    ∃ lowering, setup.lower (.readBlob addr size) wanted = .ok lowering ∧
      setup.Sound identity broken (.readBlob addr size) wanted lowering := by
  have inside : addr.toNat + size ≤ 2 ^ setup.codec.addressWidth := by omega
  refine ⟨⟨(setup.codec.reads addr.toNat size).map setup.readPart, size, true, wanted⟩, ?_, rfl,
    setup.read_performs identity broken inside wanted, ?_, ?_⟩
  · rw [setup.lower_inside (show (BlobOp.readBlob addr size).size ≠ 0 from some_) low high wanted]
    change ((setup.codec.reads addr.toNat size).mapM (setup.part []) >>= _) = _
    rw [setup.read_parts [] inside]
    rfl
  · intro part member
    obtain ⟨cmd, among, rfl⟩ := List.mem_map.mp member
    exact (setup.codec.readsFrom_planned _ (setup.cursor_aligned addr.toNat) cmd among).2.2.2.aligned
  · intro part member
    obtain ⟨cmd, among, rfl⟩ := List.mem_map.mp member
    obtain ⟨-, -, -, planned⟩ := setup.codec.readsFrom_planned _ (setup.cursor_aligned addr.toNat) cmd among
    exact ⟨planned.some_, planned.few⟩

theorem write_sound {addr : Int} {data : Bytes} (some_ : data.length ≠ 0) (low : 0 ≤ addr)
    (high : addr + data.length ≤ ((2 ^ setup.codec.addressWidth : Nat) : Int))
    (begins : addr % setup.codec.dataBytes = 0) (ends : data.length % setup.codec.dataBytes = 0) (wanted : Bool) :
    ∃ lowering, setup.lower (.writeBlob addr data) wanted = .ok lowering ∧
      setup.Sound identity broken (.writeBlob addr data) wanted lowering := by
  have inside : addr.toNat + data.length ≤ 2 ^ setup.codec.addressWidth := by omega
  have aligned := (toNat_aligned low setup.codec.dataBytes).mpr begins
  have first := Nat.dvd_of_mod_eq_zero aligned
  have whole := Nat.dvd_of_mod_eq_zero ends
  refine ⟨⟨(setup.codec.writesFrom addr.toNat data.length setup.maxWrite data.length 0).map (setup.writePart data),
    data.length, false, wanted⟩, ?_, rfl, setup.write_performs identity broken whole inside wanted, ?_, ?_⟩
  · rw [setup.lower_inside (show (BlobOp.writeBlob addr data).size ≠ 0 from some_) low high wanted]
    change (setup.codec.writes addr.toNat data.length setup.maxWrite >>= _) = _
    rw [ApbStreamCodec.writes, if_neg (not_or.mpr ⟨not_not.mpr aligned, not_not.mpr ends⟩)]
    change ((setup.codec.writesFrom addr.toNat data.length setup.maxWrite data.length 0).mapM (setup.part data) >>= _) = _
    rw [setup.write_parts first whole inside]
    rfl
  · intro part member
    obtain ⟨cmd, among, rfl⟩ := List.mem_map.mp member
    exact (setup.codec.writesFrom_planned setup.writing first whole _ (Nat.dvd_zero _) cmd among).2.2.aligned
  · intro part member
    obtain ⟨cmd, among, rfl⟩ := List.mem_map.mp member
    obtain ⟨-, -, planned⟩ := setup.codec.writesFrom_planned setup.writing first whole _ (Nat.dvd_zero _) cmd among
    exact ⟨planned.some_, planned.few⟩

theorem lower_fits {op : BlobOp} (some_ : op.size ≠ 0) (fits : setup.Fits op) (wanted : Bool) :
    ∃ lowering, setup.lower op wanted = .ok lowering ∧ setup.Sound identity broken op wanted lowering := by
  obtain ⟨low, high, whole⟩ := fits
  cases op with
  | readBlob addr size => exact setup.read_sound identity broken some_ low high wanted
  | writeBlob addr data =>
    obtain ⟨begins, ends⟩ := whole rfl
    exact setup.write_sound identity broken some_ low high begins ends wanted

theorem lower_partial {op : BlobOp} (some_ : op.size ≠ 0) (low : 0 ≤ op.addr)
    (high : op.addr + op.size ≤ ((2 ^ setup.codec.addressWidth : Nat) : Int)) (writes : op.isRead = false)
    (part : ¬(op.addr % setup.codec.dataBytes = 0 ∧ op.size % setup.codec.dataBytes = 0)) (wanted : Bool) :
    setup.lower op wanted =
      .error (.valueError (.wholeWords setup.codec.dataBytes op.addr.toNat op.size)) := by
  cases op with
  | readBlob addr size => cases writes
  | writeBlob addr data =>
    have ragged : addr.toNat % setup.codec.dataBytes ≠ 0 ∨ data.length % setup.codec.dataBytes ≠ 0 := by
      rw [← not_and_or, toNat_aligned (show 0 ≤ addr from low)]
      exact part
    rw [setup.lower_inside some_ low high wanted]
    change (setup.codec.writes addr.toNat data.length setup.maxWrite >>= _) = _
    rw [ApbStreamCodec.writes, if_pos ragged]
    rfl

/-- An operation is lowered soundly or refused. -/
theorem lower_cases (op : BlobOp) (wanted : Bool) :
    setup.Accepts op ∧ (∃ lowering, setup.lower op wanted = .ok lowering ∧ setup.Sound identity broken op wanted lowering) ∨
      ¬setup.Accepts op ∧ ∃ reason, setup.lower op wanted = .error (.valueError reason) := by
  by_cases empty : op.size = 0
  · exact Or.inl ⟨Or.inl empty, setup.lower_empty identity broken empty wanted⟩
  · by_cases space : 0 ≤ op.addr ∧ op.addr + op.size ≤ ((2 ^ setup.codec.addressWidth : Nat) : Int)
    · by_cases whole : op.isRead = false → op.addr % setup.codec.dataBytes = 0 ∧ op.size % setup.codec.dataBytes = 0
      · have fits : setup.Fits op := ⟨space.1, space.2, whole⟩
        exact Or.inl ⟨Or.inr fits, setup.lower_fits identity broken empty fits wanted⟩
      · obtain ⟨writes, part⟩ := Classical.not_imp.mp whole
        right
        refine ⟨?_, _, setup.lower_partial empty space.1 space.2 writes part wanted⟩
        intro accepts
        obtain none | fits := accepts
        · exact empty none
        · exact part (fits.whole writes)
    · right
      refine ⟨?_, _, setup.lower_outside empty space wanted⟩
      intro accepts
      obtain none | fits := accepts
      · exact empty none
      · exact space ⟨fits.low, fits.high⟩

/-- The commands of a batch run on the bridge do what its operations do to a byte array. -/
theorem batch_exact {batch : List (BlobOp × Bool)} {lowerings : List (Lowering Issue)}
    (lowered : List.Forall₂ (fun entry lowering => setup.lower entry.1 entry.2 = .ok lowering) batch lowerings)
    (memory : ByteMemory) {order : List Nat} (every : order.Perm (awaited (expandFrom 0 0 .initial lowerings).1)) :
    (runBatch (setup.codec.run identity broken) memory lowerings order).memory =
        (execAll memory (batch.map fun entry => plain entry.1)).1 ∧
      ∀ i op wanted result, batch[i]? = some (op, wanted) →
        (execAll memory (batch.map fun entry => plain entry.1)).2[i]? = some result →
        (runBatch (setup.codec.run identity broken) memory lowerings order).users i =
          if wanted then some (.ok result) else .none := by
  have sound {entry : BlobOp × Bool} {lowering : Lowering Issue} (same : setup.lower entry.1 entry.2 = .ok lowering) :
      setup.Sound identity broken entry.1 entry.2 lowering := by
    obtain ⟨-, other, accepted, sound⟩ | ⟨-, reason, refused⟩ := setup.lower_cases identity broken entry.1 entry.2
    · rw [accepted] at same
      obtain rfl := Except.ok.inj same
      exact sound
    · rw [refused] at same
      cases same
  have performs : List.Forall₂ (fun lowering op => lowering.Performs (setup.codec.run identity broken) op) lowerings
      (batch.map fun entry => plain entry.1) := by
    rw [List.forall₂_map_right_iff]
    exact lowered.flip.imp fun _ _ same => (sound same).performs
  obtain ⟨memories, served⟩ := runBatch_sequential performs memory every
  refine ⟨memories, ?_⟩
  intro i op wanted result entry expected
  obtain ⟨inside, here⟩ := List.getElem?_eq_some_iff.mp entry
  have count := lowered.length_eq
  have same := lowered.get inside (by omega)
  have answer := served i (lowerings.get ⟨i, by omega⟩) result (List.getElem?_eq_getElem (by omega)) expected
  have waits := (sound same).wanted
  have asked : (batch.get ⟨i, inside⟩).2 = wanted := congrArg Prod.snd here
  rw [asked] at waits
  rw [← waits]
  exact answer

end ApbSetup

end Acrobe.Nsl.Apb
