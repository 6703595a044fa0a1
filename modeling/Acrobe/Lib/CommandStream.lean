import Mathlib

/-!
# Streams of commands and their answers

A stream is read as commands one after the other, and a machine answers each of them with a number of bytes that the
command alone decides. An encoder that counts these numbers knows where in the response the answer of a command is.
-/

namespace CommandStream

/-! ### Reading a stream -/

section
variable {β κ : Type} {fetch : List β → Option (κ × List β)}

def interpret (fetch : List β → Option (κ × List β)) (bytes : List β) : Option (List κ) :=
  match bytes with
  | [] => some []
  | code :: bytes =>
    match fetch (code :: bytes) with
    | none => none
    | some (command, rest) =>
      if rest.length ≤ bytes.length then (interpret fetch rest).map (command :: ·) else none
termination_by bytes.length

/-- The bytes are the commands, whatever follows. -/
def Interprets (fetch : List β → Option (κ × List β)) (bytes : List β) (commands : List κ) : Prop :=
  ∀ rest, interpret fetch (bytes ++ rest) = (interpret fetch rest).map (commands ++ ·)

theorem Interprets.nil : Interprets fetch [] [] := by
  intro rest
  rw [List.nil_append]
  cases interpret fetch rest <;> rfl

theorem Interprets.append {front back : List β} {commands others : List κ} (first : Interprets fetch front commands)
    (second : Interprets fetch back others) : Interprets fetch (front ++ back) (commands ++ others) := by
  intro rest
  rw [List.append_assoc, first, second]
  cases interpret fetch rest <;> simp

theorem Interprets.one {code : β} {data : List β} {command : κ}
    (fetched : ∀ rest, fetch (code :: (data ++ rest)) = some (command, rest)) :
    Interprets fetch (code :: data) [command] := by
  intro rest
  rw [List.cons_append, interpret, fetched]
  dsimp only
  rw [if_pos (by simp)]
  rfl

theorem Interprets.whole {bytes : List β} {commands : List κ} (interprets : Interprets fetch bytes commands) :
    interpret fetch bytes = some commands := by
  have all := interprets []
  rwa [List.append_nil, interpret, Option.map_some, List.append_nil] at all

end

/-! ### Answering commands -/

structure Machine (σ κ β : Type) where
  answer : σ → κ → σ × List β

namespace Machine
variable {σ κ β : Type} (machine : Machine σ κ β)

def after (s : σ) (commands : List κ) : σ := commands.foldl (fun s command => (machine.answer s command).1) s

def answers (s : σ) : List κ → List β
  | [] => []
  | command :: commands => (machine.answer s command).2 ++ answers (machine.answer s command).1 commands

theorem after_append (s : σ) (front back : List κ) :
    machine.after s (front ++ back) = machine.after (machine.after s front) back := List.foldl_append

theorem answers_append (s : σ) (front back : List κ) :
    machine.answers s (front ++ back) = machine.answers s front ++ machine.answers (machine.after s front) back := by
  induction front generalizing s with
  | nil => rfl
  | cons command front ih =>
    rw [List.cons_append, answers, ih, answers, List.append_assoc]
    rfl

def Sized (size : κ → Nat) : Prop := ∀ s command, (machine.answer s command).2.length = size command

theorem Sized.length_answers {machine : Machine σ κ β} {size : κ → Nat} (sized : machine.Sized size) (s : σ)
    (commands : List κ) : (machine.answers s commands).length = (commands.map size).sum := by
  induction commands generalizing s with
  | nil => rfl
  | cons command commands ih => rw [answers, List.length_append, sized, ih, List.map_cons, List.sum_cons]

end Machine

/-! ### Encoding -/

/-- A stream, the size of its response, and notes of where in the response something is. -/
structure Encoding (β γ : Type) where
  cmd : List β
  rspSize : Nat
  gather : List γ

def Encoding.start {β γ : Type} : Encoding β γ := ⟨[], 0, []⟩

def Encoding.emit {β γ : Type} (self : Encoding β γ) (bytes : List β) : Encoding β γ :=
  { self with cmd := self.cmd ++ bytes, rspSize := self.rspSize + 1 }

/-- Commands, and the notes of where their answers are behind a number of bytes. -/
structure Part (κ γ : Type) where
  commands : List κ
  slots : Nat → List γ

section
variable {β κ γ : Type} {fetch : List β → Option (κ × List β)} {size : κ → Nat}

/-- What has been added to an encoding are these commands, with their answers and notes. -/
structure Emits (fetch : List β → Option (κ × List β)) (size : κ → Nat) (part : Part κ γ)
    (acc after : Encoding β γ) : Prop where
  cmd : ∃ bytes, after.cmd = acc.cmd ++ bytes ∧ Interprets fetch bytes part.commands
  rspSize : after.rspSize = acc.rspSize + (part.commands.map size).sum
  gather : after.gather = acc.gather ++ part.slots acc.rspSize

def silent (commands : List κ) : Part κ γ := ⟨commands, fun _ => []⟩

def Part.append (size : κ → Nat) (front back : Part κ γ) : Part κ γ where
  commands := front.commands ++ back.commands
  slots offset := front.slots offset ++ back.slots (offset + (front.commands.map size).sum)

theorem Emits.nil (acc : Encoding β γ) : Emits fetch size (silent []) acc acc :=
  ⟨⟨[], (List.append_nil _).symm, .nil⟩, rfl, (List.append_nil _).symm⟩

theorem Emits.append {part other : Part κ γ} {acc between after : Encoding β γ}
    (first : Emits fetch size part acc between) (second : Emits fetch size other between after) :
    Emits fetch size (part.append size other) acc after := by
  obtain ⟨⟨front, cmd, interprets⟩, count, notes⟩ := first
  obtain ⟨⟨back, cmds, more⟩, counts, others⟩ := second
  exact {
    cmd := ⟨front ++ back, by rw [cmds, cmd, List.append_assoc], interprets.append more⟩
    rspSize := by simp [Part.append, counts, count, Nat.add_assoc]
    gather := by rw [others, notes, count, List.append_assoc]; rfl }

theorem Emits.silent_append {front back : List κ} {acc between after : Encoding β γ}
    (first : Emits fetch size (silent front) acc between) (second : Emits fetch size (silent back) between after) :
    Emits fetch size (silent (front ++ back)) acc after := first.append second

theorem Emits.emit {bytes : List β} {command : κ} (interprets : Interprets fetch bytes [command])
    (one : size command = 1) (acc : Encoding β γ) : Emits fetch size (silent [command]) acc (acc.emit bytes) :=
  ⟨⟨bytes, rfl, interprets⟩, by simp [Encoding.emit, silent, one], (List.append_nil _).symm⟩

/-- The parts of a batch, one after the other. -/
def join (size : κ → Nat) : List (Part κ γ) → Part κ γ
  | [] => silent []
  | part :: parts => part.append size (join size parts)

end

/-! ### Collecting answers -/

/-- A dictionary that is filled note by note. -/
def collect {γ ρ : Type} (key : γ → Nat) (note : Option ρ → γ → Option ρ) (gather : List γ) (index : Nat) : Option ρ :=
  gather.foldl (fun found g => if index = key g then note found g else found) none

section
variable {β κ γ ρ σ : Type} {key : γ → Nat} {note : Option ρ → γ → Option ρ} {index : Nat}

theorem foldl_other {found : Option ρ} {gather : List γ} (other : ∀ g ∈ gather, key g ≠ index) :
    gather.foldl (fun found g => if index = key g then note found g else found) found = found := by
  induction gather generalizing found with
  | nil => rfl
  | cons g gather ih =>
    rw [List.foldl_cons, if_neg (Ne.symm (other g List.mem_cons_self))]
    exact ih fun g member => other g (List.mem_cons_of_mem _ member)

theorem foldl_own {found : Option ρ} {gather : List γ} (own : ∀ g ∈ gather, key g = index) :
    gather.foldl (fun found g => if index = key g then note found g else found) found = gather.foldl note found := by
  induction gather generalizing found with
  | nil => rfl
  | cons g gather ih =>
    rw [List.foldl_cons, if_pos (own g List.mem_cons_self).symm, List.foldl_cons]
    exact ih fun g member => own g (List.mem_cons_of_mem _ member)

theorem collect_between {front own back : List γ} (before : ∀ g ∈ front, key g ≠ index)
    (here : ∀ g ∈ own, key g = index) (behind : ∀ g ∈ back, key g ≠ index) :
    collect key note (front ++ own ++ back) index = own.foldl note none := by
  unfold collect
  rw [List.foldl_append, List.foldl_append, foldl_other before, foldl_own here, foldl_other behind]

/-- The parts note down their own entries, counted from `start`. -/
def Keyed (key : γ → Nat) : Nat → List (Part κ γ) → Prop
  | _, [] => True
  | start, part :: parts => (∀ offset, ∀ g ∈ part.slots offset, key g = start) ∧ Keyed key (start + 1) parts

theorem Keyed.le {size : κ → Nat} {start : Nat} {parts : List (Part κ γ)} (keyed : Keyed key start parts)
    {offset : Nat} {g : γ} (member : g ∈ (join size parts).slots offset) : start ≤ key g := by
  induction parts generalizing start offset with
  | nil => cases member
  | cons part parts ih =>
    obtain ⟨own, later⟩ := keyed
    obtain here | behind := List.mem_append.mp member
    · exact Nat.le_of_eq (own _ _ here).symm
    · exact Nat.le_of_succ_le (ih later behind)

/-- Each part's notes, read in the response of the whole stream, find the answers of the part. -/
theorem collect_join {size : κ → Nat} {machine : Machine σ κ β} (sized : machine.Sized size)
    (read : List β → Option ρ → γ → Option ρ) {start : Nat} {parts : List (Part κ γ)} (keyed : Keyed key start parts)
    {notes : List γ} (earlier : ∀ g ∈ notes, key g < start) (before behind : List β) (s : σ) (i : Nat)
    {part : Part κ γ} (at_ : parts[i]? = some part) :
    ∃ front back t, t = machine.after s ((parts.take i).flatMap Part.commands) ∧
      before ++ machine.answers s (join size parts).commands ++ behind =
        front ++ machine.answers t part.commands ++ back ∧
      collect key (read (before ++ machine.answers s (join size parts).commands ++ behind))
          (notes ++ (join size parts).slots before.length) (start + i) =
        (part.slots front.length).foldl (read (front ++ machine.answers t part.commands ++ back)) none := by
  induction parts generalizing start notes before s i with
  | nil => cases at_
  | cons head parts ih =>
    obtain ⟨own, later⟩ := keyed
    have response : before ++ machine.answers s (join size (head :: parts)).commands ++ behind =
        before ++ machine.answers s head.commands ++
          (machine.answers (machine.after s head.commands) (join size parts).commands ++ behind) := by
      rw [join, Part.append, machine.answers_append]
      simp
    cases i with
    | zero =>
      obtain rfl : head = part := by simpa using at_
      refine ⟨before, _, s, rfl, response, ?_⟩
      rw [response]
      show collect key _ (notes ++ (head.slots before.length ++ _)) start = _
      rw [← List.append_assoc notes]
      exact collect_between (fun g member => Nat.ne_of_lt (earlier g member)) (own _)
        fun g member => Nat.ne_of_gt (later.le member)
    | succ i =>
      have at_ : parts[i]? = some part := by simpa using at_
      have earlier' : ∀ g ∈ notes ++ head.slots before.length, key g < start + 1 := by
        intro g member
        obtain old | new := List.mem_append.mp member
        · exact Nat.lt_succ_of_lt (earlier g old)
        · exact Nat.lt_succ_of_le (Nat.le_of_eq (own _ g new))
      have found := ih later earlier' (before ++ machine.answers s head.commands) (machine.after s head.commands) i at_
      obtain ⟨front, back, t, state, split, collected⟩ := found
      have whole : before ++ machine.answers s (join size (head :: parts)).commands ++ behind =
          before ++ machine.answers s head.commands ++
            machine.answers (machine.after s head.commands) (join size parts).commands ++ behind := by
        rw [response, List.append_assoc _ _ behind]
      refine ⟨front, back, t, ?_, whole.trans split, ?_⟩
      · rw [state, List.take_succ_cons, List.flatMap_cons, machine.after_append]
      · rw [whole, ← collected, join, Part.append, List.length_append, sized.length_answers, Nat.add_assoc,
          Nat.add_comm 1, List.append_assoc notes]

end

/-! ### Encoding a batch -/

/-- The loop of an encoder over its numbered operations, up to the first one it refuses. -/
def encodeEach {β γ α ε : Type} (one : α → Nat → Encoding β γ → Except ε (Encoding β γ)) (acc : Encoding β γ) :
    List (α × Nat) → Except ε (Encoding β γ)
  | [] => .ok acc
  | (op, index) :: batch =>
    match one op index acc with
    | .error error => .error error
    | .ok acc => encodeEach one acc batch

section
variable {β κ γ α ε ρ σ ω : Type} {fetch : List β → Option (κ × List β)} {size : κ → Nat}

/-- The parts belong to the operations, counted from `start`. -/
def Matched (belongs : α → Nat → Part κ γ → Prop) : Nat → List α → List (Part κ γ) → Prop
  | _, [], [] => True
  | start, op :: batch, part :: parts => belongs op start part ∧ Matched belongs (start + 1) batch parts
  | _, _, _ => False

theorem Matched.mono {belongs other : α → Nat → Part κ γ → Prop} (weaker : ∀ op i part, belongs op i part → other op i part)
    {start : Nat} {batch : List α} {parts : List (Part κ γ)} (matched : Matched belongs start batch parts) :
    Matched other start batch parts := by
  induction batch generalizing start parts with
  | nil => cases parts with
    | nil => trivial
    | cons part parts => exact matched
  | cons op batch ih => cases parts with
    | nil => exact matched
    | cons part parts => exact ⟨weaker _ _ _ matched.1, ih matched.2⟩

theorem Matched.belongs {belongs : α → Nat → Part κ γ → Prop} {start : Nat} {batch : List α} {parts : List (Part κ γ)}
    (matched : Matched belongs start batch parts) : ∀ part ∈ parts, ∃ op i, belongs op i part := by
  induction batch generalizing start parts with
  | nil => cases parts with
    | nil => simp
    | cons part parts => exact matched.elim
  | cons op batch ih => cases parts with
    | nil => simp
    | cons part parts =>
      obtain ⟨own, later⟩ := matched
      intro other member
      obtain rfl | member := List.mem_cons.mp member
      · exact ⟨op, start, own⟩
      · exact ih later other member

theorem join_inside {place : γ → Nat} {parts : List (Part κ γ)} (inside : ∀ part ∈ parts, ∀ offset, ∀ g ∈ part.slots offset,
    place g < offset + (part.commands.map size).sum) (offset : Nat) :
    ∀ g ∈ (join size parts).slots offset, place g < offset + ((join size parts).commands.map size).sum := by
  induction parts generalizing offset with
  | nil => exact nofun
  | cons part parts ih =>
    intro g member
    rw [join, Part.append, List.map_append, List.sum_append]
    obtain here | behind := List.mem_append.mp member
    · have bound := inside part List.mem_cons_self offset g here
      omega
    · have bound := ih (fun part member => inside part (List.mem_cons_of_mem _ member)) _ g behind
      omega

theorem encodeEach_emits {one : α → Nat → Encoding β γ → Except ε (Encoding β γ)}
    {belongs : α → Nat → Part κ γ → Prop} {batch : List α}
    (encodes : ∀ op ∈ batch, ∀ index acc, ∃ after part, one op index acc = .ok after ∧
      Emits fetch size part acc after ∧ belongs op index part) (start : Nat) (acc : Encoding β γ) :
    ∃ after parts, encodeEach one acc (batch.zipIdx start) = .ok after ∧ Emits fetch size (join size parts) acc after ∧
      Matched belongs start batch parts := by
  induction batch generalizing start acc with
  | nil => exact ⟨acc, [], rfl, .nil acc, trivial⟩
  | cons op batch ih =>
    obtain ⟨between, part, encoded, emits, own⟩ := encodes op List.mem_cons_self start acc
    obtain ⟨after, parts, rest, others, matched⟩ :=
      ih (fun op member => encodes op (List.mem_cons_of_mem _ member)) (start + 1) between
    refine ⟨after, part :: parts, ?_, emits.append others, own, matched⟩
    rw [List.zipIdx_cons, encodeEach, encoded]
    exact rest

theorem encodeEach_ok {one : α → Nat → Encoding β γ → Except ε (Encoding β γ)} {batch : List α} {start : Nat}
    {acc after : Encoding β γ} (encoded : encodeEach one acc (batch.zipIdx start) = .ok after) :
    ∀ op ∈ batch, ∃ index acc after, one op index acc = .ok after := by
  induction batch generalizing start acc with
  | nil => simp
  | cons op batch ih =>
    rw [List.zipIdx_cons, encodeEach] at encoded
    cases first : one op start acc with
    | error error =>
      rw [first] at encoded
      cases encoded
    | ok between =>
      rw [first] at encoded
      intro other member
      obtain rfl | member := List.mem_cons.mp member
      · exact ⟨start, acc, between, first⟩
      · exact ih encoded other member

/-- What the operations of a batch come to, one after the other. -/
def performEach (perform : σ → α → σ × ω) (s : σ) : List α → List ω
  | [] => []
  | op :: batch => (perform s op).2 :: performEach perform (perform s op).1 batch

/-- The part of an operation takes the machine where the operation does, and its notes, read in any response with the
part's answers in it, come to what the operation comes to. -/
structure Serves (machine : Machine σ κ β) (key : γ → Nat) (read : List β → Option ρ → γ → Option ρ)
    (final : α → Option ρ → ω) (perform : σ → α → σ × ω) (op : α) (index : Nat) (part : Part κ γ) : Prop where
  keyed : ∀ offset, ∀ g ∈ part.slots offset, key g = index
  after : ∀ s, machine.after s part.commands = (perform s op).1
  outcome : ∀ s front back, final op ((part.slots front.length).foldl
    (read (front ++ machine.answers s part.commands ++ back)) none) = (perform s op).2

variable {machine : Machine σ κ β} {key : γ → Nat} {read : List β → Option ρ → γ → Option ρ} {final : α → Option ρ → ω}
  {perform : σ → α → σ × ω}

theorem Matched.keyed {start : Nat} {batch : List α} {parts : List (Part κ γ)}
    (matched : Matched (Serves machine key read final perform) start batch parts) : Keyed key start parts := by
  induction batch generalizing start parts with
  | nil => cases parts with
    | nil => trivial
    | cons part parts => exact matched.elim
  | cons op batch ih => cases parts with
    | nil => trivial
    | cons part parts => exact ⟨matched.1.keyed, ih matched.2⟩

theorem Matched.after {start : Nat} {batch : List α} {parts : List (Part κ γ)}
    (matched : Matched (Serves machine key read final perform) start batch parts) (s : σ) :
    machine.after s (join size parts).commands = batch.foldl (fun s op => (perform s op).1) s := by
  induction batch generalizing start parts s with
  | nil => cases parts with
    | nil => rfl
    | cons part parts => exact matched.elim
  | cons op batch ih => cases parts with
    | nil => exact matched.elim
    | cons part parts =>
      rw [join, Part.append, machine.after_append, matched.1.after, List.foldl_cons]
      exact ih matched.2 _

/-- A machine that counts the commands of a kind shows that operations which leave the count alone have none of them. -/
theorem Matched.none_counted {machine : Machine Nat κ β} {perform : Nat → α → Nat × ω} {counted : κ → Bool}
    (counts : ∀ n command, (machine.answer n command).1 = if counted command then n + 1 else n)
    (still : ∀ n op, (perform n op).1 = n) {start : Nat} {batch : List α} {parts : List (Part κ γ)}
    (matched : Matched (Serves machine key read final perform) start batch parts) :
    ∀ command ∈ (join size parts).commands, counted command = false := by
  have count : ∀ commands n, machine.after n commands = n + commands.countP counted := by
    intro commands
    induction commands with
    | nil => exact fun n => rfl
    | cons command commands ih =>
      intro n
      show machine.after (machine.answer n command).1 commands = _
      rw [ih, counts, List.countP_cons]
      split <;> omega
  have same : batch.foldl (fun s op => (perform s op).1) 0 = 0 := by
    induction batch generalizing start parts with
    | nil => rfl
    | cons op batch ih =>
      cases parts with
      | nil => exact matched.elim
      | cons part parts =>
        rw [List.foldl_cons, still]
        exact ih matched.2
  have total := count (join size parts).commands 0
  rw [matched.after, same, Nat.zero_add] at total
  intro command member
  exact Bool.eq_false_iff.mpr (List.countP_eq_zero.mp total.symm command member)

/-- The operation at a place of the batch has its part there, and the parts before it take the machine where the
operations before it do. -/
theorem Matched.served {start : Nat} {batch : List α} {parts : List (Part κ γ)}
    (matched : Matched (Serves machine key read final perform) start batch parts) (s : σ) {i : Nat} {op : α}
    (present : batch[i]? = some op) :
    ∃ part, parts[i]? = some part ∧ Serves machine key read final perform op (start + i) part ∧
      (performEach perform s batch)[i]? =
        some (perform (machine.after s ((parts.take i).flatMap Part.commands)) op).2 := by
  induction batch generalizing start parts s i with
  | nil => cases present
  | cons head batch ih =>
    cases parts with
    | nil => exact matched.elim
    | cons part parts =>
      obtain ⟨own, later⟩ := matched
      cases i with
      | zero =>
        obtain rfl : head = op := by simpa using present
        exact ⟨part, rfl, own, rfl⟩
      | succ i =>
        have present : batch[i]? = some op := by simpa using present
        obtain ⟨here, found, serves, outcome⟩ := ih later (machine.after s part.commands) present
        refine ⟨here, by simpa using found, by rwa [Nat.add_right_comm] at serves, ?_⟩
        rw [performEach, List.getElem?_cons_succ, ← own.after, outcome, List.take_succ_cons, List.flatMap_cons,
          machine.after_append]

/-- Behind the answers to other commands, the notes of a batch find what its operations come to. -/
theorem Matched.attributed (sized : machine.Sized size) {batch : List α} {parts : List (Part κ γ)}
    (matched : Matched (Serves machine key read final perform) 0 batch parts) (before : List β) (s : σ) {i : Nat} {op : α}
    (present : batch[i]? = some op) :
    (performEach perform s batch)[i]? =
      some (final op (collect key (read (before ++ machine.answers s (join size parts).commands))
        ((join size parts).slots before.length) i)) := by
  obtain ⟨part, at_, serves, outcome⟩ := matched.served s present
  obtain ⟨front, back, t, state, split, collected⟩ :=
    collect_join sized read matched.keyed (List.forall_mem_nil fun g => key g < 0) before [] s i at_
  rw [List.append_nil, Nat.zero_add, List.nil_append] at collected
  rw [outcome, collected, serves.outcome, state]

/-- A batch behind settings is read as its commands. -/
theorem Emits.interpreted {settings : List κ} {part : Part κ γ} {between after : Encoding β γ}
    (first : Emits fetch size (silent settings) .start between) (second : Emits fetch size part between after) :
    interpret fetch after.cmd = some (settings ++ part.commands) := by
  obtain ⟨bytes, cmd, interprets⟩ := (first.append second).cmd
  rw [Encoding.start, List.nil_append] at cmd
  rw [cmd]
  exact interprets.whole

/-- It is answered in the size that was counted, and its notes are places behind the answers to the settings. -/
theorem Emits.answered {settings : List κ} {part : Part κ γ} {between after : Encoding β γ} (sized : machine.Sized size)
    (first : Emits fetch size (silent settings) .start between) (second : Emits fetch size part between after) (s : σ) :
    (machine.answers s (settings ++ part.commands)).length = after.rspSize ∧
      after.gather = part.slots (machine.answers s settings).length := by
  have total := (first.append second).rspSize
  have notes := (first.append second).gather
  rw [Encoding.start, List.nil_append] at notes
  rw [Encoding.start, Nat.zero_add] at total
  constructor
  · rw [total]
    exact sized.length_answers s _
  · rw [notes, sized.length_answers]
    simp [Part.append, silent]

end

end CommandStream
