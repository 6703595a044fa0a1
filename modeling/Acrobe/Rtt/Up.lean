import Acrobe.Rtt.Descriptor

/-!
# The UP channel

The target stores bytes and publishes them. The host samples the descriptor, reads the new bytes, writes the
read offset back, and only then queues the bytes for its readers.
-/

namespace Acrobe.Rtt
open Ring

inductive ReadOp where
  | read (size : Option Nat)
  | readSome (maxSize : Nat)

/-- How many of the queued bytes an operation takes; it waits when there is none to tell. -/
def ReadOp.take (queued : Nat) : ReadOp → Option Nat
  | .readSome maxSize => if queued = 0 then none else some (min maxSize queued)
  | .read none => if queued = 0 then none else some queued
  | .read (some size) => if queued = 0 ∨ queued < size then none else some size

/-- The pump is to establish the control block, is between two polls, has read the descriptors, reads the new
bytes, or has written the read offset back. -/
inductive UpPhase where
  | lost
  | idle
  | sampled (desc : Descriptor)
  | draining (offsets : List Nat) (chunk : List UInt8) (wroff : Nat)
  | released (chunk : List UInt8) (wroff : Nat)

structure Up where
  ram : Ram
  channel : Channel
  staged : Nat
  written : List UInt8
  upRef : Fixed
  upBufRdoff : Nat
  phase : UpPhase
  rxQueue : List UInt8
  readers : List ReadOp
  delivered : List (List UInt8)

inductive UpEvent where
  | put (byte : UInt8)
  | publish (n : Nat)
  | establish
  | sample
  | downDrifted
  | validate
  | fetch
  | release
  | commit
  | post (op : ReadOp)
  | deliver

namespace Up

def start (ram : Ram) (layout : Layout) : Up where
  ram := ram
  channel := layout.channel
  staged := 0
  written := []
  upRef := ⟨0, 0, 0, 0⟩
  upBufRdoff := 0
  phase := .lost
  rxQueue := []
  readers := []
  delivered := []

/-- One cell is left empty, so that a full buffer is not taken for an empty one. -/
def put (self : Up) (byte : UInt8) : Up :=
  let desc := self.channel.descriptor
  if self.channel.used + self.staged + 1 < desc.size then
    { self with
      channel := self.channel.store ((desc.wrOff + self.staged) % desc.size) byte
      staged := self.staged + 1
      written := self.written ++ [byte] }
  else self

def publish (self : Up) (n : Nat) : Up :=
  let desc := self.channel.descriptor
  if n ≤ self.staged then
    { self with channel := self.channel.setWrOff ((desc.wrOff + n) % desc.size), staged := self.staged - n }
  else self

/-! ### The pump -/

def establish (self : Up) : Up :=
  match self.phase with
  | .lost =>
    let desc := self.channel.descriptor
    match checkSide self.ram "UP" desc with
    | .ok () => { self with upRef := desc.fixed, upBufRdoff := desc.rdOff, phase := .idle }
    | .error _ => self
  | _ => self

def sample (self : Up) : Up :=
  match self.phase with
  | .idle => { self with phase := .sampled self.channel.descriptor }
  | _ => self

/-- The DOWN descriptor of the same poll is refused. -/
def downDrifted (self : Up) : Up :=
  match self.phase with
  | .sampled _ => { self with phase := .lost }
  | _ => self

def validate (self : Up) : Up :=
  match self.phase with
  | .sampled desc =>
    match validateUpDescriptor self.upRef self.upBufRdoff desc with
    | .error _ => { self with phase := .lost }
    | .ok wroff =>
      if wroff = self.upBufRdoff then { self with phase := .idle }
      else { self with phase := .draining (spans self.upRef.size self.upBufRdoff wroff) [] wroff }
  | _ => self

def fetch (self : Up) : Up :=
  match self.phase with
  | .draining (offset :: offsets) chunk wroff =>
    { self with phase := .draining offsets (chunk ++ [self.channel.cells offset]) wroff }
  | _ => self

def release (self : Up) : Up :=
  match self.phase with
  | .draining [] chunk wroff => { self with channel := self.channel.setRdOff wroff, phase := .released chunk wroff }
  | _ => self

def commit (self : Up) : Up :=
  match self.phase with
  | .released chunk wroff => { self with rxQueue := self.rxQueue ++ chunk, upBufRdoff := wroff, phase := .idle }
  | _ => self

/-! ### Readers -/

/-- The operation that holds the lock takes its bytes. -/
def deliver (self : Up) : Up :=
  match self.readers with
  | [] => self
  | op :: readers =>
    match op.take self.rxQueue.length with
    | none => self
    | some n =>
      { self with
        readers
        delivered := self.delivered ++ [self.rxQueue.take n]
        rxQueue := self.rxQueue.drop n }

def step (self : Up) : UpEvent → Up
  | .put byte => self.put byte
  | .publish n => self.publish n
  | .establish => self.establish
  | .sample => self.sample
  | .downDrifted => self.downDrifted
  | .validate => self.validate
  | .fetch => self.fetch
  | .release => self.release
  | .commit => self.commit
  | .post op => { self with readers := self.readers ++ [op] }
  | .deliver => self.deliver

def run (self : Up) (events : List UpEvent) : Up := events.foldl step self

/-- The bytes that have left the buffer, in the order in which they did. -/
def taken (self : Up) : List UInt8 :=
  self.delivered.flatten ++ self.rxQueue ++ (match self.phase with
    | .released chunk _ => chunk
    | _ => [])

/-- Where the pump is, between the positions of the two offsets. -/
def Pumps (self : Up) (layout : Layout) (tail head : Nat) : Prop :=
  match self.phase with
  | .lost => True
  | .idle => self.upRef = layout.fixed ∧ self.upBufRdoff = slot layout.fixed.size layout.offset tail
  | .sampled desc => self.upRef = layout.fixed ∧ self.upBufRdoff = slot layout.fixed.size layout.offset tail ∧
      desc.fixed = layout.fixed ∧ desc.rdOff = slot layout.fixed.size layout.offset tail ∧
      ∃ seen, tail ≤ seen ∧ seen ≤ head ∧ desc.wrOff = slot layout.fixed.size layout.offset seen
  | .draining offsets chunk wroff => self.upRef = layout.fixed ∧
      ∃ seen next, tail ≤ next ∧ next ≤ seen ∧ seen ≤ head ∧
        wroff = slot layout.fixed.size layout.offset seen ∧ chunk = (self.written.drop tail).take (next - tail) ∧
        offsets = (List.range (seen - next)).map fun k => slot layout.fixed.size layout.offset (next + k)
  | .released _ wroff => self.upRef = layout.fixed ∧ wroff = slot layout.fixed.size layout.offset tail

structure Sound (up : Up) (layout : Layout) (tail head : Nat) : Prop where
  streams : up.channel.Streams layout up.written tail head
  staged : head + up.staged = up.written.length
  taken : up.taken = up.written.take tail
  pumps : up.Pumps layout tail head

theorem Sound.put {up : Up} {layout : Layout} {tail head : Nat} (sound : up.Sound layout tail head) (byte : UInt8) :
    (up.put byte).Sound layout tail head := by
  unfold Up.put
  dsimp only
  split
  · rename_i free
    obtain ⟨streams, staged, taken, pumps⟩ := sound
    have size := streams.size
    rw [streams.used, size] at free
    have behind := streams.holds.behind
    have ordered := streams.ordered
    have offset : (up.channel.descriptor.wrOff + up.staged) % up.channel.descriptor.size =
        slot layout.fixed.size layout.offset up.written.length := by
      rw [streams.wrOff, size, slot_add, staged]
    refine ⟨⟨streams.fixed, streams.rdOff, streams.wrOff, ordered, ?_, ?_⟩, ?_, ?_, ?_⟩
    · rw [List.length_append]
      exact Nat.le_add_right_of_le streams.published
    · rw [offset]
      exact streams.holds.push byte (by omega)
    · rw [List.length_append, ← staged]
      rfl
    · rw [List.take_append_of_le_length behind]
      exact taken
    · revert pumps
      unfold Pumps
      dsimp only
      split
      case h_4 chunk wroff _ =>
        rintro ⟨ref, seen, next, after, before, bound, wrote, read, rest⟩
        refine ⟨ref, seen, next, after, before, bound, wrote, ?_, rest⟩
        rw [List.drop_append_of_le_length behind, List.take_append_of_le_length, read]
        rw [List.length_drop]
        omega
      all_goals exact id
  · exact sound

theorem Sound.publish {up : Up} {layout : Layout} {tail head : Nat} (sound : up.Sound layout tail head) (n : Nat) :
    ∃ next, (up.publish n).Sound layout tail next := by
  unfold Up.publish
  dsimp only
  split
  · rename_i some_
    obtain ⟨streams, staged, taken, pumps⟩ := sound
    have size := streams.size
    refine ⟨head + n, ⟨streams.fixed, streams.rdOff, ?_, ?_, ?_, streams.holds⟩, ?_, taken, ?_⟩
    · change (up.channel.descriptor.wrOff + n) % up.channel.descriptor.size = _
      rw [streams.wrOff, size, slot_add]
    · exact Nat.le_add_right_of_le streams.ordered
    · dsimp only
      omega
    · dsimp only
      omega
    · revert pumps
      unfold Pumps
      dsimp only
      split
      case h_3 desc _ =>
        rintro ⟨ref, cached, same, rdOff, seen, after, before, wrote⟩
        exact ⟨ref, cached, same, rdOff, seen, after, by omega, wrote⟩
      case h_4 chunk wroff _ =>
        rintro ⟨ref, seen, next, after, before, bound, wrote, read, rest⟩
        exact ⟨ref, seen, next, after, before, by omega, wrote, read, rest⟩
      all_goals exact id
  · exact ⟨head, sound⟩

/-! ### The steps of the pump -/

theorem Sound.establish {up : Up} {layout : Layout} {tail head : Nat} (sound : up.Sound layout tail head) :
    up.establish.Sound layout tail head := by
  unfold Up.establish
  cases phase : up.phase with
  | lost =>
    dsimp only
    split
    · obtain ⟨streams, staged, taken, -⟩ := sound
      refine ⟨streams, staged, ?_, streams.fixed, streams.rdOff⟩
      rw [Up.taken, phase] at taken
      exact taken
    · exact sound
  | _ => exact sound

theorem Sound.sample {up : Up} {layout : Layout} {tail head : Nat} (sound : up.Sound layout tail head) :
    up.sample.Sound layout tail head := by
  unfold Up.sample
  cases phase : up.phase with
  | idle =>
    obtain ⟨streams, staged, taken, pumps⟩ := sound
    rw [Up.taken, phase] at taken
    rw [Pumps, phase] at pumps
    exact ⟨streams, staged, taken, pumps.1, pumps.2, streams.fixed, streams.rdOff, head, streams.ordered,
      Nat.le_refl head, streams.wrOff⟩
  | _ => exact sound

theorem Sound.downDrifted {up : Up} {layout : Layout} {tail head : Nat} (sound : up.Sound layout tail head) :
    up.downDrifted.Sound layout tail head := by
  unfold Up.downDrifted
  cases phase : up.phase with
  | sampled desc =>
    obtain ⟨streams, staged, taken, -⟩ := sound
    rw [Up.taken, phase] at taken
    exact ⟨streams, staged, taken, trivial⟩
  | _ => exact sound

theorem validateUpDescriptor_ok {ref : Fixed} {upBufRdoff : Nat} {desc : Descriptor} (same : desc.fixed = ref)
    (cached : desc.rdOff = upBufRdoff) (inside : desc.wrOff < desc.size) :
    validateUpDescriptor ref upBufRdoff desc = .ok desc.wrOff := by
  rw [validateUpDescriptor, if_neg (not_not.mpr same), if_neg (not_not.mpr cached), if_neg (by omega)]

/-- The descriptor is always accepted, and the spans lead up to the write offset that it had. -/
theorem Sound.validate {up : Up} {layout : Layout} {tail head : Nat} (sound : up.Sound layout tail head) :
    up.validate.Sound layout tail head := by
  unfold Up.validate
  cases phase : up.phase with
  | sampled desc =>
    obtain ⟨streams, staged, taken, pumps⟩ := sound
    have room := streams.holds.room
    have published := streams.published
    have behind := streams.holds.behind
    have positive : 0 < layout.fixed.size := by omega
    rw [Up.taken, phase] at taken
    rw [Pumps, phase] at pumps
    obtain ⟨ref, cached, same, rdOff, seen, after, before, wrote⟩ := pumps
    have size : desc.size = layout.fixed.size := congrArg Fixed.size same
    have accepted := validateUpDescriptor_ok (same.trans ref.symm) (rdOff.trans cached.symm)
      (by rw [wrote, size]; exact slot_lt positive seen)
    dsimp only
    rw [accepted]
    dsimp only
    split
    · exact ⟨streams, staged, taken, ref, cached⟩
    · rename_i different
      have forward : tail < seen := by
        refine Nat.lt_of_le_of_ne after fun equal => different ?_
        rw [wrote, cached, equal]
      refine ⟨streams, staged, taken, ref, seen, tail, Nat.le_refl tail, after, before, wrote, ?_, ?_⟩
      · rw [Nat.sub_self, List.take_zero]
      · rw [ref, cached, wrote, spans_slots forward (by omega)]
  | _ => exact sound

theorem Sound.fetch {up : Up} {layout : Layout} {tail head : Nat} (sound : up.Sound layout tail head) :
    up.fetch.Sound layout tail head := by
  unfold Up.fetch
  cases phase : up.phase with
  | draining offsets chunk wroff =>
    cases offsets with
    | nil => exact sound
    | cons offset offsets =>
      obtain ⟨streams, staged, taken, pumps⟩ := sound
      have published := streams.published
      rw [Up.taken, phase] at taken
      rw [Pumps, phase] at pumps
      obtain ⟨ref, seen, next, after, before, bound, wrote, read, rest⟩ := pumps
      obtain ⟨more, count⟩ : ∃ more, seen - next = more + 1 := by
        cases some_ : seen - next with
        | zero =>
          rw [some_] at rest
          cases rest
        | succ more => exact ⟨more, rfl⟩
      rw [count, List.range_succ_eq_map, List.map_cons, List.map_map, List.cons.injEq] at rest
      obtain ⟨byte, here⟩ : ∃ byte, up.written[next]? = some byte := ⟨_, List.getElem?_eq_getElem (by omega)⟩
      refine ⟨streams, staged, taken, ref, seen, next + 1, by omega, by omega, bound, wrote, ?_, ?_⟩
      · rw [read, rest.1, Nat.add_zero, streams.holds.cell next byte after here, Nat.sub_add_comm after,
          List.take_add_one, List.getElem?_drop, Nat.add_sub_cancel' after, here]
        rfl
      · rw [rest.2, show seen - (next + 1) = more by omega]
        refine List.map_congr_left fun k _ => ?_
        rw [Function.comp_apply, Nat.succ_eq_add_one, Nat.add_assoc, Nat.add_comm 1]
  | _ => exact sound

theorem Sound.release {up : Up} {layout : Layout} {tail head : Nat} (sound : up.Sound layout tail head) :
    ∃ next, up.release.Sound layout next head := by
  unfold Up.release
  cases phase : up.phase with
  | draining offsets chunk wroff =>
    cases offsets with
    | cons offset offsets => exact ⟨tail, sound⟩
    | nil =>
      obtain ⟨streams, staged, taken, pumps⟩ := sound
      have published := streams.published
      rw [Up.taken, phase, List.append_nil] at taken
      rw [Pumps, phase] at pumps
      obtain ⟨ref, seen, next, after, before, bound, wrote, read, rest⟩ := pumps
      have finished : next = seen := by
        have count := congrArg List.length rest
        rw [List.length_map, List.length_range] at count
        dsimp only [List.length_nil] at count
        omega
      subst finished
      refine ⟨next, ⟨streams.fixed, wrote, streams.wrOff, bound, published,
        streams.holds.advance after (by omega)⟩, staged, ?_, ref, wrote⟩
      change up.delivered.flatten ++ up.rxQueue ++ chunk = up.written.take next
      rw [taken, read, ← Nat.add_sub_cancel' after, List.take_add, Nat.add_sub_cancel_left]
  | _ => exact ⟨tail, sound⟩

theorem Sound.commit {up : Up} {layout : Layout} {tail head : Nat} (sound : up.Sound layout tail head) :
    up.commit.Sound layout tail head := by
  unfold Up.commit
  cases phase : up.phase with
  | released chunk wroff =>
    obtain ⟨streams, staged, taken, pumps⟩ := sound
    rw [Up.taken, phase] at taken
    rw [Pumps, phase] at pumps
    refine ⟨streams, staged, ?_, pumps⟩
    change up.delivered.flatten ++ (up.rxQueue ++ chunk) ++ [] = up.written.take tail
    rw [List.append_nil, ← List.append_assoc]
    exact taken
  | _ => exact sound

theorem Sound.deliver {up : Up} {layout : Layout} {tail head : Nat} (sound : up.Sound layout tail head) :
    up.deliver.Sound layout tail head := by
  unfold Up.deliver
  split
  · exact sound
  · split
    · exact sound
    · obtain ⟨streams, staged, taken, pumps⟩ := sound
      refine ⟨streams, staged, ?_, pumps⟩
      rw [← taken, Up.taken, Up.taken, List.flatten_append, List.flatten_singleton, List.append_assoc up.delivered.flatten,
        List.take_append_drop]

/-! ### Runs -/

theorem sound_start (ram : Ram) (layout : Layout) : (start ram layout).Sound layout 0 0 where
  streams := layout.streams
  staged := rfl
  taken := rfl
  pumps := trivial

theorem Sound.step {up : Up} {layout : Layout} {tail head : Nat} (sound : up.Sound layout tail head) (event : UpEvent) :
    ∃ tail head, (up.step event).Sound layout tail head := by
  cases event with
  | put byte => exact ⟨tail, head, sound.put byte⟩
  | publish n =>
    obtain ⟨next, later⟩ := sound.publish n
    exact ⟨tail, next, later⟩
  | establish => exact ⟨tail, head, sound.establish⟩
  | sample => exact ⟨tail, head, sound.sample⟩
  | downDrifted => exact ⟨tail, head, sound.downDrifted⟩
  | validate => exact ⟨tail, head, sound.validate⟩
  | fetch => exact ⟨tail, head, sound.fetch⟩
  | release =>
    obtain ⟨next, later⟩ := sound.release
    exact ⟨next, head, later⟩
  | commit => exact ⟨tail, head, sound.commit⟩
  | post op => exact ⟨tail, head, sound.streams, sound.staged, sound.taken, sound.pumps⟩
  | deliver => exact ⟨tail, head, sound.deliver⟩

theorem Sound.run {up : Up} {layout : Layout} {tail head : Nat} (sound : up.Sound layout tail head)
    (events : List UpEvent) : ∃ tail head, (up.run events).Sound layout tail head := by
  induction events generalizing up tail head with
  | nil => exact ⟨tail, head, sound⟩
  | cons event events ih =>
    obtain ⟨tail, head, later⟩ := sound.step event
    exact ih later

/-- What the readers get is a prefix of what the target has written, and all else that it has written is queued,
or read and about to be, or still in the buffer from the read offset on. -/
theorem delivers_in_order (ram : Ram) (layout : Layout) (events : List UpEvent) :
    let up := (start ram layout).run events
    up.delivered.flatten <+: up.written ∧
      up.written = up.taken ++ contents up.channel.cells up.channel.descriptor.size up.channel.descriptor.rdOff
        (up.channel.used + up.staged) ∧
      up.channel.descriptor.rdOff < layout.fixed.size := by
  intro up
  obtain ⟨tail, head, sound⟩ := (sound_start ram layout).run events
  change up.Sound layout tail head at sound
  obtain ⟨streams, staged, taken, -⟩ := sound
  have used := streams.used
  have size := streams.size
  have room := streams.holds.room
  have behind := streams.holds.behind
  have ordered := streams.ordered
  refine ⟨?_, ?_, ?_⟩
  · have front : up.delivered.flatten <+: up.taken := by
      rw [Up.taken, List.append_assoc]
      exact List.prefix_append _ _
    rw [taken] at front
    exact front.trans (List.take_prefix _ _)
  · have rest : (up.written.drop tail).take (head - tail + up.staged) = up.written.drop tail := by
      apply List.take_of_length_le
      rw [List.length_drop]
      omega
    rw [taken, size, streams.rdOff, used, streams.holds.contents (Nat.le_refl tail) (by omega), rest,
      List.take_append_drop]
  · rw [streams.rdOff]
    exact slot_lt (by omega) tail

end Up

end Acrobe.Rtt
