import Mathlib
import Acrobe.Rtt.Down

/-!
# The bytes of the DOWN channel

While no descriptor is refused the buffer holds what is published, and behind it what is stored of the next
chunk.
-/

namespace Acrobe.Rtt.Down
open Ring

/-! ### The invariant -/

def Pumps (self : Down) (layout : Layout) : Prop :=
  match self.phase with
  | .lost => self.writer = .free
  | .located desc => self.writer = .free ∧ desc.fixed = layout.fixed ∧
      desc.wrOff = slot layout.fixed.size layout.offset self.stream.length
  | .idle => self.downRef = layout.fixed
  | .sampled desc => self.downRef = layout.fixed ∧ desc.fixed = layout.fixed ∧ desc.rdOff < layout.fixed.size

/-- The bytes between the published write offset and the cached one. -/
def advanced (self : Down) : List UInt8 :=
  match self.writer with
  | .publishing _ stored _ _ => stored
  | _ => []

/-- The offsets that a writer is about to use, when so many bytes are published. -/
def Places (layout : Layout) (tail position : Nat) : Writer → Prop
  | .asked _ _ rdoff => ∃ seen, seen ≤ tail ∧ rdoff = slot layout.fixed.size layout.offset seen ∧
      position < seen + layout.fixed.size
  | .storing _ stored todo _ newWr =>
      newWr = slot layout.fixed.size layout.offset (position + stored.length + todo.length) ∧
      position + stored.length + todo.length < tail + layout.fixed.size ∧
      todo.map Prod.fst = (List.range todo.length).map fun k =>
        slot layout.fixed.size layout.offset (position + stored.length + k)
  | .publishing _ stored _ newWr => newWr = slot layout.fixed.size layout.offset (position + stored.length)
  | _ => True

structure Sound (down : Down) (layout : Layout) (tail : Nat) : Prop where
  raised : down.raised = []
  ordered : down.completed ++ down.writer.current ++ down.waiting = down.posted
  streams : down.channel.Streams layout (down.stream ++ down.writer.stored) tail down.stream.length
  received : down.received = down.stream.take tail
  fetched : down.fetched <+: down.stream.drop tail
  pumps : down.Pumps layout
  cached : down.ready = true → down.downBufWroff = slot layout.fixed.size layout.offset
    (down.stream.length + down.advanced.length)
  places : Places layout tail down.stream.length down.writer

theorem Sound.busy {down : Down} {layout : Layout} {tail : Nat} (sound : down.Sound layout tail)
    (busy : down.writer ≠ .free) : down.ready = true ∧ down.downRef = layout.fixed := by
  have pumps := sound.pumps
  rw [Pumps] at pumps
  rw [ready]
  cases phase : down.phase with
  | lost =>
    rw [phase] at pumps
    exact absurd pumps busy
  | located desc =>
    rw [phase] at pumps
    exact absurd pumps.1 busy
  | idle =>
    rw [phase] at pumps
    exact ⟨rfl, pumps⟩
  | sampled desc =>
    rw [phase] at pumps
    exact ⟨rfl, pumps.1⟩

theorem sound_start (ram : Ram) (layout : Layout) : (start ram layout).Sound layout 0 where
  raised := rfl
  ordered := rfl
  streams := layout.streams
  received := rfl
  fetched := List.prefix_rfl
  pumps := rfl
  cached := nofun
  places := trivial

theorem places_mono {writer : Writer} {layout : Layout} {tail next position : Nat} (forward : tail ≤ next)
    (places : Places layout tail position writer) : Places layout next position writer := by
  cases writer with
  | asked sent remaining rdoff =>
    obtain ⟨seen, before, wrote, room⟩ := places
    exact ⟨seen, Nat.le_trans before forward, wrote, room⟩
  | storing sent stored todo rest newWr =>
    obtain ⟨target, room, offsets⟩ := places
    exact ⟨target, by omega, offsets⟩
  | _ => exact places

theorem Sound.fetch {down : Down} {layout : Layout} {tail : Nat} (sound : down.Sound layout tail) :
    down.fetch.Sound layout tail := by
  unfold Down.fetch
  dsimp only
  split
  · rename_i some_
    obtain ⟨raised, ordered, streams, received, fetched, pumps, cached, places⟩ := sound
    rw [streams.used] at some_
    refine ⟨raised, ordered, streams, received, ?_, pumps, cached, places⟩
    have here : tail + down.fetched.length < down.stream.length := by omega
    have same : (down.stream ++ down.writer.stored)[tail + down.fetched.length]? =
        some (down.stream[tail + down.fetched.length]) := by
      rw [List.getElem?_append_left here, List.getElem?_eq_getElem here]
    have byte := streams.holds.cell (tail + down.fetched.length) _ (Nat.le_add_right _ _) same
    change down.fetched ++ _ <+: down.stream.drop tail
    rw [streams.rdOff, streams.size, slot_add, byte, List.prefix_iff_eq_take, List.length_append,
      List.length_singleton, List.take_add_one, ← List.prefix_iff_eq_take.mp fetched, List.getElem?_drop,
      List.getElem?_eq_getElem here]
    rfl
  · exact sound

theorem Sound.release {down : Down} {layout : Layout} {tail : Nat} (sound : down.Sound layout tail) (n : Nat) :
    ∃ next, (down.release n).Sound layout next := by
  unfold Down.release
  dsimp only
  split
  · rename_i enough
    obtain ⟨raised, ordered, streams, received, fetched, pumps, cached, places⟩ := sound
    have behind := streams.ordered
    have bound := fetched.length_le
    rw [List.length_drop] at bound
    have inside : tail + n ≤ down.stream.length := by omega
    have room := streams.holds.room
    rw [List.length_append] at room
    refine ⟨tail + n, raised, ordered, ⟨streams.fixed, ?_, streams.wrOff, inside, streams.published,
      streams.holds.advance (Nat.le_add_right tail n) (by rw [List.length_append]; omega)⟩, ?_, ?_, pumps, cached,
      places_mono (Nat.le_add_right tail n) places⟩
    · change (down.channel.descriptor.rdOff + n) % down.channel.descriptor.size = _
      rw [streams.rdOff, streams.size, slot_add]
    · change down.received ++ down.fetched.take n = down.stream.take (tail + n)
      rw [received, List.take_add, List.prefix_iff_eq_take.mp fetched, List.take_take, Nat.min_eq_left enough]
    · change down.fetched.drop n <+: down.stream.drop (tail + n)
      rw [← List.drop_drop]
      exact fetched.drop n
  · exact ⟨tail, sound⟩

/-! ### The pump -/

theorem Sound.locate {down : Down} {layout : Layout} {tail : Nat} (sound : down.Sound layout tail) :
    down.locate.Sound layout tail := by
  unfold Down.locate
  cases phase : down.phase with
  | lost =>
    obtain ⟨raised, ordered, streams, received, fetched, pumps, cached, places⟩ := sound
    rw [Pumps, phase] at pumps
    exact ⟨raised, ordered, streams, received, fetched, ⟨pumps, streams.fixed, streams.wrOff⟩, nofun, places⟩
  | _ => exact sound

theorem Sound.establish {down : Down} {layout : Layout} {tail : Nat} (sound : down.Sound layout tail)
    (agrees : down.Agrees .establish) : down.establish.Sound layout tail := by
  unfold Down.establish
  cases phase : down.phase with
  | located desc =>
    obtain ⟨raised, ordered, streams, received, fetched, pumps, cached, places⟩ := sound
    rw [Agrees, phase] at agrees
    rw [Pumps, phase] at pumps
    obtain ⟨free, same, wrOff⟩ := pumps
    have settled : down.advanced = [] := by rw [advanced, free]
    dsimp only at agrees ⊢
    rw [agrees]
    refine ⟨raised, ordered, streams, received, fetched, same, fun _ => ?_, places⟩
    change desc.wrOff = slot layout.fixed.size layout.offset (down.stream.length + down.advanced.length)
    rw [wrOff, settled]
    rfl
  | _ => exact sound

theorem Sound.sample {down : Down} {layout : Layout} {tail : Nat} (sound : down.Sound layout tail) :
    down.sample.Sound layout tail := by
  unfold Down.sample
  cases phase : down.phase with
  | idle =>
    obtain ⟨raised, ordered, streams, received, fetched, pumps, cached, places⟩ := sound
    have room := streams.holds.room
    have behind := streams.holds.behind
    rw [Pumps, phase] at pumps
    rw [ready, phase] at cached
    refine ⟨raised, ordered, streams, received, fetched, ⟨pumps, streams.fixed, ?_⟩, cached, places⟩
    rw [streams.rdOff]
    exact slot_lt (by omega) tail
  | _ => exact sound

theorem validateDownDescriptor_ok {ref : Fixed} {downBufWroff : Nat} {desc : Descriptor} (same : desc.fixed = ref)
    (cached : desc.wrOff = downBufWroff) (inside : desc.rdOff < desc.size) :
    validateDownDescriptor ref downBufWroff desc = .ok () := by
  rw [validateDownDescriptor, if_neg (not_not.mpr same), if_neg (not_not.mpr cached), if_neg (by omega)]

theorem Sound.validate {down : Down} {layout : Layout} {tail : Nat} (sound : down.Sound layout tail)
    (agrees : down.Agrees .validate) : down.validate.Sound layout tail := by
  unfold Down.validate
  cases phase : down.phase with
  | sampled desc =>
    obtain ⟨raised, ordered, streams, received, fetched, pumps, cached, places⟩ := sound
    rw [Agrees, phase] at agrees
    rw [Pumps, phase] at pumps
    rw [ready, phase] at cached
    obtain ⟨ref, same, inside⟩ := pumps
    have size : desc.size = layout.fixed.size := congrArg Fixed.size same
    dsimp only at agrees ⊢
    rw [validateDownDescriptor_ok (same.trans ref.symm) agrees (by rw [size]; exact inside)]
    exact ⟨raised, ordered, streams, received, fetched, ref, cached, places⟩
  | _ => exact sound

/-! ### The writer -/

theorem placed_fst {size base position : Nat} {data : List UInt8} (short : data.length < size) :
    (placed size (slot size base position) data).map Prod.fst =
      (List.range data.length).map fun k => slot size base (position + k) := by
  have below := @slot_lt size base (by omega) position
  rw [placed]
  split
  · rename_i within
    rw [List.map_fst_zip (by rw [List.length_range']), range'_slots data.length within]
  · rename_i beyond
    dsimp only
    rw [List.map_append, List.map_fst_zip (by rw [List.length_range', List.length_take]; omega),
      List.map_fst_zip (by rw [List.length_range', List.length_drop])]
    have round := @spans_slots size base position (position + data.length) (by omega) (by omega)
    have moved := @slot_cases size base position (position + data.length) (Nat.le_add_right _ _) (by omega)
    rw [Nat.add_sub_cancel_left] at round moved
    rw [← round, spans, if_neg (by omega), show slot size base (position + data.length) =
      data.length - (size - slot size base position) by omega]

theorem placed_snd {size wr : Nat} {data : List UInt8} : (placed size wr data).map Prod.snd = data := by
  rw [placed]
  split
  · exact List.map_snd_zip (by rw [List.length_range'])
  · rename_i beyond
    dsimp only
    rw [List.map_append, List.map_snd_zip (by rw [List.length_range', List.length_take]; omega),
      List.map_snd_zip (by rw [List.length_range', List.length_drop]), List.take_append_drop]

theorem pumps_ready {down later : Down} {layout : Layout} (ready : down.ready = true) (pumps : down.Pumps layout)
    (phase : later.phase = down.phase) (ref : later.downRef = down.downRef) : later.Pumps layout := by
  rw [Down.ready] at ready
  rw [Pumps] at pumps ⊢
  rw [phase, ref]
  cases now : down.phase with
  | lost =>
    rw [now] at ready
    cases ready
  | located desc =>
    rw [now] at ready
    cases ready
  | idle =>
    rw [now] at pumps
    exact pumps
  | sampled desc =>
    rw [now] at pumps
    exact pumps

theorem Sound.acquire {down : Down} {layout : Layout} {tail : Nat} (sound : down.Sound layout tail) :
    down.acquire.Sound layout tail := by
  unfold Down.acquire
  split
  · rename_i waiting writer queue
    obtain ⟨raised, ordered, streams, received, fetched, pumps, cached, places⟩ := sound
    have same : ({ down with waiting, completed := down.completed ++ [[]] } : Down).stream = down.stream := by
      rw [stream, stream, List.flatten_append, List.flatten_singleton, List.append_nil]
    rw [writer, queue] at ordered
    refine ⟨raised, ?_, ?_, ?_, ?_, ?_, ?_, ?_⟩
    · change down.completed ++ [[]] ++ down.writer.current ++ waiting = down.posted
      rw [writer, ← ordered]
      simp [Writer.current]
    · rw [same]
      exact streams
    · rw [same]
      exact received
    · rw [same]
      exact fetched
    · rw [Pumps] at pumps ⊢
      rw [same]
      exact pumps
    · rw [same]
      exact cached
    · rw [same]
      exact places
  · rename_i data waiting _ writer queue
    split
    · rename_i established
      obtain ⟨raised, ordered, streams, received, fetched, pumps, cached, places⟩ := sound
      rw [writer, queue] at ordered
      rw [stream, writer] at streams received fetched cached
      rw [advanced, writer] at cached
      refine ⟨raised, ?_, streams, received, fetched, pumps_ready established pumps rfl rfl, cached, trivial⟩
      change down.completed ++ [[] ++ data] ++ waiting = down.posted
      rw [← ordered]
      simp [Writer.current]
    · exact sound
  · exact sound

theorem Sound.ask {down : Down} {layout : Layout} {tail : Nat} (sound : down.Sound layout tail) :
    down.ask.Sound layout tail := by
  unfold Down.ask
  cases writer : down.writer with
  | asking sent remaining =>
    have established := sound.busy (by rw [writer]; nofun)
    obtain ⟨raised, ordered, streams, received, fetched, pumps, cached, places⟩ := sound
    have behind := streams.ordered
    have room := streams.holds.room
    rw [List.length_append] at room
    rw [writer] at ordered
    rw [stream, writer] at streams received fetched cached
    rw [advanced, writer] at cached
    refine ⟨raised, ordered, streams, received, fetched, pumps_ready established.1 pumps rfl rfl, cached, ?_⟩
    rw [stream, writer] at room
    exact ⟨tail, Nat.le_refl tail, streams.rdOff, Nat.lt_of_le_of_lt (Nat.le_add_right _ _) room⟩
  | _ => exact sound

theorem Sound.push {down : Down} {layout : Layout} {tail : Nat} (sound : down.Sound layout tail) :
    down.push.Sound layout tail := by
  unfold Down.push
  cases writer : down.writer with
  | asked sent remaining rdoff =>
    obtain ⟨established, ref⟩ := sound.busy (by rw [writer]; nofun)
    obtain ⟨raised, ordered, streams, received, fetched, pumps, cached, places⟩ := sound
    have behind := streams.ordered
    rw [writer] at ordered
    have position : down.stream = down.completed.flatten ++ sent := by rw [stream, writer]; rfl
    rw [position, writer] at places streams
    rw [position] at received fetched cached behind
    rw [advanced, writer] at cached
    obtain ⟨seen, before, asked, room⟩ := places
    have wroff := cached established
    rw [List.length_nil, Nat.add_zero] at wroff
    have free : down.downFreeSpace rdoff =
        layout.fixed.size - 1 - ((down.completed.flatten ++ sent).length - seen) := by
      rw [downFreeSpace, wroff, asked, ref]
      exact free_slots (Nat.le_trans before behind) room
    dsimp only
    split
    · exact ⟨raised, ordered, streams, received, fetched, pumps_ready established pumps rfl rfl, cached, trivial⟩
    · rename_i some_
      have short : (remaining.take (down.downFreeSpace rdoff)).length ≤ down.downFreeSpace rdoff := by
        rw [List.length_take]
        exact Nat.min_le_left _ _
      generalize down.downFreeSpace rdoff = space at free some_ short ⊢
      have count : (placed down.downRef.size down.downBufWroff (remaining.take space)).length =
          (remaining.take space).length := by
        rw [← List.length_map (f := Prod.snd), placed_snd]
      refine ⟨raised, ?_, streams, received, fetched, pumps_ready established pumps rfl rfl, cached, ?_, ?_, ?_⟩
      · change down.completed ++ [sent ++ [] ++ (placed _ _ _).map Prod.snd ++ remaining.drop space] ++ down.waiting = _
        rw [placed_snd, List.append_nil, List.append_assoc sent, List.take_append_drop]
        exact ordered
      · rw [count, ref, wroff, slot_add, stream]
        rfl
      · rw [count, stream]
        change (down.completed.flatten ++ sent).length + 0 + _ < _
        omega
      · rw [count, ref, wroff, placed_fst (by omega), stream]
        rfl
  | _ => exact sound

theorem Sound.store {down : Down} {layout : Layout} {tail : Nat} (sound : down.Sound layout tail) :
    down.store.Sound layout tail := by
  unfold Down.store
  cases writer : down.writer with
  | storing sent stored todo rest newWr =>
    cases todo with
    | nil => exact sound
    | cons write todo =>
      obtain ⟨offset, byte⟩ := write
      obtain ⟨established, -⟩ := sound.busy (by rw [writer]; nofun)
      obtain ⟨raised, ordered, streams, received, fetched, pumps, cached, places⟩ := sound
      have position : down.stream = down.completed.flatten ++ sent := by rw [stream, writer]; rfl
      rw [writer] at ordered
      rw [position, writer] at places streams
      rw [position] at received fetched cached
      rw [advanced, writer] at cached
      obtain ⟨target, room, offsets⟩ := places
      rw [List.length_cons] at target room offsets
      rw [List.range_succ_eq_map, List.map_cons, List.map_cons, List.map_map, List.cons.injEq] at offsets
      have grown : (down.completed.flatten ++ sent ++ stored).length =
          (down.completed.flatten ++ sent).length + stored.length := List.length_append
      have longer : (stored ++ [byte]).length = stored.length + 1 := List.length_append
      have here : offset = slot layout.fixed.size layout.offset (down.completed.flatten ++ sent ++ stored).length := by
        rw [grown]
        exact offsets.1
      refine ⟨raised, ?_, ⟨streams.fixed, streams.rdOff, streams.wrOff, streams.ordered, ?_, ?_⟩, received, fetched,
        pumps_ready established pumps rfl rfl, cached, ?_, ?_, ?_⟩
      · rw [← ordered]
        simp [Writer.current]
      · change (down.completed.flatten ++ sent).length ≤ (down.completed.flatten ++ sent ++ (stored ++ [byte])).length
        exact Nat.le_trans (Nat.le_add_right _ _) (Nat.le_of_eq List.length_append.symm)
      · change Holds _ _ (Ring.set down.channel.cells offset byte) (down.completed.flatten ++ sent ++ (stored ++ [byte]))
          tail
        rw [here, ← List.append_assoc]
        refine streams.holds.push byte ?_
        change (down.completed.flatten ++ sent ++ stored).length + 1 < tail + layout.fixed.size
        omega
      · rw [target]
        change slot _ _ ((down.completed.flatten ++ sent).length + stored.length + (todo.length + 1)) =
          slot _ _ ((down.completed.flatten ++ sent).length + (stored ++ [byte]).length + todo.length)
        congr 1
        omega
      · change (down.completed.flatten ++ sent).length + (stored ++ [byte]).length + todo.length < _
        omega
      · rw [offsets.2]
        refine List.map_congr_left fun k _ => ?_
        change slot _ _ ((down.completed.flatten ++ sent).length + stored.length + (k + 1)) =
          slot _ _ ((down.completed.flatten ++ sent).length + (stored ++ [byte]).length + k)
        congr 1
        omega
  | _ => exact sound

theorem Sound.advance {down : Down} {layout : Layout} {tail : Nat} (sound : down.Sound layout tail) :
    down.advance.Sound layout tail := by
  unfold Down.advance
  cases writer : down.writer with
  | storing sent stored todo rest newWr =>
    cases todo with
    | cons write todo => exact sound
    | nil =>
      obtain ⟨established, -⟩ := sound.busy (by rw [writer]; nofun)
      obtain ⟨raised, ordered, streams, received, fetched, pumps, cached, places⟩ := sound
      have position : down.stream = down.completed.flatten ++ sent := by rw [stream, writer]; rfl
      rw [writer] at ordered
      rw [position, writer] at places streams
      rw [position] at received fetched
      obtain ⟨target, -, -⟩ := places
      rw [List.length_nil, Nat.add_zero] at target
      refine ⟨raised, ?_, streams, received, fetched, pumps_ready established pumps rfl rfl, fun _ => target, target⟩
      rw [← ordered]
      simp [Writer.current]
  | _ => exact sound

theorem Sound.publish {down : Down} {layout : Layout} {tail : Nat} (sound : down.Sound layout tail) :
    down.publish.Sound layout tail := by
  unfold Down.publish
  cases writer : down.writer with
  | publishing sent stored rest newWr =>
    obtain ⟨established, -⟩ := sound.busy (by rw [writer]; nofun)
    obtain ⟨raised, ordered, streams, received, fetched, pumps, cached, places⟩ := sound
    have position : down.stream = down.completed.flatten ++ sent := by rw [stream, writer]; rfl
    have behind := streams.ordered
    rw [writer] at ordered
    rw [position, writer] at places streams
    rw [position] at received fetched cached behind
    rw [advanced, writer] at cached
    have grown : (down.completed.flatten ++ sent ++ stored).length =
        (down.completed.flatten ++ sent).length + stored.length := List.length_append
    have published : (down.channel.setWrOff newWr).Streams layout (down.completed.flatten ++ sent ++ stored) tail
        (down.completed.flatten ++ sent ++ stored).length :=
      ⟨streams.fixed, streams.rdOff, by rw [grown]; exact places, by omega, Nat.le_refl _, streams.holds⟩
    have taken : down.received = (down.completed.flatten ++ sent ++ stored).take tail := by
      rw [List.take_append_of_le_length behind]
      exact received
    have ahead : down.fetched <+: (down.completed.flatten ++ sent ++ stored).drop tail := by
      rw [List.drop_append_of_le_length behind]
      exact fetched.trans (List.prefix_append _ _)
    have wroff := cached established
    dsimp only at wroff
    rw [← grown] at wroff
    cases rest with
    | nil =>
      have closed : (down.completed ++ [sent ++ stored]).flatten ++ [] = down.completed.flatten ++ sent ++ stored := by
        rw [List.append_nil, List.flatten_append, List.flatten_singleton, List.append_assoc]
      refine ⟨raised, ?_, ?_, ?_, ?_, pumps_ready established pumps rfl rfl, fun _ => ?_, trivial⟩
      · rw [← ordered]
        simp [Writer.current]
      · change (down.channel.setWrOff newWr).Streams layout ((down.completed ++ [sent ++ stored]).flatten ++ [] ++ []) tail
          ((down.completed ++ [sent ++ stored]).flatten ++ []).length
        rw [closed, List.append_nil]
        exact published
      · change down.received = ((down.completed ++ [sent ++ stored]).flatten ++ []).take tail
        rw [closed]
        exact taken
      · change down.fetched <+: ((down.completed ++ [sent ++ stored]).flatten ++ []).drop tail
        rw [closed]
        exact ahead
      · change down.downBufWroff = slot _ _ (((down.completed ++ [sent ++ stored]).flatten ++ []).length + 0)
        rw [closed]
        exact wroff
    | cons byte rest =>
      refine ⟨raised, ordered, ?_, ?_, ?_, pumps_ready established pumps rfl rfl, fun _ => ?_, trivial⟩
      · change (down.channel.setWrOff newWr).Streams layout (down.completed.flatten ++ (sent ++ stored) ++ []) tail
          (down.completed.flatten ++ (sent ++ stored)).length
        rw [← List.append_assoc, List.append_nil]
        exact published
      · change down.received = (down.completed.flatten ++ (sent ++ stored)).take tail
        rw [← List.append_assoc]
        exact taken
      · change down.fetched <+: (down.completed.flatten ++ (sent ++ stored)).drop tail
        rw [← List.append_assoc]
        exact ahead
      · change down.downBufWroff = slot _ _ ((down.completed.flatten ++ (sent ++ stored)).length + 0)
        rw [← List.append_assoc]
        exact wroff
  | _ => exact sound

/-! ### Runs -/

theorem Sound.step {down : Down} {layout : Layout} {tail : Nat} (sound : down.Sound layout tail) {event : DownEvent}
    (agrees : down.Agrees event) : ∃ next, (down.step event).Sound layout next := by
  cases event with
  | fetch => exact ⟨tail, sound.fetch⟩
  | release n => exact sound.release n
  | locate => exact ⟨tail, sound.locate⟩
  | establish => exact ⟨tail, sound.establish agrees⟩
  | sample => exact ⟨tail, sound.sample⟩
  | validate => exact ⟨tail, sound.validate agrees⟩
  | write data =>
    obtain ⟨raised, ordered, streams, received, fetched, pumps, cached, places⟩ := sound
    refine ⟨tail, raised, ?_, streams, received, fetched, pumps, cached, places⟩
    change down.completed ++ down.writer.current ++ (down.waiting ++ [data]) = down.posted ++ [data]
    rw [← List.append_assoc, ordered]
  | acquire => exact ⟨tail, sound.acquire⟩
  | ask => exact ⟨tail, sound.ask⟩
  | push => exact ⟨tail, sound.push⟩
  | store => exact ⟨tail, sound.store⟩
  | advance => exact ⟨tail, sound.advance⟩
  | publish => exact ⟨tail, sound.publish⟩

theorem Sound.run {down : Down} {layout : Layout} {tail : Nat} (sound : down.Sound layout tail)
    {events : List DownEvent} (agreeing : down.Agreeing events) : ∃ next, (down.run events).Sound layout next := by
  induction events generalizing down tail with
  | nil => exact ⟨tail, sound⟩
  | cons event events ih =>
    obtain ⟨next, later⟩ := sound.step agreeing.1
    exact ih later agreeing.2

theorem Sound.kept {down : Down} {layout : Layout} {tail : Nat} (sound : down.Sound layout tail) : down.Kept := by
  obtain ⟨raised, ordered, streams, received, fetched, pumps, cached, places⟩ := sound
  have behind := streams.ordered
  have room := streams.holds.room
  refine ⟨raised, ?_, ordered, ?_, ?_⟩
  · intro write member unread
    rw [Down.unread, streams.used, streams.rdOff, streams.size] at unread
    obtain ⟨k, below, same⟩ := List.mem_map.mp unread
    have inside := List.mem_range.mp below
    rw [slot_add] at same
    cases writer : down.writer with
    | storing sent stored todo rest newWr =>
      rw [writer] at places member
      obtain ⟨-, bound, offsets⟩ := places
      have place : write.1 ∈ todo.map Prod.fst := List.mem_map_of_mem member
      rw [offsets] at place
      obtain ⟨j, before, here⟩ := List.mem_map.mp place
      have within := List.mem_range.mp before
      have equal := slot_inj (i := tail + k) (by omega) (by omega) (same.trans here.symm)
      omega
    | _ =>
      rw [writer] at member
      cases member
  · have rest : ((down.stream ++ down.writer.stored).drop tail).take (down.stream.length - tail) =
        down.stream.drop tail := by
      rw [List.drop_append_of_le_length behind, List.take_append_of_le_length (by rw [List.length_drop]),
        List.take_of_length_le (by rw [List.length_drop])]
    rw [streams.used, streams.rdOff, streams.size, streams.holds.contents (Nat.le_refl tail)
      (by rw [List.length_append]; omega), rest, received, List.take_append_drop]
  · rw [received]
    refine ((List.prefix_append_right_inj _).mpr fetched).trans ?_
    rw [List.take_append_drop]

theorem agreeing_front {down : Down} {early events : List DownEvent} (prior : early <+: events)
    (agreeing : down.Agreeing events) : down.Agreeing early := by
  induction early generalizing down events with
  | nil => trivial
  | cons event early ih =>
    obtain ⟨rest, rfl⟩ := prior
    exact ⟨agreeing.1, ih ⟨rest, rfl⟩ agreeing.2⟩

theorem agrees_of_raised {down : Down} {event : DownEvent} (quiet : (down.step event).raised = []) :
    down.Agrees event := by
  cases event with
  | establish =>
    change down.establish.raised = [] at quiet
    rw [Agrees]
    unfold Down.establish at quiet
    cases phase : down.phase with
    | located desc =>
      rw [phase] at quiet
      dsimp only at quiet ⊢
      split at quiet
      · assumption
      · exact absurd quiet (List.append_ne_nil_of_right_ne_nil _ (List.cons_ne_nil _ _))
    | _ => trivial
  | validate =>
    change down.validate.raised = [] at quiet
    rw [Agrees]
    unfold Down.validate at quiet
    cases phase : down.phase with
    | sampled desc =>
      rw [phase] at quiet
      dsimp only at quiet ⊢
      split at quiet
      · rename_i accepted
        by_contra different
        rw [validateDownDescriptor] at accepted
        split at accepted
        · cases accepted
        · cases accepted
      · exact absurd quiet (List.append_ne_nil_of_right_ne_nil _ (List.cons_ne_nil _ _))
    | _ => trivial
  | _ => trivial

theorem agreeing_of_raised {down : Down} {events : List DownEvent}
    (quiet : ∀ early, early <+: events → (down.run early).raised = []) : down.Agreeing events := by
  induction events generalizing down with
  | nil => trivial
  | cons event events ih =>
    refine ⟨agrees_of_raised (quiet [event] ⟨events, rfl⟩), ih fun early prior => ?_⟩
    exact quiet (event :: early) ((List.prefix_cons_inj event).mpr prior)

/-- The channel keeps its promises as long as no descriptor is validated against another offset than it was
written with. -/
theorem keeps_iff (ram : Ram) (layout : Layout) (events : List DownEvent) :
    (start ram layout).Agreeing events ↔ ∀ early, early <+: events → ((start ram layout).run early).Kept := by
  constructor
  · intro agreeing early prior
    obtain ⟨next, sound⟩ := (sound_start ram layout).run (agreeing_front prior agreeing)
    exact sound.kept
  · intro kept
    exact agreeing_of_raised fun early prior => (kept early prior).raised

/-- The pump reads the descriptor after the writer has moved its cached offset, and before the new offset is in
the memory. -/
theorem refused_in_between :
    ∃ (ram : Ram) (layout : Layout) (events : List DownEvent),
      checkSide ram "DOWN" layout.channel.descriptor = .ok () ∧
      ((start ram layout).run events).raised =
        ["DOWN WrOff moved by target (0 != cached 1) — firmware likely reset"] ∧
      ¬((start ram layout).run events).Kept := by
  have refused : ((start ⟨"sram", 0x20000000, 0x20008000⟩
      ⟨⟨0, 0x20000100, 4, 0⟩, 0, fun _ => 0, by decide⟩).run [.locate, .establish, .write [1], .acquire, .ask, .push,
      .store, .advance, .sample, .validate]).raised =
        ["DOWN WrOff moved by target (0 != cached 1) — firmware likely reset"] := by
    decide
  refine ⟨_, _, _, by decide, refused, fun kept => ?_⟩
  rw [kept.raised] at refused
  cases refused

end Acrobe.Rtt.Down
