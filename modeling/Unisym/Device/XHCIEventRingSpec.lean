/-
# `XHCIEventRingSpec` — the driver pops the events in the order they are filled

The entries of all segments are one ring: the entry `i` of it is in the segment `i / segmentSize`.  What
the controller fills and the driver pops is told by the cycle bit, as in `Ring`, but there is no link.
-/
import Unisym.Device.XHCIRingSpec

namespace Unisym.Device.SpaceUSB3

open Function Laps List

/-- Where `AllocArray` puts the segments: aligned, apart and below the end of the addresses. -/
structure SegmentsPlaced (er : EventRing) : Prop where
  size : 0 < er.segmentSize
  count : 0 < er.segments.length
  aligned : ∀ segment ∈ er.segments, 16 ∣ segment
  fits : ∀ segment ∈ er.segments, segment + sizeofTRB * er.segmentSize ≤ 2 ^ 64
  apart : er.segments.Pairwise fun a b =>
    a + sizeofTRB * er.segmentSize ≤ b ∨ b + sizeofTRB * er.segmentSize ≤ a

namespace EventRing

/-- The number of entries. -/
def entries (er : EventRing) : Nat := er.segments.length * er.segmentSize

/-- The address of an entry. -/
def place (er : EventRing) (i : Nat) : Nat :=
  er.segments.getD (i / er.segmentSize) 0 + sizeofTRB * (i % er.segmentSize)

variable {er : EventRing} {i j : Nat}

theorem segment_lt (h : i < er.entries) : i / er.segmentSize < er.segments.length :=
  Nat.div_lt_of_lt_mul (Nat.mul_comm _ _ ▸ h)

theorem getElem?_segment (h : i < er.entries) :
    er.segments[i / er.segmentSize]? = some (er.segments.getD (i / er.segmentSize) 0) := by
  rw [getD_eq_getElem?_getD, getElem?_eq_getElem (segment_lt h), Option.getD_some]

theorem segment_mem (h : i < er.entries) : er.segments.getD (i / er.segmentSize) 0 ∈ er.segments :=
  mem_of_getElem? (getElem?_segment h)

section

variable (h : SegmentsPlaced er) (hi : i < er.entries)
include h hi

theorem place_inj (hj : j < er.entries) (heq : er.place i = er.place j) : i = j := by
  have hi' := Nat.mod_lt i h.size
  have hj' := Nat.mod_lt j h.size
  have hapart := pairwise_iff_getElem.mp h.apart
  have hsegment : i / er.segmentSize = j / er.segmentSize := by
    simp only [place, getD_eq_getElem?_getD, getElem?_eq_getElem (segment_lt hi),
      getElem?_eq_getElem (segment_lt hj), Option.getD_some, sizeofTRB] at heq hapart
    rcases Nat.lt_trichotomy (i / er.segmentSize) (j / er.segmentSize) with hlt | hsame | hgt
    · have := hapart _ _ (segment_lt hi) (segment_lt hj) hlt
      omega
    · exact hsame
    · have := hapart _ _ (segment_lt hj) (segment_lt hi) hgt
      omega
  have hi'' := Nat.div_add_mod i er.segmentSize
  have hj'' := Nat.div_add_mod j er.segmentSize
  simp only [place, hsegment, sizeofTRB] at heq
  rw [hsegment] at hi''
  omega

/-- The entry behind another: in the same segment, the first of the next one, or the first of all. -/
theorem next_cases : (i % er.segmentSize + 1 < er.segmentSize ∧ i + 1 < er.entries ∧
      (i + 1) / er.segmentSize = i / er.segmentSize ∧
      (i + 1) % er.segmentSize = i % er.segmentSize + 1) ∨
    (i % er.segmentSize + 1 = er.segmentSize ∧ i / er.segmentSize + 1 < er.segments.length ∧
      i + 1 < er.entries ∧ (i + 1) / er.segmentSize = i / er.segmentSize + 1 ∧
      (i + 1) % er.segmentSize = 0) ∨
    (i % er.segmentSize + 1 = er.segmentSize ∧ i / er.segmentSize + 1 = er.segments.length ∧
      i + 1 = er.entries) := by
  have hlt := segment_lt hi
  rcases Nat.lt_or_eq_of_le (Nat.succ_le_of_lt (Nat.mod_lt i h.size)) with hmore | hwrap
  · refine Or.inl ⟨hmore, ?_, div_succ hmore, mod_succ hmore⟩
    refine Nat.lt_of_le_of_ne hi fun heq => ?_
    have hmod := mod_succ hmore
    rw [heq, entries, Nat.mul_mod_left] at hmod
    omega
  · have hmul := succ_eq_mul hwrap
    rcases Nat.lt_or_eq_of_le (Nat.succ_le_of_lt hlt) with hmore | hlast
    · refine Or.inr (Or.inl ⟨hwrap, hmore, ?_, div_wrap hwrap, mod_wrap hwrap⟩)
      rw [hmul, entries, Nat.mul_comm]
      exact Nat.mul_lt_mul_of_pos_right hmore h.size
    · refine Or.inr (Or.inr ⟨hwrap, hlast, ?_⟩)
      rw [hmul, entries, Nat.mul_comm]
      exact congrArg (· * er.segmentSize) hlast

theorem place_fits : 16 ∣ er.place i ∧ er.place i < 2 ^ 64 := by
  have hlt := Nat.mod_lt i h.size
  have haligned := h.aligned _ (segment_mem hi)
  have hfits := h.fits _ (segment_mem hi)
  simp only [place, sizeofTRB] at hfits ⊢
  omega

end

@[simp] theorem readDequeuePointer_writeDequeuePointer {p : Nat} (h : 16 ∣ p ∧ p < 2 ^ 64) :
    (er.writeDequeuePointer p).readDequeuePointer = p := by
  show ((p % 2 ^ 64) >>> 4) <<< 4 = p
  rw [Nat.mod_eq_of_lt h.2, Nat.shiftRight_eq_div_pow, Nat.shiftLeft_eq]
  omega

end EventRing

namespace EventSystem

/-- What holds of an event ring. -/
structure Inv (er : EventRing) (s : EventSystem) : Prop where
  segments : s.er.segments = er.segments
  segmentSize : s.er.segmentSize = er.segmentSize
  popped_le : s.popped.length ≤ s.filled.length
  room : s.filled.length ≤ s.popped.length + er.entries
  producer : s.producer = ⟨s.filled.length % er.entries / er.segmentSize,
    s.filled.length % er.entries % er.segmentSize, lap er.entries s.filled.length⟩
  dequeueSegmentIndex : s.er.dequeueSegmentIndex = s.popped.length % er.entries / er.segmentSize
  cycleBit : s.er.cycleBit = lap er.entries s.popped.length
  dequeue : s.er.readDequeuePointer = er.place (s.popped.length % er.entries)
  window : Window er.entries (fun i => (s.mem (er.place i)).cycleBit) s.popped.length
    (· < s.filled.length)
  content : ∀ (k : Nat) (event : TRB), s.popped.length ≤ k → s.filled[k]? = some event →
    (s.mem (er.place (k % er.entries))).content = event.content
  popped : s.popped.map TRB.content = (s.filled.take s.popped.length).map TRB.content

variable {er er' : EventRing} {s s' : EventSystem}

theorem entries_pos (h : SegmentsPlaced er) : 0 < er.entries := Nat.mul_pos h.count h.size

section

variable (h : Inv er s) (hplaced : SegmentsPlaced er)
include h hplaced

theorem Inv.fill {segment : Nat} (event : TRB)
    (hroom : s.filled.length < s.popped.length + s.er.segments.length * s.er.segmentSize)
    (hsegment : s.er.segments[s.producer.segment]? = some segment) : Inv er { s with
      mem := update s.mem (segment + sizeofTRB * s.producer.index)
        (event.withCycle s.producer.cycleState)
      producer := s.producer.next s.er.segments.length s.er.segmentSize
      filled := s.filled ++ [event] } := by
  have hpos := entries_pos hplaced
  have hlt : s.filled.length % er.entries < er.entries := Nat.mod_lt _ hpos
  have hle := h.popped_le
  have hroom' : s.filled.length < s.popped.length + er.entries := by
    rw [h.segments, h.segmentSize] at hroom
    exact hroom
  have hplace : segment + sizeofTRB * s.producer.index = er.place (s.filled.length % er.entries) := by
    rw [h.segments, h.producer, EventRing.getElem?_segment hlt, Option.some.injEq] at hsegment
    rw [h.producer, ← hsegment]
    rfl
  have hstate : s.producer.cycleState = lap er.entries s.filled.length := by rw [h.producer]
  have hlength : (s.filled ++ [event]).length = s.filled.length + 1 := length_append
  have hcell : ∀ i < er.entries, update s.mem (er.place (s.filled.length % er.entries))
      (event.withCycle (lap er.entries s.filled.length)) (er.place i) =
      if i = s.filled.length % er.entries then event.withCycle (lap er.entries s.filled.length)
      else s.mem (er.place i) := by
    intro i hi
    by_cases heq : i = s.filled.length % er.entries
    · rw [if_pos heq, heq, update_self]
    · rw [if_neg heq, update_of_ne fun hsame => heq (EventRing.place_inj hplaced hi hlt hsame)]
  rw [hplace, hstate]
  generalize update s.mem (er.place (s.filled.length % er.entries))
    (event.withCycle (lap er.entries s.filled.length)) = mem at hcell ⊢
  refine ⟨h.segments, h.segmentSize, ?_, ?_, ?_, h.dequeueSegmentIndex, h.cycleBit, h.dequeue, ?_, ?_, ?_⟩
  · rw [hlength]
    exact Nat.le_succ_of_le hle
  · rw [hlength]
    exact hroom'
  · show s.producer.next _ _ = _
    rw [hlength, h.producer, h.segments, h.segmentSize, Producer.next]
    rcases EventRing.next_cases hplaced hlt with ⟨hmore, hin, hdiv, hmod⟩ | ⟨hend, hmore, hin, hdiv, hmod⟩ |
      ⟨hend, hlast, hwrap⟩
    · rw [if_pos hmore, mod_succ hin, lap_succ hin, hdiv, hmod]
    · rw [if_neg (Nat.not_lt.mpr (Nat.le_of_eq hend.symm)), if_pos hmore, mod_succ hin, lap_succ hin, hdiv,
        hmod]
    · rw [if_neg (Nat.not_lt.mpr (Nat.le_of_eq hend.symm)),
        if_neg (Nat.not_lt.mpr (Nat.le_of_eq hlast.symm)), mod_wrap hwrap, lap_wrap hwrap, Nat.zero_div,
        Nat.zero_mod]
  · rw [hlength]
    refine h.window.set hle hroom' (fun i hi hne => ?_) (fun j hj => ?_) ?_
    · show (mem _).cycleBit = _
      rw [hcell i hi, if_neg hne]
    · omega
    · show (mem _).cycleBit = _ ↔ _
      rw [hcell _ hlt, if_pos rfl, TRB.cycleBit_withCycle]
      exact iff_of_true rfl (Nat.lt_succ_self _)
  · intro k e hk he
    show (mem _).content = _
    rw [hcell _ (Nat.mod_lt _ hpos)]
    rcases RingSystem.getElem?_append_one he with he | ⟨rfl, rfl⟩
    · have hklt := (List.getElem?_eq_some_iff.mp he).1
      rw [if_neg fun hmod => Nat.ne_of_lt hklt
        (Laps.place_inj hk (Nat.lt_trans hklt hroom') hle hroom' hmod)]
      exact h.content k e hk he
    · rw [if_pos rfl, TRB.content_withCycle]
  · rw [take_append_of_le_length hle]
    exact h.popped

/-- The driver sees a front just when one is filled and not popped. -/
theorem Inv.hasFront_iff : s.er.hasFront s.mem = true ↔ s.popped.length < s.filled.length := by
  rw [EventRing.hasFront, decide_eq_true_iff, h.dequeue, h.cycleBit]
  exact h.window _ (Nat.le_refl _) (Nat.lt_add_of_pos_right (entries_pos hplaced))

theorem Inv.pop_eq : ∃ er', s.er.pop = some er' ∧ er'.segments = er.segments ∧ er'.segmentSize = er.segmentSize ∧
      er'.dequeueSegmentIndex = (s.popped.length + 1) % er.entries / er.segmentSize ∧
      er'.cycleBit = lap er.entries (s.popped.length + 1) ∧
      er'.readDequeuePointer = er.place ((s.popped.length + 1) % er.entries) := by
  have hpos := entries_pos hplaced
  have hlt : s.popped.length % er.entries < er.entries := Nat.mod_lt _ hpos
  have hbegin : s.er.segments[s.er.dequeueSegmentIndex]? =
      some (er.segments.getD (s.popped.length % er.entries / er.segmentSize) 0) := by
    rw [h.segments, h.dequeueSegmentIndex, EventRing.getElem?_segment hlt]
  have hcycle := h.cycleBit
  have hindex := h.dequeueSegmentIndex
  rw [EventRing.pop, hbegin, h.dequeue, h.segmentSize, h.segments]
  simp only [Option.bind_eq_bind, Option.bind_some]
  generalize hi : s.popped.length % er.entries = i at *
  have hplace : er.place i + sizeofTRB = er.segments.getD (i / er.segmentSize) 0 +
      sizeofTRB * (i % er.segmentSize + 1) := by
    rw [EventRing.place, Nat.mul_add, Nat.mul_one, Nat.add_assoc]
  rcases EventRing.next_cases hplaced hlt with ⟨hmore, hin, hdiv, hmod⟩ | ⟨hend, hmore, hin, hdiv, hmod⟩ |
    ⟨hend, hlast, hwrap⟩
  · have hsucc : (s.popped.length + 1) % er.entries = i + 1 := hi ▸ mod_succ (hi ▸ hin)
    have hnext : er.place i + sizeofTRB = er.place (i + 1) := by
      rw [hplace, EventRing.place, hdiv, hmod]
    have hne : ¬ er.place i + sizeofTRB =
        er.segments.getD (i / er.segmentSize) 0 + sizeofTRB * er.segmentSize := by
      rw [hplace, sizeofTRB]
      omega
    rw [if_neg hne, hnext, hsucc, lap_succ (hi ▸ hin)]
    exact ⟨_, rfl, h.segments, h.segmentSize, hindex.trans hdiv.symm, hcycle,
      EventRing.readDequeuePointer_writeDequeuePointer (EventRing.place_fits hplaced hin)⟩
  · have hsucc : (s.popped.length + 1) % er.entries = i + 1 := hi ▸ mod_succ (hi ▸ hin)
    have hpoint : er.segments.getD (i / er.segmentSize + 1) 0 = er.place (i + 1) := by
      rw [EventRing.place, hdiv, hmod]
      rfl
    have hget : er.segments[i / er.segmentSize + 1]? = some (er.place (i + 1)) := by
      rw [← hdiv, EventRing.getElem?_segment hin, hdiv, hpoint]
    rw [if_pos (by rw [hplace, hend]), hindex, if_neg (Nat.ne_of_lt hmore), hsucc, lap_succ (hi ▸ hin)]
    dsimp only
    rw [hget]
    exact ⟨_, rfl, rfl, rfl, hdiv.symm, hcycle,
      EventRing.readDequeuePointer_writeDequeuePointer (EventRing.place_fits hplaced hin)⟩
  · have hsucc : (s.popped.length + 1) % er.entries = 0 := mod_wrap (hi ▸ hwrap)
    have hget : er.segments[0]? = some (er.place 0) := by
      have hget := EventRing.getElem?_segment hpos
      rw [Nat.zero_div] at hget
      rw [hget, EventRing.place, Nat.zero_div, Nat.zero_mod, Nat.mul_zero, Nat.add_zero]
    rw [if_pos (by rw [hplace, hend]), hindex, if_pos hlast, hsucc, lap_wrap (hi ▸ hwrap)]
    dsimp only
    rw [hget]
    exact ⟨_, rfl, rfl, rfl, (Nat.zero_div _).symm, congrArg (fun b => !b) hcycle,
      EventRing.readDequeuePointer_writeDequeuePointer (EventRing.place_fits hplaced hpos)⟩

end

theorem Inv.pop (h : Inv er s) (hplaced : SegmentsPlaced er) (hfront : s.er.hasFront s.mem = true)
    (hpop : s.er.pop = some er') :
    Inv er { s with er := er', popped := s.popped ++ [s.mem s.er.readDequeuePointer] } := by
  have hlt := (h.hasFront_iff hplaced).mp hfront
  have hroom := h.room
  have hpos := entries_pos hplaced
  obtain ⟨next, hnext, hsegments, hsize, hindex, hcycle, hdequeue⟩ := h.pop_eq hplaced
  rw [hpop, Option.some.injEq] at hnext
  subst hnext
  have hlength : (s.popped ++ [s.mem s.er.readDequeuePointer]).length = s.popped.length + 1 :=
    length_append
  have hevent := getElem?_eq_getElem hlt
  refine ⟨hsegments, hsize, ?_, ?_, h.producer, ?_, ?_, ?_, ?_, ?_, ?_⟩
  · rw [hlength]
    exact hlt
  · rw [hlength]
    exact Nat.le_trans hroom (by omega)
  · rw [hlength]
    exact hindex
  · rw [hlength]
    exact hcycle
  · rw [hlength]
    exact hdequeue
  · rw [hlength]
    exact h.window.advance hpos hlt (Nat.not_lt.mpr hroom)
  · intro k event (hk : (s.popped ++ [s.mem s.er.readDequeuePointer]).length ≤ k) he
    exact h.content k event (by omega) he
  · rw [hlength, take_add_one, hevent, map_append, map_append, h.popped, map_singleton,
      h.dequeue, h.content _ _ (Nat.le_refl _) hevent]
    rfl

theorem Inv.step (h : Inv er s) (hplaced : SegmentsPlaced er) (hstep : Step s s') : Inv er s' := by
  cases hstep with
  | fill event hroom hsegment => exact h.fill hplaced event hroom hsegment
  | pop hfront hpop => exact h.pop hplaced hfront hpop

end EventSystem

/-- What `Initialize` leaves. -/
structure EventRing.Initialized (er : EventRing) : Prop where
  dequeueSegmentIndex : er.dequeueSegmentIndex = 0
  cycleBit : er.cycleBit = true
  dequeue : er.segments[0]? = some er.readDequeuePointer

namespace EventSystem

variable {er : EventRing} {s : EventSystem}

theorem Inv.start (hplaced : SegmentsPlaced er) (hstart : er.Initialized) : Inv er (start er) := by
  have hpos := entries_pos hplaced
  have hplace : er.readDequeuePointer = er.place (0 % er.entries) := by
    have hfirst := EventRing.getElem?_segment hpos
    rw [Nat.zero_div, hstart.dequeue, Option.some.injEq] at hfirst
    rw [hfirst, Nat.zero_mod, EventRing.place, Nat.zero_div, Nat.zero_mod, Nat.mul_zero, Nat.add_zero]
  have hzero : TRB.cycleBit (fun _ => 0) = false := by decide
  refine ⟨rfl, rfl, Nat.le_refl _, Nat.zero_le _, ?_, ?_, ?_, hplace, Window.start (fun _ => hzero) nofun,
    nofun, rfl⟩
  · show (⟨0, 0, true⟩ : Producer) = ⟨0 % er.entries / er.segmentSize, 0 % er.entries % er.segmentSize, _⟩
    rw [Nat.zero_mod, Nat.zero_div, Nat.zero_mod]
    exact congrArg _ lap_zero.symm
  · show er.dequeueSegmentIndex = 0 % er.entries / er.segmentSize
    rw [Nat.zero_mod, Nat.zero_div, hstart.dequeueSegmentIndex]
  · exact hstart.cycleBit.trans lap_zero.symm

theorem Reachable.inv (hplaced : SegmentsPlaced er) (hstart : er.Initialized) (h : Reachable er s) :
    Inv er s := by
  induction h with
  | start => exact Inv.start hplaced hstart
  | step _ hstep ih => exact ih.step hplaced hstep

end EventSystem

/-! ## Nothing is lost, and nothing comes too early -/

/-- What a ring hands over: the TRBs pushed first, which are committed; the controller stops only at a TRB
that is not, and follows no link to a link. -/
structure RingSystem.HandsOver (s : RingSystem) : Prop where
  seen_le : s.seen.length ≤ s.pushed.length
  seen : s.seen.map TRB.content = (s.pushed.take s.seen.length).map fun p => p.data.content
  committed : ∀ p ∈ s.pushed.take s.seen.length, p.committed = true
  stops : s.stores = [] → s.consumer.step s.mem = none →
    ∀ p, s.pushed[s.seen.length]? = some p → p.committed = false
  takes : ∀ c c', s.consumer.step s.mem = some (c, none) → c.step s.mem ≠ some (c', none)
  next : ∀ (k : Nat) (p q : Pushed), s.pushed[k]? = some p → s.pushed[k + 1]? = some q →
    s.ring.nextTransferTRB p.trb = q.trb

/-- What an event ring hands over: the driver sees a front just when one is filled, and pops them in the
order in which they are filled. -/
structure EventSystem.HandsOver (s : EventSystem) : Prop where
  popped_le : s.popped.length ≤ s.filled.length
  popped : s.popped.map TRB.content = (s.filled.take s.popped.length).map TRB.content
  front : s.er.hasFront s.mem = true ↔ s.popped.length < s.filled.length
  pops : s.er.pop.isSome = true

namespace RingSystem

variable {ring : Ring} {n : Nat} {s : RingSystem}

theorem Inv.stops (h : Inv ring n s) (hstores : s.stores = [])
    (hstop : s.consumer.step s.mem = none) (p : Pushed) (hp : s.pushed[s.seen.length]? = some p) :
    p.committed = false := by
  have hfull : s.full = s.mem := by rw [full, hstores]; rfl
  have hle := h.seen_le
  have hroom := h.room
  rcases h.next with hnext | ⟨hmod, hpos, hnext⟩
  · cases hcommitted : p.committed with
    | false => rfl
    | true =>
      have hbit := (h.window _ (Nat.le_refl _) (Nat.lt_add_of_pos_right h.pos)).mpr ⟨p, hp, hcommitted⟩
      have hbit' : (s.mem s.consumer.dequeue).cycleBit = s.consumer.cycleState := by
        rw [hnext, ← hfull]
        exact hbit
      rw [(h.consume_next hnext hbit').2.1] at hstop
      cases hstop
  · have hlap : lap n s.pushed.length = lap n s.seen.length := by
      refine lap_eq ?_
      obtain ⟨q, hq⟩ := Nat.dvd_of_mod_eq_zero hmod
      obtain ⟨d, hd⟩ := Nat.le.dest hle
      rw [← hd, hq, Nat.mul_add_div h.pos, Nat.mul_div_cancel_left _ h.pos,
        Nat.div_eq_of_lt (by omega), Nat.add_zero]
    have hbit : (s.mem s.consumer.dequeue).cycleBit = s.consumer.cycleState := by
      rw [hnext, ← hfull, ← hlap]
      exact h.linkBit
    rw [h.consume_link hmod hpos hnext hbit] at hstop
    cases hstop

theorem Inv.takes (h : Inv ring n s) (c c' : Consumer)
    (hlink : s.consumer.step s.mem = some (c, none)) : c.step s.mem ≠ some (c', none) := by
  intro hagain
  have hbit : (s.mem s.consumer.dequeue).cycleBit = s.consumer.cycleState := by
    refine not_not.mp fun hne => ?_
    rw [Consumer.step, if_pos hne] at hlink
    cases hlink
  have hconsume := h.consume hlink
  rcases h.next with hnext | ⟨hmod, hpos, hnext⟩
  · rw [(h.consume_next hnext hbit).2.1] at hlink
    cases hlink
  · rw [h.consume_link hmod hpos hnext hbit, Option.some.injEq, Prod.mk.injEq] at hlink
    have hseen : s.seen ++ (none : Option TRB).toList = s.seen := append_nil _
    rw [← hlink.1, hseen] at hconsume
    rw [← hlink.1] at hagain
    have hbit' : (s.mem (s.ring.entry (s.seen.length % n))).cycleBit = lap n s.seen.length := by
      refine not_not.mp fun hne => ?_
      rw [Consumer.step, if_pos hne] at hagain
      cases hagain
    rw [(hconsume.consume_next rfl hbit').2.1] at hagain
    cases hagain

theorem Inv.nextTransferTRB (h : Inv ring n s) (hring : Placed ring) (k : Nat) :
    s.ring.nextTransferTRB (s.ring.entry (k % n)) = s.ring.entry ((k + 1) % n) := by
  have hpos := h.pos
  have hlt := Nat.mod_lt k hpos
  have hbuf := hring.buf_pos
  have hlast : s.ring.bufSize - 1 = n := by rw [h.size]; rfl
  have hentry : ∀ i, s.ring.entry i = s.ring.buf + 16 * i := fun _ => rfl
  have hne : ¬ (s.ring.buf = 0 ∨ s.ring.bufSize < 2 ∨ s.ring.entry (k % n) = 0) := by
    rw [h.size, hentry, h.buf]
    omega
  have hin : ¬ (s.ring.entry (k % n) < s.ring.buf ∨ s.ring.entry (k % n) ≥ s.ring.entry n ∨
      (s.ring.entry (k % n) - s.ring.buf) % sizeofTRB ≠ 0) := by
    rw [hentry, hentry, sizeofTRB]
    omega
  have hnext : s.ring.entry (k % n) + sizeofTRB = s.ring.entry (k % n + 1) := rfl
  rw [Ring.nextTransferTRB, if_neg hne, hlast]
  dsimp only
  rw [if_neg hin, hnext]
  rcases Nat.lt_or_eq_of_le (Nat.succ_le_of_lt hlt) with hmore | hwrap
  · rw [if_neg fun heq => Nat.ne_of_lt hmore (Ring.entry_inj heq), mod_succ hmore]
  · rw [if_pos (congrArg s.ring.entry hwrap), mod_wrap hwrap]
    rfl

theorem Inv.handsOver (h : Inv ring n s) (hring : Placed ring) : s.HandsOver := by
  refine ⟨h.seen_le, h.seen, fun p hp => ?_, h.stops, h.takes, fun k p q hp hq => ?_⟩
  · obtain ⟨k, hk⟩ := mem_iff_getElem?.mp hp
    have hlt : k < s.seen.length := by
      have := (List.getElem?_eq_some_iff.mp hk).1
      rw [length_take] at this
      omega
    rw [getElem?_take_of_lt hlt] at hk
    obtain ⟨q, hq, hcommitted⟩ := h.committed k hlt
    rw [hk, Option.some.injEq] at hq
    exact hq ▸ hcommitted
  · rw [(h.given k p hp).1, (h.given (k + 1) q hq).1]
    exact h.nextTransferTRB hring k

end RingSystem

theorem EventSystem.Inv.handsOver {er : EventRing} {s : EventSystem} (h : Inv er s)
    (hplaced : SegmentsPlaced er) : s.HandsOver := by
  obtain ⟨er', hpop, _⟩ := h.pop_eq hplaced
  exact ⟨h.popped_le, h.popped, h.hasFront_iff hplaced, by rw [hpop]; rfl⟩

theorem EventRing.initializeAt_eq {totalTRBs segmentCount : Nat} {segments : List Nat} {er : EventRing}
    (h : initializeAt totalTRBs segmentCount segments = some er) (hcount : segments.length = segmentCount)
    (haligned : ∀ segment ∈ segments, 64 ∣ segment)
    (hfits : ∀ segment ∈ segments, segment + sizeofTRB * er.segmentSize ≤ 2 ^ 64) :
    er.segments = segments ∧ 0 < er.segmentSize ∧ 0 < segments.length ∧ er.Initialized := by
  rw [initializeAt] at h
  split at h
  · cases h
  · rename_i hsize
    dsimp only at h
    split at h
    · cases h
    · obtain ⟨first, hfirst, h⟩ := Option.bind_eq_some_iff.mp h
      have hpositive : 0 < (totalTRBs + segmentCount - 1) / segmentCount :=
        Nat.div_pos (by omega) (by omega)
      rw [Option.some.injEq] at h
      subst h
      have hmem := mem_of_getElem? hfirst
      have hlow := haligned first hmem
      have hhigh := hfits first hmem
      have hpointer : 16 ∣ first ∧ first < 2 ^ 64 := by
        simp only [writeDequeuePointer, sizeofTRB] at hhigh
        omega
      refine ⟨rfl, hpositive, by omega, rfl, rfl, ?_⟩
      rw [readDequeuePointer_writeDequeuePointer hpointer]
      exact hfirst

end Unisym.Device.SpaceUSB3
