/-
# `XHCIRingSpec` — the rings hand over every TRB once and in order

`RingSystem.Inv` tells, of every state that the driver and the controller can reach, which entries are
filled in the lap that the controller reads: those of the TRBs pushed, committed and not yet consumed.
Words that a call has still to write are for entries that the controller stops at.
-/
import Unisym.Device.XHCIRing
import Unisym.Library.Laps

namespace Unisym.Device.SpaceUSB3

open Function Laps List

/-! ## Words -/

theorem and_boolWord (w m : BitVec 32) (b : Bool) :
    ((w &&& 0xfffffffe) ||| boolWord b) &&& m = (w &&& (0xfffffffe &&& m)) ||| (boolWord b &&& m) := by
  rw [BitVec.and_or_distrib_right, BitVec.and_assoc]

@[simp] theorem TRB.withCycle_three (trb : TRB) (b : Bool) :
    trb.withCycle b 3 = (trb 3 &&& 0xfffffffe) ||| boolWord b := update_self ..

@[simp] theorem TRB.cycleBit_withCycle (trb : TRB) (b : Bool) : (trb.withCycle b).cycleBit = b := by
  have hmask : (0xfffffffe : BitVec 32) &&& 1 = 0#32 := by decide
  rw [cycleBit, withCycle_three, and_boolWord, hmask, BitVec.and_zero, BitVec.zero_or]
  cases b <;> rfl

@[simp] theorem TRB.content_withCycle (trb : TRB) (b : Bool) :
    (trb.withCycle b).content = trb.content := by
  have hbit : boolWord b &&& 0xfffffffe = 0#32 := by cases b <;> decide
  rw [content, withCycle_three, and_boolWord, hbit, BitVec.or_zero, BitVec.and_self, withCycle,
    update_idem, content]

@[simp] theorem TRB.trbType_withCycle (trb : TRB) (b : Bool) :
    (trb.withCycle b).trbType = trb.trbType := by
  have hbit : boolWord b >>> 10 = 0#32 := by cases b <;> decide
  have hmask : (0xfffffffe : BitVec 32) >>> 10 &&& 0x3f = 0x3f := by decide
  rw [trbType, withCycle_three, BitVec.ushiftRight_or_distrib, hbit, BitVec.or_zero,
    BitVec.ushiftRight_and_distrib, BitVec.and_assoc, hmask, trbType]

theorem TRB.trbType_content (trb : TRB) : trb.content.trbType = trb.trbType := by
  have hmask : (0xfffffffe : BitVec 32) >>> 10 &&& 0x3f = 0x3f := by decide
  rw [trbType, content, update_self, BitVec.ushiftRight_and_distrib, BitVec.and_assoc, hmask, trbType]

/-- What the controller reads in the link TRB that the driver writes. -/
structure Links (trb : TRB) (buf : Nat) : Prop where
  type : trb.trbType = linkTRBType
  pointer : trb.pointer = buf
  toggle : trb.toggleCycle = true

theorem links_linkTRB {buf : Nat} (hbuf : 16 ∣ buf) (hlt : buf < 2 ^ 64) (chain b : Bool) :
    Links ((linkTRB buf chain).withCycle b) buf := by
  have hword : linkTRB buf chain 3 = linkTRBType <<< 10 ||| 1 <<< 1 ||| boolWord chain <<< 4 := rfl
  constructor
  · rw [TRB.trbType_withCycle, TRB.trbType, hword]
    cases chain <;> decide
  · have hlow : (linkTRB buf chain).withCycle b 0 = BitVec.ofNat 32 (buf / 16 * 16) := rfl
    have hhigh : (linkTRB buf chain).withCycle b 1 = BitVec.ofNat 32 (buf / 2 ^ 32) := rfl
    rw [TRB.pointer, hlow, hhigh, BitVec.toNat_ofNat, BitVec.toNat_ofNat]
    omega
  · rw [TRB.toggleCycle, TRB.withCycle_three, hword]
    cases chain <;> cases b <;> decide

/-! ## Stores -/

/-- The memory when all stores are written. -/
def applyAll (mem : Memory) (stores : List Store) : Memory := stores.foldl Store.apply mem

theorem applyAll_append (mem : Memory) (stores more : List Store) :
    applyAll mem (stores ++ more) = applyAll (applyAll mem stores) more := foldl_append

theorem applyAll_copyToLast (ring : Ring) (data : TRB) (mem : Memory) :
    applyAll mem (ring.copyToLast data) =
      update mem (ring.entry ring.writeIndex) (data.withCycle ring.cycleBit) := by
  simp only [applyAll, Ring.copyToLast, foldl_cons, foldl_nil, Store.apply, update_idem,
    update_self]
  congr 1
  funext word
  match word with
  | 0 | 1 | 2 | 3 => rfl

theorem applyAll_of_forall_ne {mem : Memory} {address : Nat} : (stores : List Store) →
    (∀ s ∈ stores, s.address ≠ address) → applyAll mem stores address = mem address
  | [], _ => rfl
  | s :: stores, h => by
    have hne : address ≠ s.address := fun heq => h s mem_cons_self heq.symm
    show applyAll (s.apply mem) stores address = _
    rw [applyAll_of_forall_ne stores fun t ht => h t (mem_cons_of_mem _ ht), Store.apply,
      update_of_ne hne]

/-- The word with the cycle bit comes last. -/
def Ordered (stores : List Store) : Prop :=
  stores.Pairwise fun s t => s.address = t.address → s.word.val ≠ 3

theorem Ring.copyToLast_address {ring : Ring} {data : TRB} {s : Store} (h : s ∈ ring.copyToLast data) :
    s.address = ring.entry ring.writeIndex := by
  simp only [copyToLast, mem_cons, not_mem_nil, or_false] at h
  rcases h with rfl | rfl | rfl | rfl <;> rfl

theorem Ring.ordered_copyToLast (ring : Ring) (data : TRB) : Ordered (ring.copyToLast data) := by
  simp only [Ordered, copyToLast, pairwise_cons, mem_cons, not_mem_nil, or_false,
    forall_eq_or_imp, forall_eq, false_implies, implies_true, and_true, List.Pairwise.nil]
  decide

theorem Store.cycleBit_apply {mem : Memory} {s : Store} {address : Nat}
    (h : s.address = address → s.word.val ≠ 3) :
    (s.apply mem address).cycleBit = (mem address).cycleBit := by
  rw [apply]
  by_cases haddress : address = s.address
  · subst haddress
    have hword : 3 ≠ s.word := fun heq => h rfl (heq ▸ rfl)
    rw [update_self, TRB.cycleBit, TRB.cycleBit, update_of_ne hword]
  · rw [update_of_ne haddress]

/-! ## The invariant of a ring -/

/-- Where `AllocArray` puts an array: aligned, and not at address 0 or beyond the last address. -/
structure Placed (ring : Ring) : Prop where
  size : 16 ≤ ring.bufSize
  buf_pos : 0 < ring.buf
  aligned : 16 ∣ ring.buf
  fits : ring.buf < 2 ^ 64

theorem Ring.entry_inj {ring : Ring} {i j : Nat} (h : ring.entry i = ring.entry j) : i = j := by
  simp only [entry, sizeofTRB] at h
  omega

/-- Behind the entry of a TRB is that of the next one, or the link. -/
theorem Ring.behind_entry (ring : Ring) {n : Nat} (hn : 0 < n) (k : Nat) :
    (⟨ring.entry (k % n) + sizeofTRB, lap n k⟩ : Consumer) =
      ⟨ring.entry ((k + 1) % n), lap n (k + 1)⟩ ∨
    ((k + 1) % n = 0 ∧ 0 < k + 1 ∧ (⟨ring.entry (k % n) + sizeofTRB, lap n k⟩ : Consumer) =
      ⟨ring.entry n, !lap n (k + 1)⟩) := by
  rcases Nat.lt_or_eq_of_le (Nat.succ_le_of_lt (Nat.mod_lt k hn)) with hmore | hwrap
  · rw [mod_succ hmore, lap_succ hmore]
    exact Or.inl rfl
  · have hentry : ring.entry (k % n) + sizeofTRB = ring.entry n := congrArg ring.entry hwrap
    rw [mod_wrap hwrap, lap_wrap hwrap, Bool.not_not, hentry]
    exact Or.inr ⟨rfl, Nat.succ_pos k, rfl⟩

namespace RingSystem

/-- The memory when the call at hand has written all its words. -/
def full (s : RingSystem) : Memory := applyAll s.mem s.stores

/-- The TRB `k` is pushed, and committed. -/
def Ready (s : RingSystem) (k : Nat) : Prop := ∃ p, s.pushed[k]? = some p ∧ p.committed = true

/-- The controller would stop at the address where a word is still to come. -/
def Hidden (s : RingSystem) (n : Nat) (address : Nat) : Prop :=
  (∃ k, s.seen.length ≤ k ∧ k < s.seen.length + n ∧ address = s.ring.entry (k % n) ∧
    (s.mem address).cycleBit = !lap n k) ∨
  (address = s.ring.entry n ∧ s.pushed.length % n = 0 ∧
    (s.mem address).cycleBit = lap n s.pushed.length)

/-- The controller is at the entry of the next TRB, or at the link behind the last one of a lap. -/
def AtNext (s : RingSystem) (n : Nat) : Prop :=
  s.consumer = ⟨s.ring.entry (s.seen.length % n), lap n s.seen.length⟩ ∨
  (s.seen.length % n = 0 ∧ 0 < s.seen.length ∧
    s.consumer = ⟨s.ring.entry n, !lap n s.seen.length⟩)

/-- What holds of a ring with `n` entries and the link. -/
structure Inv (ring : Ring) (n : Nat) (s : RingSystem) : Prop where
  buf : s.ring.buf = ring.buf
  size : s.ring.bufSize = n + 1
  writeIndex : s.ring.writeIndex = s.pushed.length % n
  cycleBit : s.ring.cycleBit = lap n s.pushed.length
  seen_le : s.seen.length ≤ s.pushed.length
  room : s.pushed.length < s.seen.length + n
  next : s.AtNext n
  window : Window n (fun i => (s.full (s.ring.entry i)).cycleBit) s.seen.length s.Ready
  content : ∀ (k : Nat) (p : Pushed), s.seen.length ≤ k → s.pushed[k]? = some p →
    (s.full (s.ring.entry (k % n))).content = p.data.content
  linkBit : (s.full (s.ring.entry n)).cycleBit = !lap n s.pushed.length
  link : n ≤ s.pushed.length → Links (s.full (s.ring.entry n)) s.ring.buf
  ordered : Ordered s.stores
  hidden : ∀ t ∈ s.stores, s.Hidden n t.address
  given : ∀ (k : Nat) (p : Pushed), s.pushed[k]? = some p → p.trb = s.ring.entry (k % n) ∧
    p.cycleState = lap n k ∧ p.data.trbType ≠ linkTRBType
  seen : s.seen.map TRB.content = (s.pushed.take s.seen.length).map fun p => p.data.content
  committed : ∀ k < s.seen.length, s.Ready k

variable {ring : Ring} {n : Nat} {s s' : RingSystem}

theorem Inv.start (hring : Placed ring) (hstart : Ring.initializeAt ring.buf ring.bufSize = some ring)
    (hn : ring.bufSize = n + 1) : Inv ring n (start ring) := by
  have hsize := hring.size
  have hregisters : ring.cycleBit = true ∧ ring.writeIndex = 0 := by
    rw [Ring.initializeAt] at hstart
    split at hstart
    · cases hstart
    · rw [← Option.some.inj hstart]
      exact ⟨rfl, rfl⟩
  have hzero : TRB.cycleBit (fun _ => 0) = false := by decide
  have hbit : ∀ i, ((RingSystem.start ring).full (ring.entry i)).cycleBit = false := fun _ => hzero
  refine ⟨rfl, hn, ?_, ?_, Nat.le_refl _, ?_, Or.inl ?_, Window.start hbit nofun, nofun, ?_,
    fun hle => absurd hle (show ¬ n ≤ 0 by omega), List.Pairwise.nil, nofun, nofun, rfl, nofun⟩
  · exact hregisters.2.trans (Nat.zero_mod n).symm
  · exact hregisters.1.trans lap_zero.symm
  · show 0 < 0 + n
    omega
  · show (⟨ring.buf, true⟩ : Consumer) = ⟨ring.entry (0 % n), lap n 0⟩
    rw [Nat.zero_mod, lap_zero]
    rfl
  · show TRB.cycleBit (fun _ => 0) = !lap n 0
    rw [lap_zero, hzero]
    rfl

/-! ## The driver appends -/

/-- What `Push` and `PushDeferred` have in common. -/
def appended (s : RingSystem) (data : TRB) (committed : Bool) : RingSystem :=
  { s with
    ring := (s.ring.advance data).1
    stores := { s.ring with cycleBit := s.ring.cycleBit == committed }.copyToLast data ++
      (s.ring.advance data).2
    pushed := s.pushed ++ [⟨data, s.ring.entry s.ring.writeIndex, s.ring.cycleBit, committed⟩] }

/-- The entry is written, and at the end of the ring the link. -/
structure Appended (n : Nat) (s : RingSystem) (data : TRB) (committed : Bool) (s' : RingSystem) :
    Prop where
  entry : ∀ i, s'.ring.entry i = s.ring.entry i
  buf : s'.ring.buf = s.ring.buf
  size : s'.ring.bufSize = s.ring.bufSize
  writeIndex : s'.ring.writeIndex = (s.pushed.length + 1) % n
  cycleBit : s'.ring.cycleBit = lap n (s.pushed.length + 1)
  cell : ∀ i < n, s'.full (s.ring.entry i) =
    if i = s.pushed.length % n then data.withCycle (lap n s.pushed.length == committed)
    else s.full (s.ring.entry i)
  linkBit : (s'.full (s.ring.entry n)).cycleBit = !lap n (s.pushed.length + 1)
  link : n ≤ s.pushed.length + 1 → Links (s'.full (s.ring.entry n)) s.ring.buf
  ordered : Ordered s'.stores
  address : ∀ t ∈ s'.stores, t.address = s.ring.entry (s.pushed.length % n) ∨
    (t.address = s.ring.entry n ∧ s.pushed.length % n + 1 = n)

theorem Inv.pos (h : Inv ring n s) : 0 < n := by
  have hroom := h.room
  have hle := h.seen_le
  omega

theorem Inv.appended (h : Inv ring n s) (hring : Placed ring) (hstores : s.stores = []) (data : TRB)
    (committed : Bool) : Appended n s data committed (s.appended data committed) := by
  have hindex := h.writeIndex
  have hcycle := h.cycleBit
  have hlt : s.pushed.length % n < n := Nat.mod_lt _ h.pos
  have hfull : s.full = s.mem := by rw [full, hstores]; rfl
  have hlast : s.ring.bufSize - 1 = n := by rw [h.size]; rfl
  let marked := { s.ring with cycleBit := s.ring.cycleBit == committed }
  have hcopy : applyAll s.mem (marked.copyToLast data) =
      update s.mem (s.ring.entry (s.pushed.length % n))
        (data.withCycle (lap n s.pushed.length == committed)) := by
    rw [applyAll_copyToLast, ← hindex, ← hcycle]
    rfl
  have hcell : ∀ i, update s.mem (s.ring.entry (s.pushed.length % n))
      (data.withCycle (lap n s.pushed.length == committed)) (s.ring.entry i) =
      if i = s.pushed.length % n then data.withCycle (lap n s.pushed.length == committed)
      else s.full (s.ring.entry i) := by
    intro i
    by_cases hi : i = s.pushed.length % n
    · rw [if_pos hi, hi, update_self]
    · rw [if_neg hi, update_of_ne fun heq => hi (Ring.entry_inj heq), hfull]
  have haddress : ∀ t ∈ marked.copyToLast data, t.address = s.ring.entry (s.pushed.length % n) :=
    fun t ht => (Ring.copyToLast_address ht).trans (congrArg s.ring.entry hindex)
  rcases Nat.lt_or_eq_of_le (Nat.succ_le_of_lt hlt) with hmore | hwrap
  · have hadvance : s.ring.advance data = ({ s.ring with writeIndex := s.ring.writeIndex + 1 }, []) := by
      rw [Ring.advance, hlast, hindex]
      exact if_neg (Nat.ne_of_lt hmore)
    have hstores' : (s.appended data committed).stores = marked.copyToLast data := by
      show marked.copyToLast data ++ (s.ring.advance data).2 = _
      rw [hadvance, append_nil]
    have hring' : (s.appended data committed).ring = { s.ring with writeIndex := s.ring.writeIndex + 1 } :=
      congrArg Prod.fst hadvance
    have hfull' : (s.appended data committed).full = update s.mem (s.ring.entry (s.pushed.length % n))
        (data.withCycle (lap n s.pushed.length == committed)) := by
      rw [full, hstores', ← hcopy]
      rfl
    have hn : n ≠ s.pushed.length % n := Nat.ne_of_gt hlt
    refine ⟨fun i => by rw [hring']; rfl, by rw [hring'], by rw [hring'], ?_, ?_, ?_, ?_, ?_, ?_, ?_⟩
    · rw [hring', mod_succ hmore, ← hindex]
    · rw [hring', lap_succ hmore]
      exact hcycle
    · intro i _
      rw [hfull', hcell]
    · rw [hfull', hcell, if_neg hn, lap_succ hmore]
      exact h.linkBit
    · intro hle
      rw [hfull', hcell, if_neg hn]
      refine h.link (Nat.le_of_lt_succ (Nat.lt_of_le_of_ne hle fun heq => ?_))
      have hmod := mod_succ hmore
      have hself : (s.pushed.length + 1) % n = 0 := heq ▸ Nat.mod_self n
      omega
    · rw [hstores']
      exact Ring.ordered_copyToLast _ _
    · intro t ht
      rw [hstores'] at ht
      exact Or.inl (haddress t ht)
  · let chain : Bool := data 3 &&& 1 <<< 4 ≠ 0
    let behind := { s.ring with writeIndex := s.ring.writeIndex + 1 }
    have hadvance : s.ring.advance data =
        ({ s.ring with writeIndex := 0, cycleBit := !s.ring.cycleBit },
          behind.copyToLast (linkTRB s.ring.buf chain)) := by
      rw [Ring.advance, hlast]
      exact if_pos (by rw [hindex]; exact hwrap)
    have hstores' : (s.appended data committed).stores =
        marked.copyToLast data ++ behind.copyToLast (linkTRB s.ring.buf chain) := by
      show marked.copyToLast data ++ (s.ring.advance data).2 = _
      rw [hadvance]
    have hring' : (s.appended data committed).ring =
        { s.ring with writeIndex := 0, cycleBit := !s.ring.cycleBit } := congrArg Prod.fst hadvance
    have hbehind : behind.entry behind.writeIndex = s.ring.entry n := by
      show s.ring.entry (s.ring.writeIndex + 1) = _
      rw [hindex]
      exact congrArg s.ring.entry hwrap
    have hfull' : (s.appended data committed).full =
        update (update s.mem (s.ring.entry (s.pushed.length % n))
          (data.withCycle (lap n s.pushed.length == committed))) (s.ring.entry n)
          ((linkTRB s.ring.buf chain).withCycle (lap n s.pushed.length)) := by
      rw [full, hstores', applyAll_append, applyAll_copyToLast behind, hbehind]
      show update (applyAll s.mem _) _ ((linkTRB s.ring.buf chain).withCycle s.ring.cycleBit) = _
      rw [hcopy, hcycle]
    have hlinkTRB : (s.appended data committed).full (s.ring.entry n) =
        (linkTRB s.ring.buf chain).withCycle (lap n s.pushed.length) := by
      rw [hfull', update_self]
    refine ⟨fun i => by rw [hring']; rfl, by rw [hring'], by rw [hring'], ?_, ?_, ?_, ?_, ?_, ?_, ?_⟩
    · rw [hring', mod_wrap hwrap]
    · rw [hring', lap_wrap hwrap, ← hcycle]
    · intro i hi
      rw [hfull', update_of_ne fun heq => Nat.ne_of_lt hi (Ring.entry_inj heq), hcell]
    · rw [hlinkTRB, TRB.cycleBit_withCycle, lap_wrap hwrap, Bool.not_not]
    · intro _
      rw [hlinkTRB, h.buf]
      exact links_linkTRB hring.aligned hring.fits _ _
    · rw [hstores', Ordered, pairwise_append]
      refine ⟨Ring.ordered_copyToLast _ _, Ring.ordered_copyToLast _ _, fun t ht t' ht' heq => ?_⟩
      rw [haddress t ht, Ring.copyToLast_address ht', hbehind] at heq
      exact absurd (Ring.entry_inj heq) (Nat.ne_of_lt hlt)
    · intro t ht
      rw [hstores'] at ht
      rcases mem_append.mp ht with ht | ht
      · exact Or.inl (haddress t ht)
      · exact Or.inr ⟨(Ring.copyToLast_address ht).trans hbehind, hwrap⟩

theorem getElem?_append_one {α : Type} {l : List α} {x y : α} {k : Nat} (h : (l ++ [x])[k]? = some y) :
    l[k]? = some y ∨ (k = l.length ∧ x = y) := by
  rcases Nat.lt_trichotomy k l.length with hlt | rfl | hgt
  · rw [getElem?_append_left hlt] at h
    exact Or.inl h
  · rw [getElem?_concat_length] at h
    exact Or.inr ⟨rfl, Option.some.inj h⟩
  · rw [getElem?_eq_none (by rw [length_append, length_singleton]; omega)] at h
    cases h

theorem Inv.push (h : Inv ring n s) (hring : Placed ring) (hstores : s.stores = []) (hroom : s.HasRoom)
    {data : TRB} (htype : data.trbType ≠ linkTRBType) (committed : Bool) :
    Inv ring n (s.appended data committed) := by
  have happended := h.appended hring hstores data committed
  have hlength : (s.appended data committed).pushed.length = s.pushed.length + 1 := length_append
  have hfull : s.full = s.mem := by rw [full, hstores]; rfl
  have hlt : s.pushed.length % n < n := Nat.mod_lt _ h.pos
  have hle := h.seen_le
  have hroom' : s.pushed.length + 1 < s.seen.length + n := by
    rw [HasRoom, h.size] at hroom
    omega
  have hlast : s.pushed[s.pushed.length]? = none := getElem?_eq_none (Nat.le_refl _)
  have hready : ∀ k, k ≠ s.pushed.length → ((s.appended data committed).Ready k ↔ s.Ready k) := by
    intro k hk
    refine exists_congr fun p => and_congr_left fun _ => ⟨fun hp => ?_, fun hp => ?_⟩
    · rcases getElem?_append_one hp with hp | ⟨heq, _⟩
      · exact hp
      · exact absurd heq hk
    · exact (List.getElem?_append_left (List.getElem?_eq_some_iff.mp hp).1).trans hp
  have hnew : (s.appended data committed).pushed[s.pushed.length]? =
      some ⟨data, s.ring.entry s.ring.writeIndex, s.ring.cycleBit, committed⟩ :=
    getElem?_concat_length
  have hnext : ¬ s.Ready s.pushed.length := by
    rintro ⟨p, hp, _⟩
    rw [hlast] at hp
    cases hp
  refine ⟨happended.buf.trans h.buf, happended.size.trans h.size, ?_, ?_, ?_, ?_, ?_, ?_, ?_, ?_, ?_,
    happended.ordered, ?_, ?_, ?_, ?_⟩
  · rw [hlength]
    exact happended.writeIndex
  · rw [hlength]
    exact happended.cycleBit
  · rw [hlength]
    exact Nat.le_succ_of_le hle
  · rw [hlength]
    exact hroom'
  · rcases h.next with heq | ⟨hmod, hpos, heq⟩
    · refine Or.inl ?_
      rw [happended.entry]
      exact heq
    · refine Or.inr ⟨hmod, hpos, ?_⟩
      rw [happended.entry]
      exact heq
  · refine h.window.set hle (by omega) (fun i hi hne => ?_) hready ?_
    · show (TRB.cycleBit _) = TRB.cycleBit _
      rw [happended.entry, happended.cell i hi, if_neg hne]
    · show TRB.cycleBit _ = _ ↔ _
      rw [happended.entry, happended.cell _ hlt, if_pos rfl, TRB.cycleBit_withCycle]
      constructor
      · intro heq
        refine ⟨_, hnew, ?_⟩
        cases committed
        · cases hbit : lap n s.pushed.length <;> rw [hbit] at heq <;> cases heq
        · rfl
      · rintro ⟨p, hp, hcommitted⟩
        rw [hnew, Option.some.injEq] at hp
        subst hp
        cases hcommitted
        cases lap n s.pushed.length <;> rfl
  · intro k p (hk : s.seen.length ≤ k) hp
    rw [happended.entry, happended.cell _ (Nat.mod_lt _ h.pos)]
    rcases getElem?_append_one hp with hp | ⟨rfl, rfl⟩
    · have hklt := (List.getElem?_eq_some_iff.mp hp).1
      rw [if_neg fun hmod => Nat.ne_of_lt hklt (place_inj hk (by omega) hle (by omega) hmod)]
      exact h.content k p hk hp
    · rw [if_pos rfl, TRB.content_withCycle]
  · rw [hlength, happended.entry]
    exact happended.linkBit
  · rw [hlength, happended.entry, happended.buf]
    exact happended.link
  · intro t ht
    rcases happended.address t ht with haddress | ⟨haddress, hwrap⟩
    · refine Or.inl ⟨s.pushed.length, hle, show _ < s.seen.length + n by omega,
        haddress.trans (happended.entry _).symm, ?_⟩
      rw [haddress]
      show (s.mem _).cycleBit = _
      rw [← hfull]
      exact h.window.not_filled hle (by omega) hnext
    · refine Or.inr ⟨haddress.trans (happended.entry _).symm, ?_, ?_⟩
      · rw [hlength, mod_wrap hwrap]
      · rw [haddress, hlength, lap_wrap hwrap]
        show (s.mem _).cycleBit = _
        rw [← hfull]
        exact h.linkBit
  · intro k p hp
    rw [happended.entry]
    rcases getElem?_append_one hp with hp | ⟨rfl, rfl⟩
    · exact h.given k p hp
    · exact ⟨congrArg s.ring.entry h.writeIndex, h.cycleBit, htype⟩
  · show s.seen.map TRB.content = ((s.pushed ++ _).take s.seen.length).map _
    rw [take_append_of_le_length hle]
    exact h.seen
  · intro k hk
    exact (hready k (Nat.ne_of_lt (Nat.lt_of_lt_of_le hk hle))).mpr (h.committed k hk)

/-! ## The driver commits -/

theorem Ring.entry_pos (hring : Placed ring) (hbuf : s.ring.buf = ring.buf) (i : Nat) :
    s.ring.entry i ≠ 0 := by
  have hpos := hring.buf_pos
  rw [Ring.entry, hbuf]
  omega

theorem Inv.commit (h : Inv ring n s) (hring : Placed ring) (hstores : s.stores = []) {k : Nat}
    {p : Pushed} (hp : s.pushed[k]? = some p) (hdeferred : p.committed = false) :
    Inv ring n { s with
      stores := Ring.commit s.mem p.trb p.cycleState
      pushed := s.pushed.set k { p with committed := true } } := by
  obtain ⟨htrb, hstate, htype⟩ := h.given k p hp
  have hk : s.seen.length ≤ k := by
    refine Nat.le_of_not_lt fun hlt => ?_
    obtain ⟨q, hq, hcommitted⟩ := h.committed k hlt
    rw [hp, Option.some.injEq] at hq
    rw [← hq, hdeferred] at hcommitted
    cases hcommitted
  have hlt := (List.getElem?_eq_some_iff.mp hp).1
  have hroom := h.room
  have hfull : s.full = s.mem := by rw [full, hstores]; rfl
  have hset : (s.pushed.set k { p with committed := true })[k]? = some { p with committed := true } := by
    rw [getElem?_set_self hlt]
  have hother : ∀ j, j ≠ k → (s.pushed.set k { p with committed := true })[j]? = s.pushed[j]? :=
    fun j hj => getElem?_set_ne hj.symm
  have hcommit : Ring.commit s.mem p.trb p.cycleState = [⟨s.ring.entry (k % n), 3,
      (s.mem (s.ring.entry (k % n))).withCycle (lap n k) 3⟩] := by
    rw [Ring.commit, htrb, hstate, if_neg (Ring.entry_pos hring h.buf _), TRB.withCycle_three]
  have hfull' : applyAll s.mem (Ring.commit s.mem p.trb p.cycleState) =
      update s.mem (s.ring.entry (k % n)) ((s.full (s.ring.entry (k % n))).withCycle (lap n k)) := by
    rw [hcommit, hfull, TRB.withCycle_three]
    rfl
  have hlength : (s.pushed.set k { p with committed := true }).length = s.pushed.length :=
    length_set
  have hlast : s.ring.entry n ≠ s.ring.entry (k % n) :=
    fun heq => Nat.ne_of_gt (Nat.mod_lt k h.pos) (Ring.entry_inj heq)
  refine ⟨h.buf, h.size, ?_, ?_, ?_, ?_, h.next, ?_, ?_, ?_, ?_, ?_, ?_, ?_, ?_, ?_⟩
  · rw [hlength]
    exact h.writeIndex
  · rw [hlength]
    exact h.cycleBit
  · rw [hlength]
    exact h.seen_le
  · rw [hlength]
    exact hroom
  · refine h.window.set hk (by omega) (fun i _ hne => ?_) (fun j hj => ?_) ?_
    · show (applyAll s.mem _ _).cycleBit = _
      rw [hfull', update_of_ne fun heq => hne (Ring.entry_inj heq), hfull]
    · exact exists_congr fun q => by rw [hother j hj]
    · show (applyAll s.mem _ _).cycleBit = _ ↔ _
      rw [hfull', update_self, TRB.cycleBit_withCycle]
      exact iff_of_true rfl ⟨_, hset, rfl⟩
  · intro j q (hj : s.seen.length ≤ j) hq
    show (applyAll s.mem _ _).content = _
    rw [hfull']
    by_cases hjk : j = k
    · subst hjk
      rw [hset, Option.some.injEq] at hq
      rw [update_self, TRB.content_withCycle, ← hq]
      exact h.content j p hk hp
    · rw [hother j hjk] at hq
      have hjlt := (List.getElem?_eq_some_iff.mp hq).1
      rw [update_of_ne fun heq =>
        hjk (place_inj hj (by omega) hk (by omega) (Ring.entry_inj heq)), ← hfull]
      exact h.content j q hj hq
  · show (applyAll s.mem _ _).cycleBit = _
    rw [hlength, hfull', update_of_ne hlast, ← hfull]
    exact h.linkBit
  · show _ → Links (applyAll s.mem _ _) _
    rw [hlength, hfull', update_of_ne hlast, ← hfull]
    exact h.link
  · rw [hcommit]
    exact pairwise_singleton _ _
  · intro t ht
    rw [hcommit, mem_singleton] at ht
    refine Or.inl ⟨k, hk, show k < s.seen.length + n by omega, by rw [ht], ?_⟩
    rw [ht]
    show (s.mem _).cycleBit = _
    rw [← hfull]
    refine h.window.not_filled hk (by omega) ?_
    rintro ⟨q, hq, hcommitted⟩
    rw [hp, Option.some.injEq] at hq
    rw [← hq, hdeferred] at hcommitted
    cases hcommitted
  · intro j q hq
    by_cases hjk : j = k
    · subst hjk
      rw [hset, Option.some.injEq] at hq
      rw [← hq]
      exact ⟨htrb, hstate, htype⟩
    · rw [hother j hjk] at hq
      exact h.given j q hq
  · show s.seen.map TRB.content = ((s.pushed.set k _).take s.seen.length).map _
    rw [take_set_of_le hk]
    exact h.seen
  · intro j hj
    have hjk : j ≠ k := Nat.ne_of_lt (Nat.lt_of_lt_of_le hj hk)
    obtain ⟨q, hq, hcommitted⟩ := h.committed j hj
    exact ⟨q, (hother j hjk).trans hq, hcommitted⟩

/-! ## The words are written -/

theorem Inv.store (h : Inv ring n s) {store : Store} {stores : List Store}
    (hstores : s.stores = store :: stores) :
    Inv ring n { s with mem := store.apply s.mem, stores := stores } := by
  have hordered : ∀ t ∈ stores, store.address = t.address → store.word.val ≠ 3 := by
    have h' := h.ordered
    rw [hstores, Ordered, pairwise_cons] at h'
    exact h'.1
  have hfull : applyAll (store.apply s.mem) stores = s.full := by
    rw [full, hstores]
    rfl
  refine ⟨h.buf, h.size, h.writeIndex, h.cycleBit, h.seen_le, h.room, h.next, ?_, ?_, ?_, ?_, ?_, ?_,
    h.given, h.seen, h.committed⟩
  · show Window n (fun i => (applyAll (store.apply s.mem) stores _).cycleBit) _ _
    rw [hfull]
    exact h.window
  · show ∀ k p, _ → _ → (applyAll (store.apply s.mem) stores _).content = _
    rw [hfull]
    exact h.content
  · show (applyAll (store.apply s.mem) stores _).cycleBit = _
    rw [hfull]
    exact h.linkBit
  · show _ → Links (applyAll (store.apply s.mem) stores _) _
    rw [hfull]
    exact h.link
  · have h' := h.ordered
    rw [hstores, Ordered, pairwise_cons] at h'
    exact h'.2
  · intro t ht
    have hbit : (store.apply s.mem t.address).cycleBit = (s.mem t.address).cycleBit :=
      Store.cycleBit_apply (hordered t ht)
    rcases h.hidden t (hstores ▸ mem_cons_of_mem _ ht) with ⟨k, hk, hk', haddress, hold⟩ | hold
    · exact Or.inl ⟨k, hk, hk', haddress, hbit.trans hold⟩
    · exact Or.inr ⟨hold.1, hold.2.1, hbit.trans hold.2.2⟩

/-! ## The controller goes on -/

/-- An entry with the cycle state of the controller has all its words. -/
theorem Inv.visible (h : Inv ring n s)
    (hbit : (s.mem s.consumer.dequeue).cycleBit = s.consumer.cycleState) :
    s.full s.consumer.dequeue = s.mem s.consumer.dequeue := by
  have hle := h.seen_le
  have hroom := h.room
  refine applyAll_of_forall_ne _ fun t ht haddress => ?_
  have hhidden := h.hidden t ht
  rw [haddress] at hhidden
  rcases h.next with heq | ⟨hmod, _, heq⟩
  · rw [heq] at hhidden hbit
    rcases hhidden with ⟨k, hk, hk', hentry, hold⟩ | ⟨hentry, _⟩
    · obtain rfl : s.seen.length = k :=
        place_inj (Nat.le_refl _) (by omega) hk hk' (Ring.entry_inj hentry)
      rw [hbit] at hold
      cases hlap : lap n s.seen.length <;> rw [hlap] at hold <;> cases hold
    · exact absurd (Ring.entry_inj hentry) (Nat.ne_of_lt (Nat.mod_lt _ h.pos))
  · rw [heq] at hhidden hbit
    rcases hhidden with ⟨k, _, _, hentry, _⟩ | ⟨_, hmod', hold⟩
    · exact absurd (Ring.entry_inj hentry).symm (Nat.ne_of_lt (Nat.mod_lt _ h.pos))
    · have hsame : s.seen.length = s.pushed.length :=
        place_inj (Nat.le_refl _) (by omega) hle hroom (hmod.trans hmod'.symm)
      rw [hbit, hsame] at hold
      cases hlap : lap n s.pushed.length <;> rw [hlap] at hold <;> cases hold

/-- At the entry of the next TRB the controller goes on just when the TRB is committed and all its words
are written. -/
theorem Inv.consume_next (h : Inv ring n s) (hnext : s.consumer =
      ⟨s.ring.entry (s.seen.length % n), lap n s.seen.length⟩)
    (hbit : (s.mem s.consumer.dequeue).cycleBit = s.consumer.cycleState) :
    s.Ready s.seen.length ∧ s.consumer.step s.mem =
      some (⟨s.ring.entry (s.seen.length % n) + sizeofTRB, lap n s.seen.length⟩,
        some (s.mem s.consumer.dequeue)) ∧
    ∀ p, s.pushed[s.seen.length]? = some p →
      (s.mem s.consumer.dequeue).content = p.data.content := by
  have hvisible := h.visible hbit
  have hready : s.Ready s.seen.length := by
    refine (h.window _ (Nat.le_refl _) (Nat.lt_add_of_pos_right h.pos)).mp ?_
    rw [hnext] at hvisible hbit
    exact (congrArg TRB.cycleBit hvisible).trans hbit
  have hcontent : ∀ p, s.pushed[s.seen.length]? = some p →
      (s.mem s.consumer.dequeue).content = p.data.content := by
    intro p hp
    rw [← hvisible, hnext]
    exact h.content _ p (Nat.le_refl _) hp
  obtain ⟨p, hp, hcommitted⟩ := hready
  have htype : (s.mem s.consumer.dequeue).trbType ≠ linkTRBType := by
    rw [← TRB.trbType_content, hcontent p hp, TRB.trbType_content]
    exact (h.given _ p hp).2.2
  refine ⟨⟨p, hp, hcommitted⟩, ?_, hcontent⟩
  rw [Consumer.step, if_neg (not_not.mpr hbit), if_neg htype, hnext]

/-- At the link the controller goes on to the first entry, in the next lap. -/
theorem Inv.consume_link (h : Inv ring n s) (hmod : s.seen.length % n = 0) (hpos : 0 < s.seen.length)
    (hnext : s.consumer = ⟨s.ring.entry n, !lap n s.seen.length⟩)
    (hbit : (s.mem s.consumer.dequeue).cycleBit = s.consumer.cycleState) :
    s.consumer.step s.mem = some (⟨s.ring.entry (s.seen.length % n), lap n s.seen.length⟩, none) := by
  have hvisible := h.visible hbit
  have hlinks := h.link (Nat.le_trans (Nat.le_of_dvd hpos (Nat.dvd_of_mod_eq_zero hmod)) h.seen_le)
  have haddress : s.consumer.dequeue = s.ring.entry n := by rw [hnext]
  rw [← haddress, hvisible] at hlinks
  rw [Consumer.step, if_neg (not_not.mpr hbit), if_pos hlinks.type, hlinks.pointer, hlinks.toggle, hnext,
    hmod, Bool.xor_true, Bool.not_not]
  rfl

theorem Inv.consume (h : Inv ring n s) {consumer : Consumer} {trb : Option TRB}
    (hstep : s.consumer.step s.mem = some (consumer, trb)) :
    Inv ring n { s with consumer := consumer, seen := s.seen ++ trb.toList } := by
  have hle := h.seen_le
  have hroom := h.room
  have hbit : (s.mem s.consumer.dequeue).cycleBit = s.consumer.cycleState := by
    refine not_not.mp fun hne => ?_
    rw [Consumer.step, if_pos hne] at hstep
    cases hstep
  rcases h.next with hnext | ⟨hmod, hpos, hnext⟩
  · obtain ⟨⟨p, hp, hcommitted⟩, htaken, hcontent⟩ := h.consume_next hnext hbit
    rw [htaken, Option.some.injEq, Prod.mk.injEq] at hstep
    obtain ⟨rfl, rfl⟩ := hstep
    have hlt := (List.getElem?_eq_some_iff.mp hp).1
    have hfar : ¬ s.Ready (s.seen.length + n) := by
      rintro ⟨q, hq, _⟩
      have := (List.getElem?_eq_some_iff.mp hq).1
      omega
    have hlength : (s.seen ++ [s.mem s.consumer.dequeue]).length = s.seen.length + 1 :=
      length_append
    refine ⟨h.buf, h.size, h.writeIndex, h.cycleBit, ?_, ?_, ?_, ?_, ?_, h.linkBit, h.link, h.ordered, ?_,
      h.given, ?_, ?_⟩
    · show (s.seen ++ [s.mem s.consumer.dequeue]).length ≤ s.pushed.length
      omega
    · show s.pushed.length < (s.seen ++ [s.mem s.consumer.dequeue]).length + n
      omega
    · have hbehind := s.ring.behind_entry h.pos s.seen.length
      rw [← hlength] at hbehind
      exact hbehind
    · show Window n _ (s.seen ++ [s.mem s.consumer.dequeue]).length s.Ready
      rw [hlength]
      exact h.window.advance h.pos ⟨p, hp, hcommitted⟩ hfar
    · intro k q (hk : (s.seen ++ [s.mem s.consumer.dequeue]).length ≤ k) hq
      exact h.content k q (by omega) hq
    · intro t ht
      rcases h.hidden t ht with ⟨k, hk, hk', haddress, hold⟩ | hold
      · have hne : k ≠ s.seen.length := by
          rintro rfl
          rw [haddress] at hold
          rw [hnext] at hbit
          rw [hbit] at hold
          cases hlap : lap n s.seen.length <;> rw [hlap] at hold <;> cases hold
        refine Or.inl ⟨k, ?_, ?_, haddress, hold⟩
        · show (s.seen ++ [s.mem s.consumer.dequeue]).length ≤ k
          omega
        · show k < (s.seen ++ [s.mem s.consumer.dequeue]).length + n
          omega
      · exact Or.inr hold
    · show (s.seen ++ [s.mem s.consumer.dequeue]).map TRB.content =
        (s.pushed.take (s.seen ++ [s.mem s.consumer.dequeue]).length).map _
      rw [hlength, take_add_one, hp, map_append, map_append, h.seen, map_singleton,
        hcontent p hp]
      rfl
    · intro k hk
      have hk' : k < s.seen.length + 1 := hlength ▸ hk
      rcases Nat.lt_or_eq_of_le (Nat.le_of_lt_succ hk') with hk' | rfl
      · exact h.committed k hk'
      · exact ⟨p, hp, hcommitted⟩
  · rw [h.consume_link hmod hpos hnext hbit, Option.some.injEq, Prod.mk.injEq] at hstep
    obtain ⟨rfl, rfl⟩ := hstep
    have hseen : s.seen ++ (none : Option TRB).toList = s.seen := append_nil _
    rw [hseen]
    exact ⟨h.buf, h.size, h.writeIndex, h.cycleBit, hle, hroom, Or.inl rfl, h.window, h.content,
      h.linkBit, h.link, h.ordered, h.hidden, h.given, h.seen, h.committed⟩

/-! ## Runs -/

theorem Inv.step (h : Inv ring n s) (hring : Placed ring) (hstep : Step s s') : Inv ring n s' := by
  cases hstep with
  | push data hstores hroom htype =>
    have hpush := h.push hring hstores hroom htype true
    have hcopy : (s.ring.cycleBit == true) = s.ring.cycleBit := by cases s.ring.cycleBit <;> rfl
    rw [RingSystem.appended, hcopy] at hpush
    exact hpush
  | pushDeferred data hstores hroom htype =>
    have hpush := h.push hring hstores hroom htype false
    have hcopy : (s.ring.cycleBit == false) = !s.ring.cycleBit := by cases s.ring.cycleBit <;> rfl
    rw [RingSystem.appended, hcopy] at hpush
    exact hpush
  | commit hstores hp hdeferred => exact h.commit hring hstores hp hdeferred
  | store hstores => exact h.store hstores
  | consume htaken => exact h.consume htaken

theorem Reachable.inv (hring : Placed ring)
    (hstart : Ring.initializeAt ring.buf ring.bufSize = some ring) (hn : ring.bufSize = n + 1)
    (h : Reachable ring s) : Inv ring n s := by
  induction h with
  | start => exact Inv.start hring hstart hn
  | step _ hstep ih => exact ih.step hring hstep

end RingSystem

end Unisym.Device.SpaceUSB3
