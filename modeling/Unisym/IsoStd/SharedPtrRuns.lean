/-
# `SharedPtrRuns` — every run keeps the counts

`Memory.Quiet program s` is the invariant between two operations.  `Fine` is what `reset` needs: a pointer
without a block is null, and a pointer does not reset itself by way of the objects that it keeps.
-/
import Unisym.IsoStd.SharedPtrCascade

set_option linter.unusedSectionVars false

namespace Unisym.IsoStd.Memory

open Function Holders List Option

variable {σ ω : Type} [DecidableEq σ] [DecidableEq ω] [Fintype σ] [Fintype ω]
variable {program : Program σ ω} {busy : List (Option σ)} {s s' s'' : Memory σ ω}

/-! ## Pointers exchange their blocks -/

variable {v w : Option σ} {u t : Option ω} {h : Handle} {ptr : Nat} {D : Nat → Prop}

theorem Inv.recount (h : Inv program [] s) (hblock : holders s'.blockOf = holders s.blockOf)
    (hwatched : holders s'.watched = holders s.watched) (hblocks : s'.blocks = s.blocks) (hmade : s'.made = s.made)
    (hcreated : s'.created = s.created) (hgiven : s'.given = s.given) (hdeleted : s'.deleted = s.deleted)
    (hfreed : s'.freed = s.freed) (halive : ∀ m, s.AliveMember m → s'.AliveMember m) :
    Inv program [] s' := by
  refine ⟨h.nodup, fun _ hv => absurd hv not_mem_nil, fun b => ?_, ?_, ?_⟩
  · have hok := h.block b
    rw [owned_nil] at hok ⊢
    rw [hwatched, hblocks, hmade, hdeleted, hfreed, hblock]
    exact hok
  · rw [hmade, hcreated, hgiven, hdeleted, hfreed]
    exact h.logs
  · rw [hcreated, hdeleted]
    exact fun o ho ho' m hm => halive m (h.alive o ho ho' m hm)

/-- The blocks when two pointers have exchanged their handles. -/
theorem blockOf_exchange {h' : Handle} (hv : s.blockOf v = h.block)
    (hw : s.blockOf w = h'.block) :
    ((s.putShared v h').putShared w h).blockOf = s.blockOf ∘ Equiv.swap v w := by
  funext x
  rw [comp_apply]
  by_cases hxw : x = w
  · rw [hxw, blockOf_putShared_self, Equiv.swap_apply_right, hv]
  · rw [blockOf_putShared_of_ne hxw]
    by_cases hxv : x = v
    · rw [hxv, blockOf_putShared_self, Equiv.swap_apply_left, hw]
    · rw [blockOf_putShared_of_ne hxv, Equiv.swap_apply_of_ne_of_ne hxv hxw]

theorem watched_exchange {h' : Handle} (hu : s.watched u = h.block)
    (ht : s.watched t = h'.block) :
    ((s.putWeak u h').putWeak t h).watched = s.watched ∘ Equiv.swap u t := by
  funext x
  rw [comp_apply]
  by_cases hxt : x = t
  · rw [hxt, watched_putWeak_self, Equiv.swap_apply_right, hu]
  · rw [watched_putWeak_of_ne hxt]
    by_cases hxu : x = u
    · rw [hxu, watched_putWeak_self, Equiv.swap_apply_left, ht]
    · rw [watched_putWeak_of_ne hxu, Equiv.swap_apply_of_ne_of_ne hxu hxt]

theorem Inv.exchangeHandles (h : Inv program [] s) {hv hw : Handle}
    (hbv : s.blockOf v = hv.block) (hbw : s.blockOf w = hw.block) :
    Inv program [] ((s.putShared v hw).putShared w hv) :=
  h.recount (funext fun b => by rw [blockOf_exchange hbv hbw, holders_swap]) rfl rfl rfl rfl rfl rfl rfl
    fun _ hm => aliveMember_putShared (aliveMember_putShared hm)

theorem Inv.exchangeWeakHandles (h : Inv program [] s) {hu ht : Handle}
    (hbu : s.watched u = hu.block) (hbt : s.watched t = ht.block) :
    Inv program [] ((s.putWeak u ht).putWeak t hu) :=
  h.recount rfl (funext fun b => by rw [watched_exchange hbu hbt, holders_swap]) rfl rfl rfl rfl rfl rfl
    fun _ hm => aliveMember_putWeak (aliveMember_putWeak hm)

/-! ## Objects and blocks are made -/

/-- `new` and a block for the object: the pointer is its only owner. -/
def withBlock (v : Option σ) (ptr : Nat) (s : Memory σ ω) : Memory σ ω :=
  ({ s with given := s.given ++ [ptr], made := s.made ++ [ptr] }.putBlock s.made.length ⟨1, 1, ptr⟩).putShared
    v ⟨ptr, some s.made.length⟩

theorem BlockOk.more_made {made deleted freed : List Nat} {owners having watching b : Nat}
    {block : Option SharedBlock} (h : BlockOk made deleted freed owners having watching b block)
    (hb : b ≠ made.length) : BlockOk (made ++ [ptr]) deleted freed owners having watching b block := by
  have hget : (made ++ [ptr])[b]? = made[b]? := by
    rcases Nat.lt_or_gt_of_ne hb with hlt | hgt
    · exact getElem?_append_left hlt
    · rw [getElem?_eq_none (by rw [length_append]; exact hgt), getElem?_eq_none hgt.le]
  refine ⟨h.strong, h.weak, h.held, hget ▸ h.object, hget ▸ h.gone, fun hsome => ?_, ?_, h.live⟩
  · have hlt := h.lt hsome
    rw [length_append]
    exact Nat.lt_succ_of_lt hlt
  · rw [h.freed_iff, length_append, length_singleton]
    refine and_congr_left fun _ => ?_
    omega

theorem Inv.withBlock (h : Inv program [] s) (hv : s.blockOf v = none)
    (hcreated : ptr ∈ s.created) (hgiven : ptr ∉ s.given) : Inv program [] (s.withBlock v ptr) := by
  have hok := h.block
  simp only [owned_nil] at hok
  have hlast : s.blocks s.made.length = none := by
    refine not_isSome_iff_eq_none.mp fun hsome => ?_
    exact absurd ((hok _).lt hsome) (Nat.lt_irrefl _)
  obtain ⟨hhaving, hwatching⟩ := (hok s.made.length).live hlast
  have hcount := holders_update (f := s.blockOf) (g := (s.withBlock v ptr).blockOf) v
    fun w hw => blockOf_putShared_of_ne hw
  have hself : (s.withBlock v ptr).blockOf v = some s.made.length := blockOf_putShared_self
  simp only [hv, hself, reduceCtorEq, if_false, Nat.add_zero, Option.some.injEq] at hcount
  have hdeleted : ptr ∉ s.deleted := fun hmem => hgiven (h.logs.deleted_given ptr hmem)
  refine ⟨h.nodup, fun _ hv => absurd hv not_mem_nil, fun b => ?_, ?_, fun o ho ho' m hm =>
    aliveMember_putShared (h.alive o ho ho' m hm)⟩
  · simp only [owned_nil, hcount]
    show BlockOk (s.made ++ [ptr]) s.deleted s.freed _ _ (holders s.watched b) b
      (update s.blocks s.made.length _ b)
    by_cases hb : b = s.made.length
    · subst hb
      rw [if_pos rfl, hhaving, hwatching, update_self]
      refine ⟨?_, ?_, ?_, ?_, ?_, fun _ => ?_, ?_, fun hnone => absurd hnone (some_ne_none _)⟩
      · rintro _ ⟨⟩
        rfl
      · rintro _ ⟨⟩
        rfl
      · rintro _ ⟨⟩
        exact Int.one_pos
      · rintro _ ⟨⟩ _
        exact ⟨getElem?_concat_length, hdeleted⟩
      · exact fun o _ hzero => absurd hzero (Nat.succ_ne_zero 0)
      · rw [length_append]
        exact Nat.lt_succ_self _
      · refine iff_of_false (fun hmem => ?_) fun hnone => some_ne_none _ hnone.2
        exact absurd ((hok _).freed_iff.mp hmem).1 (Nat.lt_irrefl _)
    · rw [if_neg fun heq => hb heq.symm, update_of_ne hb]
      exact (hok b).more_made hb
  · have hmade : ptr ∉ s.made := fun hmem => hgiven (h.logs.made_given ptr hmem)
    refine { h.logs with made_nodup := ?_, made_given := ?_, deleted_given := ?_, given_created := ?_ }
    · exact nodup_append.mpr ⟨h.logs.made_nodup, nodup_singleton ptr, fun x hx y hy hxy =>
        hmade (mem_singleton.mp hy ▸ hxy ▸ hx)⟩
    · intro o ho
      rcases mem_append.mp ho with ho | ho
      · exact mem_append_left _ (h.logs.made_given o ho)
      · exact mem_append_right _ ho
    · exact fun o ho => mem_append_left _ (h.logs.deleted_given o ho)
    · intro o ho
      rcases mem_append.mp ho with ho | ho
      · exact h.logs.given_created o ho
      · rw [mem_singleton.mp ho]
        exact hcreated

/-- An object is given to a constructor that gets no block. -/
theorem Inv.give (h : Inv program [] s) (hcreated : ptr ∈ s.created) (hgiven : ptr ∉ s.given) :
    Inv program [] { s with given := s.given ++ [ptr], deleted := s.deleted ++ [ptr] } := by
  have hdeleted : ptr ∉ s.deleted := fun hmem => hgiven (h.logs.deleted_given ptr hmem)
  refine ⟨h.nodup, fun _ hv => absurd hv not_mem_nil, fun b => ?_, ?_, fun o ho ho' m hm =>
    h.alive o ho (fun hd => ho' (mem_append_left _ hd)) m hm⟩
  · have hok := h.block b
    refine ⟨hok.strong, hok.weak, hok.held, fun k hk hlt => ?_, fun o ho hz =>
      mem_append_left _ (hok.gone o ho hz), hok.lt, hok.freed_iff, hok.live⟩
    obtain ⟨hmade, hlive⟩ := hok.object k hk hlt
    refine ⟨hmade, fun hmem => ?_⟩
    rcases mem_append.mp hmem with hmem | hmem
    · exact hlive hmem
    · exact hgiven (h.logs.made_given ptr (mem_singleton.mp hmem ▸ mem_of_getElem? hmade))
  · refine { h.logs with deleted_nodup := ?_, made_given := ?_, deleted_given := ?_, given_created := ?_ }
    · exact nodup_append.mpr ⟨h.logs.deleted_nodup, nodup_singleton ptr, fun x hx y hy hxy =>
        hdeleted (mem_singleton.mp hy ▸ hxy ▸ hx)⟩
    · exact fun o ho => mem_append_left _ (h.logs.made_given o ho)
    · intro o ho
      rcases mem_append.mp ho with ho | ho
      · exact mem_append_left _ (h.logs.deleted_given o ho)
      · exact mem_append_right _ ho
    · intro o ho
      rcases mem_append.mp ho with ho | ho
      · exact h.logs.given_created o ho
      · rw [mem_singleton.mp ho]
        exact hcreated

/-! ## Between two operations -/

/-- The invariant of a run: members begin with their object, and no temporary is left. -/
structure Quiet (program : Program σ ω) (s : Memory σ ω) : Prop where
  inv : Inv program [] s
  unborn : ∀ o, o ∉ s.created → ∀ m ∈ program.members o, ¬ s.AliveMember m
  noTemp : s.shared none = none
  noTempWeak : s.weak none = none

/-- Only variables of their own come to life. -/
structure Births (program : Program σ ω) (s s' : Memory σ ω) : Prop where
  shared : ∀ w, (s'.shared w).isSome → (s.shared w).isSome ∨
    ∃ x, w = some x ∧ ∀ o, .shared x ∉ program.members o
  weak : ∀ u, (s'.weak u).isSome → (s.weak u).isSome ∨ ∃ x, u = some x ∧ ∀ o, .weak x ∉ program.members o

theorem Quiet.step (h : Quiet program s) (hinv : Inv program [] s') (hcreated : s'.created = s.created)
    (hbirths : Births program s s') : Quiet program s' := by
  refine ⟨hinv, fun o ho m hm halive => ?_, ?_, ?_⟩
  · rw [hcreated] at ho
    cases m with
    | shared x =>
      rcases hbirths.shared (some x) halive with hw | ⟨y, hy, hnot⟩
      · exact h.unborn o ho _ hm hw
      · cases hy
        exact hnot o hm
    | weak x =>
      rcases hbirths.weak (some x) halive with hu | ⟨y, hy, hnot⟩
      · exact h.unborn o ho _ hm hu
      · cases hy
        exact hnot o hm
  · refine not_isSome_iff_eq_none.mp fun hsome => ?_
    rcases hbirths.shared none hsome with hw | ⟨y, hy, _⟩
    · rw [h.noTemp] at hw
      cases hw
    · cases hy
  · refine not_isSome_iff_eq_none.mp fun hsome => ?_
    rcases hbirths.weak none hsome with hu | ⟨y, hy, _⟩
    · rw [h.noTempWeak] at hu
      cases hu
    · cases hy

theorem Births.trans (h : Births program s s') (h' : Births program s' s'') : Births program s s'' :=
  ⟨fun w hw => (h'.shared w hw).elim (h.shared w) .inr, fun u hu => (h'.weak u hu).elim (h.weak u) .inr⟩

/-- A variable that can be given a handle: it is alive, or one of its own. -/
def Usable (program : Program σ ω) (s : Memory σ ω) (v : σ) : Prop :=
  s.Alive v ∨ ∀ o, .shared v ∉ program.members o

def UsableWeak (program : Program σ ω) (s : Memory σ ω) (u : ω) : Prop :=
  s.AliveWeak u ∨ ∀ o, .weak u ∉ program.members o

theorem Births.putShared {v : σ} (hv : Usable program s v) :
    Births program s (s.putShared (some v) h) := by
  refine ⟨fun w hw => ?_, fun _ => .inl⟩
  by_cases hwv : w = some v
  · subst hwv
    exact hv.elim .inl fun hnot => .inr ⟨v, rfl, hnot⟩
  · exact .inl (by simpa [Memory.putShared, hwv] using hw)

theorem Births.putWeak {u : ω} (hu : UsableWeak program s u) :
    Births program s (s.putWeak (some u) h) := by
  refine ⟨fun _ => .inl, fun t ht => ?_⟩
  by_cases htu : t = some u
  · subst htu
    exact hu.elim .inl fun hnot => .inr ⟨u, rfl, hnot⟩
  · exact .inl (by simpa [Memory.putWeak, htu] using ht)

theorem Frame.births {p : Option σ → Prop} {q : Option ω → Prop} {more : List Nat}
    (h : Frame program D p q more s s') : Births program s s' :=
  ⟨fun w hw => .inl (h.shared_alive w hw), fun u hu => .inl (h.weak_alive u hu)⟩

theorem Free.blockOf {v : σ} (h : Free program s v) : s.blockOf (some v) = none := by
  rw [Memory.blockOf, h.1]
  rfl

theorem Free.usable {v : σ} (h : Free program s v) : Usable program s v := .inr h.2

theorem FreeWeak.watched {u : ω} (h : FreeWeak program s u) : s.watched (some u) = none := by
  rw [Memory.watched, h.1]
  rfl

theorem FreeWeak.usable {u : ω} (h : FreeWeak program s u) : UsableWeak program s u := .inr h.2

/-! ## `new` -/

theorem create_shared (o : Nat) (w : Option σ) : (s.create program o).shared w =
    if w.any fun x => decide (.shared x ∈ program.members o) then some .null else s.shared w := rfl

theorem create_weak (o : Nat) (u : Option ω) : (s.create program o).weak u =
    if u.any fun x => decide (.weak x ∈ program.members o) then some .null else s.weak u := rfl

theorem Quiet.create (hprog : program.WellFormed) (h : Quiet program s) {o : Nat} (hne : o ≠ 0)
    (ho : o ∉ s.created) : Quiet program (s.create program o) := by
  have hshared : ∀ x, .shared x ∈ program.members o → s.shared (some x) = none := fun x hx =>
    not_isSome_iff_eq_none.mp (h.unborn o ho _ hx)
  have hweak : ∀ x, .weak x ∈ program.members o → s.weak (some x) = none := fun x hx =>
    not_isSome_iff_eq_none.mp (h.unborn o ho _ hx)
  have halive : ∀ m, (s.create program o).AliveMember m ↔ m ∈ program.members o ∨ s.AliveMember m := by
    intro m
    cases m with
    | shared x =>
      show ((s.create program o).shared (some x)).isSome = true ↔ _
      rw [create_shared]
      by_cases hx : .shared x ∈ program.members o
      · simp [hx]
      · simp [hx, AliveMember, Alive]
    | weak x =>
      show ((s.create program o).weak (some x)).isSome = true ↔ _
      rw [create_weak]
      by_cases hx : .weak x ∈ program.members o
      · simp [hx]
      · simp [hx, AliveMember, AliveWeak]
  have hblockOf : (s.create program o).blockOf = s.blockOf := by
    funext w
    rw [blockOf, blockOf, create_shared]
    cases w with
    | none => rfl
    | some x =>
      by_cases hx : .shared x ∈ program.members o
      · simp [hx, hshared x hx, Handle.null]
      · simp [hx]
  have hwatched : (s.create program o).watched = s.watched := by
    funext u
    rw [watched, watched, create_weak]
    cases u with
    | none => rfl
    | some x =>
      by_cases hx : .weak x ∈ program.members o
      · simp [hx, hweak x hx, Handle.null]
      · simp [hx]
  refine ⟨⟨h.inv.nodup, fun _ hv => absurd hv not_mem_nil, fun b => ?_, ?_, ?_⟩, ?_, h.noTemp, h.noTempWeak⟩
  · have hok := h.inv.block b
    rw [owned_nil] at hok ⊢
    rw [hblockOf, hwatched]
    exact hok
  · refine { h.inv.logs with given_created := fun o' ho' => ?_, created_ne := fun hzero => ?_ }
    · exact mem_append_left _ (h.inv.logs.given_created o' ho')
    · rcases mem_append.mp hzero with hzero | hzero
      · exact h.inv.logs.created_ne hzero
      · exact hne (mem_singleton.mp hzero).symm
  · intro o' ho' hlive m hm
    rw [halive]
    rcases mem_append.mp ho' with ho' | ho'
    · exact .inr (h.inv.alive o' ho' hlive m hm)
    · exact .inl (mem_singleton.mp ho' ▸ hm)
  · intro o' ho' m hm
    rw [halive]
    rintro (hmem | hm')
    · exact ho' (mem_append_right _ (mem_singleton.mpr (hprog.unique hm hmem)))
    · exact h.unborn o' (fun hc => ho' (mem_append_left _ hc)) m hm hm'

/-! ## Constructors -/

/-- An operation that makes or changes `v`, and only ends other pointers. -/
structure Writes (program : Program σ ω) (v : Option σ) (s s' : Memory σ ω) : Prop where
  inv : Inv program [] s'
  created : s'.created = s.created
  shared : ∀ w, w ≠ v → (s'.shared w).isSome → (s.shared w).isSome
  weak : ∀ u, (s'.weak u).isSome → (s.weak u).isSome

theorem Writes.quiet {v : σ} (h : Writes program (some v) s s') (hs : Quiet program s)
    (hv : Usable program s v) : Quiet program s' := by
  refine hs.step h.inv h.created ⟨fun w hw => ?_, fun u hu => .inl (h.weak u hu)⟩
  by_cases hwv : w = some v
  · subst hwv
    exact hv.elim .inl fun hnot => .inr ⟨v, rfl, hnot⟩
  · exact .inl (h.shared w hwv hw)

theorem shared_putShared_of_ne (hne : w ≠ v) :
    (s.putShared v h).shared w = s.shared w := update_of_ne hne ..

theorem isSome_putShared {x : Option σ} (hx : (s.shared x).isSome ∨ x = v) : ((s.putShared v h).shared x).isSome := by
  by_cases hxv : x = v
  · rw [hxv]
    simp [Memory.putShared]
  · rw [shared_putShared_of_ne hxv]
    exact hx.resolve_right hxv

theorem Writes.putShared (hinv : Inv program [] s')
    (hs' : s' = s.putShared v h) : Writes program v s s' := by
  subst hs'
  exact ⟨hinv, rfl, fun w hw hsome => shared_putShared_of_ne (s := s) hw ▸ hsome, fun _ hu => hu⟩

theorem Inv.retain (h : Inv program [] s) (hv : s.blockOf v = none) {handle : Handle}
    (hw : s.shared w = some handle) (ptr : Nat) :
    ∃ s', s.retain handle = some s' ∧ Writes program v s (s'.putShared v ⟨ptr, handle.block⟩) ∧
      s'.shared = s.shared := by
  rw [Memory.retain]
  rcases hblock : handle.block with _ | b
  · exact ⟨s, rfl, .putShared (h.putShared_null hv rfl) rfl, rfl⟩
  · have hb : s.blockOf w = some b := by rw [blockOf_eq hw, hblock]
    obtain ⟨k, hk⟩ := h.block_of_blockOf hb
    refine ⟨s.putBlock b { k with strong := k.strong + 1 }, ?_, ⟨h.adopt hv rfl hk
      (holders_pos.mpr ⟨w, hb⟩), rfl, fun w hw hsome => ?_, fun _ hu => hu⟩, rfl⟩
    · show (s.blocks b).bind _ = _
      rw [hk]
      rfl
    · exact shared_putShared_of_ne (s := s) hw ▸ hsome

theorem copy_spec (h : Inv program [] s) (hv : s.blockOf v = none)
    (hw : (s.shared w).isSome) :
    ∃ s', s.copy v w = some s' ∧ Writes program v s s' ∧ ∀ x, (s.shared x).isSome ∨ x = v →
      (s'.shared x).isSome := by
  obtain ⟨handle, hhandle⟩ := isSome_iff_exists.mp hw
  obtain ⟨s₁, hs₁, hwrites, hshared⟩ := h.retain hv hhandle handle.ptr
  refine ⟨s₁.putShared v handle, ?_, hwrites, fun x hx => ?_⟩
  · rw [copy, hhandle]
    simp only [some_bind, hs₁]
  · exact isSome_putShared (hshared ▸ hx)

theorem aliasing_spec (h : Inv program [] s) (hv : s.blockOf v = none)
    (hw : (s.shared w).isSome) (ptr : Nat) :
    ∃ s', s.aliasing v w ptr = some s' ∧ Writes program v s s' := by
  obtain ⟨handle, hhandle⟩ := isSome_iff_exists.mp hw
  obtain ⟨s₁, hs₁, hwrites, _⟩ := h.retain hv hhandle ptr
  refine ⟨_, ?_, hwrites⟩
  rw [aliasing, hhandle]
  simp only [some_bind, hs₁]

theorem move_spec (h : Inv program [] s) (hv : s.blockOf v = none)
    (hw : (s.shared w).isSome) :
    ∃ s', s.move v w = some s' ∧ Writes program v s s' ∧ ∀ x, (s.shared x).isSome ∨ x = v →
      (s'.shared x).isSome := by
  obtain ⟨handle, hhandle⟩ := isSome_iff_exists.mp hw
  refine ⟨(s.putShared v handle).putShared w .null, ?_, ⟨?_, rfl, fun x hx hsome => ?_, fun _ hu => hu⟩,
    fun x hx => ?_⟩
  · rw [move, hhandle]
    rfl
  · exact h.exchangeHandles (hv.trans rfl) (blockOf_eq hhandle)
  · by_cases hxw : x = w
    · rw [hxw]
      exact hw
    · rwa [shared_putShared_of_ne hxw, shared_putShared_of_ne hx] at hsome
  · exact isSome_putShared (.inl (isSome_putShared hx))

theorem Inv.tryAddStrong (h : Inv program [] s) (hv : s.blockOf v = none)
    {handle : Handle} (hu : s.weak u = some handle) {b : Nat} (hb : handle.block = some b) :
    (∃ s', s.tryAddStrong b = some (true, s') ∧ Writes program v s (s'.putShared v handle) ∧
      0 < holders s.blockOf b) ∨
    (s.tryAddStrong b = some (false, s) ∧ holders s.blockOf b = 0) := by
  have hwatched : s.watched u = some b := by rw [watched, hu]; exact hb
  obtain ⟨k, hk⟩ := h.block_of_watched hwatched
  have hok := h.block b
  rw [owned_nil, hk] at hok
  have hstrong := hok.strong k rfl
  rw [Memory.tryAddStrong, hk]
  simp only [some_bind]
  by_cases hzero : k.strong = 0
  · refine .inr ⟨if_neg (not_not.mpr hzero), ?_⟩
    omega
  · have hpos : 0 < holders s.blockOf b := by omega
    refine .inl ⟨s.putBlock b { k with strong := k.strong + 1 }, if_pos hzero,
      ⟨h.adopt hv hb hk hpos, rfl, fun w hw hsome => ?_, fun _ hu => hu⟩, hpos⟩
    exact shared_putShared_of_ne (s := s) hw ▸ hsome

theorem weakExpired_spec (h : Inv program [] s) (hv : s.blockOf v = none) :
    Writes program v s (s.weakExpired program v) := by
  rw [weakExpired]
  split
  · exact ⟨h, rfl, fun _ _ hw => hw, fun _ hu => hu⟩
  · exact .putShared (h.putShared_null hv rfl) rfl

theorem fromWeak_spec (h : Inv program [] s) (hv : s.blockOf v = none)
    (hu : (s.weak u).isSome) : ∃ s', s.fromWeak program v u = some s' ∧ Writes program v s s' := by
  obtain ⟨handle, hhandle⟩ := isSome_iff_exists.mp hu
  rw [fromWeak, hhandle]
  simp only [bind_eq_bind, bind_some]
  rcases hb : handle.block with _ | b
  · exact ⟨_, rfl, weakExpired_spec h hv⟩
  · rcases h.tryAddStrong hv hhandle hb with ⟨s₁, hs₁, hwrites, _⟩ | ⟨hs₁, _⟩
    · refine ⟨s₁.putShared v handle, ?_, hwrites⟩
      simp only [hs₁, bind_some, if_true]
    · refine ⟨_, ?_, weakExpired_spec h hv⟩
      simp only [hs₁, bind_some, Bool.false_eq_true, if_false]

/-- `lock` has a result; it owns the block of the `WeakPtr` when somebody owns it. -/
theorem lock_spec (h : Inv program [] s) (hv : s.blockOf v = none)
    (hu : (s.weak u).isSome) : ∃ s', s.lock v u = some s' ∧ Writes program v s s' ∧
      ∀ b, s'.blockOf v = some b ↔ s.watched u = some b ∧ 0 < holders s.blockOf b := by
  obtain ⟨handle, hhandle⟩ := isSome_iff_exists.mp hu
  have hwatched : s.watched u = handle.block := by rw [watched, hhandle]; rfl
  have hnull : Writes program v s (s.putShared v .null) := .putShared (h.putShared_null hv rfl) rfl
  have hhandle' : (s.putShared v .null).weak u = some handle := hhandle
  rw [lock]
  simp only [bind_eq_bind, hhandle', bind_some, hwatched]
  rcases hb : handle.block with _ | b
  · refine ⟨_, rfl, hnull, fun b => ?_⟩
    rw [blockOf_putShared_self]
    exact iff_of_false (some_ne_none b).symm fun hfalse => some_ne_none b hfalse.1.symm
  · have hbefore : ∀ c, holders (s.putShared v .null).blockOf c = holders s.blockOf c := by
      intro c
      have hcount := holders_update (f := s.blockOf) (g := (s.putShared v .null).blockOf) v
        (fun w hw => blockOf_putShared_of_ne hw) c
      simpa [hv, Handle.null] using hcount
    rcases hnull.inv.tryAddStrong (v := v) (by rw [blockOf_putShared_self]; rfl) hhandle' hb with
      ⟨s₁, hs₁, hwrites, hpos⟩ | ⟨hs₁, hzero⟩
    · refine ⟨s₁.putShared v handle, ?_, ⟨hwrites.inv, hwrites.created.trans hnull.created,
        fun w hw hsome => hnull.shared w hw (hwrites.shared w hw hsome), fun u hu => hwrites.weak u hu⟩,
        fun c => ?_⟩
      · simp only [hs₁, bind_some, if_true]
      · rw [blockOf_putShared_self, hb, Option.some.injEq]
        refine ⟨fun hc => ⟨hc, ?_⟩, fun hc => hc.1⟩
        rw [← hc, ← hbefore]
        exact hpos
    · refine ⟨_, ?_, hnull, fun c => ?_⟩
      · simp only [hs₁, bind_some, Bool.false_eq_true, if_false]
      · rw [blockOf_putShared_self]
        refine iff_of_false (some_ne_none c).symm fun hc => ?_
        rw [Option.some.injEq] at hc
        rw [← hc.1, ← hbefore, hzero] at hc
        exact absurd hc.2 (Nat.lt_irrefl 0)

/-! ## Pointers end -/

theorem Inv.ready (h : Inv program [] s) {top : Option σ}
    (hclosed : Closed program D top [] s) : Ready program D top [] s :=
  ⟨h, fun _ hw => absurd hw not_mem_nil, hclosed⟩

theorem releases {program : Program σ ω} (hprog : program.WellFormed) (D : Nat → Prop) (top : Option σ)
    (htop : ∀ o x, D o → top = some x → .shared x ∉ program.members o) :
    Releases program D top [] (release program (depth σ)) :=
  release_spec hprog htop (depth σ) [] (Nat.lt_succ_self _)

theorem destroyShared_spec (hprog : program.WellFormed) (h : Inv program [] s)
    (hv : (s.shared v).isSome) (hmember : ∀ o x, v = some x → .shared x ∉ program.members o) :
    ∃ s', s.destroyShared program v = some s' ∧ Inv program [] s' ∧ s'.created = s.created ∧
      s'.shared v = none ∧ (∀ w, (s'.shared w).isSome → (s.shared w).isSome) ∧
      ∀ u, (s'.weak u).isSome → (s.weak u).isSome := by
  obtain ⟨s₁, more, hs₁, hready, hframe, hself⟩ := releases hprog (fun _ => True) v
    (fun o x _ => hmember o x) v s (h.ready fun _ _ _ _ _ => trivial) not_mem_nil (.inl rfl) hv
  have hnone : s₁.blockOf v = none := by
    rw [blockOf, hself]
    cases s.shared v with
    | none => rfl
    | some handle => exact released_block handle
  have hframe' := hframe.trans (dropShared_frame v)
  refine ⟨s₁.dropShared v, ?_, hready.inv.dropShared hnone fun o x _ _ hx => hmember o x hx,
    hframe'.created, update_self .., hframe'.shared_alive, hframe'.weak_alive⟩
  rw [destroyShared, hs₁]
  rfl

theorem takeTemp_spec (hprog : program.WellFormed) (h : Inv program [] s) {v : σ} (hv : s.Alive v)
    (htemp : (s.shared none).isSome) :
    ∃ s', s.takeTemp program (some v) = some s' ∧ Inv program [] s' ∧ s'.created = s.created ∧
      s'.shared none = none ∧ (∀ w, (s'.shared w).isSome → (s.shared w).isSome) ∧
      ∀ u, (s'.weak u).isSome → (s.weak u).isSome := by
  obtain ⟨hv', hhv⟩ := isSome_iff_exists.mp hv
  obtain ⟨ht', hht⟩ := isSome_iff_exists.mp htemp
  have hinv := h.exchangeHandles (blockOf_eq hhv) (blockOf_eq hht)
  obtain ⟨s', hs', hinv', hcreated, hnone, hshared, hweak⟩ := destroyShared_spec hprog hinv
    (v := none) (by simp [Memory.putShared]) fun _ x hx => absurd hx.symm (some_ne_none x)
  refine ⟨s', ?_, hinv', hcreated, hnone, fun w hw => ?_, hweak⟩
  · rw [takeTemp, swap, hhv, hht]
    exact hs'
  · have hsome := hshared w hw
    by_cases hwt : w = none
    · rw [hwt]
      exact htemp
    · rw [shared_putShared_of_ne hwt] at hsome
      by_cases hwv : w = some v
      · rw [hwv]
        exact hv
      · rwa [shared_putShared_of_ne hwv] at hsome

theorem Quiet.takeTemp (hprog : program.WellFormed) (h : Quiet program s)
    (hwrites : Writes program none s s') {v : σ} (hv : s'.Alive v) (htemp : (s'.shared none).isSome) :
    ∃ s'', s'.takeTemp program (some v) = some s'' ∧ Quiet program s'' := by
  obtain ⟨s'', hs'', hinv, hcreated, hnone, hshared, hweak⟩ := takeTemp_spec hprog hwrites.inv hv htemp
  refine ⟨s'', hs'', h.step hinv (hcreated.trans hwrites.created) ⟨fun w hw => .inl ?_, fun u hu =>
    .inl (hwrites.weak u (hweak u hu))⟩⟩
  refine hwrites.shared w (fun hwn => ?_) (hshared w hw)
  rw [hwn, hnone] at hw
  cases hw

theorem Quiet.assignTemp (hprog : program.WellFormed) (h : Quiet program s) {v : σ} (hv : s.Alive v)
    {make : Option (Memory σ ω)} (hmake : s.blockOf none = none → ∃ s₁, make = some s₁ ∧
      Writes program none s s₁ ∧ ∀ x, (s.shared x).isSome ∨ x = none → (s₁.shared x).isSome) :
    ∃ s', (make >>= (·.takeTemp program (some v))) = some s' ∧ Quiet program s' := by
  obtain ⟨s₁, rfl, hwrites, halive⟩ := hmake (by rw [blockOf, h.noTemp]; rfl)
  exact h.takeTemp hprog hwrites (halive _ (.inl hv)) (halive none (.inr rfl))

theorem assign_spec (hprog : program.WellFormed) (h : Quiet program s) {v w : σ} (hv : s.Alive v)
    (hw : s.Alive w) : ∃ s', s.assign program v w = some s' ∧ Quiet program s' := by
  rw [assign]
  split
  · exact ⟨s, rfl, h⟩
  · exact h.assignTemp hprog hv fun htemp => copy_spec h.inv htemp hw

theorem moveAssign_spec (hprog : program.WellFormed) (h : Quiet program s) {v w : σ} (hv : s.Alive v)
    (hw : s.Alive w) : ∃ s', s.moveAssign program v w = some s' ∧ Quiet program s' := by
  rw [moveAssign]
  split
  · exact ⟨s, rfl, h⟩
  · exact h.assignTemp hprog hv fun htemp => move_spec h.inv htemp hw

/-! ## What goes away with a pointer or an object -/

/-- The objects that go away when the pointers `start` let go and the objects `first` are deleted: all of
their owners are among `start`, or members of such objects. -/
inductive Doomed (program : Program σ ω) (s : Memory σ ω) (start : σ → Prop) (first : Nat → Prop) :
    Nat → Prop
  | first {o : Nat} (h : first o) : Doomed program s start first o
  | owners {b o : Nat} (home : σ → Nat) (hmade : s.made[b]? = some o) (hlive : o ∉ s.deleted)
      (hmember : ∀ x, s.blockOf (some x) = some b → ¬ start x → .shared x ∈ program.members (home x))
      (hdoomed : ∀ x, s.blockOf (some x) = some b → ¬ start x → Doomed program s start first (home x)) :
      Doomed program s start first o

theorem closed_doomed (start : σ → Prop) (first : Nat → Prop) {top : Option σ}
    (hstart : ∀ x, top = some x ↔ start x) : Closed program (Doomed program s start first) top [] s := by
  intro b o hmade hlive howners
  have hhome : ∀ x, ∃ o', s.blockOf (some x) = some b → ¬ start x →
      .shared x ∈ program.members o' ∧ Doomed program s start first o' := by
    intro x
    by_cases hx : s.blockOf (some x) = some b ∧ ¬ start x
    · obtain ⟨hblock, hnot⟩ := hx
      rcases howners (some x) (by rw [owned_nil]; exact hblock) with htop | ⟨y, o', hy, hmem, hD⟩
      · exact absurd ((hstart x).mp htop.symm) hnot
      · cases hy
        exact ⟨o', fun _ _ => ⟨hmem, hD⟩⟩
    · exact ⟨0, fun hblock hnot => absurd ⟨hblock, hnot⟩ hx⟩
  choose home hhome using hhome
  exact .owners home hmade hlive (fun x hx hnot => (hhome x hx hnot).1) fun x hx hnot => (hhome x hx hnot).2

/-- When an operation does what it should.  `reset()` needs that a pointer without a block is null, and
that no object goes away with the pointer that the pointer is a member of; without exceptions, `reset(ptr)`
needs that no object goes away with `ptr` that the pointer is a member of, in case no block can be
allocated. -/
def Fine (program : Program σ ω) (s : Memory σ ω) : Op σ ω → Prop
  | .reset v => (s.blockOf (some v) = none → s.get v = some 0) ∧
      ∀ o, Doomed program s (· = v) (fun _ => False) o → .shared v ∉ program.members o
  | .resetTo v ptr allocated => ptr ≠ 0 → allocated = false → program.throws = false →
      ∀ o, Doomed program s (fun _ => False) (· = ptr) o → .shared v ∉ program.members o
  | _ => True

theorem reset_spec (hprog : program.WellFormed) (h : Quiet program s) {v : σ} (hv : s.Alive v)
    (hfine : Fine program s (.reset v)) : ∃ s', s.reset program v = some s' ∧ Quiet program s' ∧
      s'.get v = some 0 ∧ s'.useCount v = some 0 := by
  obtain ⟨hnull, hmember⟩ := hfine
  obtain ⟨s', more, hs', hready, hframe, hself⟩ := releases hprog
    (Doomed program s (· = v) fun _ => False) (some v)
    (fun o x hD hx => Option.some.inj hx ▸ hmember o hD) (some v) s
    (h.inv.ready (closed_doomed _ _ fun x => by rw [Option.some.injEq, eq_comm])) not_mem_nil (.inl rfl) hv
  obtain ⟨handle, hhandle⟩ := isSome_iff_exists.mp hv
  rw [hhandle, map_some] at hself
  refine ⟨s', hs', h.step hready.inv hframe.created hframe.births, ?_, ?_⟩
  · rw [get, hself, map_some, released]
    split
    · rfl
    · rename_i hnone
      have hget := hnull (by rw [blockOf_eq hhandle]; exact not_isSome_iff_eq_none.mp hnone)
      rwa [get, hhandle] at hget
  · rw [useCount, hself]
    simp only [some_bind, released_block]

/-- A constructor that has a null pointer or gets a block. -/
theorem construct_spec (h : Inv program [] s) (hv : s.blockOf v = none)
    (hptr : s.Fresh ptr) {allocated : Bool} (hok : ptr = 0 ∨ allocated = true) :
    ∃ s', s.construct program v ptr allocated = some s' ∧ Writes program v s s' ∧
      ∀ x, (s.shared x).isSome ∨ x = v → (s'.shared x).isSome := by
  by_cases hzero : ptr = 0
  · exact ⟨_, if_pos hzero, .putShared (h.putShared_null hv rfl) rfl, fun _ => isSome_putShared⟩
  · obtain rfl := hok.resolve_left hzero
    obtain ⟨hcreated, hgiven⟩ := hptr.resolve_left hzero
    refine ⟨s.withBlock v ptr, ?_, ⟨h.withBlock hv hcreated hgiven, rfl, fun w hw hsome => ?_,
      fun _ hu => hu⟩, fun _ hx => isSome_putShared hx⟩
    · rw [construct, if_neg hzero]
      rfl
    · exact shared_putShared_of_ne (s := s) hw ▸ hsome

theorem construct_failed (hprog : program.WellFormed) (h : Inv program [] s) (hzero : ptr ≠ 0) (hptr : s.Fresh ptr) (hD : D ptr)
    (hclosed : Closed program D none [] s) :
    ∃ s' more, s.construct program v ptr false =
        some (if program.throws then s' else s'.putShared v .null) ∧
      Inv program [] s' ∧ Frame program D (fun _ => False) (fun _ => False) (ptr :: more)
        { s with given := s.given ++ [ptr] } s' := by
  obtain ⟨hcreated, hgiven⟩ := hptr.resolve_left hzero
  have hlive : ptr ∉ s.deleted := fun hmem => hgiven (h.logs.deleted_given ptr hmem)
  obtain ⟨s', more, hs', hready, hframe⟩ := deleteObject_spec hprog
    (releases hprog D none fun _ x _ hx => absurd hx.symm (some_ne_none x)) (s := { s with given := s.given ++ [ptr] })
    hD hlive ((h.give hcreated hgiven).ready (hclosed.mono rfl (fun _ ho => mem_append_left _ ho)
      fun _ _ hw _ => hw)) (h.alive ptr hcreated hlive) fun _ _ => not_mem_nil
  refine ⟨s', more, ?_, hready.inv, hframe⟩
  rw [construct, if_neg hzero]
  simp only [Bool.false_eq_true, if_false, hs', some_bind]

theorem constructor_spec (hprog : program.WellFormed) (h : Quiet program s) {v : σ} (hv : Free program s v) (hptr : s.Fresh ptr) (allocated : Bool) :
    ∃ s', s.construct program (some v) ptr allocated = some s' ∧ Quiet program s' := by
  by_cases hok : ptr = 0 ∨ allocated = true
  · obtain ⟨s', hs', hwrites, _⟩ := construct_spec h.inv hv.blockOf hptr hok
    exact ⟨s', hs', hwrites.quiet h hv.usable⟩
  · obtain ⟨hzero, hfail⟩ := not_or.mp hok
    obtain rfl := Bool.eq_false_of_not_eq_true hfail
    obtain ⟨s', more, hs', hinv, hframe⟩ := construct_failed (D := fun _ => True) hprog h.inv hzero hptr
      trivial (v := some v) fun _ _ _ _ _ => trivial
    refine ⟨_, hs', ?_⟩
    have hquiet : Quiet program s' := h.step hinv hframe.created ⟨hframe.births.shared, hframe.births.weak⟩
    have hnone : s'.shared (some v) = none := by
      rw [hframe.shared (some v) id fun x o hx _ => Option.some.inj hx ▸ hv.2 o]
      exact hv.1
    split
    · exact hquiet
    · exact hquiet.step (hinv.putShared_null (by rw [blockOf, hnone]; rfl) rfl) rfl
        (.putShared (.inr hv.2))

theorem resetTo_spec (hprog : program.WellFormed) (h : Quiet program s) {v : σ} (hv : s.Alive v) (hptr : s.Fresh ptr) {allocated : Bool} (hfine : Fine program s (.resetTo v ptr allocated)) :
    ∃ s', s.resetTo program v ptr allocated = some s' ∧ Quiet program s' := by
  have htemp : s.blockOf none = none := by rw [blockOf, h.noTemp]; rfl
  by_cases hok : ptr = 0 ∨ allocated = true
  · obtain ⟨s₁, hs₁, hwrites, halive⟩ := construct_spec h.inv htemp hptr hok
    obtain ⟨s', hs', hquiet⟩ := h.takeTemp hprog hwrites (v := v) (halive _ (.inl hv))
      (halive none (.inr rfl))
    refine ⟨s', ?_, hquiet⟩
    rw [resetTo, hs₁]
    exact (if_pos (halive none (.inr rfl))).trans hs'
  · obtain ⟨hzero, hfail⟩ := not_or.mp hok
    obtain rfl := Bool.eq_false_of_not_eq_true hfail
    obtain ⟨s₁, more, hs₁, hinv, hframe⟩ := construct_failed hprog h.inv hzero hptr (v := none)
      (.first rfl) (closed_doomed (fun _ => False) (· = ptr) fun x => iff_of_false (some_ne_none x).symm id)
    have hnone : s₁.shared none = none := (hframe.shared none id fun x _ hx => absurd hx.symm (some_ne_none x)).trans h.noTemp
    have hquiet : Quiet program s₁ := h.step hinv hframe.created ⟨hframe.births.shared, hframe.births.weak⟩
    rw [resetTo, hs₁]
    simp only [some_bind]
    split
    · refine ⟨s₁, if_neg ?_, hquiet⟩
      rw [hnone]
      exact Bool.false_ne_true
    · rename_i hthrows
      have hv₁ : s₁.Alive v := by
        show (s₁.shared (some v)).isSome = true
        rw [hframe.shared (some v) id fun x o hx ho => Option.some.inj hx ▸
          hfine hzero rfl (Bool.eq_false_of_not_eq_true hthrows) o (hframe.doomed o ho)]
        exact hv
      have hwrites : Writes program none s₁ (s₁.putShared none .null) :=
        .putShared (hinv.putShared_null (by rw [blockOf, hnone]; rfl) rfl) rfl
      have hsome : ((s₁.putShared none .null).shared none).isSome := by simp [Memory.putShared]
      obtain ⟨s', hs', hquiet'⟩ := hquiet.takeTemp hprog hwrites (v := v)
        (by simpa [Alive, Memory.putShared] using hv₁) hsome
      exact ⟨s', (if_pos hsome).trans hs', hquiet'⟩

/-! ## `WeakPtr` -/

/-- An operation that makes or changes `u`. -/
structure WritesWeak (program : Program σ ω) (u : Option ω) (s s' : Memory σ ω) : Prop where
  inv : Inv program [] s'
  created : s'.created = s.created
  shared : s'.shared = s.shared
  weak : ∀ t, t ≠ u → (s'.weak t).isSome → (s.weak t).isSome

theorem WritesWeak.quiet {u : ω} (h : WritesWeak program (some u) s s') (hs : Quiet program s)
    (hu : UsableWeak program s u) : Quiet program s' := by
  refine hs.step h.inv h.created ⟨fun w hw => .inl (h.shared ▸ hw), fun t ht => ?_⟩
  by_cases htu : t = some u
  · subst htu
    exact hu.elim .inl fun hnot => .inr ⟨u, rfl, hnot⟩
  · exact .inl (h.weak t htu ht)

theorem weak_putWeak_of_ne (hne : t ≠ u) :
    (s.putWeak u h).weak t = s.weak t := update_of_ne hne ..

theorem isSome_putWeak {x : Option ω} (hx : (s.weak x).isSome ∨ x = u) : ((s.putWeak u h).weak x).isSome := by
  by_cases hxu : x = u
  · rw [hxu]
    simp [Memory.putWeak]
  · rw [weak_putWeak_of_ne hxu]
    exact hx.resolve_right hxu

theorem Inv.retainWeak (h : Inv program [] s) (hu : s.watched u = none) (handle : Handle)
    (hblock : ∀ b, handle.block = some b → ∃ k, s.blocks b = some k) :
    ∃ s', s.retainWeak handle = some s' ∧ WritesWeak program u s (s'.putWeak u handle) ∧
      s'.weak = s.weak := by
  rw [Memory.retainWeak]
  rcases hb : handle.block with _ | b
  · exact ⟨s, rfl, ⟨h.putWeak_null hu hb, rfl, rfl, fun t ht hsome =>
      weak_putWeak_of_ne (s := s) ht ▸ hsome⟩, rfl⟩
  · obtain ⟨k, hk⟩ := hblock b hb
    refine ⟨s.putBlock b { k with weak := k.weak + 1 }, ?_, ⟨h.watch hu hb hk, rfl, rfl, fun t ht hsome =>
      weak_putWeak_of_ne (s := s) ht ▸ hsome⟩, rfl⟩
    show (s.blocks b).bind _ = _
    rw [hk]
    rfl

theorem copyWeak_spec (h : Inv program [] s) (hu : s.watched u = none)
    (ht : (s.weak t).isSome) :
    ∃ s', s.copyWeak u t = some s' ∧ WritesWeak program u s s' ∧ ∀ x, (s.weak x).isSome ∨ x = u →
      (s'.weak x).isSome := by
  obtain ⟨handle, hhandle⟩ := isSome_iff_exists.mp ht
  obtain ⟨s₁, hs₁, hwrites, hweak⟩ := h.retainWeak hu handle fun b hb =>
    h.block_of_watched (u := t) (by rw [watched, hhandle]; exact hb)
  refine ⟨s₁.putWeak u handle, ?_, hwrites, fun x hx => ?_⟩
  · rw [copyWeak, hhandle]
    simp only [some_bind, hs₁]
  · exact isSome_putWeak (hweak ▸ hx)

theorem fromShared_spec (h : Inv program [] s) (hu : s.watched u = none)
    (hv : (s.shared v).isSome) : ∃ s', s.fromShared u v = some s' ∧ WritesWeak program u s s' := by
  obtain ⟨handle, hhandle⟩ := isSome_iff_exists.mp hv
  obtain ⟨s₁, hs₁, hwrites, _⟩ := h.retainWeak hu handle fun b hb =>
    h.block_of_blockOf (v := v) (by rw [blockOf_eq hhandle]; exact hb)
  refine ⟨_, ?_, hwrites⟩
  rw [fromShared, hhandle]
  simp only [some_bind, hs₁]

theorem watched_eq (hu : s.weak u = some h) : s.watched u = h.block := by
  rw [watched, hu]
  rfl

theorem moveWeak_spec (h : Inv program [] s) (hu : s.watched u = none)
    (ht : (s.weak t).isSome) :
    ∃ s', s.moveWeak u t = some s' ∧ WritesWeak program u s s' ∧ ∀ x, (s.weak x).isSome ∨ x = u →
      (s'.weak x).isSome := by
  obtain ⟨handle, hhandle⟩ := isSome_iff_exists.mp ht
  refine ⟨(s.putWeak u handle).putWeak t .null, ?_, ⟨?_, rfl, rfl, fun x hx hsome => ?_⟩, fun x hx => ?_⟩
  · rw [moveWeak, hhandle]
    rfl
  · exact h.exchangeWeakHandles (hu.trans rfl) (watched_eq hhandle)
  · by_cases hxt : x = t
    · rw [hxt]
      exact ht
    · rwa [weak_putWeak_of_ne hxt, weak_putWeak_of_ne hx] at hsome
  · exact isSome_putWeak (.inl (isSome_putWeak hx))

theorem destroyWeak_spec (h : Inv program [] s) (hu : (s.weak u).isSome)
    (hmember : ∀ o x, u = some x → .weak x ∉ program.members o) :
    ∃ s', s.destroyWeak u = some s' ∧ Inv program [] s' ∧ s'.created = s.created ∧
      s'.shared = s.shared ∧ s'.weak u = none ∧ ∀ t, t ≠ u → s'.weak t = s.weak t := by
  obtain ⟨s₁, hs₁, hinv, hself, hshared, hother, _, hcreated, _, _⟩ := h.releaseWeakPtr hu
  refine ⟨s₁.dropWeak u, ?_, hinv.dropWeak ?_ fun o x _ _ hx => hmember o x hx, hcreated, hshared,
    update_self .., fun t ht => (update_of_ne ht ..).trans (hother t ht)⟩
  · rw [destroyWeak, hs₁]
    rfl
  · rw [watched_eq hself]
    rfl

theorem Quiet.takeTempWeak (h : Quiet program s) (hwrites : WritesWeak program none s s') {u : ω}
    (hu : s'.AliveWeak u) (htemp : (s'.weak none).isSome) :
    ∃ s'', (s'.swapWeak (some u) none).bind (·.destroyWeak none) = some s'' ∧ Quiet program s'' := by
  obtain ⟨hu', hhu⟩ := isSome_iff_exists.mp hu
  obtain ⟨ht', hht⟩ := isSome_iff_exists.mp htemp
  have hinv := hwrites.inv.exchangeWeakHandles (watched_eq hhu) (watched_eq hht)
  obtain ⟨s'', hs'', hinv', hcreated, hshared, hnone, hother⟩ := destroyWeak_spec hinv
    (u := none) (by simp [Memory.putWeak]) fun _ x hx => absurd hx.symm (some_ne_none x)
  refine ⟨s'', ?_, h.step hinv' (hcreated.trans hwrites.created) ⟨fun w hw => .inl ?_, fun t ht => .inl ?_⟩⟩
  · rw [swapWeak, hhu, hht]
    exact hs''
  · rw [hshared] at hw
    exact hwrites.shared ▸ hw
  · have htn : t ≠ none := by
      rintro rfl
      rw [hnone] at ht
      cases ht
    rw [hother t htn, weak_putWeak_of_ne htn] at ht
    refine hwrites.weak t htn ?_
    by_cases htu : t = some u
    · rw [htu]
      exact hu
    · rwa [weak_putWeak_of_ne htu] at ht

theorem assignWeak_spec (h : Quiet program s) {u t : ω} (hu : s.AliveWeak u) (ht : s.AliveWeak t) :
    ∃ s', s.assignWeak u t = some s' ∧ Quiet program s' := by
  rw [assignWeak]
  split
  · exact ⟨s, rfl, h⟩
  · have htemp : s.watched none = none := by rw [watched, h.noTempWeak]; rfl
    obtain ⟨s₁, hs₁, hwrites, halive⟩ := copyWeak_spec h.inv htemp ht
    obtain ⟨s', hs', hquiet⟩ := h.takeTempWeak hwrites (u := u) (halive _ (.inl hu))
      (halive none (.inr rfl))
    refine ⟨s', ?_, hquiet⟩
    rw [hs₁]
    exact hs'

theorem moveAssignWeak_spec (h : Quiet program s) {u t : ω} (hu : s.AliveWeak u) (ht : s.AliveWeak t) :
    ∃ s', s.moveAssignWeak u t = some s' ∧ Quiet program s' := by
  rw [moveAssignWeak]
  split
  · exact ⟨s, rfl, h⟩
  · have htemp : s.watched none = none := by rw [watched, h.noTempWeak]; rfl
    obtain ⟨s₁, hs₁, hwrites, halive⟩ := moveWeak_spec h.inv htemp ht
    obtain ⟨s', hs', hquiet⟩ := h.takeTempWeak hwrites (u := u) (halive _ (.inl hu))
      (halive none (.inr rfl))
    refine ⟨s', ?_, hquiet⟩
    rw [hs₁]
    exact hs'

/-! ## Runs -/

/-- One operation: it has a result, and the invariant is kept. -/
theorem exec_spec (hprog : program.WellFormed) (h : Quiet program s) {op : Op σ ω}
    (hallowed : s.Allowed program op) (hfine : Fine program s op) :
    ∃ s', s.exec program op = some s' ∧ Quiet program s' := by
  cases op with
  | create o => exact ⟨_, rfl, h.create hprog hallowed.1 hallowed.2⟩
  | default v => exact ⟨_, rfl, h.step (h.inv.putShared_null hallowed.blockOf rfl) rfl
      (.putShared hallowed.usable)⟩
  | construct v ptr allocated => exact constructor_spec hprog h hallowed.1 hallowed.2 allocated
  | aliasing v w ptr =>
    obtain ⟨s', hs', hwrites⟩ := aliasing_spec h.inv hallowed.1.blockOf hallowed.2 ptr
    exact ⟨s', hs', hwrites.quiet h hallowed.1.usable⟩
  | copy v w =>
    obtain ⟨s', hs', hwrites, _⟩ := copy_spec h.inv hallowed.1.blockOf hallowed.2
    exact ⟨s', hs', hwrites.quiet h hallowed.1.usable⟩
  | move v w =>
    obtain ⟨s', hs', hwrites, _⟩ := move_spec h.inv hallowed.1.blockOf hallowed.2
    exact ⟨s', hs', hwrites.quiet h hallowed.1.usable⟩
  | fromWeak v u =>
    obtain ⟨s', hs', hwrites⟩ := fromWeak_spec h.inv hallowed.1.blockOf hallowed.2
    exact ⟨s', hs', hwrites.quiet h hallowed.1.usable⟩
  | lock v u =>
    obtain ⟨s', hs', hwrites, _⟩ := lock_spec h.inv hallowed.1.blockOf hallowed.2
    exact ⟨s', hs', hwrites.quiet h hallowed.1.usable⟩
  | assign v w => exact assign_spec hprog h hallowed.1 hallowed.2
  | moveAssign v w => exact moveAssign_spec hprog h hallowed.1 hallowed.2
  | swap v w =>
    obtain ⟨hv, hhv⟩ := isSome_iff_exists.mp hallowed.1
    obtain ⟨hw, hhw⟩ := isSome_iff_exists.mp hallowed.2
    have hbirths : Births program s ((s.putShared (some v) hw).putShared (some w) hv) :=
      (Births.putShared (.inl hallowed.1)).trans
        (Births.putShared (.inl (aliveMember_putShared (m := .shared w) hallowed.2)))
    refine ⟨_, ?_, h.step (h.inv.exchangeHandles (blockOf_eq hhv) (blockOf_eq hhw)) rfl hbirths⟩
    rw [exec, swap, hhv, hhw]
    rfl
  | reset v =>
    obtain ⟨s', hs', hquiet, _⟩ := reset_spec hprog h hallowed hfine
    exact ⟨s', hs', hquiet⟩
  | resetTo v ptr allocated => exact resetTo_spec hprog h hallowed.1 hallowed.2 hfine
  | destroy v =>
    obtain ⟨s', hs', hinv, hcreated, _, hshared, hweak⟩ := destroyShared_spec hprog h.inv hallowed.1
      fun o x hx => Option.some.inj hx ▸ hallowed.2 o
    exact ⟨s', hs', h.step hinv hcreated ⟨fun w hw => .inl (hshared w hw), fun u hu =>
      .inl (hweak u hu)⟩⟩
  | defaultWeak u => exact ⟨_, rfl, h.step (h.inv.putWeak_null hallowed.watched rfl) rfl
      (.putWeak hallowed.usable)⟩
  | copyWeak u t =>
    obtain ⟨s', hs', hwrites, _⟩ := copyWeak_spec h.inv hallowed.1.watched hallowed.2
    exact ⟨s', hs', hwrites.quiet h hallowed.1.usable⟩
  | moveWeak u t =>
    obtain ⟨s', hs', hwrites, _⟩ := moveWeak_spec h.inv hallowed.1.watched hallowed.2
    exact ⟨s', hs', hwrites.quiet h hallowed.1.usable⟩
  | fromShared u v =>
    obtain ⟨s', hs', hwrites⟩ := fromShared_spec h.inv hallowed.1.watched hallowed.2
    exact ⟨s', hs', hwrites.quiet h hallowed.1.usable⟩
  | assignWeak u t => exact assignWeak_spec h hallowed.1 hallowed.2
  | moveAssignWeak u t => exact moveAssignWeak_spec h hallowed.1 hallowed.2
  | swapWeak u t =>
    obtain ⟨hu, hhu⟩ := isSome_iff_exists.mp hallowed.1
    obtain ⟨ht, hht⟩ := isSome_iff_exists.mp hallowed.2
    have hbirths : Births program s ((s.putWeak (some u) ht).putWeak (some t) hu) :=
      (Births.putWeak (.inl hallowed.1)).trans
        (Births.putWeak (.inl (aliveMember_putWeak (m := .weak t) hallowed.2)))
    refine ⟨_, ?_, h.step (h.inv.exchangeWeakHandles (watched_eq hhu) (watched_eq hht)) rfl hbirths⟩
    rw [exec, swapWeak, hhu, hht]
    rfl
  | resetWeak u =>
    obtain ⟨s', hs', hinv, hself, hshared, hother, _, hcreated, _, _⟩ := h.inv.releaseWeakPtr hallowed
    refine ⟨s', hs', h.step hinv hcreated ⟨fun w hw => .inl (hshared ▸ hw), fun t ht => .inl ?_⟩⟩
    by_cases htu : t = some u
    · rw [htu]
      exact hallowed
    · rwa [hother t htu] at ht
  | destroyWeak u =>
    obtain ⟨s', hs', hinv, hcreated, hshared, hself, hother⟩ := destroyWeak_spec h.inv hallowed.1
      fun o x hx => Option.some.inj hx ▸ hallowed.2 o
    refine ⟨s', hs', h.step hinv hcreated ⟨fun w hw => .inl (hshared ▸ hw), fun t ht => .inl ?_⟩⟩
    by_cases htu : t = some u
    · rw [htu]
      exact hallowed.1
    · rwa [hother t htu] at ht

/-- The states of the runs in which every operation is allowed, and `fine`. -/
inductive Run (program : Program σ ω) (fine : Memory σ ω → Op σ ω → Prop) : Memory σ ω → Prop
  | start : Run program fine start
  | step {s s' : Memory σ ω} (op : Op σ ω) (h : Run program fine s) (hallowed : s.Allowed program op)
      (hfine : fine s op) (hexec : s.exec program op = some s') : Run program fine s'

theorem start_quiet : Quiet program (start : Memory σ ω) := by
  have hshared : ∀ b, holders (start : Memory σ ω).blockOf b = 0 := fun b =>
    holders_eq_zero.mpr fun _ h => some_ne_none b h.symm
  have hweak : ∀ b, holders (start : Memory σ ω).watched b = 0 := fun b =>
    holders_eq_zero.mpr fun _ h => some_ne_none b h.symm
  refine ⟨⟨nodup_nil, fun _ hv => absurd hv not_mem_nil, fun b => ?_, ?_, fun _ ho =>
    absurd ho not_mem_nil⟩, ?_, rfl, rfl⟩
  · rw [owned_nil, hshared, hweak]
    have hnone : ∀ k, (start : Memory σ ω).blocks b ≠ some k := fun k hk => some_ne_none k hk.symm
    exact ⟨fun k hk => absurd hk (hnone k), fun k hk => absurd hk (hnone k), fun k hk =>
      absurd hk (hnone k), fun k hk => absurd hk (hnone k), fun o ho => absurd ho.symm (some_ne_none o),
      fun h => absurd h Bool.false_ne_true, iff_of_false not_mem_nil fun h =>
      absurd h.1 (Nat.not_lt_zero b), fun _ => ⟨rfl, rfl⟩⟩
  · exact ⟨nodup_nil, nodup_nil, nodup_nil, fun _ ho => absurd ho not_mem_nil,
      fun _ ho => absurd ho not_mem_nil, fun _ ho => absurd ho not_mem_nil, not_mem_nil⟩
  · intro o _ m _
    cases m <;> exact Bool.false_ne_true

theorem Run.quiet (hprog : program.WellFormed) (h : Run program (Fine program) s) : Quiet program s := by
  induction h with
  | start => exact start_quiet
  | step _ _ hallowed hfine hexec ih =>
    obtain ⟨s', hs', hquiet⟩ := exec_spec hprog ih hallowed hfine
    rw [hexec] at hs'
    cases hs'
    exact hquiet

/-! ## The counts -/

/-- The number of `SharedPtr`s that hold a block. -/
def strongOwners (s : Memory σ ω) (b : Nat) : Nat := holders s.blockOf b

/-- The number of `WeakPtr`s that hold a block. -/
def weakOwners (s : Memory σ ω) (b : Nat) : Nat := holders s.watched b

/-- The counters are the numbers of owners, an object is deleted when it has none, and a block is freed
when nothing holds it. -/
structure Exact (s : Memory σ ω) : Prop where
  strong : ∀ b block, s.blocks b = some block → block.strong = s.strongOwners b
  weak : ∀ b block, s.blocks b = some block →
    block.weak = s.weakOwners b + (if 0 < s.strongOwners b then 1 else 0)
  deleted : ∀ b o, s.made[b]? = some o → (o ∈ s.deleted ↔ s.strongOwners b = 0)
  deleted_once : s.deleted.Nodup
  freed : ∀ b, b ∈ s.freed ↔ b < s.made.length ∧ s.strongOwners b = 0 ∧ s.weakOwners b = 0
  freed_once : s.freed.Nodup
  gone : ∀ b, s.blocks b = none ↔ b ∈ s.freed ∨ s.made.length ≤ b

theorem Quiet.exact (h : Quiet program s) : s.Exact := by
  have hok : ∀ b, BlockOk s.made s.deleted s.freed (s.strongOwners b) (s.strongOwners b) (s.weakOwners b) b
      (s.blocks b) := by
    intro b
    have hb := h.inv.block b
    rwa [owned_nil] at hb
  have hfree : ∀ b, s.strongOwners b = 0 → s.weakOwners b = 0 → s.blocks b = none := by
    intro b hstrong hweak
    refine eq_none_iff_forall_ne_some.mpr fun k hk => ?_
    have hheld := (hok b).held k hk
    rw [(hok b).weak k hk, hstrong, hweak] at hheld
    exact absurd hheld (Int.lt_irrefl 0)
  refine ⟨fun b => (hok b).strong, fun b => (hok b).weak, fun b o hmade => ⟨fun hdel => ?_, (hok b).gone o
    hmade⟩, h.inv.logs.deleted_nodup, fun b => ?_, h.inv.logs.freed_nodup, fun b => ?_⟩
  · by_contra hne
    have hpos := Nat.pos_of_ne_zero hne
    rcases hblock : s.blocks b with _ | k
    · exact hne ((hok b).live hblock).1
    · obtain ⟨hmade', hlive⟩ := (hok b).object k hblock hpos
      rw [hmade] at hmade'
      cases hmade'
      exact hlive hdel
  · rw [(hok b).freed_iff]
    exact and_congr_right fun _ => ⟨(hok b).live, fun hzero => hfree b hzero.1 hzero.2⟩
  · constructor
    · intro hnone
      rcases Nat.lt_or_ge b s.made.length with hlt | hge
      · exact .inl ((hok b).freed_iff.mpr ⟨hlt, hnone⟩)
      · exact .inr hge
    · rintro (hfreed | hge)
      · exact ((hok b).freed_iff.mp hfreed).2
      · refine not_isSome_iff_eq_none.mp fun hsome => ?_
        exact absurd ((hok b).lt hsome) (Nat.not_lt.mpr hge)

/-- Object 1 has one member, pointer 0; pointers 1 and 2 are variables. -/
def node (throws : Bool) : Program (Fin 3) Empty where
  members o := if o = 1 then [.shared 0] else []
  throws := throws

theorem node_wellFormed (throws : Bool) : (node throws).WellFormed where
  nodup o := by
    rw [node]
    dsimp only
    split
    · exact nodup_singleton _
    · exact nodup_nil
  unique {o o' m} hm hm' := by
    have hone : ∀ n, m ∈ (node throws).members n → n = 1 := by
      intro n hn
      by_contra hne
      rw [node] at hn
      dsimp only at hn
      rw [if_neg hne] at hn
      cases hn
    rw [hone o hm, hone o' hm']

theorem node_notMem {throws : Bool} {v : Fin 3} (hv : v ≠ 0) (o : Nat) :
    (.shared v : Member (Fin 3) Empty) ∉ (node throws).members o := by
  rw [node]
  dsimp only
  split
  · rw [mem_singleton]
    rintro ⟨⟩
    exact hv rfl
  · exact not_mem_nil

end Unisym.IsoStd.Memory
