/-
# `SharedPtrCascade` — the last owner deletes, and what it deletes lets go

`SharedPtr::_Release` of the last owner runs the destructors of the members, which may be last owners
themselves.  A cascade that begins at `top` ends as long as `top` is no member of an object it deletes;
`D` bounds these objects.
-/
import Unisym.IsoStd.SharedPtrSpec
import Unisym.Library.Steps

set_option linter.unusedSectionVars false

namespace Unisym.IsoStd.Memory

open Function Holders List

variable {σ ω : Type} [DecidableEq σ] [DecidableEq ω] [Fintype σ] [Fintype ω]
variable {program : Program σ ω} {D : Nat → Prop} {top : Option σ} {busy : List (Option σ)}
  {s s' s'' : Memory σ ω}

/-! ## What goes away -/

/-- An owner that goes away with `top`. -/
def Leaving (program : Program σ ω) (D : Nat → Prop) (top w : Option σ) : Prop :=
  w = top ∨ ∃ x o, w = some x ∧ .shared x ∈ program.members o ∧ D o

/-- An owner that is going away: its object has been deleted. -/
def Ending (program : Program σ ω) (D : Nat → Prop) (top : Option σ) (s : Memory σ ω) (w : Option σ) :
    Prop :=
  w = top ∨ ∃ x o, w = some x ∧ .shared x ∈ program.members o ∧ D o ∧ o ∈ s.deleted

/-- An object goes away when all of its owners do. -/
def Closed (program : Program σ ω) (D : Nat → Prop) (top : Option σ) (busy : List (Option σ))
    (s : Memory σ ω) : Prop :=
  ∀ b o, s.made[b]? = some o → o ∉ s.deleted →
    (∀ w, s.owned busy w = some b → Leaving program D top w) → D o

/-- Between two steps of a cascade. -/
structure Ready (program : Program σ ω) (D : Nat → Prop) (top : Option σ) (busy : List (Option σ))
    (s : Memory σ ω) : Prop where
  inv : Inv program busy s
  ending : ∀ w ∈ busy, Ending program D top s w
  closed : Closed program D top busy s

/-- What a part of a cascade leaves alone: it deletes `more`, it changes pointers of `p`, of `q` and of
the objects that it deletes, and it makes no pointer. -/
structure Frame (program : Program σ ω) (D : Nat → Prop) (p : Option σ → Prop) (q : Option ω → Prop)
    (more : List Nat) (s s' : Memory σ ω) : Prop where
  made : s'.made = s.made
  created : s'.created = s.created
  given : s'.given = s.given
  deleted : s'.deleted = s.deleted ++ more
  doomed : ∀ o ∈ more, D o
  shared : ∀ w, ¬ p w → (∀ x o, w = some x → o ∈ more → .shared x ∉ program.members o) →
    s'.shared w = s.shared w
  weak : ∀ u, ¬ q u → (∀ x o, u = some x → o ∈ more → .weak x ∉ program.members o) →
    s'.weak u = s.weak u
  shared_alive : ∀ w, (s'.shared w).isSome → (s.shared w).isSome
  weak_alive : ∀ u, (s'.weak u).isSome → (s.weak u).isSome

variable {w v : Option σ} {p : Option σ → Prop} {q : Option ω → Prop} {more : List Nat}
  {o fuel b : Nat} {h : Handle} {k : SharedBlock}

theorem Ending.leaving : Ending program D top s w → Leaving program D top w
  | .inl h => .inl h
  | .inr ⟨x, o, hw, hx, ho, _⟩ => .inr ⟨x, o, hw, hx, ho⟩

theorem Ending.mono (hsub : ∀ o ∈ s.deleted, o ∈ s'.deleted) :
    Ending program D top s w → Ending program D top s' w
  | .inl h => .inl h
  | .inr ⟨x, o, hw, hx, ho, hdel⟩ => .inr ⟨x, o, hw, hx, ho, hsub o hdel⟩

theorem Closed.mono {busy' : List (Option σ)} (h : Closed program D top busy s)
    (hmade : s'.made = s.made) (hsub : ∀ o ∈ s.deleted, o ∈ s'.deleted)
    (howned : ∀ w b, s.owned busy w = some b → ¬ Leaving program D top w →
      s'.owned busy' w = some b) : Closed program D top busy' s' := by
  intro b o ho hdel hall
  rw [hmade] at ho
  refine h b o ho (fun hd => hdel (hsub o hd)) fun w hw => ?_
  by_contra hnot
  exact hnot (hall w (howned w b hw hnot))

theorem Frame.refl : Frame program D p q [] s s :=
  ⟨rfl, rfl, rfl, (append_nil _).symm, fun _ ho => absurd ho not_mem_nil, fun _ _ _ => rfl, fun _ _ _ => rfl,
    fun _ hw => hw, fun _ hu => hu⟩

theorem Frame.trans {p' : Option σ → Prop} {q' : Option ω → Prop} {more' : List Nat}
    (h : Frame program D p q more s s') (h' : Frame program D p' q' more' s' s'') :
    Frame program D (fun w => p w ∨ p' w) (fun u => q u ∨ q' u) (more ++ more') s s'' where
  made := h'.made.trans h.made
  created := h'.created.trans h.created
  given := h'.given.trans h.given
  deleted := by rw [h'.deleted, h.deleted, append_assoc]
  doomed o ho := (mem_append.mp ho).elim (h.doomed o) (h'.doomed o)
  shared w hw hmore := (h'.shared w (fun hp => hw (.inr hp)) fun x o hx ho =>
    hmore x o hx (mem_append_right _ ho)).trans
      (h.shared w (fun hp => hw (.inl hp)) fun x o hx ho => hmore x o hx (mem_append_left _ ho))
  weak u hu hmore := (h'.weak u (fun hq => hu (.inr hq)) fun x o hx ho =>
    hmore x o hx (mem_append_right _ ho)).trans
      (h.weak u (fun hq => hu (.inl hq)) fun x o hx ho => hmore x o hx (mem_append_left _ ho))
  shared_alive w hw := h.shared_alive w (h'.shared_alive w hw)
  weak_alive u hu := h.weak_alive u (h'.weak_alive u hu)

theorem Frame.mono {p' : Option σ → Prop} {q' : Option ω → Prop}
    (h : Frame program D p q more s s') (hp : ∀ w, p w → p' w) (hq : ∀ u, q u → q' u) :
    Frame program D p' q' more s s' :=
  { h with
    shared := fun w hw => h.shared w fun hpw => hw (hp w hpw)
    weak := fun u hu => h.weak u fun hqu => hu (hq u hqu) }

theorem Frame.sub
    (h : Frame program D p q more s s') : ∀ o ∈ s.deleted, o ∈ s'.deleted := by
  intro o ho
  rw [h.deleted]
  exact mem_append_left _ ho

theorem Frame.fresh
    (h : Frame program D p q more s s') (hnodup : s'.deleted.Nodup) (ho : o ∈ s.deleted) :
    o ∉ more := by
  rw [h.deleted] at hnodup
  exact fun hmore => (nodup_append.mp hnodup).2.2 o ho o hmore rfl

theorem Ready.of_owned (h : Ready program D top busy s) (hinv : Inv program busy s')
    (hmade : s'.made = s.made) (hdeleted : s'.deleted = s.deleted)
    (howned : ∀ w b, s.owned busy w = some b → s'.owned busy w = some b) :
    Ready program D top busy s' where
  inv := hinv
  ending w hw := (h.ending w hw).mono fun _ ho => hdeleted ▸ ho
  closed := h.closed.mono hmade (fun _ ho => hdeleted ▸ ho) fun w b hw _ => howned w b hw

/-! ## Members -/

/-- What `_Release` leaves in a `SharedPtr`. -/
def released (h : Handle) : Handle := if h.block.isSome then .null else h

theorem released_block (h : Handle) : (released h).block = none := by
  rw [released]
  split
  · rfl
  · rename_i hnot
    exact Option.not_isSome_iff_eq_none.mp hnot

/-- `release` empties a pointer that is going away, and nothing breaks. -/
def Releases (program : Program σ ω) (D : Nat → Prop) (top : Option σ) (busy : List (Option σ))
    (release : Option σ → Memory σ ω → Option (Memory σ ω)) : Prop :=
  ∀ v s, Ready program D top busy s → v ∉ busy → Ending program D top s v → (s.shared v).isSome →
    ∃ s' more, release v s = some s' ∧ Ready program D top busy s' ∧
      Frame program D (· = v) (fun _ => False) more s s' ∧
      s'.shared v = (s.shared v).map released

theorem dropShared_frame (v : Option σ) :
    Frame program D (· = v) (fun _ => False) [] s (s.dropShared v) :=
  ⟨rfl, rfl, rfl, (append_nil _).symm, fun _ ho => absurd ho not_mem_nil, fun _ hw _ => update_of_ne hw .., fun _ _ _ => rfl,
    fun w hw => by
      by_cases hwv : w = v
      · subst hwv
        simp [dropShared] at hw
      · simpa [dropShared, hwv] using hw,
    fun _ hu => hu⟩

/-- The members of a deleted object that a part of a cascade leaves alone. -/
theorem Frame.aliveMember
    (h : Frame program D p q more s s') (hprog : program.WellFormed) (hnodup : s'.deleted.Nodup) (ho : o ∈ s.deleted) {m : Member σ ω} (hm : m ∈ program.members o)
    (hp : ∀ x, m = .shared x → ¬ p (some x)) (hq : ∀ x, m = .weak x → ¬ q (some x))
    (halive : s.AliveMember m) : s'.AliveMember m := by
  have hfresh := h.fresh hnodup ho
  cases m with
  | shared x =>
    show (s'.shared (some x)).isSome = true
    rw [h.shared (some x) (hp x rfl)]
    · exact halive
    · rintro _ o' ⟨⟩ ho' hx
      exact hfresh (hprog.unique hm hx ▸ ho')
  | weak x =>
    show (s'.weak (some x)).isSome = true
    rw [h.weak (some x) (hq x rfl)]
    · exact halive
    · rintro _ o' ⟨⟩ ho' hx
      exact hfresh (hprog.unique hm hx ▸ ho')

theorem destroyMembers_spec (hprog : program.WellFormed)
    {release : Option σ → Memory σ ω → Option (Memory σ ω)}
    (hrelease : Releases program D top busy release) (hD : D o) :
    ∀ (ms : List (Member σ ω)) (s : Memory σ ω), Ready program D top busy s → o ∈ s.deleted →
      ms.Nodup → (∀ m ∈ ms, m ∈ program.members o) → (∀ m ∈ ms, s.AliveMember m) →
      (∀ x, .shared x ∈ ms → some x ∉ busy) →
      ∃ s' more, destroyMembers release ms s = some s' ∧ Ready program D top busy s' ∧
        Frame program D (fun w => ∃ x, w = some x ∧ .shared x ∈ ms)
          (fun u => ∃ x, u = some x ∧ .weak x ∈ ms) more s s'
  | [], s, hready, _, _, _, _, _ => ⟨s, [], rfl, hready, Frame.refl⟩
  | .shared x :: ms, s, hready, ho, hnodup, hsub, halive, hbusy => by
    obtain ⟨hx, hnodup⟩ := nodup_cons.mp hnodup
    have hmem := hsub _ mem_cons_self
    obtain ⟨s₁, more₁, hs₁, hready₁, hframe₁, hshared₁⟩ := hrelease (some x) s hready
      (hbusy x mem_cons_self) (.inr ⟨x, o, rfl, hmem, hD, ho⟩) (halive _ mem_cons_self)
    have hnone : s₁.blockOf (some x) = none := by
      rw [blockOf, hshared₁]
      cases s.shared (some x) with
      | none => rfl
      | some h => exact released_block h
    have ho₁ := hframe₁.sub o ho
    have hready₂ : Ready program D top busy (s₁.dropShared (some x)) := by
      refine hready₁.of_owned (hready₁.inv.dropShared hnone ?_) rfl rfl fun w b hw => ?_
      · rintro o' _ _ ho' ⟨⟩ hx'
        exact ho' (hprog.unique hmem hx' ▸ ho₁)
      · obtain ⟨hwb, hwblock⟩ := blockOf_of_owned hw
        have hne : w ≠ some x := by
          rintro rfl
          rw [hnone] at hwblock
          cases hwblock
        rw [owned_of_notMem hwb, blockOf]
        show (update s₁.shared (some x) none w).bind _ = _
        rw [update_of_ne hne]
        exact hwblock
    have hframe₂ := hframe₁.trans (dropShared_frame (some x))
    obtain ⟨s', more, hs', hready', hframe⟩ := destroyMembers_spec hprog hrelease hD ms
      (s₁.dropShared (some x)) hready₂ ho₁ hnodup (fun m hm => hsub m (mem_cons_of_mem _ hm))
      (fun m hm => hframe₂.aliveMember hprog hready₂.inv.logs.deleted_nodup ho
        (hsub m (mem_cons_of_mem _ hm))
        (by
          rintro y rfl hy
          rcases hy with hy | hy <;> cases hy <;> exact hx hm)
        (fun _ _ hq => hq.elim id id) (halive m (mem_cons_of_mem _ hm)))
      fun y hy => hbusy y (mem_cons_of_mem _ hy)
    refine ⟨s', _, ?_, hready', (hframe₂.trans hframe).mono ?_ ?_⟩
    · rw [destroyMembers, hs₁]
      exact hs'
    · rintro w ((rfl | rfl) | ⟨y, rfl, hy⟩)
      · exact ⟨x, rfl, mem_cons_self⟩
      · exact ⟨x, rfl, mem_cons_self⟩
      · exact ⟨y, rfl, mem_cons_of_mem _ hy⟩
    · rintro u ((hq | hq) | ⟨y, rfl, hy⟩)
      · exact hq.elim
      · exact hq.elim
      · exact ⟨y, rfl, mem_cons_of_mem _ hy⟩
  | .weak x :: ms, s, hready, ho, hnodup, hsub, halive, hbusy => by
    obtain ⟨hx, hnodup⟩ := nodup_cons.mp hnodup
    have hmem := hsub _ mem_cons_self
    obtain ⟨s₁, hs₁, hinv₁, hweak₁, hshared₁, hother₁, hmade₁, hcreated₁, hgiven₁, hdeleted₁⟩ :=
      hready.inv.releaseWeakPtr (halive (.weak x) mem_cons_self)
    have hinv₂ : Inv program busy (s₁.dropWeak (some x)) := by
      refine hinv₁.dropWeak ?_ ?_
      · rw [watched, hweak₁]
        rfl
      · rintro o' _ _ ho' ⟨⟩ hx'
        rw [hdeleted₁] at ho'
        exact ho' (hprog.unique hmem hx' ▸ ho)
    have hready₂ : Ready program D top busy (s₁.dropWeak (some x)) := by
      refine hready.of_owned hinv₂ hmade₁ hdeleted₁ fun w b hw => ?_
      rw [← hw, owned, owned, blockOf, blockOf]
      show ite _ _ ((s₁.shared w).bind _) = _
      rw [hshared₁]
    have hframe₂ : Frame program D (fun _ => False) (· = some x) [] s (s₁.dropWeak (some x)) := by
      refine ⟨hmade₁, hcreated₁, hgiven₁, hdeleted₁.trans (append_nil _).symm, fun _ ho => absurd ho not_mem_nil,
        fun w _ _ => congrFun hshared₁ w, fun u hu _ => ?_, fun w hw => ?_, fun u hu => ?_⟩
      · show update s₁.weak (some x) none u = _
        rw [update_of_ne hu]
        exact hother₁ u hu
      · rw [← hshared₁]
        exact hw
      · have hux : u ≠ some x := by
          rintro rfl
          simp [dropWeak] at hu
        rw [← hother₁ u hux]
        simpa [dropWeak, hux] using hu
    obtain ⟨s', more, hs', hready', hframe⟩ := destroyMembers_spec hprog hrelease hD ms
      (s₁.dropWeak (some x)) hready₂ (hframe₂.sub o ho) hnodup
      (fun m hm => hsub m (mem_cons_of_mem _ hm))
      (fun m hm => hframe₂.aliveMember hprog hready₂.inv.logs.deleted_nodup ho
        (hsub m (mem_cons_of_mem _ hm)) (fun _ _ hp => hp)
        (by
          rintro y rfl hy
          cases hy
          exact hx hm)
        (halive m (mem_cons_of_mem _ hm)))
      fun y hy => hbusy y (mem_cons_of_mem _ hy)
    refine ⟨s', _, ?_, hready', (hframe₂.trans hframe).mono ?_ ?_⟩
    · rw [destroyMembers, hs₁]
      exact hs'
    · rintro w (hp | ⟨y, rfl, hy⟩)
      · exact hp.elim
      · exact ⟨y, rfl, mem_cons_of_mem _ hy⟩
    · rintro u (rfl | ⟨y, rfl, hy⟩)
      · exact ⟨x, rfl, mem_cons_self⟩
      · exact ⟨y, rfl, mem_cons_of_mem _ hy⟩

/-! ## Objects -/

theorem deleteObject_spec (hprog : program.WellFormed)
    {release : Option σ → Memory σ ω → Option (Memory σ ω)}
    (hrelease : Releases program D top busy release) (hD : D o) (hlive : o ∉ s.deleted)
    (hready : Ready program D top busy { s with deleted := s.deleted ++ [o] })
    (halive : ∀ m ∈ program.members o, s.AliveMember m)
    (hbusy : ∀ x, .shared x ∈ program.members o → some x ∉ busy) :
    ∃ s' more, s.deleteObject program release o = some s' ∧ Ready program D top busy s' ∧
      Frame program D (fun _ => False) (fun _ => False) (o :: more) s s' := by
  obtain ⟨s', more, hs', hready', hframe⟩ := destroyMembers_spec hprog hrelease hD (program.members o)
    { s with deleted := s.deleted ++ [o] } hready (mem_append_right _ (mem_singleton_self o))
    (hprog.nodup o) (fun _ hm => hm) halive hbusy
  refine ⟨s', more, ?_, hready', hframe.made, hframe.created, hframe.given, ?_, ?_, ?_, ?_,
    hframe.shared_alive, hframe.weak_alive⟩
  · rw [deleteObject, if_neg hlive]
    exact hs'
  · rw [hframe.deleted, append_assoc, singleton_append]
  · rintro o' ho'
    rcases mem_cons.mp ho' with rfl | ho'
    · exact hD
    · exact hframe.doomed o' ho'
  · intro w _ hmore
    refine hframe.shared w ?_ fun x o' hx ho' => hmore x o' hx (mem_cons_of_mem o ho')
    rintro ⟨x, rfl, hx⟩
    exact hmore x o rfl mem_cons_self hx
  · intro u _ hmore
    refine hframe.weak u ?_ fun x o' hx ho' => hmore x o' hx (mem_cons_of_mem o ho')
    rintro ⟨x, rfl, hx⟩
    exact hmore x o rfl mem_cons_self hx

/-- A pointer that is going away is no member of what is deleted from now on. -/
theorem Ending.notMem (hprog : program.WellFormed)
    (htop : ∀ o x, D o → top = some x → .shared x ∉ program.members o)
    (hw : Ending program D top s w) (hD : D o) (ho : o ∉ s.deleted) {x : σ}
    (hx : w = some x) : .shared x ∉ program.members o := by
  intro hmem
  rcases hw with rfl | ⟨y, o', rfl, hy, _, ho'⟩
  · exact htop o x hD hx hmem
  · cases hx
    exact ho (hprog.unique hy hmem ▸ ho')

theorem release_of_dispose (hh : s.shared v = some h)
    (hhb : h.block = some b) (hk : s.blocks b = some k) (hone : k.strong = 1)
    (hdispose : (s.putBlock b { k with strong := k.strong - 1 }).dispose program (release program fuel) b =
      some s') (hh' : s'.shared v = some h) {k' : SharedBlock} (hk' : s'.blocks b = some k') :
    release program (fuel + 1) v s = some ((s'.withoutWeak b k').putShared v .null) := by
  have hshared : (s'.withoutWeak b k').shared v = some h := by rw [withoutWeak_shared, hh']
  rw [release, hh]
  simp only [some_bind, hhb, releaseStrong, hk, decide_eq_true hone, if_true,
    hdispose, hh', letGoWeak_eq hk', hshared]

theorem release_last (hprog : program.WellFormed)
    (htop : ∀ o x, D o → top = some x → .shared x ∉ program.members o)
    (hrelease : Releases program D top (v :: busy) (release program fuel))
    (hready : Ready program D top busy s) (hv : v ∉ busy) (hending : Ending program D top s v) (hh : s.shared v = some h) (hhb : h.block = some b)
    (hk : s.blocks b = some k) (hone : k.strong = 1) :
    ∃ s' more, release program (fuel + 1) v s = some s' ∧ Ready program D top busy s' ∧
      Frame program D (· = v) (fun _ => False) more s s' ∧ s'.shared v = some .null := by
  have hb : s.blockOf v = some b := by rw [blockOf_eq hh, hhb]
  have hinv := hready.inv
  have hok := hinv.block b
  rw [hk] at hok
  obtain ⟨hmade, hlive⟩ := hok.object k rfl (Inv.owner_pos hv hb)
  have hgiven := hinv.logs.made_given _ (mem_of_getElem? hmade)
  have hcreated := hinv.logs.given_created _ hgiven
  have hptr : k.ptr ≠ 0 := fun hzero => hinv.logs.created_ne (hzero ▸ hcreated)
  have honly : holders (s.owned busy) b = 1 := by
    have hstrong := hok.strong k rfl
    omega
  have hD : D k.ptr := by
    refine hready.closed b k.ptr hmade hlive fun w hw => ?_
    rw [holders_eq_one honly ((owned_of_notMem hv).trans hb) hw]
    exact hending.leaving
  -- the object is deleted
  have hready₁ : Ready program D top (v :: busy) (s.withoutOwner b k) := by
    refine ⟨hinv.withoutOwner hv hb hk hone, fun w hw => ?_, ?_⟩
    · have hsub : ∀ o ∈ s.deleted, o ∈ (s.withoutOwner b k).deleted := fun _ ho =>
        mem_append_left _ ho
      rcases mem_cons.mp hw with rfl | hw
      · exact hending.mono hsub
      · exact (hready.ending w hw).mono hsub
    · refine hready.closed.mono rfl (fun _ ho => mem_append_left _ ho) fun w b' hw hnot => ?_
      show s.owned (v :: busy) w = _
      have hwv : w ≠ v := by
        rintro rfl
        exact hnot hending.leaving
      rw [owned_cons, if_neg hwv]
      exact hw
  obtain ⟨s₂, more, hs₂, hready₂, hframe⟩ := deleteObject_spec (s := s.putBlock b
    { k with strong := k.strong - 1 }) hprog hrelease hD hlive hready₁
    (hinv.alive k.ptr hcreated hlive) fun x hx hmem => by
      rcases mem_cons.mp hmem with hxv | hmem
      · exact hending.notMem hprog htop hD hlive hxv.symm hx
      · exact (hready.ending _ hmem).notMem hprog htop hD hlive rfl hx
  have hself : s₂.shared v = some h := by
    refine (hframe.shared v id fun x o hx ho => ?_).trans hh
    refine hending.notMem hprog htop (hframe.doomed o ho) (fun hdel => ?_) hx
    exact hframe.fresh hready₂.inv.logs.deleted_nodup hdel ho
  have hb₂ : s₂.blockOf v = some b := by rw [blockOf_eq hself, hhb]
  obtain ⟨k₂, hk₂⟩ := hready₂.inv.block_of_blockOf hb₂
  have hzero : holders (s₂.owned (v :: busy)) b = 0 := by
    obtain ⟨c, hc, hzero, -⟩ := hready₂.inv.last v mem_cons_self
    rw [hb₂] at hc
    cases hc
    exact hzero
  -- the block is let go
  have hinv₃ := hready₂.inv.forget hk₂ hzero
  have hk₃ : (s₂.putBlock b { k₂ with ptr := 0 }).blocks b = some { k₂ with ptr := 0 } := putBlock_self
  have hinv₄ := hinv₃.letGo hb₂ hk₃
  obtain ⟨hmade₄, hcreated₄, hgiven₄, hdeleted₄⟩ :=
    (s₂.putBlock b { k₂ with ptr := 0 }).withoutWeak_logs b { k₂ with ptr := 0 }
  have hshared₄ := (s₂.putBlock b { k₂ with ptr := 0 }).withoutWeak_shared b { k₂ with ptr := 0 }
  have hweak₄ := (s₂.putBlock b { k₂ with ptr := 0 }).withoutWeak_weak b { k₂ with ptr := 0 }
  refine ⟨((s₂.putBlock b { k₂ with ptr := 0 }).withoutWeak b { k₂ with ptr := 0 }).putShared v .null,
    k.ptr :: more, ?_, ⟨hinv₄, fun w hw => ?_, ?_⟩, ⟨hmade₄.trans hframe.made,
    hcreated₄.trans hframe.created, hgiven₄.trans hframe.given, hdeleted₄.trans hframe.deleted,
    hframe.doomed, fun w hw hmore => ?_, fun u _ hmore => ?_, fun w hw => ?_, fun u hu => ?_⟩,
    update_self ..⟩
  · have hdispose : (s.putBlock b { k with strong := k.strong - 1 }).dispose program
        (release program fuel) b = some (s₂.putBlock b { k₂ with ptr := 0 }) := by
      rw [dispose, putBlock_self]
      simp only [some_bind, if_neg hptr, hs₂, hk₂]
    exact release_of_dispose hh hhb hk hone hdispose hself hk₃
  · refine (hready.ending w hw).mono fun o ho => ?_
    show o ∈ ((s₂.putBlock b { k₂ with ptr := 0 }).withoutWeak b { k₂ with ptr := 0 }).deleted
    rw [hdeleted₄]
    exact hframe.sub o ho
  · refine hready₂.closed.mono hmade₄ (fun o ho => ?_) fun w b' hw _ => ?_
    · show o ∈ ((s₂.putBlock b { k₂ with ptr := 0 }).withoutWeak b { k₂ with ptr := 0 }).deleted
      rw [hdeleted₄]
      exact ho
    · rw [owned_cons] at hw
      split at hw
      · cases hw
      · rename_i hwv
        rw [← hw, owned, owned, blockOf_putShared_of_ne hwv, blockOf, hshared₄]
        rfl
  · show update _ v _ w = _
    rw [update_of_ne hw, hshared₄]
    exact hframe.shared w id hmore
  · exact Eq.trans (congrFun hweak₄ u) (hframe.weak u id hmore)
  · by_cases hwv : w = v
    · rw [hwv, hh]
      rfl
    · refine hframe.shared_alive w ?_
      have hsame : update ((s₂.putBlock b { k₂ with ptr := 0 }).withoutWeak b
        { k₂ with ptr := 0 }).shared v (some .null) w = s₂.shared w := by
        rw [update_of_ne hwv, hshared₄]
        rfl
      exact hsame ▸ hw
  · refine hframe.weak_alive u ?_
    have hsame : ((s₂.putBlock b { k₂ with ptr := 0 }).withoutWeak b { k₂ with ptr := 0 }).weak u =
      s₂.weak u := congrFun hweak₄ u
    exact hsame ▸ hu

theorem release_leave (hh : s.shared v = some h)
    (hhb : h.block = some b) (hk : s.blocks b = some k) (hmore : k.strong ≠ 1) :
    release program (fuel + 1) v s =
      some ((s.putBlock b { k with strong := k.strong - 1 }).putShared v .null) := by
  have hshared : (s.putBlock b { k with strong := k.strong - 1 }).shared v = some h := hh
  rw [release, hh]
  simp only [some_bind, hhb, releaseStrong, hk, decide_eq_false hmore,
    Bool.false_eq_true, if_false, hshared]

/-- `_Release` ends, and keeps the invariant: the pointers that are being released are different, so
that the destructors cannot call each other deeper than there are pointers. -/
theorem release_spec (hprog : program.WellFormed)
    (htop : ∀ o x, D o → top = some x → .shared x ∉ program.members o) :
    ∀ (fuel : Nat) (busy : List (Option σ)), Fintype.card σ + 1 < fuel + busy.length →
      Releases program D top busy (release program fuel)
  | 0, busy, hfuel, v, s, hready, _, _, _ => by
    have hle := hready.inv.nodup.length_le_card
    rw [Fintype.card_option] at hle
    omega
  | fuel + 1, busy, hfuel, v, s, hready, hv, hending, halive => by
    obtain ⟨h, hh⟩ := Option.isSome_iff_exists.mp halive
    rcases hhb : h.block with _ | b
    · refine ⟨s, [], ?_, hready, Frame.refl.mono (fun _ hp => hp) fun _ hq => hq, ?_⟩
      · rw [release, hh]
        simp only [some_bind, hhb]
      · rw [hh, Option.map_some, released, hhb]
        rfl
    · have hb : s.blockOf v = some b := by rw [blockOf_eq hh, hhb]
      obtain ⟨k, hk⟩ := hready.inv.block_of_blockOf hb
      have hreleased : (s.shared v).map released = some .null := by
        rw [hh, Option.map_some, released, hhb]
        rfl
      by_cases hone : k.strong = 1
      · have hrelease := release_spec hprog htop fuel (v :: busy)
          (by rw [length_cons]; omega)
        obtain ⟨s', more, hs', hready', hframe, hself⟩ :=
          release_last hprog htop hrelease hready hv hending hh hhb hk hone
        exact ⟨s', more, hs', hready', hframe, hself.trans hreleased.symm⟩
      · refine ⟨_, [], release_leave hh hhb hk hone, ⟨hready.inv.leave hv hb hk hone, hready.ending, ?_⟩,
          ⟨rfl, rfl, rfl, (append_nil _).symm, fun _ ho => absurd ho not_mem_nil, fun w hw _ => update_of_ne hw .., fun _ _ _ =>
          rfl, fun w hw => ?_, fun _ hu => hu⟩, (update_self ..).trans hreleased.symm⟩
        · refine hready.closed.mono rfl (fun _ ho => ho) fun w b' hw hnot => ?_
          have hwv : w ≠ v := by
            rintro rfl
            exact hnot hending.leaving
          rw [← hw, owned, owned, blockOf_putShared_of_ne hwv]
          rfl
        · by_cases hwv : w = v
          · rw [hwv]
            exact halive
          · simpa [putShared, putBlock, hwv] using hw

end Unisym.IsoStd.Memory
