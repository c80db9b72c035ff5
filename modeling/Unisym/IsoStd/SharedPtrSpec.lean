/-
# `SharedPtrSpec` — the counters are the numbers of owners

`Memory.Inv program busy s` relates the counters of the blocks to the variables.  While the last owner of
an object runs its destructor it still has the block but owns it no more: it is `busy`, and the block lives
by the weak count that the owners share.
-/
import Unisym.IsoStd.SharedPtr
import Unisym.Library.Holders
import Mathlib.Data.Fintype.Option

set_option linter.unusedSectionVars false

namespace Unisym.IsoStd

open Function Holders List

variable {σ ω : Type} [DecidableEq σ] [DecidableEq ω] [Fintype σ] [Fintype ω]

/-- Members belong to one object, once. -/
structure Program.WellFormed (program : Program σ ω) : Prop where
  nodup : ∀ o, (program.members o).Nodup
  unique : ∀ {o o' : Nat} {m : Member σ ω}, m ∈ program.members o → m ∈ program.members o' → o = o'

namespace Memory

/-! ## The invariant -/

/-- The block that a `SharedPtr` has. -/
def blockOf (s : Memory σ ω) (v : Option σ) : Option Nat := (s.shared v).bind Handle.block

/-- The block that a `WeakPtr` has. -/
def watched (s : Memory σ ω) (u : Option ω) : Option Nat := (s.weak u).bind Handle.block

/-- The block that a `SharedPtr` owns. -/
def owned (busy : List (Option σ)) (s : Memory σ ω) (v : Option σ) : Option Nat :=
  if v ∈ busy then none else s.blockOf v

/-- A member exists. -/
def AliveMember (s : Memory σ ω) : Member σ ω → Prop
  | .shared v => s.Alive v
  | .weak u => s.AliveWeak u

/-- A block and the object that it was made for, by the numbers of those that own it, have it and watch
it. -/
structure BlockOk (made deleted freed : List Nat) (owners having watching b : Nat)
    (block : Option SharedBlock) : Prop where
  strong : ∀ k, block = some k → k.strong = owners
  weak : ∀ k, block = some k → k.weak = watching + (if 0 < having then 1 else 0)
  held : ∀ k, block = some k → 0 < k.weak
  object : ∀ k, block = some k → 0 < owners → made[b]? = some k.ptr ∧ k.ptr ∉ deleted
  gone : ∀ o, made[b]? = some o → owners = 0 → o ∈ deleted
  lt : block.isSome → b < made.length
  freed_iff : b ∈ freed ↔ b < made.length ∧ block = none
  live : block = none → having = 0 ∧ watching = 0

/-- Each thing happens once, and in order. -/
structure Logs (made created given deleted freed : List Nat) : Prop where
  made_nodup : made.Nodup
  deleted_nodup : deleted.Nodup
  freed_nodup : freed.Nodup
  made_given : ∀ o ∈ made, o ∈ given
  deleted_given : ∀ o ∈ deleted, o ∈ given
  given_created : ∀ o ∈ given, o ∈ created
  created_ne : 0 ∉ created

structure Inv (program : Program σ ω) (busy : List (Option σ)) (s : Memory σ ω) : Prop where
  nodup : busy.Nodup
  last : ∀ v ∈ busy, ∃ b, s.blockOf v = some b ∧ holders (s.owned busy) b = 0 ∧
    ∀ w ∈ busy, s.blockOf w = some b → w = v
  block : ∀ b, BlockOk s.made s.deleted s.freed (holders (s.owned busy) b) (holders s.blockOf b)
    (holders s.watched b) b (s.blocks b)
  logs : Logs s.made s.created s.given s.deleted s.freed
  alive : ∀ o ∈ s.created, o ∉ s.deleted → ∀ m ∈ program.members o, s.AliveMember m

variable {program : Program σ ω} {busy : List (Option σ)} {s s' : Memory σ ω}

variable {v : Option σ} {h : Handle} {u : Option ω}

theorem blockOf_eq (hv : s.shared v = some h) : s.blockOf v = h.block := by
  rw [blockOf, hv]
  rfl

theorem owned_of_notMem (hv : v ∉ busy) : s.owned busy v = s.blockOf v := if_neg hv

theorem owned_nil : s.owned [] = s.blockOf := by
  funext v
  exact if_neg not_mem_nil

theorem blockOf_of_owned {b : Nat} (h : s.owned busy v = some b) :
    v ∉ busy ∧ s.blockOf v = some b := by
  rw [owned] at h
  split at h
  · cases h
  · exact ⟨‹_›, h⟩

/-! ### Handles that come and go -/

@[simp] theorem blockOf_putShared_self :
    (s.putShared v h).blockOf v = h.block := by
  simp [blockOf, putShared]

@[simp] theorem blockOf_putShared_of_ne {w : Option σ} (hne : w ≠ v) :
    (s.putShared v h).blockOf w = s.blockOf w := by
  simp [blockOf, putShared, hne]

@[simp] theorem watched_putWeak_self :
    (s.putWeak u h).watched u = h.block := by
  simp [watched, putWeak]

@[simp] theorem watched_putWeak_of_ne {t : Option ω} (hne : t ≠ u) :
    (s.putWeak u h).watched t = s.watched t := by
  simp [watched, putWeak, hne]

theorem aliveMember_putShared {m : Member σ ω} (hm : s.AliveMember m) :
    (s.putShared v h).AliveMember m := by
  cases m with
  | shared w =>
    show (update s.shared v (some h) (some w)).isSome = true
    by_cases hw : some w = v
    · rw [hw, update_self]
      rfl
    · rw [update_of_ne hw]
      exact hm
  | weak u => exact hm

theorem aliveMember_putWeak {m : Member σ ω} (hm : s.AliveMember m) :
    (s.putWeak u h).AliveMember m := by
  cases m with
  | shared v => exact hm
  | weak t =>
    show (update s.weak u (some h) (some t)).isSome = true
    by_cases ht : some t = u
    · rw [ht, update_self]
      rfl
    · rw [update_of_ne ht]
      exact hm

theorem Inv.congr (h : Inv program busy s) (hblock : s'.blockOf = s.blockOf)
    (hwatched : s'.watched = s.watched) (hblocks : s'.blocks = s.blocks) (hmade : s'.made = s.made)
    (hcreated : s'.created = s.created) (hgiven : s'.given = s.given) (hdeleted : s'.deleted = s.deleted)
    (hfreed : s'.freed = s.freed)
    (halive : ∀ o ∈ s.created, o ∉ s.deleted → ∀ m ∈ program.members o, s.AliveMember m →
      s'.AliveMember m) : Inv program busy s' := by
  have howned : s'.owned busy = s.owned busy := by
    funext v
    rw [owned, owned, hblock]
  refine ⟨h.nodup, ?_, ?_, ?_, ?_⟩
  · rw [howned, hblock]
    exact h.last
  · rw [howned, hblock, hwatched, hblocks, hmade, hdeleted, hfreed]
    exact h.block
  · rw [hmade, hcreated, hgiven, hdeleted, hfreed]
    exact h.logs
  · rw [hcreated, hdeleted]
    exact fun o ho ho' m hm => halive o ho ho' m hm (h.alive o ho ho' m hm)

/-! ### A pointer gets another block -/

theorem holders_owned_update (hv : v ∉ busy)
    (hother : ∀ w, w ≠ v → s'.blockOf w = s.blockOf w) (b : Nat) :
    holders (s'.owned busy) b + (if s.blockOf v = some b then 1 else 0) =
      holders (s.owned busy) b + (if s'.blockOf v = some b then 1 else 0) := by
  have h := holders_update (f := s.owned busy) (g := s'.owned busy) v
    (fun w hw => by rw [owned, owned, hother w hw]) b
  rwa [owned_of_notMem hv, owned_of_notMem hv] at h

/-- A `SharedPtr` without a block gets a handle without a block. -/
theorem Inv.putShared_null (h : Inv program busy s) (hv : s.blockOf v = none)
    {handle : Handle} (hhandle : handle.block = none) : Inv program busy (s.putShared v handle) := by
  refine h.congr ?_ rfl rfl rfl rfl rfl rfl rfl fun _ _ _ _ _ hm => aliveMember_putShared hm
  funext w
  by_cases hw : w = v
  · rw [hw, blockOf_putShared_self, hhandle, hv]
  · exact blockOf_putShared_of_ne hw

theorem Inv.putWeak_null (h : Inv program busy s) (hu : s.watched u = none)
    {handle : Handle} (hhandle : handle.block = none) : Inv program busy (s.putWeak u handle) := by
  refine h.congr rfl ?_ rfl rfl rfl rfl rfl rfl fun _ _ _ _ _ hm => aliveMember_putWeak hm
  funext t
  by_cases ht : t = u
  · rw [ht, watched_putWeak_self, hhandle, hu]
  · exact watched_putWeak_of_ne ht

theorem Inv.dropShared (h : Inv program busy s) (hv : s.blockOf v = none)
    (hmember : ∀ o w, o ∈ s.created → o ∉ s.deleted → v = some w → .shared w ∉ program.members o) :
    Inv program busy (s.dropShared v) := by
  refine h.congr ?_ rfl rfl rfl rfl rfl rfl rfl ?_
  · funext w
    by_cases hw : w = v
    · rw [hw, hv]
      simp [blockOf, Memory.dropShared]
    · simp [blockOf, Memory.dropShared, hw]
  · intro o ho ho' m hm halive
    cases m with
    | shared w =>
      show (update s.shared v none (some w)).isSome = true
      rw [update_of_ne fun hw => hmember o w ho ho' hw.symm hm]
      exact halive
    | weak u => exact halive

theorem Inv.dropWeak (h : Inv program busy s) (hu : s.watched u = none)
    (hmember : ∀ o t, o ∈ s.created → o ∉ s.deleted → u = some t → .weak t ∉ program.members o) :
    Inv program busy (s.dropWeak u) := by
  refine h.congr rfl ?_ rfl rfl rfl rfl rfl rfl ?_
  · funext t
    by_cases ht : t = u
    · rw [ht, hu]
      simp [watched, Memory.dropWeak]
    · simp [watched, Memory.dropWeak, ht]
  · intro o ho ho' m hm halive
    cases m with
    | shared v => exact halive
    | weak t =>
      show (update s.weak u none (some t)).isSome = true
      rw [update_of_ne fun ht => hmember o t ho ho' ht.symm hm]
      exact halive

/-! ### A block changes -/

section
variable {made deleted freed : List Nat} {owners having watching b : Nat} {k : SharedBlock}

theorem BlockOk.notFreed (h : BlockOk made deleted freed owners having watching b (some k)) :
    b ∉ freed := fun hf => absurd (h.freed_iff.mp hf).2 nofun

/-- A block that lives on; an owner more or less, or a watcher. -/
theorem BlockOk.update (h : BlockOk made deleted freed owners having watching b (some k))
    {owners' having' watching' : Nat} {k' : SharedBlock} (hstrong : k'.strong = owners')
    (hweak : k'.weak = watching' + (if 0 < having' then 1 else 0)) (hheld : 0 < k'.weak)
    (hobject : 0 < owners' → 0 < owners ∧ k'.ptr = k.ptr) (hgone : owners' = 0 → owners = 0) :
    BlockOk made deleted freed owners' having' watching' b (some k') := by
  constructor
  · rintro _ ⟨⟩
    exact hstrong
  · rintro _ ⟨⟩
    exact hweak
  · rintro _ ⟨⟩
    exact hheld
  · rintro _ ⟨⟩ howners
    rw [(hobject howners).2]
    exact h.object k rfl (hobject howners).1
  · exact fun o ho hzero => h.gone o ho (hgone hzero)
  · exact fun _ => h.lt rfl
  · exact ⟨fun hf => absurd hf h.notFreed, fun hf => absurd hf.2 nofun⟩
  · nofun

theorem BlockOk.free (h : BlockOk made deleted freed 0 having watching b (some k)) :
    BlockOk made deleted (freed ++ [b]) 0 0 0 b none := by
  refine ⟨nofun, nofun, nofun, nofun, h.gone, nofun, ?_, fun _ => ⟨rfl, rfl⟩⟩
  exact iff_of_true (mem_append_right _ (mem_singleton_self b)) ⟨h.lt rfl, rfl⟩

theorem BlockOk.free_other {b' : Nat} {block : Option SharedBlock}
    (h : BlockOk made deleted freed owners having watching b' block) (hne : b' ≠ b) :
    BlockOk made deleted (freed ++ [b]) owners having watching b' block := by
  refine ⟨h.strong, h.weak, h.held, h.object, h.gone, h.lt, ?_, h.live⟩
  rw [mem_append, mem_singleton, or_iff_left hne]
  exact h.freed_iff

end

theorem putBlock_self {b : Nat} {k : SharedBlock} : (s.putBlock b k).blocks b = some k := update_self ..

variable {b' : Nat} {v : Option σ} {u : Option ω}

theorem putBlock_of_ne {b : Nat} {k : SharedBlock} (h : b' ≠ b) :
    (s.putBlock b k).blocks b' = s.blocks b' := update_of_ne h ..

/-! ### An owner or a watcher more -/

/-- A `SharedPtr` without a block becomes an owner of a block that has one. -/
theorem Inv.adopt (h : Inv program [] s) (hv : s.blockOf v = none) {handle : Handle}
    {b : Nat} (hhandle : handle.block = some b) {k : SharedBlock} (hk : s.blocks b = some k)
    (howner : 0 < holders s.blockOf b) :
    Inv program [] ((s.putBlock b { k with strong := k.strong + 1 }).putShared v handle) := by
  have hok := h.block
  simp only [owned_nil] at hok
  have hcount := holders_update (f := s.blockOf)
    (g := ((s.putBlock b { k with strong := k.strong + 1 }).putShared v handle).blockOf) v
    fun w hw => blockOf_putShared_of_ne hw
  simp only [hv, blockOf_putShared_self, hhandle, reduceCtorEq, if_false, Nat.add_zero] at hcount
  refine ⟨h.nodup, nofun, fun b' => ?_, h.logs, fun o ho ho' m hm =>
    aliveMember_putShared (h.alive o ho ho' m hm)⟩
  simp only [owned_nil, hcount]
  show BlockOk _ _ _ _ _ _ _ ((s.putBlock b _).blocks b')
  by_cases hb' : b' = b
  · subst hb'
    have hok := hok b'
    rw [hk] at hok
    have hstrong := hok.strong k rfl
    have hweak := hok.weak k rfl
    rw [if_pos howner] at hweak
    rw [putBlock_self, if_pos rfl]
    refine hok.update ?_ ?_ (hok.held k rfl) (fun _ => ⟨howner, rfl⟩) fun hzero => by omega
    · show k.strong + 1 = _
      rw [hstrong]
      rfl
    · rw [if_pos (Nat.succ_pos _)]
      exact hweak
  · rw [putBlock_of_ne hb', if_neg fun heq => hb' (Option.some.inj heq).symm]
    exact hok b'

/-- A `WeakPtr` without a block watches a block that is not freed. -/
theorem Inv.watch (h : Inv program busy s) (hu : s.watched u = none) {handle : Handle}
    {b : Nat} (hhandle : handle.block = some b) {k : SharedBlock} (hk : s.blocks b = some k) :
    Inv program busy ((s.putBlock b { k with weak := k.weak + 1 }).putWeak u handle) := by
  have hcount := holders_update (f := s.watched)
    (g := ((s.putBlock b { k with weak := k.weak + 1 }).putWeak u handle).watched) u
    fun t ht => watched_putWeak_of_ne ht
  simp only [hu, watched_putWeak_self, hhandle, reduceCtorEq, if_false, Nat.add_zero] at hcount
  refine ⟨h.nodup, h.last, fun b' => ?_, h.logs, fun o ho ho' m hm =>
    aliveMember_putWeak (h.alive o ho ho' m hm)⟩
  rw [hcount]
  show BlockOk _ _ _ (holders (s.owned busy) b') (holders s.blockOf b') _ _ ((s.putBlock b _).blocks b')
  by_cases hb' : b' = b
  · subst hb'
    have hok := h.block b'
    rw [hk] at hok
    have hweak := hok.weak k rfl
    have hheld := hok.held k rfl
    rw [putBlock_self, if_pos rfl]
    refine hok.update (hok.strong k rfl) ?_ ?_ (fun howners => ⟨howners, rfl⟩) id
    · show k.weak + 1 = _
      rw [hweak]
      omega
    · show 0 < k.weak + 1
      omega
  · rw [putBlock_of_ne hb', if_neg fun heq => hb' (Option.some.inj heq).symm]
    exact h.block b'

/-! ### A weak reference less -/

theorem owned_le (b : Nat) : holders s.blockOf b = 0 → holders (s.owned busy) b = 0 := by
  rw [holders_eq_zero, holders_eq_zero]
  exact fun h v hv => h v (blockOf_of_owned hv).2

theorem Inv.block_of_watched (h : Inv program busy s) {b : Nat}
    (hu : s.watched u = some b) : ∃ k, s.blocks b = some k := by
  refine Option.ne_none_iff_exists'.mp fun hnone => ?_
  exact absurd ((h.block b).live hnone).2 (Nat.ne_of_gt (holders_pos.mpr ⟨u, hu⟩))

theorem Inv.block_of_blockOf (h : Inv program busy s) {b : Nat}
    (hv : s.blockOf v = some b) : ∃ k, s.blocks b = some k := by
  refine Option.ne_none_iff_exists'.mp fun hnone => ?_
  exact absurd ((h.block b).live hnone).1 (Nat.ne_of_gt (holders_pos.mpr ⟨v, hv⟩))

/-- The last weak reference frees the block. -/
def withoutWeak (b : Nat) (k : SharedBlock) (s : Memory σ ω) : Memory σ ω :=
  if k.weak = 1 then { s with blocks := update s.blocks b none, freed := s.freed ++ [b] }
  else s.putBlock b { k with weak := k.weak - 1 }

theorem letGoWeak_eq {b : Nat} {k : SharedBlock} (hk : s.blocks b = some k) :
    s.letGoWeak b = some (s.withoutWeak b k) := by
  rw [letGoWeak, releaseWeak, hk, withoutWeak]
  by_cases hone : k.weak = 1
  · simp [hone, free, putBlock]
  · simp [hone]

theorem withoutWeak_shared (b : Nat) (k : SharedBlock) : (s.withoutWeak b k).shared = s.shared := by
  rw [withoutWeak]
  split <;> rfl

theorem withoutWeak_weak (b : Nat) (k : SharedBlock) : (s.withoutWeak b k).weak = s.weak := by
  rw [withoutWeak]
  split <;> rfl

theorem withoutWeak_logs (b : Nat) (k : SharedBlock) : (s.withoutWeak b k).made = s.made ∧
    (s.withoutWeak b k).created = s.created ∧ (s.withoutWeak b k).given = s.given ∧
    (s.withoutWeak b k).deleted = s.deleted := by
  rw [withoutWeak]
  split <;> exact ⟨rfl, rfl, rfl, rfl⟩

theorem aliveMember_withoutWeak {b : Nat} {k : SharedBlock} {m : Member σ ω} (hm : s.AliveMember m) :
    (s.withoutWeak b k).AliveMember m := by
  cases m with
  | shared v =>
    show ((s.withoutWeak b k).shared (some v)).isSome = true
    rw [withoutWeak_shared]
    exact hm
  | weak u =>
    show ((s.withoutWeak b k).weak (some u)).isSome = true
    rw [withoutWeak_weak]
    exact hm

theorem BlockOk.withoutWeak {owners having watching b : Nat} {k : SharedBlock}
    (h : BlockOk s.made s.deleted s.freed owners having watching b (some k)) {having' watching' : Nat}
    (hweak : watching' + (if 0 < having' then 1 else 0) + 1 = watching + (if 0 < having then 1 else 0))
    (howners : having' = 0 → owners = 0) :
    BlockOk s.made s.deleted (s.withoutWeak b k).freed owners having' watching' b
      ((s.withoutWeak b k).blocks b) := by
  have hk := h.weak k rfl
  rw [Memory.withoutWeak]
  split
  · rename_i hone
    have hzero : having' = 0 ∧ watching' = 0 := by
      rw [hone] at hk
      split_ifs at hk hweak <;> omega
    obtain ⟨rfl, rfl⟩ := hzero
    obtain rfl := howners rfl
    show BlockOk _ _ (s.freed ++ [b]) 0 0 0 b (Function.update s.blocks b none b)
    rw [update_self]
    exact h.free
  · rename_i hmore
    rw [putBlock_self]
    have hheld := h.held k rfl
    refine h.update (h.strong k rfl) ?_ ?_ (fun howners => ⟨howners, rfl⟩) id
    · show k.weak - 1 = _
      rw [hk]
      split_ifs at hweak ⊢ <;> omega
    · show 0 < k.weak - 1
      omega

theorem BlockOk.withoutWeak_other {owners having watching b : Nat} {k : SharedBlock}
    (h : BlockOk s.made s.deleted s.freed owners having watching b' (s.blocks b')) (hne : b' ≠ b) :
    BlockOk s.made s.deleted (s.withoutWeak b k).freed owners having watching b'
      ((s.withoutWeak b k).blocks b') := by
  rw [Memory.withoutWeak]
  split
  · show BlockOk _ _ (s.freed ++ [b]) _ _ _ b' (Function.update s.blocks b none b')
    rw [update_of_ne hne]
    exact h.free_other hne
  · rw [putBlock_of_ne hne]
    exact h

theorem Logs.withoutWeak {b : Nat} {k : SharedBlock}
    (h : Logs s.made s.created s.given s.deleted s.freed) (hb : b ∉ s.freed) :
    Logs s.made s.created s.given s.deleted (s.withoutWeak b k).freed := by
  refine { h with freed_nodup := ?_ }
  rw [Memory.withoutWeak]
  split
  · show (s.freed ++ [b]).Nodup
    rw [nodup_append]
    exact ⟨h.freed_nodup, nodup_singleton b, fun x hx y hy hxy =>
      hb (mem_singleton.mp hy ▸ hxy ▸ hx)⟩
  · exact h.freed_nodup

/-- `WeakPtr::_Release` leaves the pointer empty and touches nothing else. -/
theorem Inv.releaseWeakPtr (h : Inv program busy s) (hu : (s.weak u).isSome) :
    ∃ s', s.releaseWeakPtr u = some s' ∧ Inv program busy s' ∧ s'.weak u = some .null ∧
      s'.shared = s.shared ∧ (∀ t, t ≠ u → s'.weak t = s.weak t) ∧ s'.made = s.made ∧
      s'.created = s.created ∧ s'.given = s.given ∧ s'.deleted = s.deleted := by
  obtain ⟨handle, hhandle⟩ := Option.isSome_iff_exists.mp hu
  have hwatched : s.watched u = handle.block := by rw [watched, hhandle]; rfl
  rw [Memory.releaseWeakPtr, hhandle]
  simp only [Option.bind_eq_bind, Option.bind_some]
  rcases hblock : handle.block with _ | b
  · exact ⟨_, rfl, h.putWeak_null (hwatched.trans hblock) rfl, update_self .., rfl,
      fun t ht => update_of_ne ht .., rfl, rfl, rfl, rfl⟩
  · rw [hblock] at hwatched
    obtain ⟨k, hk⟩ := h.block_of_watched hwatched
    obtain ⟨hmade, hcreated, hgiven, hdeleted⟩ := s.withoutWeak_logs b k
    have hcount := holders_update (f := s.watched) (g := ((s.withoutWeak b k).putWeak u .null).watched) u
      fun t ht => (watched_putWeak_of_ne ht).trans (by rw [watched, watched, withoutWeak_weak])
    simp only [hwatched, watched_putWeak_self, Handle.null, reduceCtorEq, if_false, Nat.add_zero,
      Option.some.injEq] at hcount
    have hblockOf : ((s.withoutWeak b k).putWeak u .null).blockOf = s.blockOf := by
      funext v
      show ((s.withoutWeak b k).shared v).bind _ = _
      rw [withoutWeak_shared, blockOf]
    have howned : ((s.withoutWeak b k).putWeak u .null).owned busy = s.owned busy := by
      funext v
      rw [owned, owned, hblockOf]
    simp only [letGoWeak_eq hk, Option.bind_some]
    refine ⟨_, rfl, ⟨h.nodup, ?_, fun b' => ?_, ?_, ?_⟩, update_self .., withoutWeak_shared b k,
      fun t ht => (update_of_ne ht ..).trans (by rw [withoutWeak_weak]), hmade, hcreated, hgiven,
      hdeleted⟩
    · rw [howned, hblockOf]
      exact h.last
    · rw [howned, hblockOf]
      show BlockOk (s.withoutWeak b k).made (s.withoutWeak b k).deleted _ _ _ _ b'
        ((s.withoutWeak b k).blocks b')
      rw [hmade, hdeleted]
      by_cases hb' : b' = b
      · subst hb'
        have hok := h.block b'
        rw [hk] at hok
        have hcount := hcount b'
        rw [if_pos rfl] at hcount
        refine hok.withoutWeak ?_ (owned_le b')
        show holders ((s.withoutWeak b' k).putWeak u ⟨0, none⟩).watched b' + _ + 1 = _
        omega
      · have hcount := hcount b'
        rw [if_neg fun heq => hb' heq.symm] at hcount
        have hsame : holders ((s.withoutWeak b k).putWeak u .null).watched b' = holders s.watched b' :=
          hcount
        rw [hsame]
        exact (h.block b').withoutWeak_other hb'
    · show Logs (s.withoutWeak b k).made (s.withoutWeak b k).created (s.withoutWeak b k).given
        (s.withoutWeak b k).deleted _
      rw [hmade, hcreated, hgiven, hdeleted]
      have hok := h.block b
      rw [hk] at hok
      exact h.logs.withoutWeak hok.notFreed
    · intro o ho ho' m hm
      exact aliveMember_putWeak (aliveMember_withoutWeak (h.alive o (hcreated ▸ ho) (hdeleted ▸ ho') m hm))

/-! ### An owner less -/

theorem Inv.owner_pos (hv : v ∉ busy) {b : Nat} (hb : s.blockOf v = some b) :
    0 < holders (s.owned busy) b :=
  holders_pos.mpr ⟨v, (owned_of_notMem hv).trans hb⟩

/-- A busy pointer has another block than one that still owns. -/
theorem Inv.ne_of_busy (h : Inv program busy s) {w : Option σ} (hv : v ∉ busy) {b : Nat}
    (hb : s.blockOf v = some b) (hw : w ∈ busy) (hb' : s.blockOf w = some b') : b' ≠ b := by
  rintro rfl
  obtain ⟨c, hc, hzero, -⟩ := h.last w hw
  rw [hb'] at hc
  cases hc
  exact absurd hzero (Nat.ne_of_gt (Inv.owner_pos hv hb))

theorem owned_le_having (b : Nat) : holders (s.owned busy) b ≤ holders s.blockOf b := by
  refine Finset.card_le_card fun w hw => ?_
  rw [Finset.mem_filter] at hw ⊢
  exact ⟨hw.1, (blockOf_of_owned hw.2).2⟩

theorem BlockOk.leave {made deleted freed : List Nat} {owners having watching b : Nat} {k : SharedBlock}
    (h : BlockOk made deleted freed owners having watching b (some k)) {owners' having' : Nat}
    (howners : owners' + 1 = owners) (hhaving : having' + 1 = having) (hle : owners' ≤ having')
    (hmore : k.strong ≠ 1) :
    BlockOk made deleted freed owners' having' watching b
      (some { k with strong := k.strong - 1 }) := by
  have hstrong := h.strong k rfl
  have hweak := h.weak k rfl
  refine h.update ?_ ?_ (h.held k rfl) (fun _ => ⟨by omega, rfl⟩) fun hzero => by omega
  · show k.strong - 1 = _
    omega
  · show k.weak = _
    rw [hweak, if_pos (by omega), if_pos (by omega)]

theorem Inv.leave (h : Inv program busy s) (hv : v ∉ busy) {b : Nat}
    (hb : s.blockOf v = some b) {k : SharedBlock} (hk : s.blocks b = some k) (hmore : k.strong ≠ 1) :
    Inv program busy ((s.putBlock b { k with strong := k.strong - 1 }).putShared v .null) := by
  obtain ⟨s', hs'⟩ : ∃ s', s' = (s.putBlock b { k with strong := k.strong - 1 }).putShared v .null :=
    ⟨_, rfl⟩
  have hother : ∀ w, w ≠ v → s'.blockOf w = s.blockOf w := fun w hw =>
    hs' ▸ blockOf_putShared_of_ne hw
  have hnone : s'.blockOf v = none := by rw [hs', blockOf_putShared_self]; rfl
  have howned := holders_owned_update hv hother
  have hhaving := holders_update v hother
  simp only [hb, hnone, reduceCtorEq, if_false, Nat.add_zero, Option.some.injEq] at howned hhaving
  have hblocks : s'.blocks = update s.blocks b (some { k with strong := k.strong - 1 }) := by rw [hs']; rfl
  have hwatched : s'.watched = s.watched := by rw [hs']; rfl
  have hlogs : s'.made = s.made ∧ s'.created = s.created ∧ s'.given = s.given ∧ s'.deleted = s.deleted ∧
    s'.freed = s.freed := by rw [hs']; exact ⟨rfl, rfl, rfl, rfl, rfl⟩
  obtain ⟨hmade, hcreated, hgiven, hdeleted, hfreed⟩ := hlogs
  have halive : ∀ m, s.AliveMember m → s'.AliveMember m := fun m hm => hs' ▸ aliveMember_putShared hm
  rw [← hs']
  refine ⟨h.nodup, fun w hw => ?_, fun b' => ?_, ?_, ?_⟩
  · obtain ⟨c, hc, hzero, hunique⟩ := h.last w hw
    have hne := h.ne_of_busy hv hb hw hc
    refine ⟨c, (hother w fun heq => hv (heq ▸ hw)).trans hc, ?_, fun x hx hxc => ?_⟩
    · have hcount := howned c
      rw [if_neg fun heq => hne heq.symm] at hcount
      exact hcount.trans hzero
    · rw [hother x fun heq => hv (heq ▸ hx)] at hxc
      exact hunique x hx hxc
  · have howned := howned b'
    have hhaving := hhaving b'
    rw [hblocks, hwatched, hmade, hdeleted, hfreed]
    by_cases hb' : b' = b
    · subst hb'
      rw [if_pos rfl] at howned hhaving
      have hok := h.block b'
      rw [hk] at hok
      rw [update_self]
      exact hok.leave howned hhaving (owned_le_having b') hmore
    · rw [if_neg fun heq => hb' heq.symm] at howned hhaving
      rw [update_of_ne hb', show holders (s'.owned busy) b' = _ from howned,
        show holders s'.blockOf b' = _ from hhaving]
      exact h.block b'
  · rw [hmade, hcreated, hgiven, hdeleted, hfreed]
    exact h.logs
  · rw [hcreated, hdeleted]
    exact fun o ho ho' m hm => halive m (h.alive o ho ho' m hm)

/-! ### The last owner -/

theorem owned_cons {w : Option σ} :
    s.owned (v :: busy) w = if w = v then none else s.owned busy w := by
  rw [owned, owned]
  by_cases hw : w = v <;> simp [hw]

/-- The last owner gives up the object. -/
def withoutOwner (b : Nat) (k : SharedBlock) (s : Memory σ ω) : Memory σ ω :=
  { s.putBlock b { k with strong := k.strong - 1 } with deleted := s.deleted ++ [k.ptr] }

theorem Inv.withoutOwner (h : Inv program busy s) (hv : v ∉ busy) {b : Nat}
    (hb : s.blockOf v = some b) {k : SharedBlock} (hk : s.blocks b = some k) (hone : k.strong = 1) :
    Inv program (v :: busy) (s.withoutOwner b k) := by
  have hbok := h.block b
  rw [hk] at hbok
  have hpos := Inv.owner_pos hv hb
  obtain ⟨hmade, hlive⟩ := hbok.object k rfl hpos
  have howned : ∀ b', holders (s.owned (v :: busy)) b' + (if b = b' then 1 else 0) =
      holders (s.owned busy) b' := by
    intro b'
    have hcount := holders_update (f := s.owned busy) (g := s.owned (v :: busy)) v
      (fun w hw => by rw [owned_cons, if_neg hw]) b'
    simpa [owned_cons, owned_of_notMem hv, hb] using hcount
  have hzero : holders (s.owned (v :: busy)) b = 0 := by
    have hcount := howned b
    have hstrong := hbok.strong k rfl
    rw [if_pos rfl] at hcount
    omega
  refine ⟨nodup_cons.mpr ⟨hv, h.nodup⟩, fun w hw => ?_, fun b' => ?_, ?_, ?_⟩
  · show ∃ c, s.blockOf w = some c ∧ holders (s.owned (v :: busy)) c = 0 ∧ ∀ x ∈ v :: busy,
      s.blockOf x = some c → x = w
    rcases mem_cons.mp hw with rfl | hw
    · refine ⟨b, hb, hzero, fun x hx hxb => ?_⟩
      rcases mem_cons.mp hx with rfl | hx
      · rfl
      · exact absurd rfl (h.ne_of_busy hv hb hx hxb)
    · obtain ⟨c, hc, hczero, hunique⟩ := h.last w hw
      have hne := h.ne_of_busy hv hb hw hc
      refine ⟨c, hc, Nat.le_zero.mp ((Nat.le_add_right _ _).trans_eq ((howned c).trans hczero)),
        fun x hx hxc => ?_⟩
      rcases mem_cons.mp hx with rfl | hx
      · exact absurd (Option.some.inj (hxc.symm.trans hb)) hne
      · exact hunique x hx hxc
  · show BlockOk s.made (s.deleted ++ [k.ptr]) s.freed (holders (s.owned (v :: busy)) b')
      (holders s.blockOf b') (holders s.watched b') b' ((s.putBlock b _).blocks b')
    by_cases hb' : b' = b
    · subst hb'
      rw [putBlock_self, hzero]
      refine ⟨?_, ?_, ?_, ?_, ?_, fun _ => hbok.lt rfl, ?_, nofun⟩
      · rintro _ ⟨⟩
        show k.strong - 1 = 0
        rw [hone]
        rfl
      · rintro _ ⟨⟩
        exact hbok.weak k rfl
      · rintro _ ⟨⟩
        exact hbok.held k rfl
      · exact fun _ _ hlt => absurd hlt (Nat.lt_irrefl 0)
      · intro o ho _
        rw [hmade] at ho
        cases ho
        exact mem_append_right _ (mem_singleton_self _)
      · exact ⟨fun hf => absurd hf hbok.notFreed, fun hf => absurd hf.2 nofun⟩
    · have hcount := howned b'
      rw [if_neg fun heq => hb' heq.symm] at hcount
      rw [show holders (s.owned (v :: busy)) b' = holders (s.owned busy) b' from hcount,
        putBlock_of_ne hb']
      have hok := h.block b'
      refine ⟨hok.strong, hok.weak, hok.held, fun k' hk' hlt => ?_, fun o ho hz =>
        mem_append_left _ (hok.gone o ho hz), hok.lt, hok.freed_iff, hok.live⟩
      obtain ⟨hmade', hlive'⟩ := hok.object k' hk' hlt
      refine ⟨hmade', fun hmem => ?_⟩
      rcases mem_append.mp hmem with hmem | hmem
      · exact hlive' hmem
      · refine hb' ((List.getElem?_inj (List.getElem?_eq_some_iff.mp hmade').1 h.logs.made_nodup).mp ?_)
        rw [hmade', hmade, mem_singleton.mp hmem]
  · refine { h.logs with deleted_nodup := ?_, deleted_given := ?_ }
    · show (s.deleted ++ [k.ptr]).Nodup
      rw [nodup_append]
      exact ⟨h.logs.deleted_nodup, nodup_singleton _, fun x hx y hy hxy =>
        hlive (mem_singleton.mp hy ▸ hxy ▸ hx)⟩
    · intro o ho
      rcases mem_append.mp ho with ho | ho
      · exact h.logs.deleted_given o ho
      · rw [mem_singleton.mp ho]
        exact h.logs.made_given _ (mem_of_getElem? hmade)
  · exact fun o ho ho' m hm => h.alive o ho (fun hd => ho' (mem_append_left _ hd)) m hm

theorem Inv.forget (h : Inv program busy s) {b : Nat} {k : SharedBlock} (hk : s.blocks b = some k)
    (hzero : holders (s.owned busy) b = 0) : Inv program busy (s.putBlock b { k with ptr := 0 }) := by
  refine ⟨h.nodup, h.last, fun b' => ?_, h.logs, h.alive⟩
  show BlockOk _ _ _ (holders (s.owned busy) b') (holders s.blockOf b') (holders s.watched b') _
    ((s.putBlock b _).blocks b')
  by_cases hb' : b' = b
  · subst hb'
    have hok := h.block b'
    rw [hk] at hok
    rw [putBlock_self]
    exact hok.update (hok.strong k rfl) (hok.weak k rfl) (hok.held k rfl)
      (fun hlt => absurd hzero (Nat.ne_of_gt hlt)) id
  · rw [putBlock_of_ne hb']
    exact h.block b'

theorem Inv.letGo (h : Inv program (v :: busy) s) {b : Nat} (hb : s.blockOf v = some b)
    {k : SharedBlock} (hk : s.blocks b = some k) :
    Inv program busy ((s.withoutWeak b k).putShared v .null) := by
  obtain ⟨s', hs'⟩ : ∃ s', s' = (s.withoutWeak b k).putShared v .null := ⟨_, rfl⟩
  have hother : ∀ w, w ≠ v → s'.blockOf w = s.blockOf w := fun w hw => by
    rw [hs', blockOf_putShared_of_ne hw, blockOf, blockOf, withoutWeak_shared]
  have hnone : s'.blockOf v = none := by rw [hs', blockOf_putShared_self]; rfl
  have howned : s'.owned busy = s.owned (v :: busy) := by
    funext w
    rw [owned_cons]
    by_cases hw : w = v
    · rw [hw, if_pos rfl, owned, hnone, ite_self]
    · rw [if_neg hw, owned, owned, hother w hw]
  have hhaving := holders_update v hother
  simp only [hb, hnone, reduceCtorEq, if_false, Nat.add_zero, Option.some.injEq] at hhaving
  have hwatched : s'.watched = s.watched := by
    funext u
    rw [hs']
    show ((s.withoutWeak b k).weak u).bind _ = _
    rw [withoutWeak_weak, watched]
  obtain ⟨hmade, hcreated, hgiven, hdeleted⟩ : s'.made = s.made ∧ s'.created = s.created ∧
      s'.given = s.given ∧ s'.deleted = s.deleted := by
    rw [hs']
    exact s.withoutWeak_logs b k
  have hfreed : s'.freed = (s.withoutWeak b k).freed := by rw [hs']; rfl
  have hblocks : s'.blocks = (s.withoutWeak b k).blocks := by rw [hs']; rfl
  obtain ⟨hv, hnodup⟩ := nodup_cons.mp h.nodup
  have hbok := h.block b
  rw [hk] at hbok
  obtain ⟨hzero, honly⟩ : holders (s.owned (v :: busy)) b = 0 ∧ ∀ w ∈ v :: busy,
      s.blockOf w = some b → w = v := by
    obtain ⟨c, hc, hzero, honly⟩ := h.last v mem_cons_self
    rw [hb] at hc
    cases hc
    exact ⟨hzero, honly⟩
  have hgone : holders s'.blockOf b = 0 := by
    refine holders_eq_zero.mpr fun w hw => ?_
    have hwv : w ≠ v := by
      rintro rfl
      rw [hnone] at hw
      cases hw
    rw [hother w hwv] at hw
    by_cases hmem : w ∈ v :: busy
    · exact hwv (honly w hmem hw)
    · exact holders_eq_zero.mp hzero w ((owned_of_notMem hmem).trans hw)
  rw [← hs']
  refine ⟨hnodup, fun w hw => ?_, fun b' => ?_, ?_, ?_⟩
  · have hwv : w ≠ v := fun heq => hv (heq ▸ hw)
    obtain ⟨c, hc, hczero, hunique⟩ := h.last w (mem_cons_of_mem v hw)
    refine ⟨c, (hother w hwv).trans hc, howned ▸ hczero, fun x hx hxc => ?_⟩
    rw [hother x fun heq => hv (heq ▸ hx)] at hxc
    exact hunique x (mem_cons_of_mem v hx) hxc
  · have hhaving := hhaving b'
    rw [howned, hwatched, hmade, hdeleted, hfreed, hblocks]
    by_cases hb' : b' = b
    · subst hb'
      rw [if_pos rfl] at hhaving
      refine hbok.withoutWeak ?_ fun _ => hzero
      rw [if_neg (Nat.not_lt.mpr (Nat.le_zero.mpr hgone)), if_pos (by omega)]
    · rw [if_neg fun heq => hb' heq.symm] at hhaving
      rw [show holders s'.blockOf b' = _ from hhaving]
      exact (h.block b').withoutWeak_other hb'
  · rw [hmade, hcreated, hgiven, hdeleted, hfreed]
    exact h.logs.withoutWeak hbok.notFreed
  · rw [hcreated, hdeleted]
    intro o ho ho' m hm
    rw [hs']
    exact aliveMember_putShared (aliveMember_withoutWeak (h.alive o ho ho' m hm))

end Memory

end Unisym.IsoStd
