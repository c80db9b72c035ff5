/-
# `Nest` — nested rows linked by child, sibling and one back link

A node has a first child `sub` and a next sibling `next`.  The one back link of a
node leads to the node that leads to it: to its parent if it is a first child, to
its elder sibling otherwise.  Read so, a row of nodes with their rows of children is
a binary tree, `Nest`, and the back link is the link up.

`Held mk cells up t` says that a store holds the nodes of `t` with these links.  A
place in a nest is a list of frames, and `held_fill` separates what is held around
it from what is held in it; an edit in the place is `Held.replace`.
-/
import Mathlib.Data.List.Induction
import Mathlib.Data.List.Nodup
import Mathlib.Data.List.Perm.Basic

namespace Unisym.Nests

/-- A row of nodes. -/
inductive Nest (κ β : Type*) where
  | nil
  | node (key : κ) (val : β) (sub next : Nest κ β)

variable {κ ν β : Type*}

namespace Nest

/-- The key of the first node. -/
def head : Nest κ β → Option κ
  | nil => none
  | node p _ _ _ => some p

/-- The keys in reading order. -/
def keys : Nest κ β → List κ
  | nil => []
  | node p _ s n => p :: (s.keys ++ n.keys)

/-- Nodes without children before a row. -/
def row : List (κ × β) → Nest κ β → Nest κ β
  | [], t => t
  | e :: es, t => node e.1 e.2 nil (row es t)

@[simp] theorem head_nil : (nil : Nest κ β).head = none := rfl

@[simp] theorem head_node (p : κ) (v : β) (s n : Nest κ β) : (node p v s n).head = some p := rfl

@[simp] theorem keys_nil : (nil : Nest κ β).keys = [] := rfl

@[simp] theorem keys_node (p : κ) (v : β) (s n : Nest κ β) :
    (node p v s n).keys = p :: (s.keys ++ n.keys) := rfl

theorem head_mem {p : κ} : ∀ {t : Nest κ β}, t.head = some p → p ∈ t.keys
  | node _ _ _ _, h => by
    cases h
    exact List.mem_cons_self

end Nest

open Nest

/-! ## Places -/

/-- A node around a place, with its other row. -/
inductive Frame (κ β : Type*) where
  /-- The place is the row of children. -/
  | sub (key : κ) (val : β) (next : Nest κ β)
  /-- The place is the rest of the row. -/
  | next (key : κ) (val : β) (sub : Nest κ β)

namespace Frame

def key : Frame κ β → κ
  | sub p _ _ => p
  | next p _ _ => p

/-- The row that the place is not in. -/
def rest : Frame κ β → Nest κ β
  | sub _ _ n => n
  | next _ _ s => s

def keys (f : Frame κ β) : List κ := f.key :: f.rest.keys

def fill : Frame κ β → Nest κ β → Nest κ β
  | sub p v n, t => node p v t n
  | next p v s, t => node p v s t

@[simp] theorem head_fill (f : Frame κ β) (t : Nest κ β) : (f.fill t).head = some f.key := by
  cases f <;> rfl

theorem fill_injective (f : Frame κ β) {t t' : Nest κ β} (h : f.fill t = f.fill t') : t = t' := by
  cases f with
  | sub p v n => exact (Nest.node.inj h).2.2.1
  | next p v s => exact (Nest.node.inj h).2.2.2

theorem keys_fill (f : Frame κ β) (t : Nest κ β) : (f.fill t).keys.Perm (f.keys ++ t.keys) := by
  cases f with
  | sub p v n => exact (List.perm_append_comm).cons p
  | next p v s => exact List.Perm.refl _

end Frame

/-- The row with `t` in the place; the first frame is the innermost one. -/
def fill : List (Frame κ β) → Nest κ β → Nest κ β
  | [], t => t
  | f :: fs, t => fill fs (f.fill t)

/-- The key of the node that leads to the place. -/
def up (fs : List (Frame κ β)) : Option κ := fs.head?.map Frame.key

/-- The keys around the place. -/
def around (fs : List (Frame κ β)) : List κ := fs.flatMap Frame.keys

@[simp] theorem fill_nil (t : Nest κ β) : fill [] t = t := rfl

@[simp] theorem fill_cons (f : Frame κ β) (fs : List (Frame κ β)) (t : Nest κ β) :
    fill (f :: fs) t = fill fs (f.fill t) := rfl

@[simp] theorem up_nil : up ([] : List (Frame κ β)) = none := rfl

@[simp] theorem up_cons (f : Frame κ β) (fs : List (Frame κ β)) : up (f :: fs) = some f.key := rfl

@[simp] theorem around_cons (f : Frame κ β) (fs : List (Frame κ β)) :
    around (f :: fs) = f.keys ++ around fs := rfl

variable {fs : List (Frame κ β)} {p : κ}

theorem up_mem (h : up fs = some p) : p ∈ around fs := by
  cases fs with
  | nil => cases h
  | cons f fs =>
    cases h
    exact List.mem_cons_self

theorem fill_injective : ∀ (fs : List (Frame κ β)) {t t' : Nest κ β},
    fill fs t = fill fs t' → t = t'
  | [], _, _, h => h
  | f :: fs, _, _, h => f.fill_injective (fill_injective fs h)

theorem keys_fill : ∀ (fs : List (Frame κ β)) (t : Nest κ β),
    (fill fs t).keys.Perm (around fs ++ t.keys)
  | [], t => List.Perm.refl _
  | f :: fs, t => by
    refine (keys_fill fs (f.fill t)).trans ?_
    refine ((f.keys_fill t).append_left _).trans ?_
    rw [← List.append_assoc, around_cons]
    exact List.perm_append_comm.append_right _

/-- Where something is around a place, the first node of the row is. -/
theorem head_fill (fs : List (Frame κ β)) :
    fs = [] ∨ ∃ q ∈ around fs, ∀ t, (fill fs t).head = some q := by
  induction fs with
  | nil => exact Or.inl rfl
  | cons f fs ih =>
    refine Or.inr ?_
    rcases ih with rfl | ⟨q, hq, hhead⟩
    · exact ⟨f.key, List.mem_cons_self, f.head_fill⟩
    · exact ⟨q, List.mem_append_right _ hq, fun t => hhead (f.fill t)⟩

theorem head_fill_eq_iff {t : Nest κ β} (hp : t.head = some p)
    (hnodup : (fill fs t).keys.Nodup) : (fill fs t).head = some p ↔ fs = [] := by
  refine ⟨fun h => (head_fill fs).resolve_right ?_, fun hfs => by rw [hfs, fill_nil, hp]⟩
  rintro ⟨q, hq, hhead⟩
  have hqp : q = p := Option.some.inj ((hhead t).symm.trans h)
  have hdis := (List.nodup_append.mp ((keys_fill fs t).nodup_iff.mp hnodup)).2.2
  exact hdis q hq p (head_mem hp) hqp

/-! ## What a store holds -/

-- How a node is written: its links `next`, `left` and `subf`, and its value.
variable (mk : Option κ → Option κ → Option κ → β → ν)

/-- The nodes of a row are in the store, the first with the back link `left`. -/
def Held (cells : κ → Option ν) : (left : Option κ) → Nest κ β → Prop
  | _, nil => True
  | left, node p v s n =>
      cells p = some (mk n.head left s.head v) ∧ Held cells (some p) s ∧ Held cells (some p) n

/-- The node of a frame; `h` is the first node in the place. -/
def Frame.cell (left h : Option κ) : Frame κ β → ν
  | .sub _ v n => mk n.head left h v
  | .next _ v s => mk h left s.head v

/-- What is around a place is in the store; `h` is the first node in the place. -/
def HeldAround (cells : κ → Option ν) : List (Frame κ β) → (h : Option κ) → Prop
  | [], _ => True
  | f :: fs, h =>
      cells f.key = some (f.cell mk (up fs) h) ∧ Held mk cells (some f.key) f.rest ∧
        HeldAround cells fs (some f.key)

variable {mk} {cells cells' : κ → Option ν}

theorem held_fill : ∀ {fs : List (Frame κ β)} {t : Nest κ β},
    Held mk cells none (fill fs t) ↔ HeldAround mk cells fs t.head ∧ Held mk cells (up fs) t
  | [], _ => ⟨fun h => ⟨trivial, h⟩, fun h => h.2⟩
  | f :: fs, t => by
    rw [fill_cons, held_fill, Frame.head_fill]
    cases f with
    | sub p v n =>
      refine ⟨fun ⟨hfs, hp, ht, hn⟩ => ⟨⟨hp, hn, hfs⟩, ht⟩, fun ⟨⟨hp, hn, hfs⟩, ht⟩ => ?_⟩
      exact ⟨hfs, hp, ht, hn⟩
    | next p v s =>
      refine ⟨fun ⟨hfs, hp, hs, ht⟩ => ⟨⟨hp, hs, hfs⟩, ht⟩, fun ⟨⟨hp, hs, hfs⟩, ht⟩ => ?_⟩
      exact ⟨hfs, hp, hs, ht⟩

/-- Only the nodes of a row matter. -/
theorem Held.congr : ∀ {t : Nest κ β} {left : Option κ}, Held mk cells left t →
    (∀ p ∈ t.keys, cells' p = cells p) → Held mk cells' left t
  | nil, _, _, _ => trivial
  | node p v s n, left, ⟨hp, hs, hn⟩, hsame => by
    refine ⟨(hsame p List.mem_cons_self).trans hp, hs.congr fun q hq => ?_,
      hn.congr fun q hq => ?_⟩
    · exact hsame q (List.mem_cons_of_mem _ (List.mem_append_left _ hq))
    · exact hsame q (List.mem_cons_of_mem _ (List.mem_append_right _ hq))

/-- The first node of a row gets another back link. -/
theorem Held.relink {v : β} {s n : Nest κ β} {left left' : Option κ}
    (h : Held mk cells left (node p v s n)) (hnodup : (node p v s n).keys.Nodup)
    (hp : cells' p = some (mk n.head left' s.head v))
    (hsame : ∀ q ∈ (node p v s n).keys, q ≠ p → cells' q = cells q) :
    Held mk cells' left' (node p v s n) := by
  have hnot := (List.nodup_cons.mp hnodup).1
  have hrest : ∀ q ∈ s.keys ++ n.keys, cells' q = cells q := fun q hq =>
    hsame q (List.mem_cons_of_mem _ hq) fun heq => hnot (heq ▸ hq)
  exact ⟨hp, h.2.1.congr fun q hq => hrest q (List.mem_append_left _ hq),
    h.2.2.congr fun q hq => hrest q (List.mem_append_right _ hq)⟩

theorem HeldAround.congr : ∀ {fs : List (Frame κ β)} {h : Option κ}, HeldAround mk cells fs h →
    (∀ p ∈ around fs, cells' p = cells p) → HeldAround mk cells' fs h
  | [], _, _, _ => trivial
  | f :: fs, h, ⟨hf, hrest, hfs⟩, hsame => by
    rw [around_cons] at hsame
    refine ⟨(hsame _ (List.mem_append_left _ List.mem_cons_self)).trans hf,
      hrest.congr fun q hq => ?_, hfs.congr fun q hq => ?_⟩
    · exact hsame q (List.mem_append_left _ (List.mem_cons_of_mem _ hq))
    · exact hsame q (List.mem_append_right _ hq)

/-- The store leads to another first node in the place, and nothing else around it changes. -/
structure Retargets (mk : Option κ → Option κ → Option κ → β → ν) (cells cells' : κ → Option ν)
    (fs : List (Frame κ β)) (h : Option κ) : Prop where
  innermost : ∀ f gs, fs = f :: gs → cells' f.key = some (f.cell mk (up gs) h)
  others : ∀ p ∈ around fs, up fs ≠ some p → cells' p = cells p

theorem HeldAround.retarget {h h' : Option κ}
    (hfs : HeldAround mk cells fs h) (hnodup : (around fs).Nodup)
    (hto : Retargets mk cells cells' fs h') : HeldAround mk cells' fs h' := by
  cases fs with
  | nil => trivial
  | cons f fs =>
    have hnot : f.key ∉ f.rest.keys ++ around fs := (List.nodup_cons.mp hnodup).1
    have hsame : ∀ p ∈ f.rest.keys ++ around fs, cells' p = cells p := fun p hp =>
      hto.others p (List.mem_cons_of_mem _ hp) fun heq => hnot (Option.some.inj heq ▸ hp)
    exact ⟨hto.innermost f fs rfl,
      hfs.2.1.congr fun p hp => hsame p (List.mem_append_left _ hp),
      hfs.2.2.congr fun p hp => hsame p (List.mem_append_right _ hp)⟩

/-- Another row in a place. -/
theorem Held.replace {t t' : Nest κ β}
    (h : Held mk cells none (fill fs t)) (hnodup : (fill fs t).keys.Nodup)
    (hto : Retargets mk cells cells' fs t'.head) (ht' : Held mk cells' (up fs) t') :
    Held mk cells' none (fill fs t') := by
  have hsplit := held_fill.mp h
  have hfs := (List.nodup_append.mp ((keys_fill fs t).nodup_iff.mp hnodup)).1
  exact held_fill.mpr ⟨hsplit.1.retarget hfs hto, ht'⟩

/-- The store and the first key determine the row. -/
theorem Held.unique (hmk : ∀ {a b c v a' b' c' v'}, mk a b c v = mk a' b' c' v' →
      a = a' ∧ b = b' ∧ c = c' ∧ v = v') :
    ∀ {t t' : Nest κ β} {left left' : Option κ}, Held mk cells left t → Held mk cells left' t' →
      t.head = t'.head → t = t'
  | nil, nil, _, _, _, _, _ => rfl
  | nil, node _ _ _ _, _, _, _, _, hhead => nomatch hhead
  | node _ _ _ _, nil, _, _, _, _, hhead => nomatch hhead
  | node p v s n, node q w s' n', left, left', ⟨hp, hs, hn⟩, ⟨hq, hs', hn'⟩, hhead => by
    cases hhead
    obtain ⟨hnext, -, hsub, rfl⟩ := hmk (Option.some.inj (hp.symm.trans hq))
    rw [Held.unique hmk hs hs' hsub, Held.unique hmk hn hn' hnext]

end Unisym.Nests
