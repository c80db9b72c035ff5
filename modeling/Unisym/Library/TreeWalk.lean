/-
# `TreeWalk` — walks in a tree of named nodes

A place is a node with the nodes above it, the nearest first.  A walk goes on from directories only, and
the root is its own parent.
-/
import Mathlib.Data.List.Basic

namespace Unisym

/-- Nodes, of which some are directories and have children by name. -/
structure NamedTree (ν α : Type) where
  root : α
  isDir : α → Bool
  child : α → ν → Option α

/-- A node and the nodes above it, the nearest first. -/
structure Place (α : Type) where
  node : α
  above : List α

inductive PathStep (ν : Type) where
  | stay
  | up
  | down (name : ν)

namespace NamedTree

variable {ν α : Type} (t : NamedTree ν α)

def rootPlace : Place α := ⟨t.root, []⟩

/-- The node above; the root is its own parent. -/
def parent (p : Place α) : α := p.above.headD t.root

/-- One step from a directory. -/
def step (p : Place α) : PathStep ν → Option (Place α)
  | .stay => some p
  | .up => some (match p.above with
      | [] => p
      | a :: above => ⟨a, above⟩)
  | .down name => (t.child p.node name).map fun n => ⟨n, p.node :: p.above⟩

def walk (p : Place α) : List (PathStep ν) → Option (Place α)
  | [] => some p
  | s :: ss => if t.isDir p.node then (t.step p s).bind fun q => walk q ss else none

theorem walk_append (ss ss' : List (PathStep ν)) : ∀ p : Place α,
    t.walk p (ss ++ ss') = (t.walk p ss).bind fun q => t.walk q ss' := by
  induction ss with
  | nil =>
    intro p
    rfl
  | cons s ss ih =>
    intro p
    cases hdir : t.isDir p.node with
    | false => simp only [List.cons_append, walk, hdir, Bool.false_eq_true, if_false,
        Option.bind_none]
    | true =>
      simp only [List.cons_append, walk, hdir, if_true, Option.bind_assoc]
      exact congrArg _ (funext fun q => ih q)

/-! ## The places of the tree -/

/-- The nodes above lead from the root to the node, each a child of a directory. -/
def Descends : α → List α → Prop
  | n, [] => n = t.root
  | n, a :: above => t.isDir a = true ∧ (∃ name, t.child a name = some n) ∧ Descends a above

/-- A place of the tree. -/
def HasPlace (p : Place α) : Prop := t.Descends p.node p.above

theorem hasPlace_root : t.HasPlace t.rootPlace := rfl

variable {t}

theorem HasPlace.step {p q : Place α} {s : PathStep ν} (hp : t.HasPlace p)
    (hdir : t.isDir p.node = true) (h : t.step p s = some q) : t.HasPlace q := by
  cases s with
  | stay =>
    cases h
    exact hp
  | up =>
    cases h
    rcases p with ⟨n, _ | ⟨a, above⟩⟩
    · exact hp
    · exact hp.2.2
  | down name =>
    obtain ⟨n, hn, rfl⟩ := Option.map_eq_some_iff.mp h
    exact ⟨hdir, ⟨name, hn⟩, hp⟩

/-- Up from a directory is its parent, a directory too. -/
theorem HasPlace.step_up {p q : Place α} (hp : t.HasPlace p) (hdir : t.isDir p.node = true)
    (h : t.step p .up = some q) : q.node = t.parent p ∧ t.isDir q.node = true := by
  cases h
  rcases p with ⟨n, _ | ⟨a, above⟩⟩
  · exact ⟨hp, hdir⟩
  · exact ⟨rfl, hp.1⟩

/-- A name that no directory of the tree has ends every walk. -/
theorem walk_none_of_missing {name : ν} (hname : ∀ p, t.HasPlace p → t.isDir p.node = true →
    t.child p.node name = none) : (ss : List (PathStep ν)) → .down name ∈ ss → (p : Place α) →
    t.HasPlace p → t.walk p ss = none
  | s :: ss, hmem, p, hp => by
    cases hdir : t.isDir p.node with
    | false => simp [NamedTree.walk, hdir]
    | true =>
      rw [NamedTree.walk, hdir, if_pos rfl]
      rcases List.mem_cons.mp hmem with rfl | hmem
      · rw [NamedTree.step, hname p hp hdir, Option.map_none, Option.bind_none]
      · cases hstep : t.step p s with
        | none => rfl
        | some q => exact walk_none_of_missing hname ss hmem q (hp.step hdir hstep)

end NamedTree

end Unisym
