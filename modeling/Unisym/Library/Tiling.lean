/-
# `Tiling` — entries one after the other

Entries of some length that begin where the one before ends: the layout of records, of fields in a
word or of messages in a stream.
-/
import Mathlib.Data.List.Basic

namespace Unisym.Tiling

variable {ι : Type} {start size : ι → Nat}

/-- The entries take the places from `lo` to `hi`, each from the end of the one before. -/
def Tiles (start size : ι → Nat) : (lo : Nat) → List ι → (hi : Nat) → Prop
  | lo, [], hi => lo = hi
  | lo, x :: xs, hi => start x = lo ∧ Tiles start size (lo + size x) xs hi

theorem Tiles.append : {lo mid hi : Nat} → {xs ys : List ι} → Tiles start size lo xs mid →
    Tiles start size mid ys hi → Tiles start size lo (xs ++ ys) hi
  | _, _, _, [], _, h, h' => by
    cases h
    exact h'
  | _, _, _, _ :: _, _, ⟨hstart, h⟩, h' => ⟨hstart, h.append h'⟩

theorem Tiles.concat {lo hi : Nat} {xs : List ι} {x : ι} (h : Tiles start size lo xs hi)
    (hx : start x = hi) : Tiles start size lo (xs ++ [x]) (hi + size x) :=
  h.append ⟨hx, rfl⟩

theorem Tiles.le : {lo hi : Nat} → {xs : List ι} → Tiles start size lo xs hi → lo ≤ hi
  | _, _, [], h => Nat.le_of_eq h
  | _, _, _ :: _, ⟨_, h⟩ => Nat.le_trans (Nat.le_add_right _ _) h.le

/-- Every entry lies between the ends. -/
theorem Tiles.within : {lo hi : Nat} → {xs : List ι} → Tiles start size lo xs hi → {x : ι} →
    x ∈ xs → lo ≤ start x ∧ start x + size x ≤ hi
  | _, _, y :: xs, ⟨hstart, h⟩, x, hx => by
    rcases List.mem_cons.mp hx with rfl | hx
    · exact ⟨Nat.le_of_eq hstart.symm, hstart ▸ h.le⟩
    · obtain ⟨hlo, hhi⟩ := h.within hx
      exact ⟨Nat.le_trans (Nat.le_add_right _ _) hlo, hhi⟩

/-- No two entries have a place in common. -/
theorem Tiles.disjoint : {lo hi : Nat} → {xs : List ι} → Tiles start size lo xs hi →
    xs.Pairwise fun x y => start x + size x ≤ start y
  | _, _, [], _ => List.Pairwise.nil
  | _, _, _ :: _, ⟨hstart, h⟩ =>
    .cons (fun _ hy => hstart ▸ (h.within hy).1) h.disjoint

end Unisym.Tiling
