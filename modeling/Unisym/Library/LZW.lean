/-
# `LZW` — codes for strings, learnt by both sides

The codes below `roots` stand for single symbols, those from `first` on for the strings learnt so far: each
is the string before it in the text with one symbol more.  The one who writes knows this symbol when
it writes the next code, and may use the new string at once; the one who reads knows it only afterwards
(`read_of_written`).
-/
import Mathlib.Data.List.Basic

namespace Unisym.LZW

variable {α : Type}

/-- Which codes there are. -/
structure Coding (α : Type) where
  roots : Nat
  symbol : Nat → α
  first : Nat
  capacity : Nat
  roots_le : roots ≤ first

/-- The strings learnt so far, and the one before in the text. -/
structure Dict (α : Type) where
  entries : List (List α)
  last : Option (List α)

namespace Coding

variable (c : Coding α)

/-- The string of a code. -/
def lookup (entries : List (List α)) (code : Nat) : Option (List α) :=
  if code < c.roots then some [c.symbol code]
  else if c.first ≤ code then entries[code - c.first]?
  else none

/-- The strings known when `s` is the next one in the text. -/
def extend (d : Dict α) (s : List α) : List (List α) :=
  match d.last with
  | none => d.entries
  | some w => if c.first + d.entries.length < c.capacity then d.entries ++ [w ++ s.take 1] else d.entries

def push (d : Dict α) (s : List α) : Dict α := ⟨c.extend d s, some s⟩

/-- The dictionary after a clear code. -/
def cleared : Dict α := ⟨[], none⟩

/-- How many strings there are, with the one whose last symbol is still to come. -/
def size (d : Dict α) : Nat := (c.extend d []).length

theorem length_extend (d : Dict α) (s : List α) : (c.extend d s).length = c.size d := by
  unfold size extend
  cases d.last with
  | none => rfl
  | some w =>
    dsimp only
    split <;> simp

/-- The string of a code, for the one who reads: the next free code is the string before it and its first
symbol again. -/
def read (d : Dict α) (code : Nat) : Option (List α) :=
  if code = c.first + d.entries.length then d.last.map fun w => w ++ w.take 1
  else c.lookup d.entries code

variable {code : Nat} {entries : List (List α)} {s : List α}

variable {c} in
theorem lookup_root (h : code < c.roots) (entries : List (List α)) :
    c.lookup entries code = some [c.symbol code] := if_pos h

variable {c} in
theorem lookup_entry (h : c.first ≤ code) (entries : List (List α)) :
    c.lookup entries code = entries[code - c.first]? := by
  have hroots := c.roots_le
  rw [lookup, if_neg (by omega), if_pos h]

/-- A code with a string is a root or that of an entry. -/
theorem lookup_cases
    (h : c.lookup entries code = some s) :
    code < c.roots ∨ c.first ≤ code ∧ entries[code - c.first]? = some s := by
  unfold lookup at h
  split at h
  · exact .inl ‹_›
  split at h
  · exact .inr ⟨‹_›, h⟩
  · cases h

theorem lookup_lt
    (h : c.lookup entries code = some s) : code < c.first + entries.length := by
  have hroots := c.roots_le
  rcases c.lookup_cases h with hroot | ⟨hfirst, hentry⟩
  · omega
  · have := (List.getElem?_eq_some_iff.mp hentry).1
    omega

/-- A string that is known stays known. -/
theorem lookup_append
    (h : code < c.first + entries.length) (more : List (List α)) :
    c.lookup (entries ++ more) code = c.lookup entries code := by
  unfold lookup
  split
  · rfl
  split
  · rw [List.getElem?_append_left (by omega)]
  · rfl

/-- The reader, one string behind, has the same string for a code as the writer. -/
theorem read_of_written {d : Dict α} (hlast : ∀ w ∈ d.last, w ≠ [])
    (h : c.lookup (c.extend d s) code = some s) : c.read d code = some s := by
  have hlt := c.lookup_lt h
  have hroots := c.roots_le
  unfold extend at h hlt
  unfold read
  cases hd : d.last with
  | none =>
    simp only [hd] at h hlt
    rw [if_neg (Nat.ne_of_lt hlt)]
    exact h
  | some w =>
    simp only [hd] at h hlt
    split at h
    case isFalse hfull =>
      rw [if_neg hfull] at hlt
      rw [if_neg (Nat.ne_of_lt hlt)]
      exact h
    case isTrue hroom =>
      rw [if_pos hroom, List.length_append, List.length_singleton] at hlt
      split
      -- the string is the one that the reader does not know yet
      case isTrue hnext =>
        rw [hnext, lookup_entry (Nat.le_add_right _ _), Nat.add_sub_cancel_left,
          List.getElem?_concat_length, Option.some.injEq] at h
        have hfirst : s.take 1 = w.take 1 := by
          rw [← h, List.take_append_of_le_length (List.length_pos_iff.mpr (hlast w hd))]
        rw [Option.map_some, ← hfirst, h]
      case isFalse hold =>
        rwa [c.lookup_append (by omega)] at h

/-- A code that the reader knows is one that the writer could have used. -/
theorem written_of_read {d : Dict α} (hlast : ∀ w ∈ d.last, w ≠ [])
    (hcode : code < c.capacity) (h : c.read d code = some s) :
    c.lookup (c.extend d s) code = some s := by
  unfold read at h
  unfold extend
  split at h
  case isTrue hnext =>
    obtain ⟨w, hw, rfl⟩ := Option.map_eq_some_iff.mp h
    simp only [hw]
    rw [if_pos (by omega), hnext, lookup_entry (Nat.le_add_right _ _), Nat.add_sub_cancel_left,
      List.getElem?_concat_length, List.take_append_of_le_length
        (List.length_pos_iff.mpr (hlast w hw))]
  case isFalse =>
    have hlt := c.lookup_lt h
    cases d.last with
    | none => exact h
    | some w =>
      dsimp only
      split
      · rwa [c.lookup_append hlt]
      · exact h

/-- A text, written as codes with their widths: clear codes anywhere, and a stop code at the end or none.
A code has the width that the number of strings asks for. -/
inductive Writes (clear stop : Nat) (width : Nat → Nat) :
    Dict α → List (Nat × Nat) → List α → Prop
  | nil {d : Dict α} : Writes clear stop width d [] []
  | stop {d : Dict α} : Writes clear stop width d [(stop, width (c.size d))] []
  | clear {d : Dict α} {codes : List (Nat × Nat)} {text : List α} :
      Writes clear stop width cleared codes text →
      Writes clear stop width d ((clear, width (c.size d)) :: codes) text
  | code {d : Dict α} {code : Nat} {s : List α} {codes : List (Nat × Nat)} {text : List α} :
      s ≠ [] → c.lookup (c.extend d s) code = some s →
      Writes clear stop width (c.push d s) codes text →
      Writes clear stop width d ((code, width (c.size d)) :: codes) (s ++ text)

end Coding

end Unisym.LZW
