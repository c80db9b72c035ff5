/-
# `ArrayInitializer` — initialiser lists of arrays

`FillArrayInitializerSlots` walks an initialiser list and puts each expression into a slot; a braced list goes to a
sub-array, and starts the next one if the cursor is inside one.  C99 (6.7.8) does not: an array without braces takes
only as many initialisers as it has elements, and a braced list that comes while it is being filled is for its next
element (`initialise`).  The two agree where a braced list comes only between sub-arrays (`Aligned`).

Elements are scalars, and their expressions opaque; a string literal for a character array is not a list.
-/
import Mathlib.Algebra.BigOperators.Group.List.Basic

namespace Unisym.Lango.FrontendC

/-- An initialiser: an expression, or a list in braces, which is not empty -/
inductive Init (α : Type) where
  | expr (e : α)
  | block (first : Init α) (rest : List (Init α))

/-- The arithmetic of `stduint` -/
def word (n : Nat) : Nat := n % 2 ^ 64

/-! ## The code -/

section Code

variable {α : Type}

/-- `ArraySubobjectElements` for the dimensions that are left -/
def arraySubobjectElements (dims : List Nat) : Nat := dims.foldl (fun count d => word (count * d)) 1

mutual
def scalarInitializerCount : Init α → Nat
  | .expr _ => 1
  | .block first rest => word (scalarInitializerCount first + scalarInitializerCounts rest)

def scalarInitializerCounts : List (Init α) → Nat
  | [] => 0
  | item :: items => word (scalarInitializerCount item + scalarInitializerCounts items)
end

/-- The next start of a sub-array -/
def roundUp (cursor child : Nat) : Nat :=
  let remainder := cursor % child
  if remainder ≠ 0 then word (cursor + (child - remainder)) else cursor

/-- The body of the loop of `RequiredArrayElements` -/
def requiredStep (ds : List Nat) (cursor : Nat) : (item : Init α) → Nat
  | .expr _ => word (cursor + 1)
  | .block first rest =>
      let child := arraySubobjectElements ds
      if ds ≠ [] then word (roundUp cursor child + child)
      else word (cursor + scalarInitializerCount (.block first rest))

/-- `RequiredArrayElements` for an array of such elements -/
def requiredArrayElements (ds : List Nat) (items : List (Init α)) : Nat := items.foldl (requiredStep ds) 0

/-- What a scalar takes from an item: an expression, which may be in braces -/
def scalarItem : Init α → Option α
  | .expr e => some e
  | .block (.expr e) [] => some e
  | .block .. => none

/-- The body of the loop of `FillArrayInitializerSlots`, where `fill` is the call for a sub-array of `child` elements;
without sub-arrays there is no such call. -/
def fillStep (fill : Option (List (Init α) → List (Option α) → Nat → Nat → Option (List (Option α))))
    (child start capacity : Nat) (state : List (Option α) × Nat) (item : Init α) :
    Option (List (Option α) × Nat) :=
  let (slots, cursor) := state
  match fill, item with
  | some fill, .block first rest =>
      let cursor := roundUp cursor child
      if word (cursor + child) > capacity then none
      else (fill (first :: rest) slots (word (start + cursor)) child).map (·, word (cursor + child))
  | _, item =>
      match scalarItem item with
      | none => none
      | some e => if cursor ≥ capacity then none else some (slots.set (start + cursor) (some e), word (cursor + 1))

/-- `FillArrayInitializerSlots` for the dimensions from `dimension` on -/
def fillArrayInitializerSlots : (dims : List Nat) → (items : List (Init α)) → (slots : List (Option α)) →
    (start capacity : Nat) → Option (List (Option α))
  | [], _, _, _, _ => none
  | [_], items, slots, start, capacity => (items.foldlM (fillStep none 1 start capacity) (slots, 0)).map (·.1)
  | _ :: d :: ds, items, slots, start, capacity =>
      (items.foldlM (fillStep (some (fillArrayInitializerSlots (d :: ds))) (arraySubobjectElements (d :: ds))
        start capacity) (slots, 0)).map (·.1)

def buildArrayInitializerSlots (dims : List Nat) : (initializer : Init α) → Option (List (Option α))
  | .expr _ => none
  | .block first rest =>
      if dims = [] ∨ 0 ∈ dims then none
      else
        let count := arraySubobjectElements dims
        fillArrayInitializerSlots dims (first :: rest) (List.replicate count none) 0 count

def completeArrayTypeFromInitializer (dims : List Nat) (initializer : Init α) : Option (List Nat) :=
  match dims with
  | 0 :: ds =>
      if 0 ∈ ds then none
      else match initializer with
        | .expr _ => none
        | .block first rest =>
            let inner := arraySubobjectElements ds
            let required := requiredArrayElements ds (first :: rest)
            if required = 0 ∨ inner = 0 then none
            else some (word (required + inner - 1) / inner :: ds)
  | dims => if 0 ∈ dims then none else some dims

end Code

/-! ## The standard -/

section Standard

variable {α : Type}

/-- What is initialised from the front of a list: the values of its scalars, and the items that it leaves -/
abbrev Initialised (α : Type) := Option (List (Option α) × List (Init α))

/-- The values, if no item is left -/
def all : Initialised α → Option (List (Option α))
  | some (values, []) => some values
  | _ => none

/-- `count` objects of this size, each initialised from what is left of the list -/
def initialiseEach (object : List (Init α) → Initialised α) (size : Nat) : (count : Nat) → List (Init α) → Initialised α
  | 0, items => some ([], items)
  | count + 1, [] => some (List.replicate ((count + 1) * size) none, [])
  | count + 1, item :: items =>
      match object (item :: items) with
      | none => none
      | some (values, items) =>
          (initialiseEach object size count items).map fun (rest, items) => (values ++ rest, items)

/-- An element that is an array: if its initialiser begins with a brace, it takes what is in the braces, and no less. -/
def initialiseSubarray (object : List (Init α) → Initialised α) : List (Init α) → Initialised α
  | .block first rest :: items => (all (object (first :: rest))).map (·, items)
  | items => object items

/-- 6.7.8 for an object whose initialiser has no braces of its own: a scalar takes an expression, which may be in
braces; an array takes only enough for its elements. -/
def initialise : (dims : List Nat) → List (Init α) → Initialised α
  | [], [] => some ([none], [])
  | [], item :: items => (scalarItem item).map fun e => ([some e], items)
  | [n], items => initialiseEach (initialise []) 1 n items
  | n :: d :: ds, items => initialiseEach (initialiseSubarray (initialise (d :: ds))) (d :: ds).prod n items

/-- The values of an array whose initialiser is a braced list; nothing if the list has an excess element. -/
def initialiseBraced (dims : List Nat) : (initializer : Init α) → Option (List (Option α))
  | .expr _ => none
  | .block first rest => all (initialise dims (first :: rest))

end Standard

/-! ## Braces between sub-arrays -/

section Aligned

variable {α : Type}

/-- From this cursor on, a braced list comes only where a sub-array starts, and so do those inside it. -/
def AlignedFrom (inner : List (Init α) → Prop) (child : Nat) : (cursor : Nat) → List (Init α) → Prop
  | _, [] => True
  | cursor, .expr _ :: items => AlignedFrom inner child (cursor + 1) items
  | cursor, .block first rest :: items =>
      cursor % child = 0 ∧ inner (first :: rest) ∧ AlignedFrom inner child (cursor + child) items

/-- For an array of elements of these dimensions, no braced list comes inside a sub-array. -/
def Aligned : (ds : List Nat) → List (Init α) → Prop
  | [], _ => True
  | d :: ds, items => AlignedFrom (Aligned ds) (d :: ds).prod 0 items

end Aligned

end Unisym.Lango.FrontendC
