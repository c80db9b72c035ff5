/-
# `Sort` — the sorting modes

`sort.cpp`.  The algorithms see an array through `Length`, `Locate` and `Exchange` only.  An `ArrayTrait` is any
implementation that behaves as an indexed array for the indices below `Length()`; what it does for others is not
known, so a call with another index has no result here.

Differences that may be negative are computed in a `stduint`: `count - 1` is the largest number for an empty array.  The recursions take a bound on
their depth, for which `Length()` is enough.
-/
import Mathlib.Algebra.Group.Nat.Defs
import Unisym.Library.Reorder

namespace Unisym.Sorting

/-- An implementation of `ArrayTrait`, with the array's items in each of its states. -/
structure ArrayTrait (α : Type) where
  State : Type
  items : State → List α
  Exchange : State → Nat → Nat → State
  items_Exchange : ∀ s i j, i < (items s).length → j < (items s).length →
    items (Exchange s i j) = (items s).swap i j
  /-- The items have addresses, which a `stdsint` can number. -/
  length_lt : ∀ s, (items s).length < 2 ^ 63

/-- The modes that have an implementation. -/
inductive SortMode where
  | Bubble | Insertion | Selection | Heap | Merge | Quick
  deriving DecidableEq

/-- `a - b` in a `stduint`. -/
def sub (a b : Nat) : Nat := (a + (2 ^ 64 - b)) % 2 ^ 64

namespace ArrayTrait

variable {α : Type} (arr : ArrayTrait α) (cmp : α → α → Int)

def Length (s : arr.State) : Nat := (arr.items s).length

/-- `cmp(arr.Locate(i), arr.Locate(j))` -/
def compare (s : arr.State) (i j : Nat) : Option Int := do
  let a ← (arr.items s)[i]?
  let b ← (arr.items s)[j]?
  some (cmp a b)

/-- `arr.Exchange(i, j)` -/
def exchange (s : arr.State) (i j : Nat) : Option arr.State :=
  if i < arr.Length s ∧ j < arr.Length s then some (arr.Exchange s i j) else none

/-! ## Neighbours -/

/-- The inner loop of `SortBubble`, `n` times from `j` on. -/
def bubblePass : (n j : Nat) → (swapped : Bool) → arr.State → Option (Bool × arr.State)
  | 0, _, swapped, s => some (swapped, s)
  | n + 1, j, swapped, s => do
      if (← arr.compare cmp s j (j + 1)) > 0 then bubblePass n (j + 1) true (← arr.exchange s j (j + 1))
      else bubblePass n (j + 1) swapped s

def bubbleLoop (count : Nat) : (n i : Nat) → arr.State → Option arr.State
  | 0, _, s => some s
  | n + 1, i, s => do
      let (swapped, s) ← bubblePass arr cmp (count - i - 1) 0 false s
      if swapped then bubbleLoop count n (i + 1) s else some s

def SortBubble (s : arr.State) : Option arr.State := bubbleLoop arr cmp (arr.Length s) (arr.Length s) 0 s

/-- The inner loop of `SortInsertion`, for `j + 1`. -/
def sink : Nat → arr.State → Option arr.State
  | 0, s => some s
  | j + 1, s => do
      if (← arr.compare cmp s j (j + 1)) > 0 then sink j (← arr.exchange s j (j + 1)) else some s

/-- The loop of `SortInsertion`, `n` times from `i` on. -/
def insertionLoop : (n i : Nat) → arr.State → Option arr.State
  | 0, _, s => some s
  | n + 1, i, s => do insertionLoop n (i + 1) (← sink arr cmp i s)

def SortInsertion (s : arr.State) : Option arr.State := insertionLoop arr cmp (sub (arr.Length s) 1) 1 s

/-! ## Selection -/

/-- The inner loop of `SortSelection`, `n` times from `j` on. -/
def findLeast (s : arr.State) : (n j clim_one : Nat) → Option Nat
  | 0, _, clim_one => some clim_one
  | n + 1, j, clim_one => do
      if (← arr.compare cmp s clim_one j) > 0 then findLeast s n (j + 1) j else findLeast s n (j + 1) clim_one

/-- The loop of `SortSelection`, `n` times from `i` on. -/
def selectionLoop (count : Nat) : (n i : Nat) → arr.State → Option arr.State
  | 0, _, s => some s
  | n + 1, i, s => do
      let clim_one ← findLeast arr cmp s (count - (i + 1)) (i + 1) i
      selectionLoop count n (i + 1) (← arr.exchange s i clim_one)

def SortSelection (s : arr.State) : Option arr.State :=
  selectionLoop arr cmp (arr.Length s) (sub (arr.Length s) 1) 0 s

/-! ## A tree -/

/-- `if (cmp(arr.Locate(i), arr.Locate(j)) < 0) arr.Exchange(i, j)` -/
def raise (s : arr.State) (i j : Nat) : Option arr.State := do
  if (← arr.compare cmp s i j) < 0 then arr.exchange s i j else some s

def SortBintreeAdapt (count : Nat) : (depth index : Nat) → arr.State → Option arr.State
  | 0, _, _ => none
  | depth + 1, index, s =>
      if count < 2 then some s
      else do
        let s ←
          if 2 * index + 1 < count then do
            raise arr cmp (← SortBintreeAdapt count depth (2 * index + 1) s) index (2 * index + 1)
          else some s
        if 2 * index + 2 < count then do
          raise arr cmp (← SortBintreeAdapt count depth (2 * index + 2) s) index (2 * index + 2)
        else some s

/-- The loop that selects the bigger ones, for `i`, `i - 1` down to 1. -/
def selectBigger : (i : Nat) → arr.State → Option arr.State
  | 0, s => some s
  | i + 1, s => do selectBigger i (← raise arr cmp s (i / 2) (i + 1))

/-- The loop that puts the leftmost item behind the others, for `count`. -/
def bintreeLoop : (count : Nat) → arr.State → Option arr.State
  | 0, s => some s
  | count + 1, s => do
      bintreeLoop count (← SortBintreeAdapt arr cmp count (count + 1) 0 (← arr.exchange s 0 count))

def SortBintree (s : arr.State) : Option arr.State :=
  let count := arr.Length s
  if count < 2 then some s else do bintreeLoop arr cmp count (← selectBigger arr cmp (count - 2) s)

/-! ## Merging -/

/-- `for0(i, lleft) arr.Exchange(pright, pleft + i)`, `n` times with `pleft + i` from `p` on -/
def rotate (pright : Nat) : (n p : Nat) → arr.State → Option arr.State
  | 0, _, s => some s
  | n + 1, p, s => do rotate pright n (p + 1) (← arr.exchange s pright p)

/-- The loop of `SortMerge_MergeArn`, `n` times at most. -/
def mergeLoop : (n pleft pright lleft lright : Nat) → arr.State → Option arr.State
  | 0, _, _, lleft, lright, s => if lleft ≠ 0 ∧ lright ≠ 0 then none else some s
  | n + 1, pleft, pright, lleft, lright, s =>
      if lleft ≠ 0 ∧ lright ≠ 0 then do
        if (← arr.compare cmp s pleft pright) ≤ 0 then mergeLoop n (pleft + 1) pright (lleft - 1) lright s
        else mergeLoop n (pleft + 1) (pright + 1) lleft (lright - 1) (← rotate arr pright lleft pleft s)
      else some s

def SortMerge_MergeArn (left lens : Nat) (s : arr.State) : Option arr.State :=
  if lens < 2 then some s else mergeLoop arr cmp lens left (left + lens / 2) (lens / 2) (lens - lens / 2) s

def SortMergeSub : (depth left lens : Nat) → arr.State → Option arr.State
  | 0, _, _, _ => none
  | depth + 1, left, lens, s =>
      if lens < 2 then some s
      else do
        let s ← SortMergeSub depth left (lens / 2) s
        let s ← SortMergeSub depth (left + lens / 2) (lens - lens / 2) s
        SortMerge_MergeArn arr cmp left lens s

def SortMerge (s : arr.State) : Option arr.State := SortMergeSub arr cmp (arr.Length s + 1) 0 (arr.Length s) s

/-! ## Around a key -/

/-- `while (head < tail && cmp(key, tail) <= 0) tail--`, with `tail - head = n` -/
def tailDown (s : arr.State) (key head : Nat) : (n : Nat) → Option Nat
  | 0 => some head
  | n + 1 => do
      if (← arr.compare cmp s key (head + (n + 1))) ≤ 0 then tailDown s key head n else some (head + (n + 1))

/-- `while (head < tail && cmp(head, key) <= 0) head++`, with `tail - head = n` -/
def headUp (s : arr.State) (key : Nat) : (n head : Nat) → Option Nat
  | 0, head => some head
  | n + 1, head => do
      if (← arr.compare cmp s head key) ≤ 0 then headUp s key n (head + 1) else some head

/-- `if (head < tail) { arr.Exchange(key, p); key = p; }` -/
def moveKey (s : arr.State) (head tail key p : Nat) : Option (Nat × arr.State) :=
  if head < tail then (arr.exchange s key p).map (p, ·) else some (key, s)

/-- The outer loop of `SortQuickSub`, `n` times at most: the place of the key. -/
def partitionLoop : (n head tail key : Nat) → arr.State → Option (Nat × arr.State)
  | 0, head, tail, key, s => if head < tail then none else some (key, s)
  | n + 1, head, tail, key, s =>
      if head < tail then do
        let tail ← tailDown arr cmp s key head (tail - head)
        let (key, s) ← moveKey arr s head tail key tail
        let head ← headUp arr cmp s key (tail - head) head
        let (key, s) ← moveKey arr s head tail key head
        partitionLoop n head tail key s
      else some (key, s)

def SortQuickSub : (depth left lens : Nat) → arr.State → Option arr.State
  | 0, _, _, _ => none
  | depth + 1, left, lens, s =>
      if lens < 2 then some s
      else do
        let (key, s) ← partitionLoop arr cmp lens left (left + lens - 1) left s
        let s ← SortQuickSub depth left (key - left) s
        SortQuickSub depth (key + 1) (sub ((sub lens key + left) % 2 ^ 64) 1) s

def SortQuick (s : arr.State) : Option arr.State := SortQuickSub arr cmp (arr.Length s + 1) 0 (arr.Length s) s

def sort (mode : SortMode) (s : arr.State) : Option arr.State :=
  match mode with
  | .Bubble => SortBubble arr cmp s
  | .Insertion => SortInsertion arr cmp s
  | .Selection => SortSelection arr cmp s
  | .Heap => SortBintree arr cmp s
  | .Merge => SortMerge arr cmp s
  | .Quick => SortQuick arr cmp s

end ArrayTrait

end Unisym.Sorting
