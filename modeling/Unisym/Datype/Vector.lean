/-
# `Vector` — the vector

A vector owns storage of `limit` cells, the first `count` of which are its elements.  An
access to a cell that the storage does not have, or that was never written, gives nothing.
Whether an allocation succeeds is told to each call.  What a call is given by reference may
be an element of the vector itself.
-/
import Unisym.Library.Cells
import Mathlib.Algebra.Group.Nat.Defs
import Mathlib.Algebra.Group.Int.Defs

namespace Unisym.Datype

open Function Cells

/-- `~stduint(0)` -/
def wordMax : Nat := 2 ^ 64 - 1

/-- The element type. -/
structure Elem (α : Type) where
  /-- `sizeof(type0)` -/
  size : Nat
  /-- `alignof(type0)` -/
  align : Nat
  /-- `type0{}` -/
  zero : α
  size_pos : 0 < size

namespace Elem

variable {α : Type}

def cookie (e : Elem α) : Nat := if e.align > 8 then e.align else 8

def maximum (e : Elem α) : Nat := (wordMax - e.cookie) / e.size

/-- The limit that `Enlarge` chooses; the difference is one of unsigned words. -/
def grown (e : Elem α) (limit : Nat) : Nat :=
  if limit < (e.maximum + 2 ^ 64 - 2) % 2 ^ 64 / 2 then (limit + 1) * 2 % 2 ^ 64 else e.maximum

end Elem

/-- `Vector`; `addr` is null when the storage has no cell. -/
structure Vector (α : Type) where
  cells : List (Option α)
  count : Nat

/-- What a reference or a pointer to an element refers to. -/
inductive Source (α : Type) where
  /-- An object elsewhere. -/
  | value (x : α)
  /-- An element of the vector that is called. -/
  | item (j : Nat)

/-- What a source holds while the vector's storage is `cells`. -/
def Source.read {α : Type} (cells : List (Option α)) : Source α → Option α
  | value x => some x
  | item j => fetch cells j

namespace Vector

variable {α : Type}

def limit (v : Vector α) : Nat := v.cells.length

/-- `Vector()` -/
def new : Vector α := ⟨[], 0⟩

def enlarge (e : Elem α) (v : Vector α) (toLimit : Nat) (alloc : Bool) :
    Option (Bool × Vector α) :=
  if toLimit = 0 ∧ v.limit ≥ e.maximum then some (false, v)
  else
    let toLimit := if toLimit = 0 then e.grown v.limit else toLimit
    if toLimit ≤ v.limit then some (true, v)
    else if toLimit > e.maximum then some (false, v)
    else if alloc = false then some (false, v)
    else do
      let cells ← assign id (fun i _ => fetch v.cells i) v.count (List.replicate toLimit none)
      some (true, ⟨cells, v.count⟩)

/-- `Vector(v)` -/
def copy (e : Elem α) (w : Vector α) (alloc : Bool) : Option (Vector α) := do
  let (ok, v) ← (if w.count ≠ 0 then new.enlarge e w.count alloc else some (true, new))
  if ok = false then some v
  else
    let cells ← assign id (fun i _ => fetch w.cells i) w.count v.cells
    some ⟨cells, w.count⟩

/-- `operator=(v)` of another vector -/
def assignFrom (e : Elem α) (v w : Vector α) (alloc : Bool) : Option (Vector α) := do
  let (ok, v) ← (if w.count > v.limit then v.enlarge e w.count alloc else some (true, v))
  if ok = false then some v
  else
    let cells ← assign id (fun i _ => fetch w.cells i) w.count v.cells
    let cells ← assign (fun k => w.count + k) (fun _ _ => some e.zero) (v.count - w.count) cells
    some ⟨cells, w.count⟩

/-- `From(content, times)` -/
def fromTimes (e : Elem α) (content : α) (times : Nat) (alloc : Bool) : Option (Vector α) := do
  let (ok, v) ← (if times ≠ 0 then new.enlarge e times alloc else some (true, new))
  if ok = false then some v
  else
    let cells ← assign id (fun _ _ => some content) times v.cells
    some ⟨cells, times⟩

/-- A number of elements as `stdint`. -/
def toStdint (n : Nat) : Int := if n < 2 ^ 63 then n else (n : Int) - 2 ^ 64

/-- The cell of which `operator[](idx)` gives a reference. -/
def slot (v : Vector α) (idx : Int) : Nat :=
  if idx > toStdint v.count then
    if v.count ≠ 0 then v.count - 1 else 0
  else
    ((if idx < 0 then idx + v.count else idx) % 2 ^ 64).toNat

/-- `Insert(idx, dat)` and `Append(idx, x)`; a null pointer is no source. -/
def insert (v : Vector α) (idx : Nat) (dat : Option (Source α)) : Option (Bool × Vector α) :=
  match dat with
  | none => some (false, v)
  | some dat =>
      if v.count ≥ v.limit ∨ idx > v.count then some (false, v)
      else do
        let cells ← assign (fun i => v.count - i) (fun i m => fetch m (v.count - i - 1))
          (v.count - idx) v.cells
        let x ← dat.read cells
        let cells ← store cells idx x
        some (true, ⟨cells, v.count + 1⟩)

def append (e : Elem α) (v : Vector α) (x : Source α) (alloc : Bool) :
    Option (Bool × Vector α) := do
  let item ← x.read v.cells
  let (ok, v) ← (if v.count ≥ v.limit then v.enlarge e 0 alloc else some (true, v))
  if ok = false then some (false, v)
  else
    let cells ← store v.cells v.count item
    some (true, ⟨cells, v.count + 1⟩)

def remove (e : Elem α) (v : Vector α) (idx times : Nat) : Option (Bool × Vector α) :=
  if times = 0 then some (true, v)
  else if idx ≥ v.count ∨ times > v.count - idx then some (false, v)
  else do
    let cells ← assign (fun i => idx + i) (fun i m => fetch m (idx + times + i))
      (v.count - idx - times) v.cells
    let cells ← assign (fun k => v.count - times + k) (fun _ _ => some e.zero) times cells
    some (true, ⟨cells, v.count - times⟩)

/-- `Exchange(idx1, idx2)`; the bytes are exchanged. -/
def exchange (v : Vector α) (idx1 idx2 : Nat) : Option (Bool × Vector α) :=
  if idx1 = idx2 then some (true, v)
  else if idx1 ≥ v.count ∨ idx2 ≥ v.count then some (false, v)
  else do
    let buf ← v.cells[idx1]?
    let other ← v.cells[idx2]?
    some (true, ⟨(v.cells.set idx1 other).set idx2 buf, v.count⟩)

def clear (e : Elem α) (v : Vector α) : Option (Bool × Vector α) := do
  let cells ← assign id (fun _ _ => some e.zero) v.count v.cells
  some (true, ⟨cells, 0⟩)

/-! ## Calls -/

/-- A call on one of many vectors. -/
inductive Call (α : Type) where
  | new (a : Nat)
  | copy (a b : Nat)
  | fromTimes (a : Nat) (content : α) (times : Nat)
  | assignFrom (a b : Nat)
  | insert (a idx : Nat) (dat : Option (Source α))
  | append (a : Nat) (x : Source α)
  | remove (a idx times : Nat)
  | exchange (a idx1 idx2 : Nat)
  | clear (a : Nat)

/-- What a call returns, and the vectors after it; a constructor and an assignment return no
truth value, which is given as true. -/
def step (e : Elem α) (vs : Nat → Vector α) (alloc : Bool) :
    Call α → Option (Bool × (Nat → Vector α))
  | .new a => some (true, update vs a new)
  | .copy a b => ((vs b).copy e alloc).map fun v => (true, update vs a v)
  | .fromTimes a content times =>
      (fromTimes e content times alloc).map fun v => (true, update vs a v)
  | .assignFrom a b =>
      if a ≠ b then ((vs a).assignFrom e (vs b) alloc).map fun v => (true, update vs a v)
      else some (true, vs)
  | .insert a idx dat => ((vs a).insert idx dat).map fun r => (r.1, update vs a r.2)
  | .append a x => ((vs a).append e x alloc).map fun r => (r.1, update vs a r.2)
  | .remove a idx times => ((vs a).remove e idx times).map fun r => (r.1, update vs a r.2)
  | .exchange a idx1 idx2 => ((vs a).exchange idx1 idx2).map fun r => (r.1, update vs a r.2)
  | .clear a => ((vs a).clear e).map fun r => (r.1, update vs a r.2)

/-- Some calls, each with the answer of the allocator, and what they return. -/
def run (e : Elem α) (vs : Nat → Vector α) :
    List (Bool × Call α) → Option (List Bool × (Nat → Vector α))
  | [] => some ([], vs)
  | (alloc, call) :: calls => do
      let (r, vs) ← step e vs alloc call
      let (rs, vs) ← run e vs calls
      some (r :: rs, vs)

end Vector

end Unisym.Datype
