/-
# `SharedPtr` — `SharedPtr` and `WeakPtr` over shared control blocks

A program has finitely many `SharedPtr` variables `σ` and `WeakPtr` variables `ω`, some of them members of
objects; a constructor or an assignment may need one temporary more.  To use a block that is freed, to
delete an object twice and to access a destroyed variable have no result.  The counters are integers: as
many owners as would wrap a `stduint` do not fit into memory.
-/
import Mathlib.Data.Fintype.Card

namespace Unisym.IsoStd

open Function

/-- `ptr_` and `block_`; the null pointer is 0, the null block `none`. -/
structure Handle where
  ptr : Nat
  block : Option Nat
  deriving DecidableEq

/-- `ptr_(nullptr), block_(nullptr)` -/
def Handle.null : Handle := ⟨0, none⟩

/-- `_Local_SharedBlockOf` -/
structure SharedBlock where
  strong : Int
  weak : Int
  ptr : Nat

/-- A member of an object. -/
inductive Member (σ ω : Type)
  | shared (v : σ)
  | weak (u : ω)
  deriving DecidableEq

/-- What the program declares: the members that each object destroys, in order, and whether exceptions
are on. -/
structure Program (σ ω : Type) where
  members : Nat → List (Member σ ω)
  throws : Bool

/-- The variables (the temporary is `none`; a variable that does not exist has no handle), the blocks, and
what has been made, created with `new`, given to a constructor, deleted and freed. -/
structure Memory (σ ω : Type) where
  shared : Option σ → Option Handle
  weak : Option ω → Option Handle
  blocks : Nat → Option SharedBlock
  made : List Nat
  created : List Nat
  given : List Nat
  deleted : List Nat
  freed : List Nat

namespace Memory

variable {σ ω : Type} [DecidableEq σ] [DecidableEq ω]

/-- No variable exists. -/
def start : Memory σ ω := ⟨fun _ => none, fun _ => none, fun _ => none, [], [], [], [], []⟩

/-- A `SharedPtr` gets a handle. -/
def putShared (v : Option σ) (h : Handle) (s : Memory σ ω) : Memory σ ω :=
  { s with shared := update s.shared v (some h) }

/-- A `SharedPtr` ends. -/
def dropShared (v : Option σ) (s : Memory σ ω) : Memory σ ω :=
  { s with shared := update s.shared v none }

def putWeak (u : Option ω) (h : Handle) (s : Memory σ ω) : Memory σ ω :=
  { s with weak := update s.weak u (some h) }

def dropWeak (u : Option ω) (s : Memory σ ω) : Memory σ ω :=
  { s with weak := update s.weak u none }

def putBlock (b : Nat) (block : SharedBlock) (s : Memory σ ω) : Memory σ ω :=
  { s with blocks := update s.blocks b (some block) }

/-! ## The counters -/

def addStrong (b : Nat) (s : Memory σ ω) : Option (Memory σ ω) := do
  let block ← s.blocks b
  some (s.putBlock b { block with strong := block.strong + 1 })

def addWeak (b : Nat) (s : Memory σ ω) : Option (Memory σ ω) := do
  let block ← s.blocks b
  some (s.putBlock b { block with weak := block.weak + 1 })

def releaseStrong (b : Nat) (s : Memory σ ω) : Option (Bool × Memory σ ω) := do
  let block ← s.blocks b
  some (block.strong = 1, s.putBlock b { block with strong := block.strong - 1 })

def releaseWeak (b : Nat) (s : Memory σ ω) : Option (Bool × Memory σ ω) := do
  let block ← s.blocks b
  some (block.weak = 1, s.putBlock b { block with weak := block.weak - 1 })

def tryAddStrong (b : Nat) (s : Memory σ ω) : Option (Bool × Memory σ ω) := do
  let block ← s.blocks b
  if block.strong ≠ 0 then some (true, s.putBlock b { block with strong := block.strong + 1 })
  else some (false, s)

/-- `delete block_` -/
def free (b : Nat) (s : Memory σ ω) : Option (Memory σ ω) := do
  let _ ← s.blocks b
  some { s with blocks := update s.blocks b none, freed := s.freed ++ [b] }

/-- `if (block_->ReleaseWeak()) delete block_` -/
def letGoWeak (b : Nat) (s : Memory σ ω) : Option (Memory σ ω) := do
  let (last, s) ← s.releaseWeak b
  if last then s.free b else some s

/-- `if (block_) block_->AddStrong()` -/
def retain (h : Handle) (s : Memory σ ω) : Option (Memory σ ω) :=
  match h.block with
  | none => some s
  | some b => s.addStrong b

/-- `if (block_) block_->AddWeak()` -/
def retainWeak (h : Handle) (s : Memory σ ω) : Option (Memory σ ω) :=
  match h.block with
  | none => some s
  | some b => s.addWeak b

/-! ## `_Release` -/

/-- `WeakPtr::_Release` -/
def releaseWeakPtr (u : Option ω) (s : Memory σ ω) : Option (Memory σ ω) := do
  let h ← s.weak u
  match h.block with
  | none => some (s.putWeak u .null)
  | some b => do
      let s ← s.letGoWeak b
      some (s.putWeak u .null)

section
variable (program : Program σ ω)

/-- The destructors of the members of an object; `release` is `SharedPtr::_Release`. -/
def destroyMembers (release : Option σ → Memory σ ω → Option (Memory σ ω)) :
    List (Member σ ω) → Memory σ ω → Option (Memory σ ω)
  | [], s => some s
  | .shared v :: members, s => do
      let s ← release (some v) s
      destroyMembers release members (s.dropShared (some v))
  | .weak u :: members, s => do
      let s ← s.releaseWeakPtr (some u)
      destroyMembers release members (s.dropWeak (some u))

/-- `del_(ptr)` -/
def deleteObject (release : Option σ → Memory σ ω → Option (Memory σ ω)) (o : Nat)
    (s : Memory σ ω) : Option (Memory σ ω) :=
  if o ∈ s.deleted then none
  else destroyMembers release (program.members o) { s with deleted := s.deleted ++ [o] }

def dispose (release : Option σ → Memory σ ω → Option (Memory σ ω)) (b : Nat) (s : Memory σ ω) :
    Option (Memory σ ω) := do
  let block ← s.blocks b
  if block.ptr = 0 then some s
  else do
    let s ← s.deleteObject program release block.ptr
    let block ← s.blocks b
    some (s.putBlock b { block with ptr := 0 })

/-- `SharedPtr::_Release`; the destructors that `Dispose` runs may call it again. -/
def release : (fuel : Nat) → Option σ → Memory σ ω → Option (Memory σ ω)
  | 0, _, _ => none
  | fuel + 1, v, s => do
      let h ← s.shared v
      match h.block with
      | none => some s
      | some b => do
          let (last, s) ← s.releaseStrong b
          let s ← (if last then do
              let s ← s.dispose program (release fuel) b
              -- `block_` is read again behind `Dispose`
              let h ← s.shared v
              s.letGoWeak (← h.block)
            else some s)
          let _ ← s.shared v
          some (s.putShared v .null)

variable [Fintype σ]

/-- As deep as the destructors can call each other. -/
def depth (σ : Type) [Fintype σ] : Nat := Fintype.card σ + 2

/-- `~SharedPtr` -/
def destroyShared (v : Option σ) (s : Memory σ ω) : Option (Memory σ ω) := do
  let s ← s.release program (depth σ) v
  some (s.dropShared v)

/-- `~WeakPtr` -/
def destroyWeak (u : Option ω) (s : Memory σ ω) : Option (Memory σ ω) := do
  let s ← s.releaseWeakPtr u
  some (s.dropWeak u)

/-! ## Constructors and assignments of `SharedPtr` -/

/-- `SharedPtr(ptr)`, `SharedPtr(ptr, del)`; the block can be allocated or not. -/
def construct (v : Option σ) (ptr : Nat) (allocated : Bool) (s : Memory σ ω) :
    Option (Memory σ ω) :=
  if ptr = 0 then some (s.putShared v ⟨ptr, none⟩)
  else
    let s := { s with given := s.given ++ [ptr] }
    if allocated then
      let b := s.made.length
      some ({ s with made := s.made ++ [ptr] }.putBlock b ⟨1, 1, ptr⟩ |>.putShared v ⟨ptr, some b⟩)
    else do
      let s ← s.deleteObject program (release program (depth σ)) ptr
      some (if program.throws then s else s.putShared v .null)

omit [Fintype σ] in
/-- `SharedPtr(const SharedPtr&, type*)`; the copy has `other.ptr_`. -/
def aliasing (v w : Option σ) (ptr : Nat) (s : Memory σ ω) : Option (Memory σ ω) := do
  let h ← s.shared w
  let s ← s.retain h
  some (s.putShared v ⟨ptr, h.block⟩)

omit [Fintype σ] in
/-- `SharedPtr(const SharedPtr&)` -/
def copy (v w : Option σ) (s : Memory σ ω) : Option (Memory σ ω) := do
  let h ← s.shared w
  let s ← s.retain h
  some (s.putShared v h)

omit [Fintype σ] in
/-- `SharedPtr(SharedPtr&&)` -/
def move (v w : Option σ) (s : Memory σ ω) : Option (Memory σ ω) := do
  let h ← s.shared w
  some ((s.putShared v h).putShared w .null)

omit [Fintype σ] in
def weakExpired (v : Option σ) (s : Memory σ ω) : Memory σ ω :=
  if program.throws then s else s.putShared v .null

omit [Fintype σ] in
/-- `SharedPtr(const WeakPtr&)` -/
def fromWeak (v : Option σ) (u : Option ω) (s : Memory σ ω) : Option (Memory σ ω) := do
  let h ← s.weak u
  match h.block with
  | none => some (s.weakExpired program v)
  | some b => do
      let (added, s) ← s.tryAddStrong b
      some (if added then s.putShared v h else s.weakExpired program v)

omit [Fintype σ] in
def swap (v w : Option σ) (s : Memory σ ω) : Option (Memory σ ω) := do
  let h ← s.shared v
  let h' ← s.shared w
  some ((s.putShared v h').putShared w h)

/-- `swap(temp)`, and the end of `temp`. -/
def takeTemp (v : Option σ) (s : Memory σ ω) : Option (Memory σ ω) := do
  let s ← s.swap v none
  s.destroyShared program none

/-- `operator=(const SharedPtr&)` -/
def assign (v w : σ) (s : Memory σ ω) : Option (Memory σ ω) :=
  if v = w then some s
  else do
    let s ← s.copy none (some w)
    s.takeTemp program (some v)

/-- `operator=(SharedPtr&&)` -/
def moveAssign (v w : σ) (s : Memory σ ω) : Option (Memory σ ω) :=
  if v = w then some s
  else do
    let s ← s.move none (some w)
    s.takeTemp program (some v)

def reset (v : σ) (s : Memory σ ω) : Option (Memory σ ω) := s.release program (depth σ) (some v)

/-- `reset(ptr)`, `reset(ptr, del)` -/
def resetTo (v : σ) (ptr : Nat) (allocated : Bool) (s : Memory σ ω) : Option (Memory σ ω) := do
  let s ← s.construct program none ptr allocated
  if (s.shared none).isSome then s.takeTemp program (some v) else some s

omit [Fintype σ] in
/-- `WeakPtr::lock`, into a variable -/
def lock (v : Option σ) (u : Option ω) (s : Memory σ ω) : Option (Memory σ ω) := do
  let s := s.putShared v .null
  let h ← s.weak u
  match h.block with
  | none => some s
  | some b => do
      let (added, s) ← s.tryAddStrong b
      some (if added then s.putShared v h else s)

/-! ## Constructors and assignments of `WeakPtr` -/

omit [Fintype σ] in
/-- `WeakPtr(const WeakPtr&)` -/
def copyWeak (u t : Option ω) (s : Memory σ ω) : Option (Memory σ ω) := do
  let h ← s.weak t
  let s ← s.retainWeak h
  some (s.putWeak u h)

omit [Fintype σ] in
/-- `WeakPtr(WeakPtr&&)` -/
def moveWeak (u t : Option ω) (s : Memory σ ω) : Option (Memory σ ω) := do
  let h ← s.weak t
  some ((s.putWeak u h).putWeak t .null)

omit [Fintype σ] in
/-- `WeakPtr(const SharedPtr&)` -/
def fromShared (u : Option ω) (v : Option σ) (s : Memory σ ω) : Option (Memory σ ω) := do
  let h ← s.shared v
  let s ← s.retainWeak h
  some (s.putWeak u h)

omit [Fintype σ] in
/-- `WeakPtr::swap` -/
def swapWeak (u t : Option ω) (s : Memory σ ω) : Option (Memory σ ω) := do
  let h ← s.weak u
  let h' ← s.weak t
  some ((s.putWeak u h').putWeak t h)

omit [Fintype σ] in
/-- `operator=(const WeakPtr&)` -/
def assignWeak (u t : ω) (s : Memory σ ω) : Option (Memory σ ω) :=
  if u = t then some s
  else do
    let s ← s.copyWeak none (some t)
    let s ← s.swapWeak (some u) none
    s.destroyWeak none

omit [Fintype σ] in
/-- `operator=(WeakPtr&&)` -/
def moveAssignWeak (u t : ω) (s : Memory σ ω) : Option (Memory σ ω) :=
  if u = t then some s
  else do
    let s ← s.moveWeak none (some t)
    let s ← s.swapWeak (some u) none
    s.destroyWeak none

/-! ## Reading -/

omit [Fintype σ] in
def get (v : σ) (s : Memory σ ω) : Option Nat := (s.shared (some v)).map Handle.ptr

omit [Fintype σ] in
def useCount (v : σ) (s : Memory σ ω) : Option Int := do
  let h ← s.shared (some v)
  match h.block with
  | none => some 0
  | some b => (s.blocks b).map SharedBlock.strong

end

end Memory

/-! ## Programs -/

/-- What a program does, one operation after the other. -/
inductive Op (σ ω : Type)
  | create (o : Nat)
  | default (v : σ)
  | construct (v : σ) (ptr : Nat) (allocated : Bool)
  | aliasing (v w : σ) (ptr : Nat)
  | copy (v w : σ)
  | move (v w : σ)
  | fromWeak (v : σ) (u : ω)
  | lock (v : σ) (u : ω)
  | assign (v w : σ)
  | moveAssign (v w : σ)
  | swap (v w : σ)
  | reset (v : σ)
  | resetTo (v : σ) (ptr : Nat) (allocated : Bool)
  | destroy (v : σ)
  | defaultWeak (u : ω)
  | copyWeak (u t : ω)
  | moveWeak (u t : ω)
  | fromShared (u : ω) (v : σ)
  | assignWeak (u t : ω)
  | moveAssignWeak (u t : ω)
  | swapWeak (u t : ω)
  | resetWeak (u : ω)
  | destroyWeak (u : ω)

namespace Memory

variable {σ ω : Type} [DecidableEq σ] [DecidableEq ω] (program : Program σ ω)

/-- `new`: the members of the object are constructed, empty. -/
def create (o : Nat) (s : Memory σ ω) : Memory σ ω :=
  { s with
    created := s.created ++ [o]
    shared := fun v =>
      if v.any fun w => decide (.shared w ∈ program.members o) then some .null else s.shared v
    weak := fun u =>
      if u.any fun t => decide (.weak t ∈ program.members o) then some .null else s.weak u }

variable [Fintype σ]

def exec (s : Memory σ ω) : Op σ ω → Option (Memory σ ω)
  | .create o => some (s.create program o)
  | .default v => some (s.putShared (some v) .null)
  | .construct v ptr allocated => s.construct program (some v) ptr allocated
  | .aliasing v w ptr => s.aliasing (some v) (some w) ptr
  | .copy v w => s.copy (some v) (some w)
  | .move v w => s.move (some v) (some w)
  | .fromWeak v u => s.fromWeak program (some v) (some u)
  | .lock v u => s.lock (some v) (some u)
  | .assign v w => s.assign program v w
  | .moveAssign v w => s.moveAssign program v w
  | .swap v w => s.swap (some v) (some w)
  | .reset v => s.reset program v
  | .resetTo v ptr allocated => s.resetTo program v ptr allocated
  | .destroy v => s.destroyShared program (some v)
  | .defaultWeak u => some (s.putWeak (some u) .null)
  | .copyWeak u t => s.copyWeak (some u) (some t)
  | .moveWeak u t => s.moveWeak (some u) (some t)
  | .fromShared u v => s.fromShared (some u) (some v)
  | .assignWeak u t => s.assignWeak u t
  | .moveAssignWeak u t => s.moveAssignWeak u t
  | .swapWeak u t => s.swapWeak (some u) (some t)
  | .resetWeak u => s.releaseWeakPtr (some u)
  | .destroyWeak u => s.destroyWeak (some u)

omit [Fintype σ] in
/-- A variable of its own: it does not exist yet, and is no member of an object. -/
def Free (s : Memory σ ω) (v : σ) : Prop :=
  s.shared (some v) = none ∧ ∀ o, .shared v ∉ program.members o

omit [Fintype σ] in
def FreeWeak (s : Memory σ ω) (u : ω) : Prop :=
  s.weak (some u) = none ∧ ∀ o, .weak u ∉ program.members o

omit [Fintype σ] in
/-- A pointer for a constructor: null, or to an object that no constructor has got. -/
def Fresh (s : Memory σ ω) (ptr : Nat) : Prop := ptr = 0 ∨ (ptr ∈ s.created ∧ ptr ∉ s.given)

omit [Fintype σ] in
def Alive (s : Memory σ ω) (v : σ) : Prop := (s.shared (some v)).isSome

omit [Fintype σ] in
def AliveWeak (s : Memory σ ω) (u : ω) : Prop := (s.weak (some u)).isSome

omit [Fintype σ] in
/-- What the language asks of a program: constructors make new variables, everything else needs one that
exists, and members end with their object. -/
def Allowed (s : Memory σ ω) : Op σ ω → Prop
  | .create o => o ≠ 0 ∧ o ∉ s.created
  | .default v => Free program s v
  | .construct v ptr _ => Free program s v ∧ s.Fresh ptr
  | .aliasing v w _ | .copy v w | .move v w => Free program s v ∧ s.Alive w
  | .fromWeak v u | .lock v u => Free program s v ∧ s.AliveWeak u
  | .assign v w | .moveAssign v w | .swap v w => s.Alive v ∧ s.Alive w
  | .reset v => s.Alive v
  | .resetTo v ptr _ => s.Alive v ∧ s.Fresh ptr
  | .destroy v => s.Alive v ∧ ∀ o, .shared v ∉ program.members o
  | .defaultWeak u => FreeWeak program s u
  | .copyWeak u t | .moveWeak u t => FreeWeak program s u ∧ s.AliveWeak t
  | .fromShared u v => FreeWeak program s u ∧ s.Alive v
  | .assignWeak u t | .moveAssignWeak u t | .swapWeak u t => s.AliveWeak u ∧ s.AliveWeak t
  | .resetWeak u => s.AliveWeak u
  | .destroyWeak u => s.AliveWeak u ∧ ∀ o, .weak u ∉ program.members o

end Memory

end Unisym.IsoStd
