/-
# `Dchain` — the doubly linked chain

The nodes of a chain are in a heap; a null or freed pointer has no node, and an
access through it gives nothing.  Nodes are numbered in the order in which they
are allocated.  `localCompare` is what `_Local_Compare` finds of two addresses,
which depends on where the allocator puts the nodes.
-/
import Unisym.Library.Links

namespace Unisym.Datype

open Function

/-- `Dnode`; `offs` is the content. -/
structure Dnode (α : Type) where
  next : Option Nat
  offs : α
  left : Option Nat
  type : Nat

/-- `Dchain`, with the heap of its nodes. -/
structure Dchain (α : Type) where
  cells : Nat → Option (Dnode α)
  /-- The node that is allocated next. -/
  fresh : Nat
  rootNode : Option Nat
  lastNode : Option Nat
  /-- `fastab.midl_node` -/
  midlNode : Option Nat
  nodeCount : Nat
  /-- `state.been_sorted` -/
  beenSorted : Bool
  /-- `Compare_f`, on contents; a null function is none. -/
  compareF : Option (α → α → Int)

namespace Dchain

variable {α : Type}

/-- `Dchain()` -/
def new : Dchain α where
  cells := fun _ => none
  fresh := 0
  rootNode := none
  lastNode := none
  midlNode := none
  nodeCount := 0
  beenSorted := true
  compareF := none

/-! ## Nodes -/

/-- Change a node. -/
def modify (c : Dchain α) (p : Nat) (f : Dnode α → Dnode α) : Option (Dchain α) :=
  match c.cells p with
  | none => none
  | some n => some { c with cells := update c.cells p (some (f n)) }

/-- `asserv(p)->next = v` -/
def setNext (c : Dchain α) (p v : Option Nat) : Option (Dchain α) :=
  match p with
  | none => some c
  | some p => c.modify p fun n => { n with next := v }

/-- `asserv(p)->left = v` -/
def setLeft (c : Dchain α) (p v : Option Nat) : Option (Dchain α) :=
  match p with
  | none => some c
  | some p => c.modify p fun n => { n with left := v }

/-- `zalc`, and the members that are set at once. -/
def alloc (c : Dchain α) (n : Dnode α) : Dchain α :=
  { c with cells := update c.cells c.fresh (some n), fresh := c.fresh + 1 }

/-- `memf` -/
def free (c : Dchain α) (p : Nat) : Dchain α := { c with cells := update c.cells p none }

def dnodeInsert (c : Dchain α) (nod : Option Nat) (offs : α) (typlen : Nat) (right : Bool) :
    Option (Nat × Dchain α) :=
  let tmp := c.fresh
  match nod with
  | none => some (tmp, c.alloc ⟨none, offs, none, typlen⟩)
  | some p =>
      match c.cells p with
      | none => none
      | some n =>
          if right then do
            let c ← (c.alloc ⟨none, offs, some p, typlen⟩).setLeft n.next (some tmp)
            let c ← c.setNext (some tmp) n.next
            let c ← c.setNext (some p) (some tmp)
            some (tmp, c)
          else do
            let c ← (c.alloc ⟨some p, offs, none, typlen⟩).setNext n.left (some tmp)
            let c ← c.setLeft (some tmp) n.left
            let c ← c.setLeft (some p) (some tmp)
            some (tmp, c)

def dnodeRemove (c : Dchain α) (nod : Nat) : Option (Dchain α) :=
  match c.cells nod with
  | none => none
  | some n => do
      let c ← c.setNext n.left n.next
      let c ← c.setLeft n.next n.left
      some (c.free nod)

/-! ## Access by index -/

/-- The loop of `Locate`, with `idx` steps to go after the next one. -/
def locateLoop (c : Dchain α) : (idx crt : Nat) → Option (Option Nat)
  | idx, crt =>
      match c.cells crt with
      | none => none
      | some n =>
          match n.next with
          | none => some none
          | some p =>
              match idx with
              | 0 => some (some p)
              | idx + 1 => locateLoop c idx p

/-- `Locate(idx)`; a null root is not tested. -/
def locate (c : Dchain α) : Nat → Option (Option Nat)
  | 0 => some c.rootNode
  | idx + 1 =>
      match c.rootNode with
      | none => none
      | some crt => c.locateLoop idx crt

/-- The loop of `LocateNode`. -/
def locateNodeLoop (c : Dchain α) : (idx crt : Nat) → Option (Option Nat)
  | 0, crt => some (some crt)
  | idx + 1, crt =>
      match c.cells crt with
      | none => none
      | some n =>
          match n.next with
          | none => some none
          | some p => locateNodeLoop c idx p

def locateNode (c : Dchain α) (idx : Nat) : Option (Option Nat) :=
  match c.rootNode with
  | none => some none
  | some crt => c.locateNodeLoop idx crt

def dnodeChainAdapt (c : Dchain α) (root last : Option Nat) (countDif : Int) : Option (Dchain α) :=
  let c := { c with nodeCount := (c.nodeCount + countDif).toNat, rootNode := root, lastNode := last }
  if c.nodeCount < 2 + 1 then some { c with midlNode := none }
  else do
    let midl ← c.locateNode (c.nodeCount >>> 1)
    some { c with midlNode := midl }

/-! ## Adding nodes -/

def insert (c : Dchain α) (idx : Nat) (dat : α) : Option (Bool × Dchain α) :=
  if idx = 0 then do
    let (root, c) ← c.dnodeInsert c.rootNode dat 0 false
    some (true, { c with rootNode := some root, nodeCount := c.nodeCount + 1 })
  else if idx > c.nodeCount then some (false, c)
  else if idx = c.nodeCount then do
    let (last, c) ← c.dnodeInsert c.lastNode dat 0 true
    some (true, { c with lastNode := some last, nodeCount := c.nodeCount + 1 })
  else do
    let nod ← c.locate (idx - 1)
    let (_, c) ← c.dnodeInsert nod dat 0 true
    some (true, { c with nodeCount := c.nodeCount + 1 })

def push (c : Dchain α) (off : α) (endLeft : Bool) : Option (Nat × Dchain α) :=
  match c.rootNode with
  | none => do
      let (nod, c) ← c.dnodeInsert none off 0 false
      let c ← c.dnodeChainAdapt (some nod) (some nod) 1
      some (nod, c)
  | some root =>
      if endLeft then do
        let (nod, c) ← c.dnodeInsert (some root) off 0 false
        let c ← c.dnodeChainAdapt (some nod) c.lastNode 1
        some (nod, c)
      else do
        let (nod, c) ← c.dnodeInsert c.lastNode off 0 true
        let c ← c.dnodeChainAdapt c.rootNode (some nod) 1
        some (nod, c)

/-- Compare two nodes by `setcmp(self)`. -/
def cmp (localCompare : Nat → Nat → Int) (c : Dchain α) (p : Nat) (a : α) (q : Nat) (b : α) : Int :=
  match c.compareF with
  | none => localCompare p q
  | some f => f a b

/-- The inner loop of `SortByInsertion`, to the left from `crtcrt` on. -/
def sortSeek (localCompare : Nat → Nat → Int) (c : Dchain α) (crt : Nat) (content : α) :
    (fuel : Nat) → (crtcrt : Option Nat) → Option (Option Nat)
  | _, none => some none
  | 0, some _ => none
  | fuel + 1, some p =>
      match c.cells p with
      | none => none
      | some n =>
          if c.cmp localCompare p n.offs crt content > 0 then
            sortSeek localCompare c crt content fuel n.left
          else some (some p)

/-- The body of the outer loop of `SortByInsertion`, at the node `crt`. -/
def sortStep (localCompare : Nat → Nat → Int) (c : Dchain α) (crt : Nat) (n : Dnode α) :
    Option (Dchain α) := do
  let l ← n.left
  let m ← c.cells l
  if c.cmp localCompare l m.offs crt n.offs > 0 then
    let crtcrt ← c.sortSeek localCompare crt n.offs c.fresh m.left
    match crtcrt with
    | none =>
        let (_, c) ← c.insert 0 n.offs
        let root ← c.rootNode
        let c ← c.modify root fun r => { r with type := n.type }
        let c ← c.dnodeRemove crt
        some { c with nodeCount := c.nodeCount - 1 }
    | some p =>
        let (_, c) ← c.dnodeInsert (some p) n.offs n.type true
        let c ← { c with nodeCount := c.nodeCount + 1 }.dnodeRemove crt
        some { c with nodeCount := c.nodeCount - 1 }
  else some c

/-- The outer loop of `SortByInsertion`. -/
def sortLoop (localCompare : Nat → Nat → Int) :
    (fuel : Nat) → (next : Option Nat) → Dchain α → Option (Dchain α)
  | _, none, c => some c
  | 0, some _, _ => none
  | fuel + 1, some crt, c => do
      let n ← c.cells crt
      let c ← c.sortStep localCompare crt n
      sortLoop localCompare fuel n.next c

/-- `Sort()`, which is `SortByInsertion()`. -/
def sort (localCompare : Nat → Nat → Int) (c : Dchain α) : Option (Dchain α) :=
  match c.rootNode with
  | none => some c
  | some crt => do
      let n ← c.cells crt
      sortLoop localCompare c.fresh n.next c

/-- The loop of a sorted `Append`. -/
def appendSeek (c : Dchain α) (f : α → α → Int) (addr : α) :
    (fuel crt : Nat) → Option (Option Nat)
  | 0, _ => none
  | fuel + 1, crt =>
      match c.cells crt with
      | none => none
      | some n =>
          if f addr n.offs > 0 then
            match n.next with
            | none => some none
            | some p => appendSeek c f addr fuel p
          else some (some crt)

/-- The sorted branch of `Append`, with the root `root`. -/
def appendSorted (c : Dchain α) (f : α → α → Int) (addr : α) (root : Nat) :
    Option (Nat × Dchain α) := do
  let r ← c.cells root
  if f addr r.offs ≤ 0 then c.push addr true
  else
    let crt ← c.appendSeek f addr c.fresh root
    match crt with
    | none =>
        let (nod, c) ← c.dnodeInsert c.lastNode addr 0 true
        let c ← c.dnodeChainAdapt (if c.rootNode = none then some nod else c.rootNode) (some nod) 1
        some (nod, c)
    | some p =>
        let (nod, c) ← c.dnodeInsert (some p) addr 0 false
        let c ← c.dnodeChainAdapt (if some p = c.rootNode then some nod else c.rootNode) c.lastNode 1
        some (nod, c)

def append (localCompare : Nat → Nat → Int) (c : Dchain α) (addr : α) (onleft : Bool)
    (nod : Option Nat) : Option (Nat × Dchain α) :=
  match nod with
  | some p => do
      let (tmp, c) ← c.dnodeInsert (some p) addr 0 (!onleft)
      let ro := if c.rootNode = none ∨ onleft ∧ some p = c.rootNode then some tmp else c.rootNode
      let la := if c.lastNode = none ∨ !onleft ∧ some p = c.lastNode then some tmp else c.lastNode
      let c ← c.dnodeChainAdapt ro la 1
      some (tmp, c)
  | none =>
      match c.rootNode with
      | none => do
          let (tmp, c) ← c.dnodeInsert none addr 0 true
          let c ← c.dnodeChainAdapt (some tmp) (some tmp) 1
          some (tmp, c)
      | some _ =>
          match c.compareF with
          | none => c.push addr onleft
          | some f => do
              let c ← if c.beenSorted then some c else c.sort localCompare
              let c := { c with beenSorted := true }
              let root ← c.rootNode
              c.appendSorted f addr root

/-! ## Removing nodes -/

/-- The loop of `Remove(idx, times)`. -/
def removeLoop : (times : Nat) → (crt : Option Nat) → Dchain α → Option (Dchain α)
  | 0, _, c => some c
  | times + 1, crt, c => do
      let p ← crt
      let n ← c.cells p
      let c ← c.dnodeRemove p
      removeLoop times n.next c

def remove (c : Dchain α) (idx times : Nat) : Option (Bool × Dchain α) :=
  if times = 0 then some (true, c)
  else do
    let crt ← c.locate idx
    match crt with
    | none => some (false, c)
    | some p =>
        let n ← c.cells p
        let next ← c.locate (idx + times)
        let c ← removeLoop times (some p) c
        let c ← c.setNext n.left next
        let c ← c.dnodeChainAdapt (if n.left = none then next else c.rootNode)
          (if next = none then n.left else c.lastNode) (-times)
        some (true, c)

/-- The loop of `Remove(nod)` and `Remove(content)`, with the node to the left of
`crt`; what is returned is the node behind the removed one. -/
def removeWhere (test : Nat → Dnode α → Bool) :
    (fuel : Nat) → (las : Option Nat) → (crt : Nat) → Dchain α → Option (Option Nat × Dchain α)
  | 0, _, _, _ => none
  | fuel + 1, las, crt, c => do
      let n ← c.cells crt
      if test crt n then
        let c ← c.dnodeRemove crt
        let c ← c.dnodeChainAdapt (if some crt = c.rootNode then n.next else c.rootNode)
          (if some crt = c.lastNode then las else c.lastNode) (-1)
        some (n.next, c)
      else
        match n.next with
        | none => some (none, c)
        | some nex => removeWhere test fuel (some crt) nex c

/-- `Remove(nod)` -/
def removeNode (c : Dchain α) (nod : Option Nat) : Option (Option Nat × Dchain α) :=
  match c.rootNode with
  | none => some (none, c)
  | some crt => removeWhere (fun p _ => some p == nod) c.fresh none crt c

/-- `Remove(content)` -/
def removeContent [DecidableEq α] (c : Dchain α) (content : α) : Option (Option Nat × Dchain α) :=
  match c.rootNode with
  | none => some (none, c)
  | some crt => removeWhere (fun _ n => n.offs == content) c.fresh none crt c

/-! ## Other operations -/

def exchange (c : Dchain α) (idx1 idx2 : Nat) : Option (Dchain α) := do
  let n1 ← c.locate idx1
  let n2 ← c.locate idx2
  if idx1 = idx2 then some c
  else
    let p ← n1
    let q ← n2
    let n ← c.cells p
    let m ← c.cells q
    let c ← c.modify p fun n => { n with offs := m.offs, type := m.type }
    c.modify q fun m => { m with offs := n.offs, type := n.type }

/-- The loop of `Reverse`. -/
def reverseLoop : (fuel : Nat) → (crt : Option Nat) → Dchain α → Option (Dchain α)
  | _, none, c => some c
  | 0, some _, _ => none
  | fuel + 1, some p, c => do
      let n ← c.cells p
      let c ← c.modify p fun n => { n with left := n.next, next := n.left }
      reverseLoop fuel n.next c

def reverse (c : Dchain α) : Option (Dchain α) := do
  let c ← reverseLoop c.fresh c.rootNode c
  some { c with rootNode := c.lastNode, lastNode := c.rootNode }

/-! ## Calls -/

/-- A call on a chain. -/
inductive Call (α : Type) where
  | setCompare (f : Option (α → α → Int))
  | insert (idx : Nat) (dat : α)
  | push (off : α) (endLeft : Bool)
  | append (addr : α) (onleft : Bool) (nod : Option Nat)
  | remove (idx times : Nat)
  | removeNode (nod : Option Nat)
  | removeContent (content : α)
  | exchange (idx1 idx2 : Nat)
  | reverse
  | sort

variable [DecidableEq α]

/-- A call, without what it returns. -/
def step (localCompare : Nat → Nat → Int) (c : Dchain α) : Call α → Option (Dchain α)
  | .setCompare f => some { c with compareF := f }
  | .insert idx dat => (c.insert idx dat).map Prod.snd
  | .push off endLeft => (c.push off endLeft).map Prod.snd
  | .append addr onleft nod => (c.append localCompare addr onleft nod).map Prod.snd
  | .remove idx times => (c.remove idx times).map Prod.snd
  | .removeNode nod => (c.removeNode nod).map Prod.snd
  | .removeContent content => (c.removeContent content).map Prod.snd
  | .exchange idx1 idx2 => c.exchange idx1 idx2
  | .reverse => c.reverse
  | .sort => c.sort localCompare

/-- Calls one after the other. -/
def run (localCompare : Nat → Nat → Int) : Dchain α → List (Call α) → Option (Dchain α)
  | c, [] => some c
  | c, call :: calls =>
      match c.step localCompare call with
      | none => none
      | some c => run localCompare c calls

end Dchain

end Unisym.Datype
