/-
# `Chain` — the singly linked chain

The nodes of a chain are in a heap, as those of the doubly linked one are; an access through a
null or freed pointer gives nothing, and so does a loop along links that do not end.  A
comparison of the user is made for nodes; `Comparer` says what it finds of nodes and what it
finds when it is given the contents instead.  `Addresses` says what `_Local_Compare` finds of
addresses, which depends on where the allocator puts things.
-/
import Unisym.Library.Threads

namespace Unisym.Datype

open Function

/-- `Node`; `offs` is the content. -/
structure Node (α : Type) where
  next : Option Nat
  offs : α

/-- What `Compare_f` finds. -/
structure Comparer (α : Type) where
  /-- Of two nodes with these contents. -/
  nodes : α → α → Int
  /-- Of the contents themselves. -/
  contents : α → α → Int

/-- What `_Local_Compare` finds. -/
structure Addresses (α : Type) where
  nodes : Nat → Nat → Int
  contents : α → α → Int

/-- `Chain`, with the heap of its nodes. -/
structure Chain (α : Type) where
  cells : Nat → Option (Node α)
  /-- The node that is allocated next. -/
  fresh : Nat
  rootNode : Option Nat
  lastNode : Option Nat
  /-- `fastab.midl_node` -/
  midlNode : Option Nat
  nodeCount : Nat
  /-- `state.been_sorted` -/
  beenSorted : Bool
  /-- `Compare_f`; a null function is none. -/
  compareF : Option (Comparer α)

namespace Chain

variable {α : Type}

/-- `Chain()` -/
def new : Chain α where
  cells := fun _ => none
  fresh := 0
  rootNode := none
  lastNode := none
  midlNode := none
  nodeCount := 0
  beenSorted := true
  compareF := none

/-! ## Nodes -/

/-- Change a node. -/
def modify (c : Chain α) (p : Nat) (f : Node α → Node α) : Option (Chain α) :=
  match c.cells p with
  | none => none
  | some n => some { c with cells := update c.cells p (some (f n)) }

/-- `asserv(p)->next = v` -/
def setNext (c : Chain α) (p v : Option Nat) : Option (Chain α) :=
  match p with
  | none => some c
  | some p => c.modify p fun n => { n with next := v }

def nodeInsert (c : Chain α) (nod : Option Nat) (txt : α) : Option (Nat × Chain α) :=
  let tmp := c.fresh
  match nod with
  | none =>
      some (tmp, { c with cells := update c.cells tmp (some ⟨none, txt⟩), fresh := tmp + 1 })
  | some p =>
      match c.cells p with
      | none => none
      | some n => do
          let c ← { c with cells := update c.cells tmp (some ⟨n.next, txt⟩), fresh := tmp + 1 }.setNext
            (some p) (some tmp)
          some (tmp, c)

def nodeRemove (c : Chain α) (nod left : Option Nat) : Option (Chain α) :=
  match nod with
  | none => some c
  | some p =>
      match c.cells p with
      | none => none
      | some n => do
          let c ← c.setNext left n.next
          some { c with cells := update c.cells p none }

/-! ## Access -/

/-- The loop of `Locate`, with `idx` steps to go after the next one. -/
def locateLoop (c : Chain α) : (idx crt : Nat) → Option (Option Nat)
  | idx, crt =>
      match c.cells crt with
      | none => none
      | some n =>
          match n.next with
          | none => some none
          | some p =>
              match idx with
              | 0 => some (some p)
              | idx + 1 => locateLoop c idx p

/-- `Locate(idx)`; a null root is not tested. -/
def locate (c : Chain α) : Nat → Option (Option Nat)
  | 0 => some c.rootNode
  | idx + 1 =>
      match c.rootNode with
      | none => none
      | some crt => c.locateLoop idx crt

/-- The loop of `LocateNode`. -/
def locateNodeLoop (c : Chain α) : (idx crt : Nat) → Option (Option Nat)
  | 0, crt => some (some crt)
  | idx + 1, crt =>
      match c.cells crt with
      | none => none
      | some n =>
          match n.next with
          | none => some none
          | some p => locateNodeLoop c idx p

def locateNode (c : Chain α) (idx : Nat) : Option (Option Nat) :=
  match c.rootNode with
  | none => some none
  | some crt => c.locateNodeLoop idx crt

/-- The loop of `getLeft`. -/
def getLeftLoop (c : Chain α) (nod : Option Nat) (fromRight : Bool) :
    (fuel : Nat) → (res : Option Nat) → (crt : Nat) → Option (Option Nat)
  | 0, _, _ => none
  | fuel + 1, res, crt =>
      match c.cells crt with
      | none => none
      | some n =>
          if n.next = nod ∧ fromRight = false then some (some crt)
          else
            match n.next with
            | none => some (if n.next = nod then some crt else res)
            | some p => getLeftLoop c nod fromRight fuel (if n.next = nod then some crt else res) p

def getLeft (c : Chain α) (nod : Option Nat) (fromRight : Bool) : Option (Option Nat) :=
  match c.rootNode with
  | none => some none
  | some crt => c.getLeftLoop nod fromRight c.fresh none crt

def nodeChainAdapt (c : Chain α) (root last : Option Nat) (countDif : Int) : Option (Chain α) :=
  let c := { c with nodeCount := (c.nodeCount + countDif).toNat, rootNode := root, lastNode := last }
  if c.nodeCount < 2 + 1 then some { c with midlNode := none }
  else do
    let midl ← c.locateNode (c.nodeCount >>> 1)
    some { c with midlNode := midl }

def exchange (c : Chain α) (idx1 idx2 : Nat) : Option (Chain α) := do
  let n1 ← c.locate idx1
  let n2 ← c.locate idx2
  if idx1 = idx2 then some c
  else
    let p ← n1
    let q ← n2
    let n ← c.cells p
    let m ← c.cells q
    let c ← c.modify p fun n => { n with offs := m.offs }
    c.modify q fun m => { m with offs := n.offs }

/-! ## `Sort`, by bubbles -/

/-- Compare the nodes at two indices by `setcmp(arr)`. -/
def cmpAt (a : Addresses α) (c : Chain α) (i j : Nat) : Option Int := do
  let p ← (← c.locate i)
  let q ← (← c.locate j)
  let n ← c.cells p
  let m ← c.cells q
  match c.compareF with
  | none => some (a.nodes p q)
  | some f => some (f.nodes n.offs m.offs)

/-- The inner loop, with so many rounds to go, at the index `j`. -/
def bubbleInner (a : Addresses α) : (rounds j : Nat) → (swapped : Bool) → Chain α →
    Option (Bool × Chain α)
  | 0, _, swapped, c => some (swapped, c)
  | rounds + 1, j, swapped, c => do
      let order ← c.cmpAt a j (j + 1)
      if order > 0 then
        let c ← c.exchange j (j + 1)
        bubbleInner a rounds (j + 1) true c
      else bubbleInner a rounds (j + 1) swapped c

/-- The outer loop, with so many rounds to go. -/
def bubbleOuter (a : Addresses α) : (rounds : Nat) → Chain α → Option (Chain α)
  | 0, c => some c
  | rounds + 1, c => do
      let (swapped, c) ← bubbleInner a rounds 0 false c
      if swapped then bubbleOuter a rounds c else some c

/-- `Sort(arr)`, by default `SortBubble(arr)` -/
def sort (a : Addresses α) (c : Chain α) : Option (Chain α) := bubbleOuter a c.nodeCount c

/-! ## Adding nodes -/

def push (c : Chain α) (off : α) (endLeft : Bool) : Option (Nat × Chain α) :=
  match c.rootNode with
  | none => do
      let (nod, c) ← c.nodeInsert none off
      let c ← c.nodeChainAdapt (some nod) (some nod) 1
      some (nod, c)
  | some root =>
      if endLeft then do
        let (nod, c) ← c.nodeInsert none off
        let c ← c.setNext (some nod) (some root)
        let c ← c.nodeChainAdapt (some nod) c.lastNode 1
        some (nod, c)
      else do
        let (nod, c) ← c.nodeInsert c.lastNode off
        let c ← c.nodeChainAdapt c.rootNode (some nod) 1
        some (nod, c)

/-- `Append(addr, onleft, nod)` beside a node -/
def appendBeside (c : Chain α) (addr : α) (onleft : Bool) (p : Nat) : Option (Nat × Chain α) :=
  if onleft ∧ some p = c.rootNode then c.push addr true
  else do
    let left ← if onleft then c.getLeft (some p) false else some (some p)
    let (nod, c) ← c.nodeInsert left addr
    let ro := if c.rootNode = none ∨ onleft ∧ some p = c.rootNode then some nod else c.rootNode
    let la := if c.lastNode = none ∨ !onleft ∧ some p = c.lastNode then some nod else c.lastNode
    let c ← c.nodeChainAdapt ro la 1
    some (nod, c)

/-- The loop of a sorted `Append`. -/
def appendSeek (c : Chain α) (f : Comparer α) (addr : α) : (fuel crt : Nat) → Option (Option Nat)
  | 0, _ => none
  | fuel + 1, crt =>
      match c.cells crt with
      | none => none
      | some n =>
          if f.nodes addr n.offs > 0 then
            match n.next with
            | none => some none
            | some p => appendSeek c f addr fuel p
          else some (some crt)

/-- The sorted branch of `Append`, with the root `root`. -/
def appendSorted (c : Chain α) (f : Comparer α) (addr : α) (root : Nat) :
    Option (Nat × Chain α) := do
  let r ← c.cells root
  if f.nodes addr r.offs ≤ 0 then c.push addr true
  else
    let crt ← c.appendSeek f addr c.fresh root
    match crt with
    | none =>
        let (nod, c) ← c.nodeInsert c.lastNode addr
        let c ← c.nodeChainAdapt c.rootNode (some nod) 1
        some (nod, c)
    | some p =>
        let left ← c.getLeft (some p) false
        let (nod, c) ← c.nodeInsert left addr
        let c ← c.nodeChainAdapt c.rootNode c.lastNode 1
        some (nod, c)

def append (a : Addresses α) (c : Chain α) (addr : α) (onleft : Bool) (nod : Option Nat) :
    Option (Nat × Chain α) :=
  match nod with
  | some p => c.appendBeside addr onleft p
  | none =>
      match c.rootNode with
      | none => do
          let (nod, c) ← c.nodeInsert none addr
          let c ← c.nodeChainAdapt (some nod) (some nod) 1
          some (nod, c)
      | some _ =>
          match c.compareF with
          | none => c.push addr onleft
          | some f => do
              let c ← if c.beenSorted then some c else c.sort a
              let c := { c with beenSorted := true }
              let root ← c.rootNode
              c.appendSorted f addr root

/-! ## `SortByInsertion` -/

/-- What `setcmp(self)` finds of two contents. -/
def cmpContents (a : Addresses α) (c : Chain α) : α → α → Int :=
  match c.compareF with
  | none => a.contents
  | some f => f.contents

/-- The inner loop, with `a_bit_lower` and `a_bit_bigger`. -/
def sortSeek (cmp : α → α → Int) (crt last : Nat) (offs : α) :
    (fuel lower : Nat) → (bigger : Option Nat) → Chain α → Option (Chain α)
  | 0, _, _, _ => none
  | fuel + 1, lower, bigger, c =>
      if bigger = some crt then some c
      else do
        let b ← bigger
        let m ← c.cells b
        let k ← c.cells lower
        if cmp k.offs offs < 0 ∧ cmp offs m.offs ≤ 0 then
          let (_, c) ← c.appendBeside offs false lower
          c.nodeRemove (some crt) (some last)
        else sortSeek cmp crt last offs fuel b m.next c

/-- The outer loop. -/
def sortLoop (cmp : α → α → Int) :
    (fuel last : Nat) → (next : Option Nat) → Chain α → Option (Chain α)
  | _, _, none, c => some c
  | 0, _, some _, _ => none
  | fuel + 1, last, some crt, c => do
      let n ← c.cells crt
      let l ← c.cells last
      if cmp l.offs n.offs > 0 then
        let root ← c.rootNode
        let r ← c.cells root
        if cmp n.offs r.offs ≤ 0 then
          let (_, c) ← c.appendBeside n.offs true root
          let c ← c.nodeRemove (some crt) (some last)
          sortLoop cmp fuel last n.next c
        else
          let c ← sortSeek cmp crt last n.offs c.fresh root r.next c
          sortLoop cmp fuel last n.next c
      else sortLoop cmp fuel crt n.next c

def sortByInsertion (a : Addresses α) (c : Chain α) : Option (Chain α) :=
  match c.rootNode with
  | none => some c
  | some crt => do
      let n ← c.cells crt
      sortLoop (c.cmpContents a) c.fresh crt n.next c

/-! ## Removing nodes -/

/-- The loop of `Remove(idx, times)`. -/
def removeLoop : (times : Nat) → (crt : Option Nat) → Chain α → Option (Chain α)
  | 0, _, c => some c
  | times + 1, crt, c => do
      let p ← crt
      let n ← c.cells p
      let c ← c.nodeRemove (some p) none
      removeLoop times n.next c

def remove (c : Chain α) (idx times : Nat) : Option (Bool × Chain α) :=
  if times = 0 then some (true, c)
  else do
    let crt ← c.locate idx
    match crt with
    | none => some (false, c)
    | some p =>
        let last ← c.getLeft (some p) false
        let next ← c.locate (idx + times)
        let c ← removeLoop times (some p) c
        let c ← c.setNext last next
        let c ← c.nodeChainAdapt (if last = none then next else c.rootNode)
          (if next = none then last else c.lastNode) (-times)
        some (true, c)

/-- The loop of `Remove(nod)` and `Remove(content)`, with the node before `crt`; what is
returned is the node behind the removed one. -/
def removeWhere (test : Nat → Node α → Bool) :
    (fuel : Nat) → (las : Option Nat) → (crt : Nat) → Chain α → Option (Option Nat × Chain α)
  | 0, _, _, _ => none
  | fuel + 1, las, crt, c => do
      let n ← c.cells crt
      if test crt n then
        let c ← c.nodeRemove (some crt) las
        let c ← c.nodeChainAdapt (if some crt = c.rootNode then n.next else c.rootNode)
          (if some crt = c.lastNode then las else c.lastNode) (-1)
        some (n.next, c)
      else
        match n.next with
        | none => some (none, c)
        | some nex => removeWhere test fuel (some crt) nex c

/-- `Remove(nod)` -/
def removeNode (c : Chain α) (nod : Option Nat) : Option (Option Nat × Chain α) :=
  match c.rootNode with
  | none => some (none, c)
  | some crt => removeWhere (fun p _ => some p == nod) c.fresh none crt c

/-- `Remove(content)` -/
def removeContent [DecidableEq α] (c : Chain α) (content : α) : Option (Option Nat × Chain α) :=
  match c.rootNode with
  | none => some (none, c)
  | some crt => removeWhere (fun _ n => n.offs == content) c.fresh none crt c

/-! ## Calls -/

/-- A call on a chain. -/
inductive Call (α : Type) where
  | setCompare (f : Option (Comparer α))
  | push (off : α) (endLeft : Bool)
  | append (addr : α) (onleft : Bool) (nod : Option Nat)
  | remove (idx times : Nat)
  | removeNode (nod : Option Nat)
  | removeContent (content : α)
  | exchange (idx1 idx2 : Nat)
  | sortByInsertion

variable [DecidableEq α]

/-- A call, without what it returns. -/
def step (a : Addresses α) (c : Chain α) : Call α → Option (Chain α)
  | .setCompare f => some { c with compareF := f }
  | .push off endLeft => (c.push off endLeft).map Prod.snd
  | .append addr onleft nod => (c.append a addr onleft nod).map Prod.snd
  | .remove idx times => (c.remove idx times).map Prod.snd
  | .removeNode nod => (c.removeNode nod).map Prod.snd
  | .removeContent content => (c.removeContent content).map Prod.snd
  | .exchange idx1 idx2 => c.exchange idx1 idx2
  | .sortByInsertion => c.sortByInsertion a

/-- Calls one after the other. -/
def run (a : Addresses α) : Chain α → List (Call α) → Option (Chain α)
  | c, [] => some c
  | c, call :: calls =>
      match c.step a call with
      | none => none
      | some c => run a c calls

end Chain

end Unisym.Datype
