/-
# `Nnode` — nested nodes

A node of a chain has a text of its own, a block of characters, and the row and the
column of the text in the source; the chain's nodes have room for both behind them
(`extn_field`).  Nodes and blocks are in two heaps and are numbered in the order in
which they are allocated.  A null or freed pointer has no node, and an access through
it, or behind the end of a block, gives nothing.

`w` is the width of `stduint`.
-/
import Mathlib.Algebra.Group.Nat.Defs
import Unisym.Text.LinearParser

namespace Unisym.Datype

open Function Text

structure TnodeField (w : Nat) where
  row : BitVec w
  col : BitVec w
  deriving DecidableEq

/-- `sizeof(TnodeField)` -/
def sizeofTnodeField (w : Nat) : Nat := 2 * (w / 8)

/-- The types of a node: `toktype`, and those behind `tok_EOF`. -/
inductive NodeType where
  | token (type : Toktype)
  | func | statement | block
  deriving DecidableEq

abbrev tokSymbol : NodeType := .token .symbol

/-- `Nnode`, with its `TnodeField`; `left` is also `pare`. -/
structure Nnode (w : Nat) where
  next : Option Nat
  offs : Option Nat
  left : Option Nat
  type : NodeType
  subf : Option Nat
  tf : TnodeField w

/-! ## Blocks of characters -/

/-- A block on the heap; a `stduint` reaches all of it. -/
structure Block (w : Nat) where
  bytes : List Char
  fits : bytes.length ≤ 2 ^ w

namespace Block

variable {w : Nat}

/-- The string that starts at the character `k`; none if the block ends before a zero byte. -/
def text (b : Block w) (k : Nat) : Option (List Char) :=
  if nul ∈ b.bytes.drop k then some ((b.bytes.drop k).takeWhile (· != nul)) else none

theorem length_takeWhile_lt {s : List Char} (h : nul ∈ s) :
    (s.takeWhile (· != nul)).length < s.length := by
  refine Nat.lt_of_le_of_ne (List.takeWhile_prefix _).length_le fun hlen => ?_
  have hall := List.takeWhile_eq_self_iff.mp ((List.takeWhile_prefix (· != nul)).eq_of_length hlen)
  exact absurd (hall nul h) (by decide)

/-- `StrHeap`: a copy of the string that starts at `k`. -/
def strHeap (b : Block w) (k : Nat) : Option (Block w) :=
  if h : nul ∈ b.bytes.drop k then
    some ⟨(b.bytes.drop k).takeWhile (· != nul) ++ [nul], by
      rw [List.length_append]
      exact (Nat.succ_le_of_lt (length_takeWhile_lt h)).trans
        ((List.drop_sublist k _).length_le.trans b.fits)⟩
  else none

/-- `StrHeapN`: a copy of at most `n` characters from `k` on, and zero bytes up to the end. -/
def strHeapN (b : Block w) (k : Nat) (n : BitVec w) : Option (Block w) :=
  let src := b.bytes.drop k
  if n.toNat ≤ src.length ∨ nul ∈ src then
    let copied := Text.strHeapN src n.toNat
    some ⟨copied ++ List.replicate (n.toNat + 1 - copied.length) nul, by
      have hcopied : copied.length ≤ n.toNat :=
        (List.takeWhile_prefix _).length_le.trans (List.length_take_le _ _)
      rw [List.length_append, List.length_replicate]
      have := n.isLt
      omega⟩
  else none

/-- `addr[k] = 0` -/
def cut (b : Block w) (k : Nat) : Option (Block w) :=
  if k < b.bytes.length then
    some ⟨b.bytes.set k nul, by rw [List.length_set]; exact b.fits⟩
  else none

end Block

/-! ## Chains -/

/-- `NnodeChain`, with the heaps of its nodes and texts. -/
structure Nchain (w : Nat) where
  cells : Nat → Option (Nnode w)
  /-- The node that is allocated next. -/
  fresh : Nat
  blocks : Nat → Option (Block w)
  /-- The block that is allocated next. -/
  freshBlock : Nat
  rootNode : Option Nat
  extnField : Nat

/-- `NNODE_DIVSYM_RETYPE` -/
inductive Divsym where
  | NONE | HEAD | TAIL | MIDD | ERRO
  deriving DecidableEq

namespace Nchain

variable {w : Nat}

/-- Change a node. -/
def modify (c : Nchain w) (p : Nat) (f : Nnode w → Nnode w) : Option (Nchain w) :=
  match c.cells p with
  | none => none
  | some n => some { c with cells := update c.cells p (some (f n)) }

/-- `zalc`, and the members that are set at once. -/
def alloc (c : Nchain w) (n : Nnode w) : Nchain w :=
  { c with cells := update c.cells c.fresh (some n), fresh := c.fresh + 1 }

/-- The block at a pointer. -/
def block (c : Nchain w) (addr : Option Nat) : Option (Block w) :=
  match addr with
  | none => none
  | some b => c.blocks b

/-- A block of its own for a text. -/
def allocBlock (c : Nchain w) (b : Block w) : Nat × Nchain w :=
  (c.freshBlock,
    { c with blocks := update c.blocks c.freshBlock (some b), freshBlock := c.freshBlock + 1 })

def strHeap (c : Nchain w) (addr : Option Nat) (k : BitVec w) : Option (Nat × Nchain w) := do
  let b ← c.block addr
  let copy ← b.strHeap k.toNat
  some (c.allocBlock copy)

def strHeapN (c : Nchain w) (addr : Option Nat) (k n : BitVec w) : Option (Nat × Nchain w) := do
  let b ← c.block addr
  let copy ← b.strHeapN k.toNat n
  some (c.allocBlock copy)

/-- `addr[k] = 0` -/
def cut (c : Nchain w) (addr : Option Nat) (k : BitVec w) : Option (Nchain w) :=
  match addr with
  | none => none
  | some a => do
      let b ← c.blocks a
      let b ← b.cut k.toNat
      some { c with blocks := update c.blocks a (some b) }

/-- The string of a text pointer. -/
def text (c : Nchain w) (addr : Option Nat) : Option (List Char) := do
  let b ← c.block addr
  b.text 0

def strLength (c : Nchain w) (addr : Option Nat) : Option (BitVec w) := do
  let s ← c.text addr
  some (BitVec.ofNat w s.length)

/-- `Nnode_isEldest(nod)` -/
def isEldest (c : Nchain w) (nod : Nat) : Option Bool := do
  let n ← c.cells nod
  match n.left with
  | none => some true
  | some left =>
      let l ← c.cells left
      some (decide (l.subf = some nod))

/-- `NnodeInsert(nod, offs, typlen, extn_field, direction_right)` at a node `nod`. -/
def nnodeInsert (c : Nchain w) (nod : Nat) (offs : Option Nat) (typlen : NodeType)
    (right : Bool) : Option (Nat × Nchain w) := do
  let n ← c.cells nod
  let tmp := c.fresh
  let c := c.alloc ⟨none, offs, none, typlen, none, ⟨0, 0⟩⟩
  if right then
    let c ← c.modify tmp fun t => { t with next := n.next }
    let c ← match n.next with
      | none => some c
      | some next => c.modify next fun t => { t with left := some tmp }
    let c ← c.modify tmp fun t => { t with left := some nod }
    let c ← c.modify nod fun t => { t with next := some tmp }
    some (tmp, c)
  else
    let eldest ← c.isEldest nod
    let c ← c.modify tmp fun t => { t with left := n.left }
    let c ← match n.left with
      | none => some c
      | some left =>
          if eldest then c.modify left fun t => { t with subf := some tmp }
          else c.modify left fun t => { t with next := some tmp }
    let c ← c.modify nod fun t => { t with left := some tmp }
    let c ← c.modify tmp fun t => { t with next := some nod }
    some (tmp, c)

/-- `if (root_node == nod) root_node = newd` -/
def reroot (c : Nchain w) (nod newd : Nat) : Nchain w :=
  if c.rootNode = some nod then { c with rootNode := some newd } else c

def divideSymbols (c : Nchain w) (inp : Nat) (width idx : BitVec w) :
    Option (Divsym × Nchain w) := do
  let n ← c.cells inp
  let slen ← c.strLength n.offs
  if slen = 0 ∨ slen < idx + width then some (.ERRO, c)
  else if slen = width then some (.NONE, c)
  else
    let c := { c with extnField := max c.extnField (sizeofTnodeField w) }
    if idx = 0 then
      let (tail, c) ← c.strHeap n.offs width
      let (newd, c) ← c.nnodeInsert inp tail tokSymbol true
      let c ← c.modify newd fun t => { t with tf := ⟨n.tf.row, n.tf.col + width⟩ }
      let c ← c.cut n.offs width
      some (.HEAD, c)
    else if idx + width = slen then
      let (newd, c) ← c.nnodeInsert inp n.offs tokSymbol false
      let c := c.reroot inp newd
      let c ← c.modify newd fun t => { t with tf := n.tf }
      let (tail, c) ← c.strHeap n.offs idx
      let c ← c.modify inp fun t => { t with offs := some tail }
      let c ← c.modify inp fun t => { t with tf := ⟨t.tf.row, t.tf.col + (slen - width)⟩ }
      let c ← c.cut n.offs (slen - width)
      some (.TAIL, c)
    else
      let (mid, c) ← c.strHeapN n.offs idx width
      let (newleft, c) ← c.nnodeInsert inp n.offs tokSymbol false
      let (right, c) ← c.strHeap n.offs (idx + width)
      let (newright, c) ← c.nnodeInsert inp right tokSymbol true
      let c ← c.modify newleft fun t => { t with tf := n.tf }
      let c ← c.modify newright fun t => { t with tf := ⟨n.tf.row, n.tf.col + idx + width⟩ }
      let c ← c.modify inp fun t => { t with tf := ⟨t.tf.row, t.tf.col + idx⟩ }
      let c := c.reroot inp newleft
      -- the field of `TnodeGetExtnField` is the one of `GetTnodeField`
      let c ← c.modify inp fun t => { t with tf := ⟨t.tf.row, t.tf.col + idx⟩ }
      let i ← c.cells inp
      let c ← c.modify newright fun t => { t with tf := ⟨t.tf.row, i.tf.col + width⟩ }
      let c ← c.modify inp fun t => { t with offs := some mid }
      let c ← c.cut n.offs idx
      some (.MIDD, c)

end Nchain

end Unisym.Datype
