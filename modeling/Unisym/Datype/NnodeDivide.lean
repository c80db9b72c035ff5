/-
# `NnodeDivide` — a symbol divided

`DivideSymbols` at the first or the last characters of a text, or at all of it, leaves
the pieces of the text in order, each with the column of its first character
(`divideSymbols_head`, `divideSymbols_tail`).  In the middle case the column of the
node moves twice (`divideSymbols_middle`).
-/
import Unisym.Datype.NnodeSpec
import Unisym.Library.Steps

namespace Unisym.Datype

open Function Nests Nests.Nest Nnode List

variable {w : Nat}

/-- A text and its place in the source. -/
structure Piece (w : Nat) where
  text : List Char
  tf : TnodeField w
  deriving DecidableEq

/-- The pieces of a text `s` at `tf` before, in and behind a range of it, without the
empty ones. -/
def pieces (s : List Char) (tf : TnodeField w) (idx width : Nat) : List (Piece w) :=
  ([(0, s.take idx), (idx, (s.drop idx).take width), (idx + width, s.drop (idx + width))].filter
      fun e => !e.2.isEmpty).map
    fun e => ⟨e.2, tf.row, tf.col + BitVec.ofNat w e.1⟩

section

variable {s : List Char} {tf : TnodeField w} {idx width : Nat}

theorem isEmpty_take (hidx : 0 < idx) (hle : idx ≤ s.length) : (s.take idx).isEmpty = false := by
  rw [isEmpty_eq_false_iff, ← length_pos_iff, length_take]
  omega

theorem isEmpty_drop (hlt : idx < s.length) : (s.drop idx).isEmpty = false := by
  rw [isEmpty_eq_false_iff, ← length_pos_iff, length_drop]
  omega

theorem isEmpty_part (s : List Char) (idx : Nat) (hwidth : 0 < width) (hfit : idx + width ≤ s.length) :
    ((s.drop idx).take width).isEmpty = false := by
  refine isEmpty_take hwidth ?_
  rw [length_drop]
  omega

theorem pieces_whole (hwidth : 0 < width) (hfit : width = s.length) :
    pieces s tf 0 width = [⟨s, tf⟩] := by
  have hpart := isEmpty_part s 0 hwidth (by omega)
  subst hfit
  simp_all [pieces]

theorem pieces_head (hwidth : 0 < width) (hlt : width < s.length) :
    pieces s tf 0 width =
      [⟨s.take width, tf⟩, ⟨s.drop width, tf.row, tf.col + BitVec.ofNat w width⟩] := by
  have hpart := isEmpty_part s 0 hwidth (by omega)
  have hrest := isEmpty_drop hlt
  simp_all [pieces]

theorem pieces_tail (hidx : 0 < idx) (hwidth : 0 < width) (hfit : idx + width = s.length) :
    pieces s tf idx width =
      [⟨s.take idx, tf⟩, ⟨s.drop idx, tf.row, tf.col + BitVec.ofNat w idx⟩] := by
  have hhead := isEmpty_take (s := s) hidx (by omega)
  have hpart := isEmpty_part s idx hwidth (by omega)
  have htake : (s.drop idx).take width = s.drop idx :=
    take_of_length_le (by rw [length_drop]; omega)
  have hrest : s.drop (idx + width) = [] := drop_of_length_le (Nat.le_of_eq hfit.symm)
  rw [htake] at hpart
  simp [pieces, -List.isEmpty_iff, hhead, htake, hpart, hrest]

theorem pieces_middle (hidx : 0 < idx) (hwidth : 0 < width) (hlt : idx + width < s.length) :
    pieces s tf idx width =
      [⟨s.take idx, tf⟩, ⟨(s.drop idx).take width, tf.row, tf.col + BitVec.ofNat w idx⟩,
        ⟨s.drop (idx + width), tf.row, tf.col + BitVec.ofNat w (idx + width)⟩] := by
  have hhead := isEmpty_take (s := s) hidx (by omega)
  have hpart := isEmpty_part s idx hwidth (by omega)
  have hrest := isEmpty_drop hlt
  simp_all [pieces]

end

/-- What a node says of its piece. -/
def Nchain.piece (c : Nchain w) (v : NodeVal w) : Option (Piece w) :=
  (c.text v.offs).map fun s => ⟨s, v.tf⟩

/-- In place of the node `p` of `c`, with the text `s`, `c'` has adjacent symbols with the
pieces of the text; the children of `p` are still its own, and all other links, values and
texts are as they were. -/
structure Divided (c c' : Nchain w) (fs : List (NodeFrame w)) (p : Nat) (v : NodeVal w)
    (sub next : NodeRow w) (s : List Char) (idx width : Nat) (ls rs : List (Nat × NodeVal w))
    (v' : NodeVal w) : Prop where
  holds : c'.Holds (fill fs (row ls (node p v' sub (row rs next))))
  pieces_eq : (ls ++ (p, v') :: rs).map (fun e => c'.piece e.2) = (pieces s v.tf idx width).map some
  symbols : ∀ e ∈ ls ++ (p, v') :: rs, e.2.type = tokSymbol
  blocks_eq : ∀ a < c.freshBlock, v.offs ≠ some a → c'.blocks a = c.blocks a

namespace Nchain

variable {c : Nchain w} {p : Nat} {fs : List (NodeFrame w)} {v : NodeVal w} {sub next : NodeRow w}
  {s : List Char} {idx width : BitVec w}

theorem text_eq_some (h : c.text v.offs = some s) :
    ∃ a b, v.offs = some a ∧ c.blocks a = some b ∧ b.text 0 = some s := by
  unfold text block at h
  cases hoffs : v.offs with
  | none =>
    rw [hoffs] at h
    cases h
  | some a =>
    rw [hoffs] at h
    cases hb : c.blocks a with
    | none =>
      dsimp only at h
      rw [hb] at h
      cases h
    | some b =>
      dsimp only at h
      rw [hb] at h
      exact ⟨a, b, rfl, hb, h⟩

/-- A text pointer, and the block with the text. -/
structure Reads (c : Nchain w) (a : Nat) (b : Block w) (s : List Char) : Prop where
  block : c.blocks a = some b
  text : b.text 0 = some s

variable {a : Nat} {b : Block w} {k : BitVec w}

theorem Reads.strLength (h : Reads c a b s) :
    c.strLength (some a) = some (BitVec.ofNat w s.length) := by
  unfold Nchain.strLength Nchain.text Nchain.block
  dsimp only
  rw [h.block]
  dsimp only [some_bind]
  rw [h.text]
  rfl

theorem Reads.strHeap (h : Reads c a b s)
    (hk : k.toNat ≤ s.length) :
    ∃ copy, c.strHeap (some a) k = some (c.allocBlock copy) ∧ copy.text 0 = some (s.drop k.toNat) := by
  obtain ⟨copy, hcopy, htext⟩ := Block.strHeap_text h.text hk
  refine ⟨copy, ?_, htext⟩
  unfold Nchain.strHeap Nchain.block
  dsimp only
  rw [h.block]
  dsimp only [some_bind]
  rw [hcopy]
  rfl

theorem Reads.strHeapN (h : Reads c a b s) {n : BitVec w}
    (hk : k.toNat + n.toNat ≤ s.length) :
    ∃ copy, c.strHeapN (some a) k n = some (c.allocBlock copy) ∧
      copy.text 0 = some ((s.drop k.toNat).take n.toNat) := by
  obtain ⟨copy, hcopy, htext⟩ := Block.strHeapN_text h.text hk
  refine ⟨copy, ?_, htext⟩
  unfold Nchain.strHeapN Nchain.block
  dsimp only
  rw [h.block]
  dsimp only [some_bind]
  rw [hcopy]
  rfl

theorem Reads.cut (h : Reads c a b s)
    (hk : k.toNat ≤ s.length) :
    ∃ b', c.cut (some a) k = some { c with blocks := update c.blocks a (some b') } ∧
      b'.text 0 = some (s.take k.toNat) := by
  obtain ⟨b', hb', htext⟩ := Block.cut_text h.text hk
  refine ⟨b', ?_, htext⟩
  unfold Nchain.cut
  dsimp only
  rw [h.block]
  dsimp only [some_bind]
  rw [hb']
  rfl

theorem text_of_block (hblock : c.blocks a = some b)
    (htext : b.text 0 = some s) : c.text (some a) = some s := by
  unfold text block
  dsimp only
  rw [hblock]
  exact htext

theorem bind_of {α β : Type} {x : Option α} {f : α → Option β} {a : α} {r : Option β}
    (hx : x = some a) (h : f a = r) : x >>= f = r := by
  rw [hx]
  exact h

theorem Reads.toNat_end (h : Reads c a b s) (idx : BitVec w) (hwidth : 0 < width.toNat)
    (hfit : idx.toNat + width.toNat ≤ s.length) :
    (idx + width).toNat = idx.toNat + width.toNat ∧ (BitVec.ofNat w s.length).toNat = s.length ∧
      ¬(BitVec.ofNat w s.length = 0 ∨ BitVec.ofNat w s.length < idx + width) := by
  have hlt := Block.text_length_lt h.text
  have hslen : (BitVec.ofNat w s.length).toNat = s.length :=
    (BitVec.toNat_ofNat _ _).trans (Nat.mod_eq_of_lt hlt)
  have hend : (idx + width).toNat = idx.toNat + width.toNat :=
    (BitVec.toNat_add _ _).trans (Nat.mod_eq_of_lt (Nat.lt_of_le_of_lt hfit hlt))
  refine ⟨hend, hslen, ?_⟩
  rintro (hzero | hover)
  · have hnil := congrArg BitVec.toNat hzero
    simp only [hslen, BitVec.ofNat_eq_ofNat, BitVec.toNat_ofNat, Nat.zero_mod] at hnil
    omega
  · rw [BitVec.lt_def, hslen, hend] at hover
    omega

section

variable {a : Nat} {b : Block w} {tf : TnodeField w}

theorem piece_of {c' : Nchain w} {v : NodeVal w} {a' : Nat} {b' : Block w} {s' : List Char}
    (hoffs : v.offs = some a') (hblock : c'.blocks a' = some b') (htext : b'.text 0 = some s') :
    c'.piece v = some ⟨s', v.tf⟩ := by
  unfold piece
  rw [hoffs, text_of_block hblock htext]
  rfl

section

variable (h : c.Holds (fill fs (node p ⟨some a, tokSymbol, tf⟩ sub next))) (hreads : Reads c a b s)
include h hreads

theorem divideSymbols_head (hidx : idx = 0) (hwidth : 0 < width.toNat) (hlt : width.toNat < s.length) :
    ∃ c' tail, c.divideSymbols p width idx = some (.HEAD, c') ∧
      Divided c c' fs p ⟨some a, tokSymbol, tf⟩ sub next s 0 width.toNat [] [(c.fresh, tail)]
        ⟨some a, tokSymbol, tf⟩ := by
  have hzero : idx.toNat = 0 := by
    rw [hidx]
    exact (BitVec.toNat_ofNat _ _).trans (Nat.zero_mod _)
  obtain ⟨-, hslen, hsome⟩ := hreads.toNat_end idx hwidth (by omega)
  have hpart : BitVec.ofNat w s.length ≠ width := fun heq => by
    rw [heq] at hslen
    omega
  have hnew : a ≠ c.freshBlock := Nat.ne_of_lt (h.lt_freshBlock a b hreads.block)
  let c₁ := { c with extnField := max c.extnField (sizeofTnodeField w) }
  obtain ⟨copy, hcopy, hcopytext⟩ := Reads.strHeap (c := c₁) (k := width)
    ⟨hreads.block, hreads.text⟩ (Nat.le_of_lt hlt)
  let c₂ := (c₁.allocBlock copy).2
  obtain ⟨cells, hinsert, hbody⟩ := insert_right (c := c₂) h.body (some c.freshBlock) tokSymbol
  let c₃ := { c₂ with cells, fresh := c.fresh + 1 }
  let tail : NodeVal w := ⟨some c.freshBlock, tokSymbol, tf.row, tf.col + width⟩
  obtain ⟨cells', hmodify, hbody'⟩ := modify_val (c := c₃) hbody.next
    (fun t => { t with tf := ⟨tf.row, tf.col + width⟩ }) tail fun _ _ _ => rfl
  let c₄ := { c₃ with cells := cells' }
  obtain ⟨b', hcut, hcuttext⟩ := Reads.cut (c := c₄) (k := width)
    ⟨(update_of_ne hnew _ _).trans hreads.block, hreads.text⟩ (Nat.le_of_lt hlt)
  refine ⟨{ c₄ with blocks := update c₄.blocks a (some b') }, tail, ?_,
    ⟨hbody', h.root_congr rfl, ?_⟩, ?_, ?_, fun x hx hne => ?_⟩
  · unfold divideSymbols
    refine bind_of h.body.cell (bind_of hreads.strLength ?_)
    rw [if_neg hsome, if_neg hpart, if_pos hidx]
    exact bind_of hcopy (bind_of hinsert (bind_of hmodify (bind_of hcut rfl)))
  · refine lt_of_update (lt_of_update h.lt_freshBlock (Nat.le_succ _) (Nat.lt_succ_self _)) le_rfl ?_
    exact Nat.lt_succ_of_lt (h.lt_freshBlock a b hreads.block)
  · rw [pieces_head hwidth hlt, BitVec.ofNat_toNat, BitVec.setWidth_eq]
    refine congrArg₂ List.cons (piece_of rfl (update_self _ _ _) hcuttext)
      (congrArg₂ List.cons (piece_of rfl ?_ hcopytext) rfl)
    exact (update_of_ne hnew.symm _ _).trans (update_self _ _ _)
  · intro e he
    rcases mem_cons.mp he with rfl | he
    · rfl
    · exact mem_singleton.mp he ▸ rfl
  · refine (update_of_ne (fun heq => hne (congrArg some heq.symm)) _ _).trans ?_
    exact update_of_ne (Nat.ne_of_lt hx) _ _

theorem divideSymbols_tail (hidx : 0 < idx.toNat) (hwidth : 0 < width.toNat)
    (hend : idx.toNat + width.toNat = s.length) : ∃ c' tail, c.divideSymbols p width idx = some (.TAIL, c') ∧
      Divided c c' fs p ⟨some a, tokSymbol, tf⟩ sub next s idx.toNat width.toNat
        [(c.fresh, ⟨some a, tokSymbol, tf⟩)] [] tail := by
  obtain ⟨hadd, hslen, hsome⟩ := hreads.toNat_end idx hwidth (by omega)
  have hpart : BitVec.ofNat w s.length ≠ width := fun heq => by
    rw [heq] at hslen
    omega
  have hidx0 : idx ≠ 0 := fun heq => by
    rw [heq] at hidx
    simp at hidx
  have hlast : idx + width = BitVec.ofNat w s.length := BitVec.eq_of_toNat_eq (by omega)
  have hsub : BitVec.ofNat w s.length - width = idx := by
    rw [← hlast]
    exact BitVec.add_sub_cancel _ _
  have hnew : a ≠ c.freshBlock := Nat.ne_of_lt (h.lt_freshBlock a b hreads.block)
  let c₁ := { c with extnField := max c.extnField (sizeofTnodeField w) }
  obtain ⟨cells₁, hinsert, hbody₁⟩ := insert_left (c := c₁) h.body (some a) tokSymbol
  let c₂ := { c₁ with cells := cells₁, fresh := c.fresh + 1 }
  let root := if c.rootNode = some p then some c.fresh else c.rootNode
  let c₃ := { c₂ with rootNode := root }
  obtain ⟨cells₂, hfield, hbody₂⟩ := modify_val (c := c₃) hbody₁
    (fun t => { t with tf := tf }) ⟨some a, tokSymbol, tf⟩ fun _ _ _ => rfl
  let c₄ := { c₃ with cells := cells₂ }
  obtain ⟨copy, hcopy, hcopytext⟩ := Reads.strHeap (c := c₄) (k := idx)
    ⟨hreads.block, hreads.text⟩ (by omega)
  let c₅ := (c₄.allocBlock copy).2
  obtain ⟨cells₃, hoffs, hbody₃⟩ := modify_val (c := c₅) hbody₂.next
    (fun t => { t with offs := some c.freshBlock })
    ⟨some c.freshBlock, tokSymbol, tf⟩ fun _ _ _ => rfl
  let c₆ := { c₅ with cells := cells₃ }
  let tail : NodeVal w := ⟨some c.freshBlock, tokSymbol, tf.row, tf.col + idx⟩
  obtain ⟨cells₄, hcol, hbody₄⟩ := modify_val (c := c₆) hbody₃
    (fun t => { t with tf := ⟨t.tf.row, t.tf.col + idx⟩ }) tail fun _ _ _ => rfl
  let c₇ := { c₆ with cells := cells₄ }
  obtain ⟨b', hcut, hcuttext⟩ := Reads.cut (c := c₇) (k := idx)
    ⟨(update_of_ne hnew _ _).trans hreads.block, hreads.text⟩ (by omega)
  refine ⟨{ c₇ with blocks := update c₇.blocks a (some b') }, tail, ?_,
    ⟨hbody₄, h.root_insert, ?_⟩, ?_, ?_, fun x hx hne => ?_⟩
  · unfold divideSymbols
    refine bind_of h.body.cell (bind_of hreads.strLength ?_)
    rw [if_neg hsome, if_neg hpart, if_neg hidx0, if_pos hlast, hsub]
    refine bind_of hinsert ?_
    dsimp only
    rw [reroot_eq]
    exact bind_of hfield (bind_of hcopy (bind_of hoffs (bind_of hcol (bind_of hcut rfl))))
  · refine lt_of_update (lt_of_update h.lt_freshBlock (Nat.le_succ _) (Nat.lt_succ_self _)) le_rfl ?_
    exact Nat.lt_succ_of_lt (h.lt_freshBlock a b hreads.block)
  · rw [pieces_tail hidx hwidth hend, BitVec.ofNat_toNat, BitVec.setWidth_eq]
    refine congrArg₂ List.cons (piece_of rfl (update_self _ _ _) hcuttext)
      (congrArg₂ List.cons (piece_of rfl ?_ hcopytext) rfl)
    exact (update_of_ne hnew.symm _ _).trans (update_self _ _ _)
  · intro e he
    rcases mem_cons.mp he with rfl | he
    · rfl
    · exact mem_singleton.mp he ▸ rfl
  · refine (update_of_ne (fun heq => hne (congrArg some heq.symm)) _ _).trans ?_
    exact update_of_ne (Nat.ne_of_lt hx) _ _

/-- The characters in the middle: the text is cut as it should be, and the columns of the
node and of the one behind it have moved once more than their characters. -/
theorem divideSymbols_middle (hidx : 0 < idx.toNat) (hwidth : 0 < width.toNat)
    (hend : idx.toNat + width.toNat < s.length) :
    ∃ c' left mid right, c.divideSymbols p width idx = some (.MIDD, c') ∧
      c'.Holds (fill fs (row [(c.fresh, left)] (node p mid sub (row [(c.fresh + 1, right)] next)))) ∧
      c'.piece left = some ⟨s.take idx.toNat, tf⟩ ∧
      c'.piece mid =
        some ⟨(s.drop idx.toNat).take width.toNat, tf.row, tf.col + idx + idx⟩ ∧
      c'.piece right =
        some ⟨s.drop (idx.toNat + width.toNat), tf.row, tf.col + idx + idx + width⟩ := by
  obtain ⟨hadd, hslen, hsome⟩ := hreads.toNat_end idx hwidth (by omega)
  have hpart : BitVec.ofNat w s.length ≠ width := fun heq => by
    rw [heq] at hslen
    omega
  have hidx0 : idx ≠ 0 := fun heq => by
    rw [heq] at hidx
    simp at hidx
  have hlast : idx + width ≠ BitVec.ofNat w s.length := fun heq => by
    rw [heq, hslen] at hadd
    omega
  have hnew : a ≠ c.freshBlock := Nat.ne_of_lt (h.lt_freshBlock a b hreads.block)
  have hnew' : a ≠ c.freshBlock + 1 :=
    Nat.ne_of_lt (Nat.lt_succ_of_lt (h.lt_freshBlock a b hreads.block))
  let c₁ := { c with extnField := max c.extnField (sizeofTnodeField w) }
  obtain ⟨part, hpartcopy, hparttext⟩ := Reads.strHeapN (c := c₁) (k := idx) (n := width)
    ⟨hreads.block, hreads.text⟩ (Nat.le_of_lt hend)
  let c₂ := (c₁.allocBlock part).2
  -- the node at the left keeps the block
  obtain ⟨cells₁, hleft, hbody₁⟩ := insert_left (c := c₂) h.body (some a) tokSymbol
  let c₃ := { c₂ with cells := cells₁, fresh := c.fresh + 1 }
  obtain ⟨copy, hcopy, hcopytext⟩ := Reads.strHeap (c := c₃) (k := idx + width)
    ⟨(update_of_ne hnew _ _).trans hreads.block, hreads.text⟩ (by omega)
  let c₄ := (c₃.allocBlock copy).2
  obtain ⟨cells₂, hright, hbody₂⟩ := insert_right (c := c₄) hbody₁.next
    (some (c.freshBlock + 1)) tokSymbol
  let c₅ := { c₄ with cells := cells₂, fresh := c.fresh + 1 + 1 }
  let left : NodeVal w := ⟨some a, tokSymbol, tf⟩
  obtain ⟨cells₃, hfield, hbody₃⟩ := modify_val (c := c₅) hbody₂.out
    (fun t => { t with tf := tf }) left fun _ _ _ => rfl
  let c₆ := { c₅ with cells := cells₃ }
  obtain ⟨cells₄, hfield', hbody₄⟩ := modify_val (c := c₆) hbody₃.next.next
    (fun t => { t with tf := ⟨tf.row, tf.col + idx + width⟩ })
    ⟨some (c.freshBlock + 1), tokSymbol, tf.row, tf.col + idx + width⟩ fun _ _ _ => rfl
  let c₇ := { c₆ with cells := cells₄ }
  obtain ⟨cells₅, hcol, hbody₅⟩ := modify_val (c := c₇) hbody₄.out
    (fun t => { t with tf := ⟨t.tf.row, t.tf.col + idx⟩ })
    ⟨some a, tokSymbol, tf.row, tf.col + idx⟩ fun _ _ _ => rfl
  let c₈ := { c₇ with
    cells := cells₅, rootNode := if c.rootNode = some p then some c.fresh else c.rootNode }
  -- the column moves again
  obtain ⟨cells₆, hcol', hbody₆⟩ := modify_val (c := c₈) hbody₅
    (fun t => { t with tf := ⟨t.tf.row, t.tf.col + idx⟩ })
    ⟨some a, tokSymbol, tf.row, tf.col + idx + idx⟩ fun _ _ _ => rfl
  let c₉ := { c₈ with cells := cells₆ }
  have hinp : c₉.cells p = some (nodeOf (some (c.fresh + 1)) (some c.fresh) sub.head
      ⟨some a, tokSymbol, tf.row, tf.col + idx + idx⟩) :=
    hbody₆.cell
  let right : NodeVal w := ⟨some (c.freshBlock + 1), tokSymbol, tf.row, tf.col + idx + idx + width⟩
  obtain ⟨cells₇, hfield'', hbody₇⟩ := modify_val (c := c₉) hbody₆.next
    (fun t => { t with tf := ⟨t.tf.row, tf.col + idx + idx + width⟩ }) right fun _ _ _ => rfl
  let c₁₀ := { c₉ with cells := cells₇ }
  let mid : NodeVal w := ⟨some c.freshBlock, tokSymbol, tf.row, tf.col + idx + idx⟩
  obtain ⟨cells₈, hoffs, hbody₈⟩ := modify_val (c := c₁₀) hbody₇.out
    (fun t => { t with offs := some c.freshBlock }) mid fun _ _ _ => rfl
  let c₁₁ := { c₁₀ with cells := cells₈ }
  have hblock : c₁₁.blocks a = some b := by
    refine (update_of_ne hnew' _ _).trans ?_
    exact (update_of_ne hnew _ _).trans hreads.block
  obtain ⟨b', hcut, hcuttext⟩ := Reads.cut (c := c₁₁) (k := idx) ⟨hblock, hreads.text⟩ (by omega)
  refine ⟨{ c₁₁ with blocks := update c₁₁.blocks a (some b') }, left, mid, right, ?_,
    ⟨hbody₈, h.root_insert, ?_⟩, ?_, ?_, ?_⟩
  · unfold divideSymbols
    refine bind_of h.body.cell (bind_of hreads.strLength ?_)
    rw [if_neg hsome, if_neg hpart, if_neg hidx0, if_neg hlast]
    refine bind_of hpartcopy (bind_of hleft (bind_of hcopy (bind_of hright ?_)))
    refine bind_of hfield (bind_of hfield' (bind_of hcol ?_))
    dsimp only
    rw [reroot_eq]
    exact bind_of hcol' (bind_of hinp (bind_of hfield'' (bind_of hoffs (bind_of hcut rfl))))
  · refine lt_of_update (lt_of_update (lt_of_update h.lt_freshBlock (Nat.le_succ _)
      (Nat.lt_succ_self _)) (Nat.le_succ _) (Nat.lt_succ_self _)) le_rfl ?_
    exact Nat.lt_succ_of_lt (Nat.lt_succ_of_lt (h.lt_freshBlock a b hreads.block))
  · exact piece_of rfl (update_self _ _ _) hcuttext
  · refine piece_of rfl ?_ hparttext
    refine (update_of_ne hnew.symm _ _).trans ?_
    exact (update_of_ne (Nat.ne_of_lt (Nat.lt_succ_self _)) _ _).trans (update_self _ _ _)
  · refine piece_of rfl ?_ (hadd ▸ hcopytext)
    exact (update_of_ne hnew'.symm _ _).trans (update_self _ _ _)

theorem divideSymbols_whole (hidx : idx.toNat = 0) (hwidth : 0 < width.toNat) (hend : width.toNat = s.length) :
    c.divideSymbols p width idx = some (.NONE, c) ∧
      Divided c c fs p ⟨some a, tokSymbol, tf⟩ sub next s 0 width.toNat [] []
        ⟨some a, tokSymbol, tf⟩ := by
  obtain ⟨-, hslen, hsome⟩ := hreads.toNat_end idx hwidth (by omega)
  have hall : BitVec.ofNat w s.length = width := BitVec.eq_of_toNat_eq (hslen.trans hend.symm)
  refine ⟨?_, h, ?_, fun e he => mem_singleton.mp he ▸ rfl, fun _ _ _ => rfl⟩
  · unfold divideSymbols
    refine bind_of h.body.cell (bind_of hreads.strLength ?_)
    rw [if_neg hsome, if_pos hall]
  · rw [pieces_whole hwidth hend]
    exact congrArg₂ List.cons (piece_of rfl hreads.block hreads.text) rfl

end

end

theorem nodeOf_injective {n l s : Option Nat} {v : NodeVal w} {n' l' s' : Option Nat} {v' : NodeVal w}
    (h : nodeOf n l s v = nodeOf n' l' s' v') : n = n' ∧ l = l' ∧ s = s' ∧ v = v' := by
  obtain ⟨hn, hoffs, hl, htype, hs, htf⟩ := Nnode.mk.inj h
  refine ⟨hn, hl, hs, ?_⟩
  obtain ⟨offs, type, tf⟩ := v
  obtain ⟨offs', type', tf'⟩ := v'
  cases hoffs
  cases htype
  cases htf
  rfl

theorem Holds.unique {t t' : NodeRow w} (h : c.Holds t) (h' : c.Holds t') : t = t' :=
  h.body.held.unique nodeOf_injective h'.body.held (h.root.symm.trans h'.root)

/-- Three nodes where the middle one has moved are not the pieces. -/
theorem not_divided {c' : Nchain w} {left mid right v' : NodeVal w} {ls rs : List (Nat × NodeVal w)}
    {q r : Nat} {tf : TnodeField w} {part : List Char} (hidx : 0 < idx.toNat) (hwidth : 0 < width.toNat)
    (hend : idx.toNat + width.toNat < s.length) (htf : v.tf = tf) (hqp : q ≠ p) (hrp : r ≠ p)
    (hholds : c'.Holds (fill fs (row [(q, left)] (node p mid sub (row [(r, right)] next)))))
    (hmid : c'.piece mid = some ⟨part, tf.row, tf.col + idx + idx⟩) :
    ¬Divided c c' fs p v sub next s idx.toNat width.toNat ls rs v' := by
  intro hdivided
  have hrow := fill_injective fs (hholds.unique hdivided.holds)
  have hpieces := hdivided.pieces_eq
  rw [pieces_middle hidx hwidth hend] at hpieces
  match ls, rs with
  | [], _ => exact hqp (Nest.node.inj hrow).1
  | [e], rs =>
    obtain ⟨rfl, -⟩ := (Nest.node.inj (Nest.node.inj hrow).2.2.2).2
    have hsecond := hmid.symm.trans (List.cons.inj (List.cons.inj hpieces).2).1
    rw [htf, BitVec.ofNat_toNat, BitVec.setWidth_eq] at hsecond
    have hcol := congrArg TnodeField.col (congrArg Piece.tf (Option.some.inj hsecond))
    have hzero : idx = 0 := by
      simpa using hcol
    rw [hzero] at hidx
    simp at hidx
  | [e, f], rs =>
    have hthird := Nest.node.inj (Nest.node.inj (Nest.node.inj hrow).2.2.2).2.2.2
    exact hrp hthird.1
  | e :: f :: g :: ls, rs =>
    have hlen := congrArg List.length hpieces
    simp at hlen

/-- `DivideSymbols` leaves the pieces of the text, each at its own column, exactly if the
range is at an end of the text. -/
theorem divideSymbols_exact (h : c.Holds (fill fs (node p v sub next))) (htype : v.type = tokSymbol)
    (htext : c.text v.offs = some s) (hwidth : 0 < width.toNat)
    (hfit : idx.toNat + width.toNat ≤ s.length) :
    ∃ r c', c.divideSymbols p width idx = some (r, c') ∧
      ((∃ ls rs v', Divided c c' fs p v sub next s idx.toNat width.toNat ls rs v') ↔
        idx.toNat = 0 ∨ idx.toNat + width.toNat = s.length) := by
  obtain ⟨a, b, hoffs, hblock, hb⟩ := text_eq_some htext
  have hreads : Reads c a b s := ⟨hblock, hb⟩
  obtain ⟨offs, type, tf⟩ := v
  cases hoffs
  cases htype
  rcases Nat.eq_zero_or_pos idx.toNat with hzero | hidx
  · have hidx : idx = 0 := BitVec.eq_of_toNat_eq (hzero.trans (by simp))
    rw [hzero]
    rcases Nat.lt_or_ge width.toNat s.length with hlt | hge
    · obtain ⟨c', tail, hdivide, hdivided⟩ := divideSymbols_head h hreads hidx hwidth hlt
      exact ⟨_, c', hdivide, fun _ => Or.inl rfl, fun _ => ⟨_, _, _, hdivided⟩⟩
    · obtain ⟨hdivide, hdivided⟩ := divideSymbols_whole h hreads hzero hwidth (by omega)
      exact ⟨_, c, hdivide, fun _ => Or.inl rfl, fun _ => ⟨_, _, _, hdivided⟩⟩
  · rcases Nat.lt_or_ge (idx.toNat + width.toNat) s.length with hlt | hge
    · obtain ⟨c', left, mid, right, hdivide, hholds, -, hmid, -⟩ :=
        divideSymbols_middle h hreads hidx hwidth hlt
      have hp : p < c.fresh := h.body.lt_place mem_cons_self
      refine ⟨_, c', hdivide, fun ⟨ls, rs, v', hdivided⟩ => ?_, fun hcond => by omega⟩
      exact absurd hdivided (not_divided hidx hwidth hlt rfl (Nat.ne_of_gt hp)
        (Nat.ne_of_gt (Nat.lt_succ_of_lt hp)) hholds hmid)
    · have hend := Nat.le_antisymm hfit hge
      obtain ⟨c', tail, hdivide, hdivided⟩ := divideSymbols_tail h hreads hidx hwidth hend
      exact ⟨_, c', hdivide, fun _ => Or.inr hend, fun _ => ⟨_, _, _, hdivided⟩⟩

/-! ## A chain of one symbol -/

/-- The text `+++*`. -/
def plusPlus : Block 64 := ⟨['+', '+', '+', '*', Text.nul], by decide⟩

/-- The symbol `+++*` in row 1, from column 5 on. -/
def plusChain : Nchain 64 where
  cells := fun q => if q = 0 then some ⟨none, some 0, none, tokSymbol, none, ⟨1, 5⟩⟩ else none
  fresh := 1
  blocks := fun a => if a = 0 then some plusPlus else none
  freshBlock := 1
  rootNode := some 0
  extnField := 16

theorem plusChain_holds :
    plusChain.Holds (fill [] (node 0 ⟨some 0, tokSymbol, 1, 5⟩ nil nil)) := by
  refine ⟨⟨⟨rfl, trivial, trivial⟩, nodup_singleton 0, fun q hq => ?_⟩, rfl, fun a b hab => ?_⟩
  · exact mem_singleton.mp hq ▸ Nat.zero_lt_one
  · by_cases ha : a = 0
    · exact ha ▸ Nat.zero_lt_one
    · simp [plusChain, ha] at hab

theorem plusChain_reads : Reads plusChain 0 plusPlus ['+', '+', '+', '*'] := ⟨rfl, by decide⟩

/-- At its first characters the symbol is divided. -/
theorem divideSymbols_exact_head :
    ∃ r c', plusChain.divideSymbols 0 2 0 = some (r, c') ∧
      ((∃ ls rs v', Divided plusChain c' [] 0 ⟨some 0, tokSymbol, 1, 5⟩ nil nil
          ['+', '+', '+', '*'] 0 2 ls rs v') ↔ 0 = 0 ∨ 0 + 2 = 4) :=
  divideSymbols_exact plusChain_holds rfl (text_of_block rfl plusChain_reads.text) (by decide)
    (by decide)

/-- The third character of `+++*` is taken out: its column becomes 9, not 7. -/
theorem divideSymbols_column :
    ∃ r c', plusChain.divideSymbols 0 1 2 = some (r, c') ∧
      ¬∃ ls rs v', Divided plusChain c' [] 0 ⟨some 0, tokSymbol, 1, 5⟩ nil nil
        ['+', '+', '+', '*'] 2 1 ls rs v' := by
  obtain ⟨c', left, mid, right, hdivide, hholds, -, hmid, -⟩ :=
    divideSymbols_middle plusChain_holds plusChain_reads (show 0 < (2 : BitVec 64).toNat by decide)
      (show 0 < (1 : BitVec 64).toNat by decide) (by decide)
  refine ⟨_, c', hdivide, fun ⟨ls, rs, v', hdivided⟩ => ?_⟩
  exact not_divided (show 0 < (2 : BitVec 64).toNat by decide)
    (show 0 < (1 : BitVec 64).toNat by decide) (by decide) rfl (by decide) (by decide) hholds hmid
    hdivided

end Nchain

end Unisym.Datype
