/-
# `NnodeSpec` — nodes inserted, symbols divided

A chain holds a nest of nodes, each with its text pointer, type and place in the
source.  `NnodeInsert` puts one node beside another (`nnodeInsert_left`,
`nnodeInsert_right`).  `DivideSymbols` cuts the text of a node into the pieces before,
at and behind a range, each with its column.
-/
import Unisym.Library.Nest
import Unisym.Datype.Nnode

namespace Unisym.Datype

open Function Nests Nests.Nest Text List

variable {w : Nat}

/-! ## Texts -/

namespace Block

variable {b : Block w} {s : List Char}

/-- A string of a block, what is behind it, and the zero byte between them. -/
theorem text_eq {b : Block w} {s : List Char} (h : b.text 0 = some s) :
    (∃ rest, b.bytes = s ++ nul :: rest) ∧ ∀ c ∈ s, c ≠ nul := by
  unfold text at h
  rw [drop_zero] at h
  by_cases hnul : nul ∈ b.bytes
  · rw [if_pos hnul] at h
    cases h
    have hplain : ∀ c ∈ b.bytes.takeWhile (· != nul), c ≠ nul := fun c hc =>
      by simpa using mem_takeWhile_imp hc
    refine ⟨?_, hplain⟩
    have hsplit := takeWhile_append_dropWhile (p := (· != nul)) (l := b.bytes)
    cases hdrop : b.bytes.dropWhile (· != nul) with
    | nil =>
      rw [hdrop, append_nil] at hsplit
      exact absurd rfl (hplain nul (hsplit.symm ▸ hnul))
    | cons x rest =>
      have hx : x = nul := by
        have := head?_dropWhile_not (· != nul) b.bytes
        rw [hdrop] at this
        simpa using this
      rw [hdrop, hx] at hsplit
      exact ⟨rest, hsplit.symm⟩
  · rw [if_neg hnul] at h
    cases h

theorem text_of_eq {k : Nat} (rest : List Char) (hbytes : b.bytes.drop k = s ++ nul :: rest)
    (hplain : ∀ c ∈ s, c ≠ nul) : b.text k = some s := by
  unfold text
  rw [hbytes, if_pos mem_append_cons_self, UString.takeWhile_plain hplain]

theorem text_length_lt (h : b.text 0 = some s) : s.length < 2 ^ w := by
  obtain ⟨⟨rest, hbytes⟩, -⟩ := text_eq h
  refine Nat.lt_of_lt_of_le ?_ b.fits
  rw [hbytes, length_append, length_cons]
  omega

theorem strHeap_text (h : b.text 0 = some s) {k : Nat} (hk : k ≤ s.length) :
    ∃ copy, b.strHeap k = some copy ∧ copy.text 0 = some (s.drop k) := by
  obtain ⟨⟨rest, hbytes⟩, hplain⟩ := text_eq h
  have hdrop : b.bytes.drop k = s.drop k ++ nul :: rest := by
    rw [hbytes, drop_append_of_le_length hk]
  have hrest : ∀ c ∈ s.drop k, c ≠ nul := fun c hc => hplain c (mem_of_mem_drop hc)
  unfold strHeap
  rw [dif_pos (hdrop ▸ mem_append_cons_self)]
  refine ⟨_, rfl, text_of_eq [] ?_ hrest⟩
  rw [drop_zero]
  dsimp only
  rw [hdrop, UString.takeWhile_plain hrest]

theorem strHeapN_text (h : b.text 0 = some s) {k : Nat} {n : BitVec w} (hk : k + n.toNat ≤ s.length) :
    ∃ copy, b.strHeapN k n = some copy ∧ copy.text 0 = some ((s.drop k).take n.toNat) := by
  obtain ⟨⟨rest, hbytes⟩, hplain⟩ := text_eq h
  have hpart : (b.bytes.drop k).take n.toNat = (s.drop k).take n.toNat := by
    rw [hbytes, drop_append_of_le_length (by omega), take_append_of_le_length]
    rw [length_drop]
    omega
  have hsome : ∀ c ∈ (s.drop k).take n.toNat, c ≠ nul := fun c hc =>
    hplain c (mem_of_mem_drop (mem_of_mem_take hc))
  have hlen : n.toNat ≤ (b.bytes.drop k).length := by
    rw [hbytes, length_drop, length_append]
    omega
  have hcopied : Text.strHeapN (b.bytes.drop k) n.toNat = (s.drop k).take n.toNat := by
    unfold Text.strHeapN
    rw [hpart]
    exact takeWhile_eq_self_iff.mpr fun c hc => bne_iff_ne.mpr (hsome c hc)
  unfold strHeapN
  rw [if_pos (Or.inl hlen)]
  refine ⟨_, rfl, text_of_eq (List.replicate 0 nul) ?_ hsome⟩
  dsimp only
  rw [drop_zero, hcopied, length_take, length_drop, Nat.min_eq_left (by omega),
    Nat.add_sub_cancel_left]
  rfl

theorem cut_text (h : b.text 0 = some s) {k : Nat} (hk : k ≤ s.length) :
    ∃ b', b.cut k = some b' ∧ b'.text 0 = some (s.take k) := by
  obtain ⟨⟨rest, hbytes⟩, hplain⟩ := text_eq h
  have hlt : k < b.bytes.length := by
    rw [hbytes, length_append, length_cons]
    omega
  unfold cut
  rw [if_pos hlt]
  refine ⟨_, rfl, text_of_eq (b.bytes.drop (k + 1)) ?_ fun c hc =>
    hplain c (mem_of_mem_take hc)⟩
  dsimp only
  rw [drop_zero, set_eq_take_append_cons_drop, if_pos hlt]
  congr 1
  rw [hbytes, take_append_of_le_length hk]

end Block

/-! ## Rows of nodes -/

/-- What a node has besides its links. -/
structure NodeVal (w : Nat) where
  offs : Option Nat
  type : NodeType
  tf : TnodeField w

/-- The node with these links. -/
def nodeOf (next left subf : Option Nat) (v : NodeVal w) : Nnode w :=
  ⟨next, v.offs, left, v.type, subf, v.tf⟩

/-- A row of nodes, each with its row of children. -/
abbrev NodeRow (w : Nat) := Nest Nat (NodeVal w)

/-- A node around a place in a row. -/
abbrev NodeFrame (w : Nat) := Frame Nat (NodeVal w)

/-- The heap holds the row, and the nodes allocated later are not in it. -/
structure Nnode.Body (cells : Nat → Option (Nnode w)) (fresh : Nat) (t : NodeRow w) : Prop where
  held : Held nodeOf cells none t
  nodup : t.keys.Nodup
  lt_fresh : ∀ p ∈ t.keys, p < fresh

namespace Nnode

/-- The first node of a row gets another back link. -/
def relinked (cells : Nat → Option (Nnode w)) (left : Option Nat) :
    (head : Option Nat) → Nat → Option (Nnode w)
  | none => cells
  | some q => update cells q ((cells q).map fun m => { m with left })

/-- The node around a place leads to another row. -/
def retargeted (cells : Nat → Option (Nnode w)) (head : Option Nat) :
    List (NodeFrame w) → Nat → Option (Nnode w)
  | [] => cells
  | f :: gs => update cells f.key (some (f.cell nodeOf (up gs) head))

/-- The heap with a new node `fresh` before the row `t` in a place. -/
def inserted (cells : Nat → Option (Nnode w)) (fresh : Nat) (fs : List (NodeFrame w)) (t : NodeRow w)
    (v : NodeVal w) : Nat → Option (Nnode w) :=
  update (retargeted (relinked cells (some fresh) t.head) (some fresh) fs) fresh
    (some (nodeOf t.head (up fs) none v))

namespace Body

variable {cells cells' : Nat → Option (Nnode w)} {fresh p : Nat} {fs : List (NodeFrame w)}
  {v : NodeVal w} {s n t : NodeRow w}

theorem split (h : Body cells fresh (fill fs t)) :
    HeldAround nodeOf cells fs t.head ∧ Held nodeOf cells (up fs) t ∧
      (around fs).Nodup ∧ t.keys.Nodup ∧ ∀ q ∈ around fs, q ∉ t.keys := by
  have hheld := held_fill.mp h.held
  have hnodup := nodup_append.mp ((keys_fill fs t).nodup_iff.mp h.nodup)
  exact ⟨hheld.1, hheld.2, hnodup.1, hnodup.2.1, fun q hq hq' => hnodup.2.2 q hq q hq' rfl⟩

theorem cell (h : Body cells fresh (fill fs (node p v s n))) :
    cells p = some (nodeOf n.head (up fs) s.head v) := h.split.2.1.1

theorem lt_around (h : Body cells fresh (fill fs t)) {q : Nat} (hq : q ∈ around fs) : q < fresh :=
  h.lt_fresh q ((keys_fill fs t).mem_iff.mpr (mem_append_left _ hq))

theorem lt_place (h : Body cells fresh (fill fs t)) {q : Nat} (hq : q ∈ t.keys) : q < fresh :=
  h.lt_fresh q ((keys_fill fs t).mem_iff.mpr (mem_append_right _ hq))

theorem next (h : Body cells fresh (fill fs (node p v s n))) :
    Body cells fresh (fill (.next p v s :: fs) n) := h

theorem out {f : NodeFrame w} (h : Body cells fresh (fill (f :: fs) t)) :
    Body cells fresh (fill fs (f.fill t)) := h

theorem revalue {v' : NodeVal w} (h : Body cells fresh (fill fs (node p v s n))) :
    Body (update cells p (some (nodeOf n.head (up fs) s.head v'))) fresh
      (fill fs (node p v' s n)) := by
  obtain ⟨haround, ⟨hp, hs, hn⟩, -, hnodup, hdis⟩ := h.split
  have hperm : (fill fs (node p v' s n)).keys.Perm (fill fs (node p v s n)).keys :=
    (keys_fill fs _).trans (keys_fill fs (node p v s n)).symm
  have hother : ∀ q, q ≠ p →
      update cells p (some (nodeOf n.head (up fs) s.head v')) q = cells q := fun q hq =>
    update_of_ne hq _ _
  have hnot := (nodup_cons.mp hnodup).1
  refine ⟨held_fill.mpr ⟨haround.congr fun q hq => hother q ?_, update_self _ _ _,
    hs.congr fun q hq => hother q ?_, hn.congr fun q hq => hother q ?_⟩,
    hperm.nodup_iff.mpr h.nodup, fun q hq => h.lt_fresh q (hperm.mem_iff.mp hq)⟩
  · exact fun heq => hdis q hq (heq ▸ mem_cons_self)
  · exact fun heq => hnot (heq ▸ mem_append_left _ hq)
  · exact fun heq => hnot (heq ▸ mem_append_right _ hq)

theorem relinked_of_ne {left head : Option Nat} {k : Nat} (hk : head ≠ some k) :
    relinked cells left head k = cells k := by
  cases head with
  | none => rfl
  | some q => exact update_of_ne (fun heq => hk (congrArg some heq.symm)) _ _

theorem retargeted_of_ne {head : Option Nat} {k : Nat} (hk : up fs ≠ some k) :
    retargeted cells head fs k = cells k := by
  cases fs with
  | nil => rfl
  | cons f gs => exact update_of_ne (fun heq => hk (congrArg some heq.symm)) _ _

theorem insert {v : NodeVal w} (h : Body cells fresh (fill fs t)) :
    Body (inserted cells fresh fs t v) (fresh + 1) (fill fs (node fresh v nil t)) := by
  obtain ⟨-, ht, -, hnodup, hdis⟩ := h.split
  have hperm : (fill fs (node fresh v nil t)).keys.Perm (fresh :: (fill fs t).keys) :=
    (keys_fill fs _).trans (perm_middle.trans ((keys_fill fs t).symm.cons fresh))
  have hnot : fresh ∉ (fill fs t).keys := fun hmem => Nat.lt_irrefl _ (h.lt_fresh _ hmem)
  have hold : ∀ q < fresh, inserted cells fresh fs t v q =
      retargeted (relinked cells (some fresh) t.head) (some fresh) fs q := fun q hq =>
    update_of_ne (Nat.ne_of_lt hq) _ _
  have hplace : ∀ q ∈ t.keys, inserted cells fresh fs t v q =
      relinked cells (some fresh) t.head q := fun q hq => by
    rw [hold q (h.lt_place hq), retargeted_of_ne fun heq => hdis q (up_mem heq) hq]
  have hto : Retargets nodeOf cells (inserted cells fresh fs t v) fs (some fresh) := by
    refine ⟨fun f gs heq => ?_, fun q hq hne => ?_⟩
    · have hf : f.key ∈ around fs := up_mem (heq ▸ rfl)
      rw [hold _ (h.lt_around hf), heq]
      exact update_self _ _ _
    · rw [hold _ (h.lt_around hq), retargeted_of_ne hne,
        relinked_of_ne fun heq => hdis q hq (head_mem heq)]
  refine ⟨h.held.replace h.nodup hto ⟨update_self _ _ _, trivial, ?_⟩,
    hperm.nodup_iff.mpr (nodup_cons.mpr ⟨hnot, h.nodup⟩), fun q hq => ?_⟩
  · cases t with
    | nil => trivial
    | node p u s n =>
      refine ht.relink hnodup ?_ fun q hq hne => ?_
      · rw [hplace p mem_cons_self]
        refine (update_self _ _ _).trans ?_
        rw [ht.1]
        rfl
      · rw [hplace q hq]
        exact relinked_of_ne fun heq => hne (Option.some.inj heq).symm
  · rcases mem_cons.mp (hperm.mem_iff.mp hq) with rfl | hq
    · exact Nat.lt_succ_self _
    · exact Nat.lt_succ_of_lt (h.lt_fresh q hq)

end Body

end Nnode

namespace Nchain

variable {c : Nchain w} {p : Nat} {fs : List (NodeFrame w)} {v : NodeVal w} {s n : NodeRow w}

theorem modify_eq {m : Nnode w} (h : c.cells p = some m) (f : Nnode w → Nnode w) :
    c.modify p f = some { c with cells := update c.cells p (some (f m)) } := by
  unfold modify
  rw [h]

open Nnode

theorem update_again {α β : Type} [DecidableEq α] {a b : α} (h : a ≠ b) (f : α → β) (x y z : β) :
    update (update (update f a x) b y) a z = update (update f b y) a z := by
  rw [update_comm h x y f, update_idem]

section

variable (h : Body c.cells c.fresh (fill fs (node p v s n))) (offs : Option Nat) (type : NodeType)
include h offs type

theorem nnodeInsert_right : c.nnodeInsert p offs type true = some (c.fresh, { c with
      cells := inserted c.cells c.fresh (.next p v s :: fs) n ⟨offs, type, 0, 0⟩
      fresh := c.fresh + 1 }) := by
  have hp := h.cell
  have hold : c.fresh ≠ p := (Nat.ne_of_lt (h.lt_place mem_cons_self)).symm
  cases n with
  | nil =>
    simp only [nnodeInsert, hp, alloc, modify, nodeOf, update_self, update_of_ne hold.symm,
      update_idem, inserted, relinked, retargeted, Frame.cell, Frame.key, up_cons, head_nil,
      if_true, Option.bind_eq_bind, Option.bind_some]
    rw [update_comm hold]
  | node q u s' n' =>
    have hq : c.cells q = some (nodeOf n'.head (some p) s'.head u) := h.next.cell
    have hqold : c.fresh ≠ q := (Nat.ne_of_lt (h.lt_place (by simp))).symm
    have hpq : p ≠ q := fun heq => (nodup_cons.mp h.split.2.2.2.1).1 (by simp [heq])
    simp [nnodeInsert, hp, alloc, modify, nodeOf, hold.symm, hq, hqold, hqold.symm, hpq,
      inserted, relinked, retargeted, Frame.cell, Frame.key]
    rw [update_again hqold, update_comm hold]

theorem nnodeInsert_left : c.nnodeInsert p offs type false = some (c.fresh, { c with
      cells := inserted c.cells c.fresh fs (node p v s n) ⟨offs, type, 0, 0⟩
      fresh := c.fresh + 1 }) := by
  have hp := h.cell
  have hold : c.fresh ≠ p := (Nat.ne_of_lt (h.lt_place mem_cons_self)).symm
  cases fs with
  | nil =>
    simp [nnodeInsert, isEldest, hp, alloc, modify, nodeOf, hold, hold.symm, inserted, relinked,
      retargeted]
    rw [update_again hold]
  | cons f gs =>
    have hf : c.cells f.key = some (f.cell nodeOf (up gs) (some p)) := h.split.1.1
    have hfold : c.fresh ≠ f.key := (Nat.ne_of_lt (h.lt_around (by simp [Frame.keys]))).symm
    have hpf : p ≠ f.key := fun heq => h.split.2.2.2.2 f.key (up_mem rfl) (heq ▸ mem_cons_self)
    cases f with
    | sub q u n' =>
      change c.cells q = some (nodeOf n'.head (up gs) (some p) u) at hf
      change c.fresh ≠ q at hfold
      change p ≠ q at hpf
      simp [nnodeInsert, isEldest, hf, hp, alloc, modify, nodeOf, hold, hold.symm, hfold, hfold.symm,
        hpf, inserted, relinked, retargeted, Frame.cell, Frame.key]
      rw [update_comm hfold, update_again hold, update_comm hpf]
    | next q u s' =>
      change c.cells q = some (nodeOf (some p) (up gs) s'.head u) at hf
      change c.fresh ≠ q at hfold
      change p ≠ q at hpf
      have hq' : s'.head ≠ some p := fun heq => h.split.2.2.2.2 p (by
        simp [Frame.keys, Frame.rest, head_mem heq]) mem_cons_self
      simp [nnodeInsert, isEldest, hf, hp, alloc, modify, nodeOf, hold, hold.symm, hfold, hfold.symm,
        hpf, hq', inserted, relinked, retargeted, Frame.cell, Frame.key]
      rw [update_comm hfold, update_again hold, update_comm hpf]

/-- A node before the row of its siblings and behind its elder one, by `NnodeInsert`. -/
theorem insert_right :
    ∃ cells, c.nnodeInsert p offs type true = some (c.fresh, { c with cells, fresh := c.fresh + 1 }) ∧
      Body cells (c.fresh + 1) (fill fs (node p v s (node c.fresh ⟨offs, type, 0, 0⟩ nil n))) :=
  ⟨_, nnodeInsert_right h offs type, h.next.insert⟩

theorem insert_left :
    ∃ cells, c.nnodeInsert p offs type false = some (c.fresh, { c with cells, fresh := c.fresh + 1 }) ∧
      Body cells (c.fresh + 1) (fill fs (node c.fresh ⟨offs, type, 0, 0⟩ nil (node p v s n))) :=
  ⟨_, nnodeInsert_left h offs type, h.insert⟩

end

theorem modify_val (h : Body c.cells c.fresh (fill fs (node p v s n))) (f : Nnode w → Nnode w)
    (v' : NodeVal w) (hf : ∀ next left subf, f (nodeOf next left subf v) = nodeOf next left subf v') :
    ∃ cells, c.modify p f = some { c with cells } ∧
      Body cells c.fresh (fill fs (node p v' s n)) := by
  refine ⟨_, modify_eq h.cell f, ?_⟩
  rw [hf]
  exact h.revalue

/-- The chain holds the row: its nodes from the root on, and texts among the allocated blocks. -/
structure Holds (c : Nchain w) (t : NodeRow w) : Prop where
  body : Body c.cells c.fresh t
  root : c.rootNode = t.head
  lt_freshBlock : ∀ a b, c.blocks a = some b → a < c.freshBlock

theorem Holds.root_congr {t t' : NodeRow w} (h : c.Holds (fill fs t)) (hhead : t.head = t'.head) :
    c.rootNode = (fill fs t').head := by
  rw [h.root]
  rcases head_fill fs with rfl | ⟨q, -, hq⟩
  · exact hhead
  · rw [hq, hq]

theorem Holds.root_insert {q : Nat} {u : NodeVal w} {t : NodeRow w}
    (h : c.Holds (fill fs (node p v s n))) :
    (if c.rootNode = some p then some q else c.rootNode) = (fill fs (node q u nil t)).head := by
  have hiff := head_fill_eq_iff (t := node p v s n) rfl h.body.nodup
  rw [h.root]
  by_cases hfs : fs = []
  · rw [if_pos (hiff.mpr hfs), hfs]
    rfl
  · rw [if_neg fun heq => hfs (hiff.mp heq)]
    obtain ⟨r, -, hr⟩ := (head_fill fs).resolve_left hfs
    rw [hr, hr]

theorem reroot_eq (c : Nchain w) (p q : Nat) :
    c.reroot p q = { c with rootNode := if c.rootNode = some p then some q else c.rootNode } := by
  unfold reroot
  split <;> rfl

theorem lt_of_update {blocks : Nat → Option (Block w)} {m k a : Nat} {b : Option (Block w)}
    (h : ∀ x y, blocks x = some y → x < m) (hm : m ≤ k) (ha : a < k) (x : Nat) (y : Block w)
    (hx : update blocks a b x = some y) : x < k := by
  by_cases heq : x = a
  · exact heq ▸ ha
  · rw [update_of_ne heq] at hx
    exact Nat.lt_of_lt_of_le (h x y hx) hm

end Nchain

end Unisym.Datype
