/-
# `DchainSpec` — the chain as a list

`Body` says that the heap holds a list of entries, `Holds` that a chain does:
its ends and its count are those of the list.  Every operation is the one of
`Listing`, on lists of entries; where a chain is empty, `insert` at 0 leaves the
last node null, and where `sort` moves the last node, the chain keeps the freed
one as its last.  `chain_represents` is about all runs that avoid these two.
-/
import Unisym.Datype.Dchain
import Unisym.Library.Steps
import Mathlib.Data.List.DropRight

namespace Unisym.Datype

open Function Links

/-- An entry: a node with its content and type. -/
abbrev Entry (α : Type) := Nat × (α × Nat)

namespace Dchain

variable {α : Type}

/-- How a `Dnode` is read. -/
def layout (α : Type) : Layout Nat (Dnode α) (α × Nat) :=
  ⟨Dnode.next, Dnode.left, fun n => (n.offs, n.type)⟩

/-! ## The heap -/

/-- The heap after `asserv(p)->next = v`. -/
def withNext (cells : Nat → Option (Dnode α)) (p v : Option Nat) : Nat → Option (Dnode α) := fun k =>
  if p = some k then (cells k).map fun n => { n with next := v } else cells k

/-- The heap after `asserv(p)->left = v`. -/
def withLeft (cells : Nat → Option (Dnode α)) (p v : Option Nat) : Nat → Option (Dnode α) := fun k =>
  if p = some k then (cells k).map fun n => { n with left := v } else cells k

theorem modify_eq {c : Dchain α} {p : Nat} (f : Dnode α → Dnode α) (h : c.cells p ≠ none) :
    c.modify p f = some { c with
      cells := fun k => if some p = some k then (c.cells k).map f else c.cells k } := by
  obtain ⟨n, hn⟩ := Option.ne_none_iff_exists'.mp h
  unfold modify
  rw [hn]
  dsimp only
  congr 2
  funext k
  by_cases hk : k = p
  · rw [hk, update_self, if_pos rfl, hn]
    rfl
  · rw [update_of_ne hk, if_neg fun hpk => hk (Option.some.inj hpk).symm]

section

variable {c : Dchain α} {p v : Option Nat} (h : ∀ k, p = some k → c.cells k ≠ none)
include h

theorem setNext_eq : c.setNext p v = some { c with cells := withNext c.cells p v } := by
  cases p with
  | none => rfl
  | some p => exact modify_eq _ (h p rfl)

theorem setLeft_eq : c.setLeft p v = some { c with cells := withLeft c.cells p v } := by
  cases p with
  | none => rfl
  | some p => exact modify_eq _ (h p rfl)

end

@[simp] theorem withNext_eq_none {cells : Nat → Option (Dnode α)} {p v : Option Nat} {k : Nat} :
    withNext cells p v k = none ↔ cells k = none := by
  unfold withNext
  split <;> simp

@[simp] theorem withLeft_eq_none {cells : Nat → Option (Dnode α)} {p v : Option Nat} {k : Nat} :
    withLeft cells p v k = none ↔ cells k = none := by
  unfold withLeft
  split <;> simp

/-- The heap holds the entries, and the nodes allocated later are not among them. -/
structure Body (cells : Nat → Option (Dnode α)) (fresh : Nat) (es : List (Entry α)) : Prop where
  linked : Linked (layout α) cells es
  nodup : (keys es).Nodup
  lt_fresh : ∀ p ∈ keys es, p < fresh

namespace Body

variable {cells cells' : Nat → Option (Dnode α)} {fresh : Nat} {es xs ys : List (Entry α)} {e : Entry α}

theorem nil (cells : Nat → Option (Dnode α)) (fresh : Nat) : Body cells fresh [] :=
  ⟨linked_nil cells, List.nodup_nil, fun _ h => absurd h List.not_mem_nil⟩

theorem node (h : Body cells fresh (xs ++ e :: ys)) :
    cells e.1 = some ⟨headKey ys, e.2.1, lastKey xs, e.2.2⟩ := by
  obtain ⟨n, hn, hnext, hleft, hval⟩ := h.linked xs e ys rfl
  rw [hn, ← hnext, ← hleft, ← hval]
  rfl

theorem cell_ne_none (h : Body cells fresh es) {p : Nat} (hp : p ∈ keys es) : cells p ≠ none := by
  obtain ⟨e, he, rfl⟩ := List.mem_map.mp hp
  obtain ⟨n, hn, -⟩ := h.linked.mem he
  rw [hn]
  exact Option.some_ne_none n

theorem length_le (h : Body cells fresh es) : es.length ≤ fresh := Links.length_le h.nodup h.lt_fresh

theorem insert {v : α × Nat} (h : Body cells fresh (xs ++ ys))
    (hnew : cells' fresh = some ⟨headKey ys, v.1, lastKey xs, v.2⟩)
    (hold : ∀ k < fresh, cells' k = (cells k).map fun n => { n with
      next := if lastKey xs = some k then some fresh else n.next
      left := if headKey ys = some k then some fresh else n.left }) :
    Body cells' (fresh + 1) (xs ++ (fresh, v) :: ys) := by
  obtain ⟨hnodup, hfresh⟩ := keys_insert h.nodup h.lt_fresh v
  refine ⟨?_, hnodup, hfresh⟩
  · refine Linked.replace (m := []) [(fresh, v)] h.linked h.nodup (fun us e' vs heq => ?_)
      fun e' he' n hn => ?_
    · cases us with
      | nil =>
        cases heq
        rw [List.append_nil, List.nil_append]
        exact ⟨_, hnew, rfl, rfl, rfl⟩
      | cons u us => cases us <;> cases heq
    · have hcell := hold _ (h.lt_fresh _ (mem_keys he'))
      rw [hn, Option.map_some] at hcell
      refine ⟨_, hcell, rfl, ?_, rfl⟩
      rw [lastKey_concat]
      rfl

theorem remove (h : Body cells fresh (xs ++ e :: ys))
    (hold : ∀ k ≠ e.1, cells' k = (cells k).map fun n => { n with
      next := if lastKey xs = some k then headKey ys else n.next
      left := if headKey ys = some k then lastKey xs else n.left }) :
    Body cells' fresh (xs ++ ys) := by
  have hsub : (xs ++ ys).Sublist (xs ++ e :: ys) :=
    (List.sublist_cons_self e ys).append_left xs
  refine ⟨?_, h.nodup.sublist (hsub.map _), fun p hp => h.lt_fresh p ((hsub.map _).subset hp)⟩
  refine Linked.replace (m := [e]) [] h.linked h.nodup (fun us e' vs heq => ?_) fun e' he' n hn => ?_
  · cases us <;> cases heq
  · have hne : e'.1 ≠ e.1 := by
      have hnodup := h.nodup
      rw [keys_append, keys_cons, List.nodup_middle, List.nodup_cons, ← keys_append] at hnodup
      intro heq
      exact hnodup.1 (heq ▸ mem_keys he')
    have hcell := hold _ hne
    rw [hn, Option.map_some] at hcell
    refine ⟨_, hcell, rfl, ?_, rfl⟩
    rw [List.append_nil]
    rfl

end Body

/-! ## Nodes -/

variable {c : Dchain α}

section

variable {xs ys : List (Entry α)} {e : Entry α} (h : Body c.cells c.fresh (xs ++ e :: ys)) (offs : α) (typlen : Nat)
include h offs typlen

theorem dnodeInsert_right : ∃ cells', c.dnodeInsert (some e.1) offs typlen true =
        some (c.fresh, { c with cells := cells', fresh := c.fresh + 1 }) ∧
      Body cells' (c.fresh + 1) (xs ++ e :: (c.fresh, offs, typlen) :: ys) := by
  have hnode := h.node
  have hlt : ∀ p ∈ keys (xs ++ e :: ys), p ≠ c.fresh := fun p hp => Nat.ne_of_lt (h.lt_fresh p hp)
  have hpne : e.1 ≠ c.fresh := hlt _ (mem_keys List.mem_append_cons_self)
  have hhead : ∀ k, headKey ys = some k → k ≠ c.fresh ∧ c.cells k ≠ none := fun k hk => by
    have hmem : k ∈ keys (xs ++ e :: ys) := by
      rw [keys_append, keys_cons]
      exact List.mem_append_right _ (List.mem_cons_of_mem _ (headKey_mem hk))
    exact ⟨hlt k hmem, h.cell_ne_none hmem⟩
  refine ⟨withNext (withNext (withLeft (update c.cells c.fresh (some ⟨none, offs, some e.1, typlen⟩))
    (headKey ys) (some c.fresh)) (some c.fresh) (headKey ys)) (some e.1) (some c.fresh), ?_, ?_⟩
  · unfold dnodeInsert
    dsimp only
    rw [hnode]
    dsimp only
    rw [if_pos rfl, setLeft_eq, Option.bind_eq_bind, Option.bind_some, setNext_eq,
      Option.bind_some, setNext_eq]
    · rfl
    · rintro k ⟨⟩
      simp [alloc, update_of_ne hpne, hnode]
    · rintro k ⟨⟩
      simp [alloc]
    · exact fun k hk => by simp [alloc, update_of_ne (hhead k hk).1, (hhead k hk).2]
  · rw [List.append_cons] at h ⊢
    refine h.insert ?_ fun k hk => ?_
    · unfold withNext withLeft
      rw [if_neg fun hk => hpne (Option.some.inj hk), if_pos rfl,
        if_neg fun hk => (hhead _ hk).1 rfl, update_self, lastKey_concat]
      rfl
    · have hne : k ≠ c.fresh := Nat.ne_of_lt hk
      unfold withNext withLeft
      rw [if_neg fun hk => hne (Option.some.inj hk).symm, update_of_ne hne, lastKey_concat]
      cases c.cells k with
      | none => split <;> split <;> rfl
      | some n => by_cases h1 : some e.1 = some k <;> by_cases h2 : headKey ys = some k <;>
          simp [h1, h2]

theorem dnodeInsert_left : ∃ cells', c.dnodeInsert (some e.1) offs typlen false =
        some (c.fresh, { c with cells := cells', fresh := c.fresh + 1 }) ∧
      Body cells' (c.fresh + 1) (xs ++ (c.fresh, offs, typlen) :: e :: ys) := by
  have hnode := h.node
  have hlt : ∀ p ∈ keys (xs ++ e :: ys), p ≠ c.fresh := fun p hp => Nat.ne_of_lt (h.lt_fresh p hp)
  have hpne : e.1 ≠ c.fresh := hlt _ (mem_keys List.mem_append_cons_self)
  have hlast : ∀ k, lastKey xs = some k → k ≠ c.fresh ∧ c.cells k ≠ none := fun k hk => by
    have hmem : k ∈ keys (xs ++ e :: ys) := by
      rw [keys_append]
      exact List.mem_append_left _ (lastKey_mem hk)
    exact ⟨hlt k hmem, h.cell_ne_none hmem⟩
  refine ⟨withLeft (withLeft (withNext (update c.cells c.fresh (some ⟨some e.1, offs, none, typlen⟩))
    (lastKey xs) (some c.fresh)) (some c.fresh) (lastKey xs)) (some e.1) (some c.fresh), ?_, ?_⟩
  · unfold dnodeInsert
    dsimp only
    rw [hnode]
    dsimp only
    rw [if_neg Bool.false_ne_true, setNext_eq, Option.bind_eq_bind, Option.bind_some, setLeft_eq,
      Option.bind_some, setLeft_eq]
    · rfl
    · rintro k ⟨⟩
      simp [alloc, update_of_ne hpne, hnode]
    · rintro k ⟨⟩
      simp [alloc]
    · exact fun k hk => by simp [alloc, update_of_ne (hlast k hk).1, (hlast k hk).2]
  · refine h.insert ?_ fun k hk => ?_
    · unfold withLeft withNext
      rw [if_neg fun hk => hpne (Option.some.inj hk), if_pos rfl,
        if_neg fun hk => (hlast _ hk).1 rfl, update_self, headKey_cons]
      rfl
    · have hne : k ≠ c.fresh := Nat.ne_of_lt hk
      unfold withLeft withNext
      rw [if_neg fun hk => hne (Option.some.inj hk).symm, update_of_ne hne, headKey_cons]
      cases c.cells k with
      | none => split <;> split <;> rfl
      | some n => by_cases h1 : some e.1 = some k <;> by_cases h2 : lastKey xs = some k <;>
          simp [h1, h2]

end

theorem dnodeInsert_first (c : Dchain α) (offs : α) (typlen : Nat) (right : Bool) :
    ∃ cells', c.dnodeInsert none offs typlen right =
        some (c.fresh, { c with cells := cells', fresh := c.fresh + 1 }) ∧
      Body cells' (c.fresh + 1) [(c.fresh, offs, typlen)] :=
  ⟨_, rfl, @Body.insert α c.cells _ c.fresh [] [] _ (Body.nil c.cells c.fresh) (update_self _ _ _)
    fun k hk => by
      rw [update_of_ne (Nat.ne_of_lt hk)]
      cases c.cells k <;> rfl⟩

theorem dnodeRemove_spec {xs ys : List (Entry α)} {e : Entry α}
    (h : Body c.cells c.fresh (xs ++ e :: ys)) :
    ∃ cells', c.dnodeRemove e.1 = some { c with cells := cells' } ∧
      Body cells' c.fresh (xs ++ ys) := by
  have hlast : ∀ k, lastKey xs = some k → c.cells k ≠ none := fun k hk =>
    h.cell_ne_none (by rw [keys_append]; exact List.mem_append_left _ (lastKey_mem hk))
  have hhead : ∀ k, headKey ys = some k → c.cells k ≠ none := fun k hk =>
    h.cell_ne_none (by
      rw [keys_append, keys_cons]
      exact List.mem_append_right _ (List.mem_cons_of_mem _ (headKey_mem hk)))
  refine ⟨update (withLeft (withNext c.cells (lastKey xs) (headKey ys)) (headKey ys) (lastKey xs))
    e.1 none, ?_, ?_⟩
  · unfold dnodeRemove
    rw [h.node]
    dsimp only
    rw [setNext_eq hlast, some_bind, setLeft_eq]
    · rfl
    · exact fun k hk => by simp [hhead k hk]
  · refine h.remove fun k hk => ?_
    rw [update_of_ne hk]
    unfold withLeft withNext
    cases c.cells k with
    | none => split <;> split <;> rfl
    | some n => by_cases h1 : headKey ys = some k <;> by_cases h2 : lastKey xs = some k <;>
        simp [h1, h2]

/-! ## Access by index -/

theorem locateLoop_spec {xs : List (Entry α)} {e : Entry α} :
    ∀ (idx : Nat) {ys : List (Entry α)}, Body c.cells c.fresh (xs ++ e :: ys) →
      c.locateLoop idx e.1 = some (ys[idx]?.map Prod.fst)
  | idx, [], h => by
    rw [locateLoop, h.node]
    rfl
  | 0, f :: ys, h => by
    rw [locateLoop, h.node]
    rfl
  | idx + 1, f :: ys, h => by
    rw [locateLoop, h.node]
    exact locateLoop_spec idx (List.append_cons xs e (f :: ys) ▸ h)

theorem locate_spec {e : Entry α} {es : List (Entry α)}
    (h : Body c.cells c.fresh (e :: es)) (hroot : c.rootNode = some e.1) (idx : Nat) :
    c.locate idx = some ((e :: es)[idx]?.map Prod.fst) := by
  cases idx with
  | zero =>
    rw [locate, hroot]
    rfl
  | succ idx =>
    rw [locate, hroot]
    exact @locateLoop_spec α c [] e idx es h

theorem locateNodeLoop_spec {xs : List (Entry α)} {e : Entry α} :
    ∀ (idx : Nat) {ys : List (Entry α)}, Body c.cells c.fresh (xs ++ e :: ys) →
      c.locateNodeLoop idx e.1 = some ((e :: ys)[idx]?.map Prod.fst)
  | 0, _, _ => rfl
  | idx + 1, [], h => by
    rw [locateNodeLoop, h.node]
    rfl
  | idx + 1, f :: ys, h => by
    rw [locateNodeLoop, h.node]
    exact locateNodeLoop_spec idx (List.append_cons xs e (f :: ys) ▸ h)

theorem locateNode_spec {es : List (Entry α)} (h : Body c.cells c.fresh es)
    (hroot : c.rootNode = headKey es) (idx : Nat) :
    c.locateNode idx = some (es[idx]?.map Prod.fst) := by
  unfold locateNode
  rw [hroot]
  cases es with
  | nil => rfl
  | cons e es => exact @locateNodeLoop_spec α c [] e idx es h

/-! ## Chains -/

/-- The chain holds the entries. -/
structure Holds (c : Dchain α) (es : List (Entry α)) : Prop where
  body : Body c.cells c.fresh es
  root : c.rootNode = headKey es
  last : c.lastNode = lastKey es
  count : c.nodeCount = es.length
  sorted : c.beenSorted = true

theorem holds_new : (new : Dchain α).Holds [] := ⟨Body.nil _ _, rfl, rfl, rfl, rfl⟩

/-- `DnodeChainAdapt` with the ends and the count of the list. -/
theorem dnodeChainAdapt_spec {es : List (Entry α)} {root last : Option Nat}
    {countDif : Int} (h : Body c.cells c.fresh es) (hroot : root = headKey es)
    (hlast : last = lastKey es) (hcount : c.nodeCount + countDif = es.length)
    (hsorted : c.beenSorted = true) :
    ∃ c', c.dnodeChainAdapt root last countDif = some c' ∧ c'.Holds es ∧ c'.fresh = c.fresh ∧
      c'.compareF = c.compareF := by
  unfold dnodeChainAdapt
  dsimp only
  rw [hcount, Int.toNat_natCast]
  split
  · exact ⟨_, rfl, ⟨h, hroot, hlast, rfl, hsorted⟩, rfl, rfl⟩
  · have hmidl := locateNode_spec (c := { c with
      nodeCount := es.length, rootNode := root, lastNode := last }) h hroot (es.length >>> 1)
    rw [hmidl]
    exact ⟨_, rfl, ⟨h, hroot, hlast, rfl, hsorted⟩, rfl, rfl⟩

end Dchain

/-! ## Lists of entries -/

/-- A list of entries, the number of the next node, and the comparison. -/
structure Listing (α : Type) where
  entries : List (Entry α)
  fresh : Nat
  compareF : Option (α → α → Int)

namespace Listing

variable {α : Type}

/-- A list with a new entry. -/
def add (l : Listing α) (es : List (Entry α)) : Listing α :=
  { l with entries := es, fresh := l.fresh + 1 }

/-- The entry of a content that is added. -/
def entry (l : Listing α) (dat : α) : Entry α := (l.fresh, dat, 0)

/-- Beside the entry of a node. -/
def beside (onleft : Bool) (nod : Nat) (new : Entry α) : List (Entry α) → List (Entry α)
  | [] => []
  | e :: es =>
      if e.1 = nod then (if onleft then new :: e :: es else e :: new :: es)
      else e :: beside onleft nod new es

def insert (l : Listing α) (idx : Nat) (dat : α) : Listing α :=
  if idx ≤ l.entries.length then
    l.add (l.entries.take idx ++ l.entry dat :: l.entries.drop idx)
  else l

def push (l : Listing α) (off : α) (endLeft : Bool) : Listing α :=
  l.add (if endLeft then l.entry off :: l.entries else l.entries ++ [l.entry off])

/-- Whether a content belongs behind an entry. -/
def behind (f : α → α → Int) (addr : α) (e : Entry α) : Bool := f addr e.2.1 > 0

/-- A sorted `Append`. -/
def appendSorted (l : Listing α) (f : α → α → Int) (addr : α) : Listing α :=
  l.add (l.entries.takeWhile (behind f addr) ++
    l.entry addr :: l.entries.dropWhile (behind f addr))

def append (l : Listing α) (addr : α) (onleft : Bool) (nod : Option Nat) : Listing α :=
  match nod with
  | some p => l.add (beside onleft p (l.entry addr) l.entries)
  | none =>
      match l.compareF with
      | none => l.push addr onleft
      | some f => l.appendSorted f addr

def remove (l : Listing α) (idx times : Nat) : Listing α :=
  { l with entries := l.entries.take idx ++ l.entries.drop (idx + times) }

/-- `Remove(nod)` and `Remove(content)` -/
def removeWhere (l : Listing α) (test : Entry α → Bool) : Listing α :=
  { l with entries := l.entries.eraseP test }

def exchange (l : Listing α) (idx1 idx2 : Nat) : Listing α :=
  match l.entries[idx1]?, l.entries[idx2]? with
  | some e, some f =>
      { l with entries := (l.entries.set idx1 (e.1, f.2)).set idx2 (f.1, e.2) }
  | _, _ => l

def reverse (l : Listing α) : Listing α := { l with entries := l.entries.reverse }

/-- `setcmp`, on entries. -/
def cmp (localCompare : Nat → Nat → Int) (l : Listing α) (a b : Entry α) : Int :=
  match l.compareF with
  | none => localCompare a.1 b.1
  | some f => f a.2.1 b.2.1

/-- Insertion from the right: the entries `rest` are moved one by one to their
places among `done`, each to a new node, or left where they are. -/
def sortFrom (gt : Entry α → Entry α → Bool) : (rest done : List (Entry α)) → Nat →
    List (Entry α) × Nat
  | [], done, fresh => (done, fresh)
  | x :: rest, done, fresh =>
      if done.rtakeWhile (gt · x) = [] then sortFrom gt rest (done ++ [x]) fresh
      else sortFrom gt rest
        (done.rdropWhile (gt · x) ++ (fresh, x.2) :: done.rtakeWhile (gt · x)) (fresh + 1)

def sort (localCompare : Nat → Nat → Int) (l : Listing α) : Listing α :=
  match l.entries with
  | [] => l
  | e :: es =>
      let r := sortFrom (fun a b => l.cmp localCompare a b > 0) es [e] l.fresh
      { l with entries := r.1, fresh := r.2 }

/-- No entry, with its own node or with a new one, compares greater than the
last. -/
def SortOk (localCompare : Nat → Nat → Int) (l : Listing α) : Prop :=
  ∀ init x, l.entries = init ++ [x] → ∀ e ∈ init, ∀ a, a = e.1 ∨ l.fresh ≤ a →
    l.cmp localCompare (a, e.2) x ≤ 0

end Listing

namespace Dchain

variable {α : Type}

/-- The chain is the list. -/
structure Is (c : Dchain α) (l : Listing α) : Prop where
  holds : c.Holds l.entries
  fresh : c.fresh = l.fresh
  compareF : c.compareF = l.compareF

/-- `DnodeChainAdapt`, for a list whose entries are in the heap. -/
theorem is_of_adapt (c : Dchain α) {es : List (Entry α)} {root last : Option Nat} (countDif : Int)
    (h : Body c.cells c.fresh es) (hroot : root = headKey es) (hlast : last = lastKey es)
    (hcount : c.nodeCount + countDif = es.length) (hsorted : c.beenSorted = true) :
    ∃ c', c.dnodeChainAdapt root last countDif = some c' ∧ c'.Is ⟨es, c.fresh, c.compareF⟩ := by
  obtain ⟨c', hadapt, hholds, hfresh, hcompare⟩ :=
    dnodeChainAdapt_spec h hroot hlast hcount hsorted
  exact ⟨c', hadapt, hholds, hfresh, hcompare⟩

/-! ## Adding nodes -/

variable {c : Dchain α} {l : Listing α} {localCompare : Nat → Nat → Int} {x : Entry α}

theorem Is.listing (h : c.Is l) : ∃ es, c.Holds es ∧ l = ⟨es, c.fresh, c.compareF⟩ := by
  obtain ⟨es, fresh, compareF⟩ := l
  exact ⟨es, h.holds, by rw [h.fresh, h.compareF]⟩

theorem Is.insert (h : c.Is l) {idx : Nat} (dat : α)
    (hempty : idx = 0 → l.entries ≠ []) :
    ∃ r c', c.insert idx dat = some (r, c') ∧ c'.Is (l.insert idx dat) := by
  obtain ⟨es, fresh, compareF⟩ := l
  obtain ⟨⟨hbody, hroot, hlast, hcount, hsorted⟩, hfresh, hcompare⟩ := h
  dsimp only at hbody hroot hlast hcount hfresh hcompare hempty
  cases hfresh
  unfold Dchain.insert Listing.insert Listing.entry Listing.add
  dsimp only
  by_cases hzero : idx = 0
  · subst hzero
    rw [if_pos rfl, if_pos (Nat.zero_le _)]
    obtain ⟨e, es, rfl⟩ := List.exists_cons_of_ne_nil (hempty rfl)
    obtain ⟨cells', hinsert, hbody'⟩ := @dnodeInsert_left α c [] es e hbody dat 0
    rw [hroot, headKey_cons, hinsert]
    refine ⟨_, _, rfl, ⟨hbody', rfl, ?_, ?_, hsorted⟩, rfl, hcompare⟩
    · exact hlast.trans (lastKey_cons_cons _ e es).symm
    · exact congrArg (· + 1) hcount
  rw [if_neg hzero]
  by_cases hrange : idx > c.nodeCount
  · have hout : ¬idx ≤ es.length := by omega
    rw [if_pos hrange, if_neg hout]
    exact ⟨_, _, rfl, ⟨hbody, hroot, hlast, hcount, hsorted⟩, rfl, hcompare⟩
  have hin : idx ≤ es.length := by omega
  rw [if_neg hrange, if_pos hin]
  by_cases hend : idx = c.nodeCount
  · rw [if_pos hend]
    have hne : es ≠ [] := fun hnil => hzero (by rw [hend, hcount, hnil]; rfl)
    obtain ⟨es, e, rfl⟩ := (List.eq_nil_or_concat' es).resolve_left hne
    have hidx : idx = (es ++ [e]).length := hend.trans hcount
    obtain ⟨cells', hinsert, hbody'⟩ := dnodeInsert_right hbody dat 0
    rw [hlast, lastKey_concat, hinsert, hidx, List.take_length, List.drop_length, List.append_assoc]
    refine ⟨_, _, rfl, ⟨hbody', ?_, ?_, ?_, hsorted⟩, rfl, hcompare⟩
    · exact hroot.trans (headKey_append_cons es e [_]).symm
    · change some c.fresh = lastKey (es ++ e :: [(c.fresh, dat, 0)])
      rw [lastKey_append_cons]
      rfl
    · change c.nodeCount + 1 = _
      rw [hcount, List.length_append, List.length_append]
      rfl
  · rw [if_neg hend]
    have hlt : idx - 1 < es.length := by omega
    have hnext : idx - 1 + 1 = idx := by omega
    obtain ⟨xs, e, ys, rfl, hxs⟩ : ∃ xs e ys, es = xs ++ e :: ys ∧ xs.length = idx - 1 :=
      ⟨es.take (idx - 1), es[idx - 1], es.drop (idx - 1 + 1),
        by rw [← List.drop_eq_getElem_cons hlt, List.take_append_drop],
        List.length_take_of_le (Nat.le_of_lt hlt)⟩
    have hlocate : c.locate (idx - 1) = some (some e.1) := by
      have hget : (xs ++ e :: ys)[idx - 1]? = some e := by
        rw [List.getElem?_append_right (Nat.le_of_eq hxs), hxs, Nat.sub_self]
        rfl
      obtain ⟨f, fs, hfs⟩ := List.exists_cons_of_ne_nil
        (List.append_ne_nil_of_right_ne_nil xs (List.cons_ne_nil e ys))
      rw [hfs] at hbody hroot hget
      rw [locate_spec hbody hroot, hget]
      rfl
    have htake : (xs ++ e :: ys).take idx = xs ++ [e] := by
      rw [List.take_append, List.take_of_length_le (by omega), ← hnext, hxs,
        Nat.add_sub_cancel_left]
      rfl
    have hdrop : (xs ++ e :: ys).drop idx = ys := by
      rw [List.drop_append, List.drop_of_length_le (by omega), ← hnext, hxs,
        Nat.add_sub_cancel_left]
      rfl
    have hys : ys ≠ [] := by
      rintro rfl
      rw [List.length_append, List.length_singleton] at hcount
      omega
    obtain ⟨f, ys, rfl⟩ := List.exists_cons_of_ne_nil hys
    obtain ⟨cells', hinsert, hbody'⟩ := dnodeInsert_right hbody dat 0
    rw [hlocate, some_bind, hinsert, htake, hdrop, List.append_assoc]
    refine ⟨_, _, rfl, ⟨hbody', ?_, ?_, ?_, hsorted⟩, rfl, hcompare⟩
    · exact hroot.trans ((headKey_append_cons _ _ _).trans (headKey_append_cons _ _ _).symm)
    · change c.lastNode = lastKey (xs ++ e :: _ :: f :: ys)
      rw [hlast, lastKey_append_cons, lastKey_append_cons, lastKey_cons_cons, lastKey_cons_cons,
        lastKey_cons_cons]
    · change c.nodeCount + 1 = _
      rw [hcount, List.length_append, List.length_append]
      rfl

theorem Holds.first (h : c.Holds []) (offs : α) (right : Bool) :
    ∃ c₁ c', c.dnodeInsert none offs 0 right = some (c.fresh, c₁) ∧
      c₁.dnodeChainAdapt (some c.fresh) (some c.fresh) 1 = some c' ∧
      c'.Is ⟨[(c.fresh, offs, 0)], c.fresh + 1, c.compareF⟩ := by
  obtain ⟨cells', hinsert, hbody'⟩ := dnodeInsert_first c offs 0 right
  have hcount : (c.nodeCount : Int) + 1 = 1 := congrArg (fun n : Nat => (n : Int) + 1) h.count
  obtain ⟨c', hadapt, his⟩ := is_of_adapt { c with cells := cells', fresh := c.fresh + 1 } 1 hbody'
    rfl rfl hcount h.sorted
  exact ⟨_, c', hinsert, hadapt, his⟩

/-- A node to the right of an entry, and the ends as they are then. -/
theorem Holds.right {xs ys : List (Entry α)} {e : Entry α}
    (h : c.Holds (xs ++ e :: ys)) (offs : α) :
    ∃ c₁, c.dnodeInsert (some e.1) offs 0 true = some (c.fresh, c₁) ∧
      c₁.rootNode = c.rootNode ∧ c₁.lastNode = c.lastNode ∧
      ∃ c', c₁.dnodeChainAdapt c.rootNode (if ys = [] then some c.fresh else c.lastNode) 1 = some c' ∧
        c'.Is ⟨xs ++ e :: (c.fresh, offs, 0) :: ys, c.fresh + 1, c.compareF⟩ := by
  obtain ⟨cells', hinsert, hbody'⟩ := dnodeInsert_right h.body offs 0
  refine ⟨_, hinsert, rfl, rfl, is_of_adapt { c with cells := cells', fresh := c.fresh + 1 } 1 hbody'
    ?_ ?_ ?_ h.sorted⟩
  · rw [h.root, headKey_append_cons, ← headKey_append_cons xs e]
  · exact lastKey_behind h.last _ _
  · change (c.nodeCount : Int) + 1 = _
    rw [h.count, List.length_append, List.length_append]
    rfl

/-- A node to the left of an entry, and the ends as they are then. -/
theorem Holds.left {xs ys : List (Entry α)} {e : Entry α}
    (h : c.Holds (xs ++ e :: ys)) (offs : α) :
    ∃ c₁, c.dnodeInsert (some e.1) offs 0 false = some (c.fresh, c₁) ∧
      c₁.rootNode = c.rootNode ∧ c₁.lastNode = c.lastNode ∧
      ∃ c', c₁.dnodeChainAdapt (if xs = [] then some c.fresh else c.rootNode) c.lastNode 1 = some c' ∧
        c'.Is ⟨xs ++ (c.fresh, offs, 0) :: e :: ys, c.fresh + 1, c.compareF⟩ := by
  obtain ⟨cells', hinsert, hbody'⟩ := dnodeInsert_left h.body offs 0
  refine ⟨_, hinsert, rfl, rfl, is_of_adapt { c with cells := cells', fresh := c.fresh + 1 } 1 hbody'
    ?_ ?_ ?_ h.sorted⟩
  · cases xs with
    | nil => exact if_pos rfl
    | cons f xs =>
      rw [if_neg (List.cons_ne_nil f xs), h.root]
      rfl
  · rw [h.last, lastKey_append_cons, lastKey_append_cons, lastKey_cons_cons]
  · change (c.nodeCount : Int) + 1 = _
    rw [h.count, List.length_append, List.length_append]
    rfl

theorem Is.push (h : c.Is l) (off : α) (endLeft : Bool) :
    ∃ r c', c.push off endLeft = some (r, c') ∧ c'.Is (l.push off endLeft) := by
  obtain ⟨es, hholds, rfl⟩ := h.listing
  unfold Dchain.push Listing.push Listing.entry Listing.add
  dsimp only
  cases es with
  | nil =>
    obtain ⟨c₁, c', hinsert, hadapt, his⟩ := hholds.first off false
    rw [hholds.root, headKey_nil, hinsert]
    refine ⟨c.fresh, c', ?_, by cases endLeft <;> exact his⟩
    rw [some_bind, hadapt]
    rfl
  | cons e es =>
    rw [hholds.root, headKey_cons]
    cases endLeft with
    | true =>
      obtain ⟨c₁, hinsert, -, hlast, c', hadapt, his⟩ := @Holds.left α c [] es e hholds off
      refine ⟨c.fresh, c', ?_, his⟩
      rw [if_pos rfl] at hadapt
      dsimp only
      rw [if_pos rfl, hinsert, some_bind, hlast, hadapt]
      rfl
    | false =>
      obtain ⟨xs, f, hxs⟩ := (List.eq_nil_or_concat' (e :: es)).resolve_left
        (List.cons_ne_nil e es)
      rw [hxs] at hholds ⊢
      obtain ⟨c₁, hinsert, hroot, -, c', hadapt, his⟩ := hholds.right off
      refine ⟨c.fresh, c', ?_, by rw [List.append_assoc]; exact his⟩
      rw [if_pos rfl] at hadapt
      dsimp only
      rw [if_neg Bool.false_ne_true, hholds.last, lastKey_concat, hinsert, some_bind, hroot, hadapt]
      rfl

/-! ## `Append` -/

theorem beside_append {onleft : Bool} {new e : Entry α} {ys : List (Entry α)} :
    ∀ {xs : List (Entry α)}, (keys (xs ++ e :: ys)).Nodup →
      Listing.beside onleft e.1 new (xs ++ e :: ys) =
        xs ++ if onleft then new :: e :: ys else e :: new :: ys
  | [], _ => by
    rw [List.nil_append, Listing.beside, if_pos rfl, List.nil_append]
  | x :: xs, h => by
    rw [List.cons_append, keys_cons, List.nodup_cons] at h
    have hne : x.1 ≠ e.1 := fun heq => h.1 (by
      rw [heq]
      exact mem_keys List.mem_append_cons_self)
    rw [List.cons_append, Listing.beside, if_neg hne, beside_append h.2, List.cons_append]

/-- The loop of a sorted `Append` stops at the first entry that is not less. -/
theorem appendSeek_spec (f : α → α → Int) (addr : α) {e : Entry α} :
    ∀ {ys xs : List (Entry α)} {fuel : Nat}, Body c.cells c.fresh (xs ++ e :: ys) →
      ys.length < fuel → c.appendSeek f addr fuel e.1 =
        some (headKey ((e :: ys).dropWhile (Listing.behind f addr)))
  | _, _, 0, _, h => absurd h (Nat.not_lt_zero _)
  | ys, xs, fuel + 1, h, hfuel => by
    rw [appendSeek, h.node]
    dsimp only
    by_cases hgt : f addr e.2.1 > 0
    · have hbehind : Listing.behind f addr e = true := decide_eq_true hgt
      rw [if_pos hgt, List.dropWhile_cons_of_pos hbehind]
      cases ys with
      | nil => rfl
      | cons g ys =>
        exact appendSeek_spec f addr (List.append_cons xs e (g :: ys) ▸ h) (Nat.lt_of_succ_lt_succ hfuel)
    · have hbehind : ¬Listing.behind f addr e = true := fun h => hgt (of_decide_eq_true h)
      rw [if_neg hgt, List.dropWhile_cons_of_neg hbehind]
      rfl

theorem Is.appendSorted (h : c.Is l) (f : α → α → Int) (addr : α)
    {e : Entry α} {es : List (Entry α)} (hes : l.entries = e :: es) :
    ∃ r c', c.appendSorted f addr e.1 = some (r, c') ∧ c'.Is (l.appendSorted f addr) := by
  have hpush := h.push addr true
  obtain ⟨entries, hholds, rfl⟩ := h.listing
  cases hes
  have hnode := @Body.node α c.cells c.fresh [] es e hholds.body
  unfold Dchain.appendSorted Listing.appendSorted Listing.entry Listing.add
  dsimp only
  rw [hnode, some_bind]
  dsimp only
  by_cases hle : f addr e.2.1 ≤ 0
  · -- before all
    have hneg : ¬Listing.behind f addr e = true := fun hgt =>
      absurd (of_decide_eq_true hgt) (by omega)
    rw [if_pos hle, List.takeWhile_cons_of_neg hneg, List.dropWhile_cons_of_neg hneg]
    exact hpush
  have hseek := @appendSeek_spec α c f addr e es [] c.fresh hholds.body hholds.body.length_le
  rw [if_neg hle, hseek, some_bind]
  have hsplit : (e :: es).takeWhile (Listing.behind f addr) ++
      (e :: es).dropWhile (Listing.behind f addr) = e :: es := List.takeWhile_append_dropWhile
  cases hdrop : (e :: es).dropWhile (Listing.behind f addr) with
  | nil =>
    -- behind all
    rw [hdrop, List.append_nil] at hsplit
    rw [hsplit, headKey_nil]
    have hroot : c.rootNode ≠ none := by
      rw [hholds.root]
      exact Option.some_ne_none _
    obtain ⟨xs, g, hxs⟩ := (List.eq_nil_or_concat' (e :: es)).resolve_left
      (List.cons_ne_nil e es)
    rw [hxs] at hholds ⊢
    obtain ⟨c₁, hinsert, hroot₁, -, c', hadapt, his⟩ := hholds.right addr
    refine ⟨c.fresh, c', ?_, by rw [List.append_assoc]; exact his⟩
    rw [if_pos rfl] at hadapt
    dsimp only
    rw [hholds.last, lastKey_concat, hinsert, some_bind]
    dsimp only
    rw [hroot₁, if_neg hroot, hadapt]
    rfl
  | cons g ys =>
    -- before `g`
    rw [hdrop] at hsplit
    rw [← hsplit] at hholds
    have hif : (some g.1 = c.rootNode) ↔ (e :: es).takeWhile (Listing.behind f addr) = [] := by
      rw [hholds.root]
      exact headKey_eq_iff hholds.body.nodup
    obtain ⟨c₁, hinsert, hroot₁, hlast₁, c', hadapt, his⟩ := hholds.left addr
    refine ⟨c.fresh, c', ?_, his⟩
    rw [headKey_cons]
    dsimp only
    rw [hinsert, some_bind]
    dsimp only
    rw [hroot₁, hlast₁]
    simp only [hif]
    rw [hadapt]
    rfl

theorem Is.append (localCompare : Nat → Nat → Int) (h : c.Is l)
    (addr : α) (onleft : Bool) {nod : Option Nat} (hnod : ∀ p, nod = some p → p ∈ keys l.entries) :
    ∃ r c', c.append localCompare addr onleft nod = some (r, c') ∧
      c'.Is (l.append addr onleft nod) := by
  unfold Dchain.append Listing.append
  cases nod with
  | none =>
    have hpush := h.push addr onleft
    have hsortedBranch := @Is.appendSorted α c l h
    obtain ⟨entries, fresh, compareF⟩ := l
    obtain ⟨hholds, hfresh, hcompare⟩ := h
    dsimp only at hholds hfresh hcompare hsortedBranch ⊢
    cases hfresh
    rw [hholds.root]
    cases entries with
    | nil =>
      obtain ⟨c₁, c', hinsert, hadapt, his⟩ := hholds.first addr true
      rw [headKey_nil, hinsert]
      rw [hcompare] at his
      refine ⟨c.fresh, c', ?_, ?_⟩
      · rw [some_bind, hadapt]
        rfl
      · cases compareF with
        | none => cases onleft <;> exact his
        | some f => exact his
    | cons e es =>
      rw [headKey_cons]
      dsimp only
      rw [hcompare]
      cases compareF with
      | none => exact hpush
      | some f =>
        have hsame : { c with beenSorted := true } = c := by
          rw [← hholds.sorted]
        dsimp only
        rw [hholds.sorted, if_pos rfl, some_bind, hsame,
          hholds.root, headKey_cons, some_bind]
        exact hsortedBranch f addr rfl
  | some p =>
    obtain ⟨entries, hholds, rfl⟩ := h.listing
    dsimp only at hnod ⊢
    obtain ⟨e, he, rfl⟩ := List.mem_map.mp (hnod p rfl)
    obtain ⟨xs, ys, rfl⟩ := List.append_of_mem he
    have hnodup := hholds.body.nodup
    have hrootIff : some e.1 = c.rootNode ↔ xs = [] := hholds.root ▸ headKey_eq_iff hnodup
    have hlastIff : some e.1 = c.lastNode ↔ ys = [] := hholds.last ▸ lastKey_eq_iff hnodup
    have hroot : c.rootNode ≠ none := by
      rw [hholds.root]
      cases xs <;> exact Option.some_ne_none _
    have hlast : c.lastNode ≠ none := by
      rw [hholds.last, lastKey_append_cons, lastKey, List.getLast?_cons]
      exact Option.some_ne_none _
    unfold Listing.add Listing.entry
    dsimp only
    rw [beside_append hnodup]
    cases onleft with
    | true =>
      obtain ⟨c₁, hinsert, hroot₁, hlast₁, c', hadapt, his⟩ := hholds.left addr
      refine ⟨c.fresh, c', ?_, his⟩
      rw [Bool.not_true, hinsert, some_bind]
      simp only [hroot₁, hlast₁, hroot, hlast, hrootIff, Bool.false_eq_true, false_and, or_false,
        false_or, true_and, if_false]
      rw [hadapt]
      rfl
    | false =>
      obtain ⟨c₁, hinsert, hroot₁, hlast₁, c', hadapt, his⟩ := hholds.right addr
      refine ⟨c.fresh, c', ?_, his⟩
      rw [Bool.not_false, hinsert, some_bind]
      simp only [hroot₁, hlast₁, hroot, hlast, hlastIff, Bool.false_eq_true, false_and, or_false,
        false_or, true_and, if_false]
      rw [hadapt]
      rfl

/-! ## Removing nodes -/

/-- The loop of `Remove(idx, times)` over the middle part `m`. -/
theorem removeLoop_spec : ∀ (m : List (Entry α)) {xs ys : List (Entry α)} {c : Dchain α},
    Body c.cells c.fresh (xs ++ (m ++ ys)) →
      ∃ cells', removeLoop m.length (headKey (m ++ ys)) c = some { c with cells := cells' } ∧
        Body cells' c.fresh (xs ++ ys)
  | [], xs, ys, c, h => ⟨c.cells, rfl, h⟩
  | e :: m, xs, ys, c, h => by
    obtain ⟨cells₁, hremove, hbody₁⟩ := dnodeRemove_spec h
    obtain ⟨cells', hloop, hbody'⟩ := removeLoop_spec m (c := { c with cells := cells₁ }) hbody₁
    refine ⟨cells', ?_, hbody'⟩
    rw [List.cons_append] at h
    rw [List.length_cons, removeLoop, List.cons_append, headKey_cons, some_bind, h.node, some_bind, hremove,
      some_bind]
    exact hloop

theorem setNext_self {xs ys : List (Entry α)} (h : Body c.cells c.fresh (xs ++ ys)) :
    c.setNext (lastKey xs) (headKey ys) = some c := by
  cases xs using List.reverseRecOn with
  | nil => rfl
  | append_singleton xs e =>
    rw [List.append_assoc] at h
    have hnode : c.cells e.1 = some ⟨headKey ys, e.2.1, lastKey xs, e.2.2⟩ := h.node
    rw [lastKey_concat, setNext, modify, hnode]
    exact congrArg (fun cells => some { c with cells := cells })
      (update_eq_self_iff.mpr hnode.symm)

theorem Is.remove (h : c.Is l) {idx times : Nat}
    (hrange : idx + times ≤ l.entries.length) :
    ∃ r c', c.remove idx times = some (r, c') ∧ c'.Is (l.remove idx times) := by
  unfold Dchain.remove Listing.remove
  by_cases hzero : times = 0
  · subst hzero
    rw [if_pos rfl, Nat.add_zero, List.take_append_drop]
    exact ⟨true, c, rfl, h⟩
  rw [if_neg hzero]
  obtain ⟨entries, hholds, rfl⟩ := h.listing
  dsimp only at hrange ⊢
  obtain ⟨xs, m, ys, rfl, rfl, rfl⟩ := exists_middle hrange
  have hm : m ≠ [] := fun hnil => hzero (hnil ▸ rfl)
  obtain ⟨e, m, rfl⟩ := List.exists_cons_of_ne_nil hm
  have hlocate : ∀ idx, c.locate idx = some ((xs ++ (e :: m ++ ys))[idx]?.map Prod.fst) := fun idx => by
    obtain ⟨f, fs, hfs⟩ := List.exists_cons_of_ne_nil
      (List.append_ne_nil_of_right_ne_nil xs (List.cons_ne_nil e (m ++ ys)))
    have hroot := hholds.root
    have hbody := hholds.body
    rw [List.cons_append] at hroot hbody ⊢
    rw [hfs] at hroot hbody ⊢
    exact locate_spec hbody hroot idx
  have hat : (xs ++ (e :: m ++ ys))[xs.length]? = some e := by
    rw [List.getElem?_append_right (Nat.le_refl _), Nat.sub_self]
    rfl
  have hbehind := getElem?_behind xs (e :: m) ys
  have htake : (xs ++ (e :: m ++ ys)).take xs.length = xs := List.take_left
  have hdrop : (xs ++ (e :: m ++ ys)).drop (xs.length + (e :: m).length) = ys := by
    rw [← List.append_assoc, ← List.length_append, List.drop_left]
  obtain ⟨cells', hloop, hbody'⟩ := removeLoop_spec (e :: m) hholds.body
  have hnode := hholds.body
  rw [List.cons_append] at hnode
  have hself := setNext_self (c := { c with cells := cells' }) hbody'
  have hends := ends_without hholds.root hholds.last
  obtain ⟨c', hadapt, his⟩ := is_of_adapt { c with cells := cells' } (-((e :: m).length : Nat))
    hbody' hends.1 hends.2 (by
      change (c.nodeCount : Int) + _ = _
      rw [hholds.count, List.length_append, List.length_append, List.length_append]
      omega) hholds.sorted
  refine ⟨true, c', ?_, by rw [htake, hdrop]; exact his⟩
  rw [hlocate, hlocate, hat, hbehind, Option.bind_eq_bind, Option.bind_some]
  dsimp only [Option.map_some]
  rw [hnode.node, Option.bind_eq_bind, Option.bind_some, Option.bind_eq_bind, Option.bind_some]
  dsimp only
  rw [List.cons_append, headKey_cons] at hloop
  rw [hloop, Option.bind_some, hself, Option.bind_some, hadapt]
  rfl

theorem removeWhere_spec {test : Nat → Dnode α → Bool} {T : Entry α → Bool}
    (hT : ∀ p (n : Dnode α), test p n = T (p, n.offs, n.type)) {c : Dchain α} :
    ∀ {ys xs : List (Entry α)} {e : Entry α} {fuel : Nat}, c.Holds (xs ++ e :: ys) → ys.length < fuel →
      ∃ r c', removeWhere test fuel (lastKey xs) e.1 c = some (r, c') ∧
        c'.Is ⟨xs ++ (e :: ys).eraseP T, c.fresh, c.compareF⟩
  | _, _, _, 0, _, h => absurd h (Nat.not_lt_zero _)
  | ys, xs, e, fuel + 1, h, hfuel => by
    rw [removeWhere, h.body.node, some_bind, hT]
    by_cases hTe : T e = true
    · obtain ⟨cells', hremove, hbody'⟩ := dnodeRemove_spec h.body
      have hroot : (if some e.1 = c.rootNode then headKey ys else c.rootNode) = headKey (xs ++ ys) :=
        h.root ▸ headKey_without h.body.nodup
      have hlast : (if some e.1 = c.lastNode then lastKey xs else c.lastNode) = lastKey (xs ++ ys) :=
        h.last ▸ lastKey_without h.body.nodup
      obtain ⟨c', hadapt, his⟩ := is_of_adapt { c with cells := cells' } (-1) hbody' hroot hlast
        (by
          change (c.nodeCount : Int) + _ = _
          rw [h.count, List.length_append, List.length_append, List.length_cons]
          omega) h.sorted
      refine ⟨headKey ys, c', ?_, by rw [List.eraseP_cons_of_pos hTe]; exact his⟩
      rw [if_pos hTe, hremove, some_bind]
      dsimp only
      rw [hadapt]
      rfl
    · rw [if_neg hTe, List.eraseP_cons_of_neg hTe]
      cases ys with
      | nil => exact ⟨none, c, rfl, h, rfl, rfl⟩
      | cons f ys =>
        rw [List.append_cons] at h ⊢
        have ih := removeWhere_spec hT h (Nat.lt_of_succ_lt_succ hfuel)
        rw [lastKey_concat] at ih
        exact ih

/-- `Remove(nod)` and `Remove(content)`, from the root on. -/
theorem Is.removeWhere {c : Dchain α} {l : Listing α} (h : c.Is l) {test : Nat → Dnode α → Bool}
    {T : Entry α → Bool} (hT : ∀ p (n : Dnode α), test p n = T (p, n.offs, n.type)) :
    ∃ r c', (match c.rootNode with
      | none => some (none, c)
      | some crt => Dchain.removeWhere test c.fresh none crt c) = some (r, c') ∧
      c'.Is (l.removeWhere T) := by
  obtain ⟨entries, hholds, rfl⟩ := h.listing
  unfold Listing.removeWhere
  rw [hholds.root]
  cases entries with
  | nil => exact ⟨none, c, rfl, hholds, rfl, rfl⟩
  | cons e es =>
    have hloop := @removeWhere_spec α test T hT c es [] e c.fresh hholds hholds.body.length_le
    exact hloop

/-! ## `Exchange` and `Reverse` -/

theorem Holds.revalue {es : List (Entry α)} (h : c.Holds es)
    {cells' : Nat → Option (Dnode α)} (f : Entry α → α × Nat)
    (hval : ∀ e ∈ es, cells' e.1 = (c.cells e.1).map fun n =>
      { n with offs := (f e).1, type := (f e).2 }) :
    Holds { c with cells := cells' } (es.map fun e : Entry α => (e.1, f e)) := by
  refine ⟨⟨?_, by simpa using h.body.nodup, by simpa using h.body.lt_fresh⟩, ?_, ?_, ?_, h.sorted⟩
  · refine h.body.linked.revalue f fun e he n hn => ?_
    have hcell := hval e he
    rw [hn, Option.map_some] at hcell
    exact ⟨_, hcell, rfl, rfl, rfl⟩
  · exact h.root.trans (headKey_map f es).symm
  · exact h.last.trans (lastKey_map f es).symm
  · exact h.count.trans (List.length_map (fun e : Entry α => (e.1, f e))).symm

theorem Is.exchange (h : c.Is l) {idx1 idx2 : Nat}
    (h1 : idx1 < l.entries.length) (h2 : idx2 < l.entries.length) :
    ∃ c', c.exchange idx1 idx2 = some c' ∧ c'.Is (l.exchange idx1 idx2) := by
  obtain ⟨es, hholds, rfl⟩ := h.listing
  dsimp only at h1 h2
  have hlocate : ∀ idx (hidx : idx < es.length), c.locate idx = some (some es[idx].1) := by
    intro idx hidx
    cases es with
    | nil => exact absurd hidx (Nat.not_lt_zero _)
    | cons e es =>
      rw [locate_spec hholds.body hholds.root, List.getElem?_eq_getElem hidx]
      rfl
  unfold Dchain.exchange Listing.exchange
  dsimp only
  rw [hlocate idx1 h1, hlocate idx2 h2, List.getElem?_eq_getElem h1, List.getElem?_eq_getElem h2,
    Option.bind_eq_bind, Option.bind_some, Option.bind_eq_bind, Option.bind_some]
  dsimp only
  by_cases heq : idx1 = idx2
  · subst heq
    rw [if_pos rfl]
    refine ⟨c, rfl, ?_, rfl, rfl⟩
    dsimp only
    rw [List.set_set, List.set_getElem_self]
    exact hholds
  rw [if_neg heq]
  have hnodup := hholds.body.nodup
  have hne : es[idx1].1 ≠ es[idx2].1 := fun hkey => heq (index_eq hnodup h1 h2 hkey)
  obtain ⟨n, hn, hnval⟩ := hholds.body.linked.mem (List.getElem_mem h1)
  obtain ⟨m, hm, hmval⟩ := hholds.body.linked.mem (List.getElem_mem h2)
  have hupdate : update c.cells es[idx1].1 (some { n with offs := m.offs, type := m.type })
      es[idx2].1 = some m := by rw [update_of_ne (Ne.symm hne), hm]
  rw [Option.bind_some, Option.bind_some, hn, hm, Option.bind_eq_bind, Option.bind_some,
    Option.bind_eq_bind, Option.bind_some, modify, hn]
  dsimp only
  rw [Option.bind_some, modify]
  dsimp only
  rw [hupdate]
  refine ⟨_, rfl, ?_, rfl, rfl⟩
  rw [set_set_eq_map hnodup h1 h2 heq]
  refine hholds.revalue (exchanged es[idx1] es[idx2]) fun e he => ?_
  obtain ⟨k, hk, hkval⟩ := hholds.body.linked.mem he
  exact exchanged_cell (fun v n => { n with offs := v.1, type := v.2 }) (fun _ => rfl) hn hnval hm hmval hne
    hk hkval

/-- A node with its links exchanged. -/
def swapped (n : Dnode α) : Dnode α := { n with left := n.next, next := n.left }

theorem reverseLoop_spec : ∀ {ys : List (Entry α)} {fuel : Nat} {c : Dchain α},
    (∀ xs e zs, ys = xs ++ e :: zs → ∃ n, c.cells e.1 = some n ∧ n.next = headKey zs) →
      (keys ys).Nodup → ys.length ≤ fuel →
      ∃ cells', reverseLoop fuel (headKey ys) c = some { c with cells := cells' } ∧
        (∀ k ∈ keys ys, cells' k = (c.cells k).map swapped) ∧ ∀ k ∉ keys ys, cells' k = c.cells k
  | [], _, c, _, _, _ => ⟨c.cells, by rw [headKey_nil, reverseLoop],
      fun _ h => absurd h List.not_mem_nil, fun _ _ => rfl⟩
  | _ :: _, 0, _, _, _, h => absurd h (Nat.not_succ_le_zero _)
  | e :: ys, fuel + 1, c, hnext, hnodup, hfuel => by
    obtain ⟨n, hn, hne⟩ := hnext [] e ys rfl
    rw [keys_cons, List.nodup_cons] at hnodup
    obtain ⟨cells', hloop, hin, hout⟩ := @reverseLoop_spec ys fuel
      { c with cells := update c.cells e.1 (some (swapped n)) }
      (fun xs f zs heq => by
        obtain ⟨m, hm, hmnext⟩ := hnext (e :: xs) f zs (congrArg (e :: ·) heq)
        have hfe : f.1 ≠ e.1 := fun hfe => hnodup.1 (by
          rw [heq, ← hfe]
          exact mem_keys List.mem_append_cons_self)
        exact ⟨m, (update_of_ne hfe _ _).trans hm, hmnext⟩) hnodup.2 (Nat.le_of_succ_le_succ hfuel)
    refine ⟨cells', ?_, fun k hk => ?_, fun k hk => ?_⟩
    · rw [headKey_cons, reverseLoop, hn, some_bind, modify, hn, hne]
      exact hloop
    · rcases List.mem_cons.mp hk with rfl | hk
      · rw [hout _ hnodup.1, hn]
        exact update_self _ _ _
      · have hke : k ≠ e.1 := fun hke => hnodup.1 (hke ▸ hk)
        rw [hin k hk]
        exact congrArg _ (update_of_ne hke _ _)
    · rw [keys_cons, List.mem_cons, not_or] at hk
      rw [hout k hk.2]
      exact update_of_ne hk.1 _ _

theorem Is.reverse (h : c.Is l) :
    ∃ c', c.reverse = some c' ∧ c'.Is l.reverse := by
  obtain ⟨es, hholds, rfl⟩ := h.listing
  have hnext : ∀ xs e zs, es = xs ++ e :: zs → ∃ n, c.cells e.1 = some n ∧ n.next = headKey zs := by
    rintro xs e zs rfl
    exact ⟨_, hholds.body.node, rfl⟩
  obtain ⟨cells', hloop, hin, -⟩ := reverseLoop_spec hnext hholds.body.nodup hholds.body.length_le
  have hkeys : keys es.reverse = (keys es).reverse := List.map_reverse
  unfold Dchain.reverse
  rw [hholds.root, hloop]
  refine ⟨_, rfl, ⟨⟨?_, ?_, fun p hp => ?_⟩, ?_, ?_, ?_, hholds.sorted⟩, rfl, rfl⟩
  · refine hholds.body.linked.reverse fun e he n hn => ?_
    have hcell := hin e.1 (mem_keys he)
    rw [hn, Option.map_some] at hcell
    exact ⟨_, hcell, rfl, rfl, rfl⟩
  · change (keys es.reverse).Nodup
    rw [hkeys]
    exact List.nodup_reverse.mpr hholds.body.nodup
  · change p ∈ keys es.reverse at hp
    rw [hkeys, List.mem_reverse] at hp
    exact hholds.body.lt_fresh p hp
  · change c.lastNode = headKey es.reverse
    rw [headKey, List.head?_reverse]
    exact hholds.last
  · change c.rootNode = lastKey es.reverse
    rw [lastKey, List.getLast?_reverse]
    exact hholds.root
  · exact hholds.count.trans List.length_reverse.symm

/-! ## `Sort` -/

/-- The loop to the left stops behind the entries that are greater. -/
theorem sortSeek_spec
    {gt : Entry α → Entry α → Bool}
    (hgt : ∀ e : Entry α, gt e x = true ↔ c.cmp localCompare e.1 e.2.1 x.1 x.2.1 > 0) :
    ∀ (pre : List (Entry α)) {zs : List (Entry α)} {fuel : Nat}, Body c.cells c.fresh (pre ++ zs) →
      pre.length ≤ fuel →
      c.sortSeek localCompare x.1 x.2.1 fuel (lastKey pre) = some (lastKey (pre.rdropWhile (gt · x))) := by
  intro pre
  induction pre using List.reverseRecOn with
  | nil =>
    intro zs fuel _ _
    rw [List.rdropWhile_nil, lastKey_nil, sortSeek]
  | append_singleton pre e ih =>
    intro zs fuel h hfuel
    rw [List.length_append, List.length_singleton] at hfuel
    obtain ⟨fuel, rfl⟩ : ∃ n, fuel = n + 1 := ⟨fuel - 1, by omega⟩
    rw [List.append_assoc, List.singleton_append] at h
    rw [lastKey_concat, sortSeek, h.node]
    dsimp only
    by_cases hge : gt e x = true
    · rw [if_pos ((hgt e).mp hge), List.rdropWhile_concat_pos (gt · x) pre e hge]
      exact ih h (by omega)
    · rw [if_neg fun hcmp => hge ((hgt e).mpr hcmp), List.rdropWhile_concat_neg (gt · x) pre e hge,
        lastKey_concat]

/-- A node between two others is removed, and the count set. -/
theorem Holds.drop {xs ys : List (Entry α)} {e : Entry α}
    (h : c.Holds (xs ++ e :: ys)) (hxs : xs ≠ []) (hys : ys ≠ []) :
    ∃ c', c.dnodeRemove e.1 = some c' ∧ Holds { c' with nodeCount := c'.nodeCount - 1 } (xs ++ ys) ∧
      c'.fresh = c.fresh ∧ c'.compareF = c.compareF := by
  obtain ⟨cells', hremove, hbody'⟩ := dnodeRemove_spec h.body
  refine ⟨_, hremove, ⟨hbody', ?_, ?_, ?_, h.sorted⟩, rfl, rfl⟩
  · obtain ⟨x, xs, rfl⟩ := List.exists_cons_of_ne_nil hxs
    exact h.root
  · obtain ⟨y, ys, rfl⟩ := List.exists_cons_of_ne_nil hys
    refine h.last.trans ?_
    rw [lastKey_append_cons, lastKey_append_cons, lastKey_cons_cons]
  · change c.nodeCount - 1 = _
    rw [h.count, List.length_append, List.length_append, List.length_cons]
    omega

theorem sortStep_stays {pre rest : List (Entry α)}
    {l : Entry α} (h : c.Holds (pre ++ l :: x :: rest))
    (hle : ¬c.cmp localCompare l.1 l.2.1 x.1 x.2.1 > 0) :
    c.sortStep localCompare x.1 ⟨headKey rest, x.2.1, some l.1, x.2.2⟩ = some c := by
  unfold sortStep
  rw [some_bind, h.body.node, some_bind]
  exact if_neg hle

/-- A node with a content and a type to the right of an entry that is not the
last. -/
theorem Holds.between {xs ys : List (Entry α)} {e : Entry α}
    (h : c.Holds (xs ++ e :: ys)) (hys : ys ≠ []) (v : α × Nat) :
    ∃ c₁, c.dnodeInsert (some e.1) v.1 v.2 true = some (c.fresh, c₁) ∧
      Holds { c₁ with nodeCount := c₁.nodeCount + 1 } (xs ++ e :: (c.fresh, v) :: ys) ∧
      c₁.fresh = c.fresh + 1 ∧ c₁.compareF = c.compareF := by
  obtain ⟨cells', hinsert, hbody'⟩ := dnodeInsert_right h.body v.1 v.2
  refine ⟨_, hinsert, ⟨hbody', ?_, ?_, ?_, h.sorted⟩, rfl, rfl⟩
  · refine h.root.trans ?_
    rw [headKey_append_cons, ← headKey_append_cons xs e]
  · obtain ⟨y, ys, rfl⟩ := List.exists_cons_of_ne_nil hys
    refine h.last.trans ?_
    rw [lastKey_append_cons, lastKey_append_cons, lastKey_cons_cons, lastKey_cons_cons,
      lastKey_cons_cons]
  · change c.nodeCount + 1 = _
    rw [h.count, List.length_append, List.length_append]
    rfl

theorem Holds.front {es : List (Entry α)} (h : c.Holds es) (hes : es ≠ [])
    (v : α × Nat) :
    ∃ r c₁ c₂, c.insert 0 v.1 = some (r, c₁) ∧ c₁.rootNode = some c.fresh ∧
      c₁.modify c.fresh (fun r => { r with type := v.2 }) = some c₂ ∧
      c₂.Holds ((c.fresh, v) :: es) ∧ c₂.fresh = c.fresh + 1 ∧ c₂.compareF = c.compareF := by
  have his : c.Is ⟨es, c.fresh, c.compareF⟩ := ⟨h, rfl, rfl⟩
  have hlist : Listing.insert ⟨es, c.fresh, c.compareF⟩ 0 v.1 =
      ⟨(c.fresh, v.1, 0) :: es, c.fresh + 1, c.compareF⟩ := if_pos (Nat.zero_le _)
  obtain ⟨r, c₁, hinsert, his₁⟩ := his.insert v.1 fun _ => hes
  rw [hlist] at his₁
  obtain ⟨hholds, hfresh, hcompare⟩ := his₁
  have hnode : c₁.cells c.fresh = some ⟨headKey es, v.1, none, 0⟩ :=
    @Body.node α c₁.cells c₁.fresh [] es (c.fresh, v.1, 0) hholds.body
  refine ⟨r, c₁, { c₁ with cells := update c₁.cells c.fresh (some ⟨headKey es, v.1, none, v.2⟩) },
    hinsert, hholds.root, by rw [modify, hnode], ?_, hfresh, hcompare⟩
  have hcells : ∀ e ∈ ((c.fresh, v.1, 0) :: es : List (Entry α)),
      update c₁.cells c.fresh (some ⟨headKey es, v.1, none, v.2⟩) e.1 = (c₁.cells e.1).map fun n =>
        { n with offs := (if e.1 = c.fresh then v else e.2).1,
                 type := (if e.1 = c.fresh then v else e.2).2 } := by
    intro e he
    by_cases hkey : e.1 = c.fresh
    · rw [hkey, update_self, if_pos rfl, hnode]
      rfl
    · obtain ⟨n, hn, hval⟩ := hholds.body.linked.mem he
      rw [update_of_ne hkey, if_neg hkey, hn, ← hval]
      rfl
  have hvalues := hholds.revalue (fun e => if e.1 = c.fresh then v else e.2) hcells
  have hmap : ((c.fresh, v.1, 0) :: es).map
      (fun e : Entry α => (e.1, if e.1 = c.fresh then v else e.2)) = (c.fresh, v) :: es := by
    rw [List.map_cons, if_pos rfl]
    refine congrArg _ ((List.map_congr_left fun e he => ?_).trans (List.map_id es))
    have hne : e.1 ≠ c.fresh := Nat.ne_of_lt (h.body.lt_fresh _ (mem_keys he))
    rw [if_neg hne]
    rfl
  rw [hmap] at hvalues
  exact hvalues

/-- The body of the outer loop at an entry that is moved behind `keep`. -/
theorem sortStep_moves
    {keep skip rest : List (Entry α)} {l : Entry α} (h : c.Holds (keep ++ (skip ++ l :: x :: rest)))
    (hrest : rest ≠ []) (hgt : c.cmp localCompare l.1 l.2.1 x.1 x.2.1 > 0)
    (hseek : c.sortSeek localCompare x.1 x.2.1 c.fresh (lastKey (keep ++ skip)) =
      some (lastKey keep)) :
    ∃ c', c.sortStep localCompare x.1 ⟨headKey rest, x.2.1, some l.1, x.2.2⟩ = some c' ∧
      c'.Holds (keep ++ (c.fresh, x.2) :: (skip ++ l :: rest)) ∧ c'.fresh = c.fresh + 1 ∧
      c'.compareF = c.compareF := by
  have hnode : c.cells l.1 = some ⟨some x.1, l.2.1, lastKey (keep ++ skip), l.2.2⟩ := by
    have hbody := h.body
    rw [← List.append_assoc] at hbody
    exact hbody.node
  have hassoc : ∀ zs, keep ++ (c.fresh, x.2) :: (skip ++ l :: zs) =
      (keep ++ (c.fresh, x.2) :: (skip ++ [l])) ++ zs := fun zs => by simp
  unfold sortStep
  rw [Option.bind_eq_bind, Option.bind_some, hnode, Option.bind_eq_bind, Option.bind_some, if_pos hgt,
    hseek, Option.bind_eq_bind, Option.bind_some]
  cases keep using List.reverseRecOn with
  | nil =>
    obtain ⟨r, c₁, c₂, hinsert, hroot, hmodify, hholds, hfresh, hcompare⟩ :=
      h.front (List.append_ne_nil_of_right_ne_nil skip (List.cons_ne_nil l (x :: rest))) x.2
    have hnew : (c.fresh, x.2) :: (skip ++ l :: x :: rest) =
      ((c.fresh, x.2) :: (skip ++ [l])) ++ x :: rest := hassoc (x :: rest)
    rw [List.nil_append, hnew] at hholds
    obtain ⟨c', hremove, hend, hfresh', hcompare'⟩ := hholds.drop (List.cons_ne_nil _ _) hrest
    refine ⟨{ c' with nodeCount := c'.nodeCount - 1 }, ?_, (hassoc rest).symm ▸ hend,
      hfresh'.trans hfresh, hcompare'.trans hcompare⟩
    rw [lastKey_nil]
    dsimp only
    rw [hinsert, Option.bind_eq_bind, Option.bind_some, hroot, Option.bind_eq_bind, Option.bind_some,
      hmodify, Option.bind_some, hremove]
    rfl
  | append_singleton keep k =>
    rw [List.append_assoc, List.singleton_append] at h
    obtain ⟨c₁, hinsert, hholds, hfresh, hcompare⟩ := h.between
      (List.append_ne_nil_of_right_ne_nil skip (List.cons_ne_nil l (x :: rest))) x.2
    have hnew : keep ++ k :: (c.fresh, x.2) :: (skip ++ l :: x :: rest) =
        ((keep ++ [k]) ++ (c.fresh, x.2) :: (skip ++ [l])) ++ x :: rest := by
      rw [← hassoc (x :: rest), List.append_assoc, List.singleton_append]
    rw [hnew] at hholds
    obtain ⟨c', hremove, hend, hfresh', hcompare'⟩ := hholds.drop
      (List.append_ne_nil_of_right_ne_nil _ (List.cons_ne_nil _ _)) hrest
    refine ⟨{ c' with nodeCount := c'.nodeCount - 1 }, ?_, (hassoc rest).symm ▸ hend,
      hfresh'.trans hfresh, hcompare'.trans hcompare⟩
    rw [lastKey_concat]
    dsimp only
    rw [hinsert, some_bind, hremove]
    rfl

/-- Where the last entry is left where it is. -/
def KeepsLast (gt : Entry α → Entry α → Bool) : (rest done : List (Entry α)) → Nat → Prop
  | [], _, _ => True
  | x :: rest, done, fresh =>
      (rest = [] → done.rtakeWhile (gt · x) = []) ∧
      if done.rtakeWhile (gt · x) = [] then KeepsLast gt rest (done ++ [x]) fresh
      else KeepsLast gt rest
        (done.rdropWhile (gt · x) ++ (fresh, x.2) :: done.rtakeWhile (gt · x)) (fresh + 1)

theorem sortLoop_spec {localCompare : Nat → Nat → Int} {compareF : Option (α → α → Int)}
    {gt : Entry α → Entry α → Bool} (hgt : ∀ (c : Dchain α) (a b : Entry α), c.compareF = compareF →
      (gt a b = true ↔ c.cmp localCompare a.1 a.2.1 b.1 b.2.1 > 0)) :
    ∀ (rest done : List (Entry α)) {fuel : Nat} {c : Dchain α}, c.Holds (done ++ rest) → done ≠ [] →
      c.compareF = compareF → rest.length ≤ fuel → KeepsLast gt rest done c.fresh →
      ∃ c', sortLoop localCompare fuel (headKey rest) c = some c' ∧
        c'.Is ⟨(Listing.sortFrom gt rest done c.fresh).1, (Listing.sortFrom gt rest done c.fresh).2,
          compareF⟩
  | [], done, _, c, h, _, hcompare, _, _ => by
    rw [List.append_nil] at h
    exact ⟨c, by rw [headKey_nil, sortLoop], h, rfl, hcompare⟩
  | _ :: _, _, 0, _, _, _, _, hfuel, _ => absurd hfuel (Nat.not_succ_le_zero _)
  | x :: rest, done, fuel + 1, c, h, hdone, hcompare, hfuel, hkeeps => by
    obtain ⟨pre, l, rfl⟩ := (List.eq_nil_or_concat' done).resolve_left hdone
    obtain ⟨hend, hkeeps⟩ := hkeeps
    have hnode : c.cells x.1 = some ⟨headKey rest, x.2.1, some l.1, x.2.2⟩ := by
      rw [h.body.node, lastKey_concat]
    rw [List.append_assoc, List.singleton_append] at h
    rw [headKey_cons, sortLoop, hnode, some_bind, Listing.sortFrom]
    by_cases hl : gt l x = true
    · -- the entry is moved
      have htake : (pre ++ [l]).rtakeWhile (gt · x) = pre.rtakeWhile (gt · x) ++ [l] :=
        List.rtakeWhile_concat_pos (gt · x) pre l hl
      have hdrop : (pre ++ [l]).rdropWhile (gt · x) = pre.rdropWhile (gt · x) :=
        List.rdropWhile_concat_pos (gt · x) pre l hl
      have hmoves : ¬(pre ++ [l]).rtakeWhile (gt · x) = [] := by
        rw [htake]
        exact List.append_ne_nil_of_right_ne_nil _ (List.cons_ne_nil _ _)
      rw [if_neg hmoves] at hkeeps ⊢
      have hpre : pre.rdropWhile (gt · x) ++ pre.rtakeWhile (gt · x) = pre :=
        List.rdropWhile_append_rtakeWhile
      have hlen := h.body.length_le
      rw [List.length_append] at hlen
      have hseek : c.sortSeek localCompare x.1 x.2.1 c.fresh (lastKey pre) =
          some (lastKey (pre.rdropWhile (gt · x))) :=
        sortSeek_spec (fun e => hgt c e x hcompare) pre h.body (by omega)
      have hsplit : pre.rdropWhile (gt · x) ++ (pre.rtakeWhile (gt · x) ++ l :: x :: rest) =
          pre ++ l :: x :: rest := by rw [← List.append_assoc, hpre]
      rw [← hsplit] at h
      obtain ⟨c', hstep, hholds, hfresh, hcompare'⟩ := sortStep_moves h (fun hnil => hmoves (hend hnil))
        ((hgt c l x hcompare).mp hl) (by rw [hpre]; exact hseek)
      rw [hstep, some_bind]
      rw [htake, hdrop, ← hfresh] at hkeeps ⊢
      refine sortLoop_spec hgt rest _ ?_ (List.append_ne_nil_of_right_ne_nil _
        (List.cons_ne_nil _ _)) (hcompare'.trans hcompare) (Nat.le_of_succ_le_succ hfuel) hkeeps
      simpa using hholds
    · -- the entry stays
      have hstays : (pre ++ [l]).rtakeWhile (gt · x) = [] :=
        List.rtakeWhile_concat_neg (gt · x) pre l hl
      rw [if_pos hstays] at hkeeps ⊢
      rw [sortStep_stays h fun hcmp => hl ((hgt c l x hcompare).mpr hcmp), some_bind]
      refine sortLoop_spec hgt rest _ ?_ (List.append_ne_nil_of_right_ne_nil _
        (List.cons_ne_nil _ _)) hcompare (Nat.le_of_succ_le_succ hfuel) hkeeps
      rw [List.append_assoc, List.append_assoc]
      exact h

/-- The last entry stays where all that can come before it, `init` at old or new
nodes, are not greater. -/
theorem keepsLast_of_le {gt : Entry α → Entry α → Bool} {first : Nat} {init : List (Entry α)}
    {x : Entry α} (hle : ∀ e ∈ init, ∀ a, a = e.1 ∨ first ≤ a → ¬gt (a, e.2) x = true) :
    ∀ (mid done : List (Entry α)) {fresh : Nat}, first ≤ fresh → (∀ e ∈ mid, e ∈ init) →
      (∀ e ∈ done, ∃ o ∈ init, e.2 = o.2 ∧ (e.1 = o.1 ∨ first ≤ e.1)) →
      KeepsLast gt (mid ++ [x]) done fresh
  | [], done, fresh, _, _, hdone => by
    have hstays : done.rtakeWhile (gt · x) = [] := by
      refine List.rtakeWhile_eq_nil_iff.mpr fun hne => ?_
      obtain ⟨o, ho, hval, hkey⟩ := hdone _ (List.getLast_mem hne)
      have hnot := hle o ho _ hkey
      rwa [← hval] at hnot
    refine ⟨fun _ => hstays, ?_⟩
    rw [if_pos hstays]
    trivial
  | y :: mid, done, fresh, hfirst, hmid, hdone => by
    have hy := hmid y List.mem_cons_self
    have hmid' : ∀ e ∈ mid, e ∈ init := fun e he => hmid e (List.mem_cons_of_mem y he)
    refine ⟨fun hnil => absurd hnil (List.append_ne_nil_of_right_ne_nil mid (List.cons_ne_nil x [])),
      ?_⟩
    split
    · refine keepsLast_of_le hle mid _ hfirst hmid' fun e he => ?_
      rcases List.mem_append.mp he with he | he
      · exact hdone e he
      · rw [List.mem_singleton.mp he]
        exact ⟨y, hy, rfl, Or.inl rfl⟩
    · refine keepsLast_of_le hle mid _ (Nat.le_succ_of_le hfirst) hmid' fun e he => ?_
      rcases List.mem_append.mp he with he | he
      · exact hdone e ((List.rdropWhile_prefix (gt · y) done).subset he)
      rcases List.mem_cons.mp he with rfl | he
      · exact ⟨y, hy, rfl, Or.inr hfirst⟩
      · exact hdone e ((List.rtakeWhile_suffix (gt · y) done).subset he)

theorem Is.sort {c : Dchain α} {l : Listing α} (localCompare : Nat → Nat → Int) (h : c.Is l)
    (hok : l.SortOk localCompare) :
    ∃ c', c.sort localCompare = some c' ∧ c'.Is (l.sort localCompare) := by
  obtain ⟨es, fresh, compareF⟩ := l
  obtain ⟨hholds, hfresh, hcompare⟩ := h
  dsimp only at hholds hfresh hcompare
  cases hfresh
  unfold Dchain.sort Listing.sort
  rw [hholds.root]
  cases es with
  | nil => exact ⟨c, rfl, hholds, rfl, hcompare⟩
  | cons e es =>
    have hnode := @Body.node α c.cells c.fresh [] es e hholds.body
    have hkeeps : KeepsLast
        (fun a b => decide (Listing.cmp localCompare ⟨e :: es, c.fresh, compareF⟩ a b > 0))
        es [e] c.fresh := by
      rcases List.eq_nil_or_concat' es with rfl | ⟨mid, x, rfl⟩
      · trivial
      · have hle := hok (e :: mid) x rfl
        refine @keepsLast_of_le α _ c.fresh (e :: mid) x (fun f hf a ha hgt => ?_) mid [e] c.fresh
          (Nat.le_refl _) (fun f hf => List.mem_cons_of_mem e hf) fun f hf => ?_
        · have hgt := of_decide_eq_true hgt
          have hnot := hle f hf a ha
          omega
        · rw [List.mem_singleton.mp hf]
          exact ⟨e, List.mem_cons_self, rfl, Or.inl rfl⟩
    have hlen := hholds.body.length_le
    rw [headKey_cons]
    dsimp only
    rw [hnode, some_bind]
    refine @sortLoop_spec α localCompare compareF _ (fun d a b hd => ?_) es [e] _ _ hholds
      (List.cons_ne_nil e []) hcompare (Nat.le_of_succ_le hlen) hkeeps
    rw [decide_eq_true_eq, cmp, hd]
    rfl

end Dchain

/-! ## Runs -/

namespace Listing

variable {α : Type} [DecidableEq α]

/-- The list of a new chain. -/
def new : Listing α := ⟨[], 0, none⟩

/-- A call, on a list. -/
def step (localCompare : Nat → Nat → Int) (l : Listing α) : Dchain.Call α → Listing α
  | .setCompare f => { l with compareF := f }
  | .insert idx dat => l.insert idx dat
  | .push off endLeft => l.push off endLeft
  | .append addr onleft nod => l.append addr onleft nod
  | .remove idx times => l.remove idx times
  | .removeNode nod => l.removeWhere fun e => some e.1 == nod
  | .removeContent content => l.removeWhere fun e => e.2.1 == content
  | .exchange idx1 idx2 => l.exchange idx1 idx2
  | .reverse => l.reverse
  | .sort => l.sort localCompare

/-- Calls one after the other, on a list. -/
def run (localCompare : Nat → Nat → Int) (l : Listing α) (calls : List (Dchain.Call α)) : Listing α :=
  calls.foldl (step localCompare) l

/-- The contents in order. -/
def contents (l : Listing α) : List α := l.entries.map fun e => e.2.1

/-- What a call must meet: `Insert` at 0 finds a node, `Sort` a last node that
stays; a given node is one of the chain, indices and counts are in range. -/
def Ok (localCompare : Nat → Nat → Int) (l : Listing α) : Dchain.Call α → Prop
  | .insert idx _ => idx = 0 → l.entries ≠ []
  | .append _ _ nod => ∀ p, nod = some p → p ∈ keys l.entries
  | .remove idx times => idx + times ≤ l.entries.length
  | .exchange idx1 idx2 => idx1 < l.entries.length ∧ idx2 < l.entries.length
  | .sort => l.SortOk localCompare
  | _ => True

/-- All calls meet it, each on the list it finds. -/
def AllOk (localCompare : Nat → Nat → Int) : Listing α → List (Dchain.Call α) → Prop
  | _, [] => True
  | l, call :: calls => l.Ok localCompare call ∧ AllOk localCompare (l.step localCompare call) calls

end Listing

namespace Dchain

variable {α : Type}

/-- The invariant of the representation: to the right from the root as many nodes
as counted, down to the last; to the left from the last the same in reverse; the
ends are null together with the count; and the contents are these. -/
def Represents (c : Dchain α) (contents : List α) : Prop :=
  ∃ ps : List Nat, walk Dnode.next c.cells c.fresh c.rootNode = some ps ∧
    ps.length = c.nodeCount ∧ ps.getLast? = c.lastNode ∧
    walk Dnode.left c.cells c.fresh c.lastNode = some ps.reverse ∧
    (c.rootNode = none ↔ c.nodeCount = 0) ∧ (c.lastNode = none ↔ c.nodeCount = 0) ∧
    ps.map (fun p => (c.cells p).map Dnode.offs) = contents.map some

theorem Holds.represents {c : Dchain α} {es : List (Entry α)} (h : c.Holds es) :
    c.Represents (es.map fun e => e.2.1) := by
  refine ⟨keys es, ?_, ?_, ?_, ?_, end_eq_none h.count (Or.inl h.root),
    end_eq_none h.count (Or.inr h.last), ?_⟩
  · rw [h.root]
    exact walk_next h.body.linked h.body.length_le
  · rw [keys, List.length_map, h.count]
  · rw [h.last, keys, List.getLast?_map]
    rfl
  · rw [h.last]
    exact walk_left h.body.linked h.body.length_le
  · rw [keys, List.map_map, List.map_map]
    refine List.map_congr_left fun e he => ?_
    obtain ⟨n, hn, hval⟩ := h.body.linked.mem he
    have hoffs : n.offs = e.2.1 := congrArg Prod.fst hval
    change (c.cells e.1).map Dnode.offs = some e.2.1
    rw [hn, ← hoffs]
    rfl

variable [DecidableEq α]

theorem Is.step {c : Dchain α} {l : Listing α} (localCompare : Nat → Nat → Int) (h : c.Is l)
    {call : Call α} (hok : l.Ok localCompare call) :
    ∃ c', c.step localCompare call = some c' ∧ c'.Is (l.step localCompare call) := by
  have hsnd : ∀ {β : Type} {o : Option (β × Dchain α)} {l' : Listing α},
      (∃ r c', o = some (r, c') ∧ c'.Is l') → ∃ c', o.map Prod.snd = some c' ∧ c'.Is l' := by
    rintro β _ l' ⟨r, c', rfl, his⟩
    exact ⟨c', rfl, his⟩
  cases call with
  | setCompare f => exact ⟨_, rfl, ⟨h.holds.body, h.holds.root, h.holds.last, h.holds.count,
      h.holds.sorted⟩, h.fresh, rfl⟩
  | insert idx dat => exact hsnd (h.insert dat hok)
  | push off endLeft => exact hsnd (h.push off endLeft)
  | append addr onleft nod => exact hsnd (h.append localCompare addr onleft hok)
  | remove idx times => exact hsnd (h.remove hok)
  | removeNode nod => exact hsnd (h.removeWhere fun _ _ => rfl)
  | removeContent content => exact hsnd (h.removeWhere fun _ _ => rfl)
  | exchange idx1 idx2 => exact h.exchange hok.1 hok.2
  | reverse => exact h.reverse
  | sort => exact h.sort localCompare hok

theorem Is.run (localCompare : Nat → Nat → Int) : ∀ {calls : List (Call α)} {c : Dchain α}
    {l : Listing α}, c.Is l → l.AllOk localCompare calls →
      ∃ c', c.run localCompare calls = some c' ∧ c'.Is (l.run localCompare calls)
  | [], c, _, h, _ => ⟨c, rfl, h⟩
  | call :: calls, c, l, h, hok => by
    obtain ⟨c₁, hstep, his⟩ := h.step localCompare hok.1
    obtain ⟨c', hrun, hend⟩ := Is.run localCompare his hok.2
    refine ⟨c', ?_, hend⟩
    rw [Dchain.run, hstep]
    exact hrun

/-- After all calls of a run that meets the conditions, the chain is the list that
the calls make. -/
theorem chain_represents (localCompare : Nat → Nat → Int) {calls : List (Call α)}
    (hok : (Listing.new : Listing α).AllOk localCompare calls) :
    ∃ c, (new : Dchain α).run localCompare calls = some c ∧
      c.Represents ((Listing.new : Listing α).run localCompare calls).contents := by
  have hnew : (new : Dchain α).Is Listing.new := ⟨holds_new, rfl, rfl⟩
  obtain ⟨c, hrun, his⟩ := hnew.run localCompare hok
  exact ⟨c, hrun, his.holds.represents⟩

/-- Some calls on a chain, in order. -/
def someCalls : List (Call Nat) :=
  [.append 1 false none, .append 3 true (some 0), .insert 1 2, .push 4 false, .exchange 0 3, .reverse,
    .remove 1 2, .setCompare (some fun a b => (a : Int) - b), .append 5 false none, .sort]

theorem chain_represents_some :
    ∃ c, (new : Dchain Nat).run (fun _ _ => 0) someCalls = some c ∧ c.Represents [3, 4, 5] := by
  have hok : (Listing.new : Listing Nat).AllOk (fun _ _ => 0) someCalls := by
    refine ⟨fun p hp => ?_, fun p hp => ?_, fun hzero => absurd hzero (by decide), trivial,
      ⟨by decide, by decide⟩, trivial, show 1 + 2 ≤ 4 by decide, trivial, fun p hp => ?_,
      fun init x hx e he a _ => ?_, trivial⟩
    · cases hp
    · cases hp
      decide
    · cases hp
    · have hsplit : init ++ [x] = [(3, (3, 0)), (1, (4, 0))] ++ [(4, (5, 0))] := hx.symm
      obtain ⟨rfl, hx⟩ := List.append_inj' hsplit rfl
      cases hx
      have hall : ∀ e ∈ ([(3, (3, 0)), (1, (4, 0))] : List (Entry Nat)),
          (e.2.1 : Int) - (5 : Nat) ≤ 0 := by decide
      exact hall e he
  exact chain_represents _ hok

/-- The first call leaves the last node null; after a sort that moves the last node,
the chain ends with a node that is freed. -/
theorem chain_breaks :
    (∃ c, (new : Dchain Nat).run (fun _ _ => 0) [.insert 0 7] = some c ∧
      c.nodeCount = 1 ∧ c.lastNode = none) ∧
    ∃ c, (new : Dchain Nat).run (fun _ _ => 0)
        [.push 2 false, .push 1 false, .setCompare (some fun a b => (a : Int) - b), .sort] = some c ∧
      c.lastNode = some 1 ∧ (c.cells 1).isNone = true ∧ ∀ contents, ¬c.Represents contents := by
  refine ⟨⟨_, rfl, rfl, rfl⟩, _, rfl, rfl, rfl, ?_⟩
  rintro contents ⟨ps, -, -, -, hleft, -⟩
  exact absurd hleft (Option.some_ne_none _).symm

end Dchain

end Unisym.Datype
