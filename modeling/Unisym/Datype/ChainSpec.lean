/-
# `ChainSpec` — the singly linked chain as a list

`Chain.Body` says that the heap holds a list of entries, `Chain.Holds` that a chain does: its
ends, its count and its middle are those of the list.  Every call is the one of
`Chain.Listing`, on lists of entries, with two exceptions: `SortByInsertion` counts every node
that it moves twice, and a sorted `Append` takes the chain to be sorted although nothing has
sorted it.  `chains_hold_lists` is about all runs that avoid these two.
-/
import Unisym.Datype.Chain
import Unisym.Library.Steps
import Mathlib.Data.List.Sort

namespace Unisym.Datype

open Function Links Threads

namespace Chain

/-- An entry: a node with its content. -/
abbrev Entry (α : Type) := Nat × α

variable {α : Type}

/-- How a `Node` is read. -/
def reader (α : Type) : Reader Nat (Node α) α := ⟨Node.next, Node.offs⟩

/-! ## The heap -/

/-- The heap holds the entries, linked in this order, at nodes below `fresh`. -/
structure Body (cells : Nat → Option (Node α)) (fresh : Nat) (es : List (Entry α)) : Prop where
  thread : Thread (reader α) cells (headKey es) es none
  nodup : (keys es).Nodup
  lt_fresh : ∀ p ∈ keys es, p < fresh

namespace Body

variable {cells cells' : Nat → Option (Node α)} {fresh : Nat} {xs m ys es : List (Entry α)}
  {e : Entry α}

theorem nil (cells : Nat → Option (Node α)) (fresh : Nat) : Body cells fresh [] :=
  ⟨rfl, List.nodup_nil, fun _ hp => absurd hp List.not_mem_nil⟩

theorem node (h : Body cells fresh (xs ++ e :: ys)) : cells e.1 = some ⟨headKey ys, e.2⟩ := by
  obtain ⟨n, hn, hval, hnext⟩ := h.thread.node
  rw [Option.or_none] at hnext
  rw [hn, ← hval, ← hnext]
  rfl

theorem length_le (h : Body cells fresh es) : es.length ≤ fresh := Links.length_le h.nodup h.lt_fresh

/-- The middle part `m` becomes `m'`; the last link before it is set anew. -/
theorem splice (h : Body cells fresh (xs ++ (m ++ ys))) (m' : List (Entry α))
    (hmid : Thread (reader α) cells' (headKey (m' ++ ys)) m' (headKey ys))
    (hxs : ∀ e ∈ xs, cells' e.1 = (cells e.1).map fun n =>
      { n with next := if lastKey xs = some e.1 then headKey (m' ++ ys) else n.next })
    (hys : ∀ e ∈ ys, cells' e.1 = cells e.1) :
    Thread (reader α) cells' (headKey (xs ++ (m' ++ ys))) (xs ++ (m' ++ ys)) none := by
  have hnodup := h.nodup
  rw [keys_append] at hnodup
  obtain ⟨q, hfront, hrest⟩ := thread_append.mp h.thread
  obtain ⟨q', -, hback⟩ := thread_append.mp hrest
  have hq' : q' = headKey ys := by rw [hback.start, Option.or_none]
  rw [hq'] at hback
  rw [headKey_append]
  refine thread_append.mpr ⟨headKey (m' ++ ys), ?_, thread_append.mpr ⟨headKey ys, hmid, ?_⟩⟩
  · refine hfront.relink (List.nodup_append.mp hnodup).1 fun e he n hn => ?_
    have hcell := hxs e he
    rw [hn, Option.map_some] at hcell
    exact ⟨_, hcell, rfl, rfl⟩
  · refine hback.congr fun e he n hn => ?_
    have hcell := hys e he
    rw [hn] at hcell
    exact ⟨n, hcell, rfl, rfl⟩

theorem insert {v : α} (h : Body cells fresh (xs ++ ys))
    (hnew : cells' fresh = some ⟨headKey ys, v⟩)
    (hold : ∀ k < fresh, cells' k = (cells k).map fun n =>
      { n with next := if lastKey xs = some k then some fresh else n.next }) :
    Body cells' (fresh + 1) (xs ++ (fresh, v) :: ys) := by
  have hlt : ∀ e ∈ xs ++ ys, e.1 < fresh := fun e he => h.lt_fresh _ (mem_keys he)
  obtain ⟨hnodup, hfresh⟩ := keys_insert h.nodup h.lt_fresh v
  refine ⟨?_, hnodup, hfresh⟩
  · refine splice (m := []) h [(fresh, v)] ⟨rfl, _, hnew, rfl, rfl⟩ (fun e he => ?_)
      fun e he => ?_
    · exact hold e.1 (hlt e (List.mem_append_left _ he))
    · -- no link behind the place changes
      rw [hold e.1 (hlt e (List.mem_append_right _ he))]
      have hne : lastKey xs ≠ some e.1 := by
        intro hlast
        have hnodup := h.nodup
        rw [keys_append] at hnodup
        exact (List.nodup_append.mp hnodup).2.2 _ (lastKey_mem hlast) _ (mem_keys he) rfl
      simp only [if_neg hne]
      cases cells e.1 <;> rfl

theorem remove (h : Body cells fresh (xs ++ (m ++ ys)))
    (hold : ∀ k, k ∉ keys m → cells' k = (cells k).map fun n =>
      { n with next := if lastKey xs = some k then headKey ys else n.next }) :
    Body cells' fresh (xs ++ ys) := by
  have hsub : (xs ++ ys).Sublist (xs ++ (m ++ ys)) := (List.sublist_append_right m ys).append_left xs
  have hnodup := h.nodup
  rw [keys_append, keys_append] at hnodup
  obtain ⟨-, hright, hdisjoint⟩ := List.nodup_append.mp hnodup
  obtain ⟨-, -, hmid⟩ := List.nodup_append.mp hright
  refine ⟨?_, h.nodup.sublist (hsub.map _), fun p hp => h.lt_fresh p ((hsub.map _).subset hp)⟩
  refine splice h [] rfl (fun e he => hold e.1 fun hmem => ?_) fun e he => ?_
  · exact hdisjoint _ (mem_keys he) _ (List.mem_append_left _ hmem) rfl
  · have hne : lastKey xs ≠ some e.1 := fun hlast =>
      hdisjoint _ (lastKey_mem hlast) _ (List.mem_append_right _ (mem_keys he)) rfl
    rw [hold e.1 fun hmem => hmid _ hmem _ (mem_keys he) rfl]
    simp only [if_neg hne]
    cases cells e.1 <;> rfl

end Body

/-! ## Nodes -/

variable {c : Chain α}

theorem setNext_some {p : Nat} {n : Node α} (h : c.cells p = some n)
    (v : Option Nat) :
    c.setNext (some p) v = some { c with cells := update c.cells p (some { n with next := v }) } := by
  rw [setNext, modify, h]

theorem nodeInsert_behind {xs ys : List (Entry α)} {e : Entry α}
    (h : Body c.cells c.fresh (xs ++ e :: ys)) (txt : α) :
    ∃ cells', c.nodeInsert (some e.1) txt =
        some (c.fresh, { c with cells := cells', fresh := c.fresh + 1 }) ∧
      Body cells' (c.fresh + 1) (xs ++ e :: (c.fresh, txt) :: ys) := by
  have hnode := h.node
  have hlt : e.1 < c.fresh := h.lt_fresh _ (mem_keys List.mem_append_cons_self)
  refine ⟨update (update c.cells c.fresh (some ⟨headKey ys, txt⟩)) e.1
    (some ⟨some c.fresh, e.2⟩), ?_, ?_⟩
  · unfold nodeInsert
    dsimp only
    rw [hnode]
    dsimp only
    rw [setNext_some (n := ⟨headKey ys, e.2⟩)]
    · rfl
    · dsimp only
      rw [update_of_ne (Nat.ne_of_lt hlt)]
      exact hnode
  · rw [List.append_cons] at h ⊢
    refine h.insert ?_ fun k hk => ?_
    · rw [update_of_ne (Nat.ne_of_gt hlt), update_self]
    · rw [lastKey_concat]
      by_cases hke : e.1 = k
      · subst hke
        rw [update_self, hnode, Option.map_some, if_pos rfl]
      · have hne : ¬some e.1 = some k := fun heq => hke (Option.some.inj heq)
        rw [update_of_ne (Ne.symm hke), update_of_ne (Nat.ne_of_lt hk)]
        simp only [if_neg hne]
        cases c.cells k <;> rfl

/-- `NodeInsert` at a null pointer, and the link to the entries there are. -/
theorem nodeInsert_front {es : List (Entry α)} (h : Body c.cells c.fresh es) (txt : α) :
    ∃ c₁, c.nodeInsert none txt = some (c.fresh, c₁) ∧
      (es = [] → c₁ = { c with cells := c₁.cells, fresh := c.fresh + 1 } ∧
        Body c₁.cells (c.fresh + 1) [(c.fresh, txt)]) ∧
      ∃ cells', c₁.setNext (some c.fresh) (headKey es) =
          some { c with cells := cells', fresh := c.fresh + 1 } ∧
        Body cells' (c.fresh + 1) ((c.fresh, txt) :: es) := by
  have hold : ∀ v k, k < c.fresh → update c.cells c.fresh (some v) k =
      (c.cells k).map fun n =>
        { n with next := if lastKey ([] : List (Entry α)) = some k then some c.fresh else n.next } := by
    intro v k hk
    rw [update_of_ne (Nat.ne_of_lt hk)]
    cases c.cells k <;> rfl
  refine ⟨_, rfl, ?_, update c.cells c.fresh (some ⟨headKey es, txt⟩), ?_, ?_⟩
  · rintro rfl
    have hnil : Body c.cells c.fresh ([] ++ []) := h
    exact ⟨rfl, hnil.insert (update_self _ _ _) (hold _)⟩
  · rw [setNext_some (n := ⟨none, txt⟩) (update_self _ _ _)]
    dsimp only
    rw [update_idem]
  · have hnil : Body c.cells c.fresh ([] ++ es) := h
    exact hnil.insert (update_self _ _ _) (hold _)

theorem nodeRemove_spec {xs ys : List (Entry α)} {e : Entry α}
    (h : Body c.cells c.fresh (xs ++ e :: ys)) :
    ∃ cells', c.nodeRemove (some e.1) (lastKey xs) = some { c with cells := cells' } ∧
      Body cells' c.fresh (xs ++ ys) := by
  have hnode := h.node
  have hne : ∀ k, k ∉ keys [e] → k ≠ e.1 := fun k hk heq => hk (List.mem_singleton.mpr heq)
  cases xs using List.reverseRecOn with
  | nil =>
    refine ⟨update c.cells e.1 none, ?_, Body.remove (m := [e]) h fun k hk => ?_⟩
    · unfold nodeRemove
      dsimp only
      rw [hnode]
      rfl
    · rw [update_of_ne (hne k hk)]
      cases c.cells k <;> rfl
  | append_singleton xs f =>
    have hf : c.cells f.1 = some ⟨some e.1, f.2⟩ := by
      rw [List.append_assoc] at h
      exact h.node
    refine ⟨update (update c.cells f.1 (some ⟨headKey ys, f.2⟩)) e.1 none, ?_,
      Body.remove (m := [e]) h fun k hk => ?_⟩
    · unfold nodeRemove
      dsimp only
      rw [hnode, lastKey_concat]
      dsimp only
      rw [setNext_some hf]
      rfl
    · rw [update_of_ne (hne k hk), lastKey_concat]
      by_cases hkf : f.1 = k
      · subst hkf
        rw [update_self, hf, Option.map_some, if_pos rfl]
      · have hnone : ¬some f.1 = some k := fun heq => hkf (Option.some.inj heq)
        rw [update_of_ne (Ne.symm hkf)]
        simp only [if_neg hnone]
        cases c.cells k <;> rfl

/-! ## Access -/

theorem locateLoop_spec {xs : List (Entry α)} {e : Entry α} :
    ∀ (idx : Nat) {ys : List (Entry α)}, Body c.cells c.fresh (xs ++ e :: ys) →
      c.locateLoop idx e.1 = some (ys[idx]?.map Prod.fst)
  | idx, [], h => by
    rw [locateLoop, h.node]
    rfl
  | 0, f :: ys, h => by
    rw [locateLoop, h.node]
    rfl
  | idx + 1, f :: ys, h => by
    rw [locateLoop, h.node]
    exact locateLoop_spec idx (List.append_cons xs e (f :: ys) ▸ h)

theorem locate_spec {es : List (Entry α)} (h : Body c.cells c.fresh es)
    (hroot : c.rootNode = headKey es) (hne : es ≠ []) (idx : Nat) :
    c.locate idx = some (es[idx]?.map Prod.fst) := by
  obtain ⟨e, es, rfl⟩ := List.exists_cons_of_ne_nil hne
  cases idx with
  | zero =>
    rw [locate, hroot]
    rfl
  | succ idx =>
    rw [locate, hroot]
    exact locateLoop_spec idx (show Body c.cells c.fresh ([] ++ e :: es) from h)

theorem locateNodeLoop_spec {xs : List (Entry α)} {e : Entry α} :
    ∀ (idx : Nat) {ys : List (Entry α)}, Body c.cells c.fresh (xs ++ e :: ys) →
      c.locateNodeLoop idx e.1 = some ((e :: ys)[idx]?.map Prod.fst)
  | 0, _, _ => rfl
  | idx + 1, [], h => by
    rw [locateNodeLoop, h.node]
    rfl
  | idx + 1, f :: ys, h => by
    rw [locateNodeLoop, h.node]
    exact locateNodeLoop_spec idx (List.append_cons xs e (f :: ys) ▸ h)

theorem locateNode_spec {es : List (Entry α)} (h : Body c.cells c.fresh es)
    (hroot : c.rootNode = headKey es) (idx : Nat) :
    c.locateNode idx = some (es[idx]?.map Prod.fst) := by
  unfold locateNode
  rw [hroot]
  cases es with
  | nil => rfl
  | cons e es => exact locateNodeLoop_spec idx (show Body c.cells c.fresh ([] ++ e :: es) from h)

/-- The loop of `getLeft` from an entry before the given one. -/
theorem getLeftLoop_spec {e : Entry α} {ys : List (Entry α)} :
    ∀ {mid xs : List (Entry α)} {f : Entry α} {fuel : Nat} (res : Option Nat),
      Body c.cells c.fresh (xs ++ f :: (mid ++ e :: ys)) → mid.length < fuel →
        c.getLeftLoop (some e.1) false fuel res f.1 = some (lastKey (f :: mid))
  | _, _, _, 0, _, _, h => absurd h (Nat.not_lt_zero _)
  | [], xs, f, fuel + 1, res, h, _ => by
    rw [getLeftLoop, h.node]
    exact if_pos ⟨rfl, rfl⟩
  | g :: mid, xs, f, fuel + 1, res, h, hfuel => by
    have hne : ¬(some g.1 = some e.1 ∧ false = false) := by
      rintro ⟨heq, -⟩
      have hnodup := h.nodup
      rw [keys_append, keys_cons, List.cons_append, keys_cons, keys_append] at hnodup
      have hcons := (List.nodup_cons.mp (List.nodup_append.mp hnodup).2.1).2
      refine (List.nodup_cons.mp hcons).1 (List.mem_append_right _ ?_)
      rw [Option.some.inj heq]
      exact List.mem_cons_self
    rw [getLeftLoop, h.node]
    dsimp only
    rw [List.cons_append, headKey_cons, if_neg hne, lastKey_cons_cons]
    exact getLeftLoop_spec _ (List.append_cons xs f (g :: mid ++ e :: ys) ▸ h)
      (Nat.lt_of_succ_lt_succ hfuel)

/-- The loop of `getLeft` where no entry leads to the given node. -/
theorem getLeftLoop_none {p : Nat} :
    ∀ {ys xs : List (Entry α)} {f : Entry α} {fuel : Nat}, Body c.cells c.fresh (xs ++ f :: ys) →
      p ∉ keys ys → ys.length < fuel → c.getLeftLoop (some p) false fuel none f.1 = some none
  | _, _, _, 0, _, _, h => absurd h (Nat.not_lt_zero _)
  | [], xs, f, fuel + 1, h, _, _ => by
    rw [getLeftLoop, h.node]
    rfl
  | g :: ys, xs, f, fuel + 1, h, hp, hfuel => by
    have hne : some g.1 ≠ some p := fun heq => hp (Option.some.inj heq ▸ List.mem_cons_self)
    rw [getLeftLoop, h.node]
    dsimp only
    rw [headKey_cons, if_neg fun hand => hne hand.1, if_neg hne]
    exact getLeftLoop_none (List.append_cons xs f (g :: ys) ▸ h)
      (fun hmem => hp (List.mem_cons_of_mem _ hmem)) (Nat.lt_of_succ_lt_succ hfuel)

theorem getLeft_spec {xs ys : List (Entry α)} {e : Entry α}
    (h : Body c.cells c.fresh (xs ++ e :: ys)) (hroot : c.rootNode = headKey (xs ++ e :: ys)) :
    c.getLeft (some e.1) false = some (lastKey xs) := by
  unfold getLeft
  rw [hroot]
  have hlen := h.length_le
  cases xs with
  | nil =>
    have hp : e.1 ∉ keys ys := (List.nodup_cons.mp h.nodup).1
    exact getLeftLoop_none (show Body c.cells c.fresh ([] ++ e :: ys) from h) hp hlen
  | cons f mid =>
    rw [List.length_append, List.length_cons] at hlen
    exact getLeftLoop_spec none (show Body c.cells c.fresh ([] ++ f :: (mid ++ e :: ys)) from h)
      (by omega)

/-! ## Chains -/

/-- The chain holds the entries. -/
structure Holds (c : Chain α) (es : List (Entry α)) : Prop where
  body : Body c.cells c.fresh es
  root : c.rootNode = headKey es
  last : c.lastNode = lastKey es
  count : c.nodeCount = es.length
  midl : ∀ p, c.midlNode = some p → p ∈ keys es
  sorted : c.beenSorted = true

theorem holds_new : (new : Chain α).Holds [] := ⟨Body.nil _ _, rfl, rfl, rfl, nofun, rfl⟩

/-- A list of entries, the number of the next node, and the comparison. -/
structure Listing (α : Type) where
  entries : List (Entry α)
  fresh : Nat
  compareF : Option (Comparer α)

/-- The chain is the list. -/
structure Is (c : Chain α) (l : Listing α) : Prop where
  holds : c.Holds l.entries
  fresh : c.fresh = l.fresh
  compareF : c.compareF = l.compareF

/-- `NodeChainAdapt` with the ends and the count of the list. -/
theorem nodeChainAdapt_spec (c : Chain α) {es : List (Entry α)} {r s : Option Nat}
    (countDif : Int) (h : Body c.cells c.fresh es) (hroot : r = headKey es)
    (hlast : s = lastKey es) (hcount : c.nodeCount + countDif = es.length)
    (hsorted : c.beenSorted = true) :
    ∃ c', c.nodeChainAdapt r s countDif = some c' ∧ c'.Is ⟨es, c.fresh, c.compareF⟩ := by
  unfold nodeChainAdapt
  dsimp only
  rw [hcount, Int.toNat_natCast]
  split
  · exact ⟨_, rfl, ⟨h, hroot, hlast, rfl, nofun, hsorted⟩, rfl, rfl⟩
  · have hmidl := locateNode_spec (c := { c with
      nodeCount := es.length, rootNode := r, lastNode := s }) h hroot (es.length >>> 1)
    rw [hmidl]
    refine ⟨_, rfl, ⟨h, hroot, hlast, rfl, fun p hp => ?_, hsorted⟩, rfl, rfl⟩
    obtain ⟨e, he, rfl⟩ := Option.map_eq_some_iff.mp hp
    exact mem_keys (List.mem_of_getElem? he)

/-! ## Lists of entries -/

/-- Whether the order puts the one before the other, or together. -/
def Le (f : Comparer α) (e e' : Entry α) : Prop := f.nodes e.2 e'.2 ≤ 0

instance (f : Comparer α) : DecidableRel (Le f) := fun e e' =>
  inferInstanceAs (Decidable (f.nodes e.2 e'.2 ≤ 0))

namespace Listing

/-- A list with a new entry. -/
def add (l : Listing α) (es : List (Entry α)) : Listing α :=
  { l with entries := es, fresh := l.fresh + 1 }

/-- The entry of a content that is added. -/
def entry (l : Listing α) (dat : α) : Entry α := (l.fresh, dat)

/-- Beside the entry of a node. -/
def beside (onleft : Bool) (nod : Nat) (new : Entry α) : List (Entry α) → List (Entry α)
  | [] => []
  | e :: es =>
      if e.1 = nod then (if onleft then new :: e :: es else e :: new :: es)
      else e :: beside onleft nod new es

def push (l : Listing α) (off : α) (endLeft : Bool) : Listing α :=
  l.add (if endLeft then l.entry off :: l.entries else l.entries ++ [l.entry off])

/-- A sorted `Append` -/
def appendSorted (l : Listing α) (f : Comparer α) (addr : α) : Listing α :=
  l.add (l.entries.orderedInsert (Le f) (l.entry addr))

def append (l : Listing α) (addr : α) (onleft : Bool) (nod : Option Nat) : Listing α :=
  match nod with
  | some p => l.add (beside onleft p (l.entry addr) l.entries)
  | none =>
      match l.compareF with
      | none => l.push addr onleft
      | some f => l.appendSorted f addr

def remove (l : Listing α) (idx times : Nat) : Listing α :=
  { l with entries := l.entries.take idx ++ l.entries.drop (idx + times) }

/-- `Remove(nod)` and `Remove(content)` -/
def removeWhere (l : Listing α) (test : Entry α → Bool) : Listing α :=
  { l with entries := l.entries.eraseP test }

def exchange (l : Listing α) (idx1 idx2 : Nat) : Listing α :=
  match l.entries[idx1]?, l.entries[idx2]? with
  | some e, some f => { l with entries := (l.entries.set idx1 (e.1, f.2)).set idx2 (f.1, e.2) }
  | _, _ => l

/-- `SortByInsertion`; without a comparison of the user nothing is said about the order. -/
def sort (l : Listing α) : Listing α :=
  match l.compareF with
  | none => l
  | some f => { l with entries := l.entries.insertionSort (Le f) }

end Listing

/-! ## Adding nodes -/

variable {c : Chain α} {l : Listing α}

theorem Is.listing (h : c.Is l) : ∃ es, c.Holds es ∧ l = ⟨es, c.fresh, c.compareF⟩ := by
  obtain ⟨es, fresh, compareF⟩ := l
  exact ⟨es, h.holds, by rw [h.fresh, h.compareF]⟩

/-- A node behind an entry, and the ends as they are then. -/
theorem Holds.behind {xs ys : List (Entry α)} {e : Entry α}
    (h : c.Holds (xs ++ e :: ys)) (txt : α) :
    ∃ c₁, c.nodeInsert (some e.1) txt = some (c.fresh, c₁) ∧
      c₁.rootNode = c.rootNode ∧ c₁.lastNode = c.lastNode ∧
      ∃ c', c₁.nodeChainAdapt c.rootNode (if ys = [] then some c.fresh else c.lastNode) 1 = some c' ∧
        c'.Is ⟨xs ++ e :: (c.fresh, txt) :: ys, c.fresh + 1, c.compareF⟩ := by
  obtain ⟨cells', hinsert, hbody'⟩ := nodeInsert_behind h.body txt
  refine ⟨_, hinsert, rfl, rfl, nodeChainAdapt_spec { c with cells := cells', fresh := c.fresh + 1 } 1
    hbody' ?_ ?_ ?_ h.sorted⟩
  · rw [h.root, headKey_append_cons, ← headKey_append_cons xs e]
  · exact lastKey_behind h.last _ _
  · change (c.nodeCount : Int) + 1 = _
    rw [h.count, List.length_append, List.length_append]
    rfl

/-- `Push`, and `Append` to an empty chain, which is the same. -/
theorem Is.push (h : c.Is l) (off : α) (endLeft : Bool) :
    ∃ r c', c.push off endLeft = some (r, c') ∧ c'.Is (l.push off endLeft) := by
  obtain ⟨es, hholds, rfl⟩ := h.listing
  unfold Chain.push Listing.push Listing.entry Listing.add
  dsimp only
  rw [hholds.root]
  cases es with
  | nil =>
    obtain ⟨c₁, hinsert, hfirst, -⟩ := nodeInsert_front hholds.body off
    obtain ⟨hc₁, hbody'⟩ := hfirst rfl
    have hcount : (c.nodeCount : Int) + 1 = 1 :=
      congrArg (fun n : Nat => (n : Int) + 1) hholds.count
    obtain ⟨c', hadapt, his⟩ := nodeChainAdapt_spec { c with cells := c₁.cells, fresh := c.fresh + 1 }
      1 hbody' (r := some c.fresh) (s := some c.fresh) rfl rfl hcount hholds.sorted
    refine ⟨c.fresh, c', ?_, by cases endLeft <;> exact his⟩
    rw [← hc₁] at hadapt
    simp only [headKey_nil, hinsert, hadapt, some_bind]
  | cons e es =>
    cases endLeft with
    | true =>
      obtain ⟨c₁, hinsert, -, cells', hlink, hbody'⟩ := nodeInsert_front hholds.body off
      obtain ⟨c', hadapt, his⟩ := nodeChainAdapt_spec { c with cells := cells', fresh := c.fresh + 1 }
        1 hbody' (r := some c.fresh) (s := c.lastNode) rfl
        (by rw [hholds.last, lastKey_cons_cons])
        (by
          change (c.nodeCount : Int) + 1 = _
          rw [hholds.count]
          rfl) hholds.sorted
      refine ⟨c.fresh, c', ?_, his⟩
      rw [headKey_cons] at hlink
      simp only [headKey_cons, hinsert, hlink, hadapt, if_true, some_bind]
    | false =>
      obtain ⟨xs, f, hxs⟩ := (List.eq_nil_or_concat' (e :: es)).resolve_left
        (List.cons_ne_nil e es)
      rw [hxs] at hholds ⊢
      obtain ⟨c₁, hinsert, hroot, -, c', hadapt, his⟩ := hholds.behind off
      have hhead : headKey (xs ++ [f]) = some e.1 := by rw [← hxs, headKey_cons]
      refine ⟨c.fresh, c', ?_, by rw [List.append_assoc]; exact his⟩
      rw [if_pos rfl] at hadapt
      simp only [hhead, hholds.last, lastKey_concat, hinsert, hroot, hadapt, Bool.false_eq_true,
        if_false, some_bind]

/-! ## `Append` -/

theorem beside_append {onleft : Bool} {new e : Entry α} {ys : List (Entry α)} :
    ∀ {xs : List (Entry α)}, (keys (xs ++ e :: ys)).Nodup →
      Listing.beside onleft e.1 new (xs ++ e :: ys) =
        xs ++ if onleft then new :: e :: ys else e :: new :: ys
  | [], _ => by
    rw [List.nil_append, Listing.beside, if_pos rfl, List.nil_append]
  | x :: xs, h => by
    rw [List.cons_append, keys_cons, List.nodup_cons] at h
    have hne : x.1 ≠ e.1 := fun heq => h.1 (by
      rw [heq]
      exact mem_keys List.mem_append_cons_self)
    rw [List.cons_append, Listing.beside, if_neg hne, beside_append h.2, List.cons_append]

theorem Holds.before {xs ys : List (Entry α)} {e : Entry α}
    (h : c.Holds (xs ++ e :: ys)) (hxs : xs ≠ []) (txt : α) :
    ∃ c₁, c.getLeft (some e.1) false = some (lastKey xs) ∧
      c.nodeInsert (lastKey xs) txt = some (c.fresh, c₁) ∧
      c₁.rootNode = c.rootNode ∧ c₁.lastNode = c.lastNode ∧
      ∃ c', c₁.nodeChainAdapt c.rootNode c.lastNode 1 = some c' ∧
        c'.Is ⟨xs ++ (c.fresh, txt) :: e :: ys, c.fresh + 1, c.compareF⟩ := by
  have hleft := getLeft_spec h.body h.root
  obtain ⟨us, f, rfl⟩ := (List.eq_nil_or_concat' xs).resolve_left hxs
  rw [lastKey_concat] at hleft ⊢
  rw [List.append_assoc] at h
  obtain ⟨c₁, hinsert, hroot, hlast, c', hadapt, his⟩ := h.behind txt
  exact ⟨c₁, hleft, hinsert, hroot, hlast, c', hadapt, by rw [List.append_assoc]; exact his⟩

theorem Is.appendBeside (h : c.Is l) (addr : α) (onleft : Bool)
    {p : Nat} (hp : p ∈ keys l.entries) :
    ∃ r c', c.appendBeside addr onleft p = some (r, c') ∧
      c'.Is (l.add (Listing.beside onleft p (l.entry addr) l.entries)) := by
  have hpush := h.push addr true
  obtain ⟨entries, hholds, rfl⟩ := h.listing
  dsimp only at hp
  obtain ⟨e, he, rfl⟩ := List.mem_map.mp hp
  obtain ⟨xs, ys, rfl⟩ := List.append_of_mem he
  have hnodup := hholds.body.nodup
  have hrootIff : some e.1 = c.rootNode ↔ xs = [] := hholds.root ▸ headKey_eq_iff hnodup
  have hlastIff : some e.1 = c.lastNode ↔ ys = [] := hholds.last ▸ lastKey_eq_iff hnodup
  have hroot : c.rootNode ≠ none := by
    rw [hholds.root]
    cases xs <;> exact Option.some_ne_none _
  have hlast : c.lastNode ≠ none := by
    rw [hholds.last, lastKey_append_cons, lastKey, List.getLast?_cons]
    exact Option.some_ne_none _
  unfold Chain.appendBeside Listing.add Listing.entry
  dsimp only
  rw [beside_append hnodup]
  cases onleft with
  | true =>
    cases xs with
    | nil =>
      rw [if_pos ⟨rfl, hrootIff.mpr rfl⟩]
      exact hpush
    | cons x xs =>
      have hxs : x :: xs ≠ [] := List.cons_ne_nil x xs
      obtain ⟨c₁, hleft, hinsert, hroot₁, hlast₁, c', hadapt, his⟩ := hholds.before hxs addr
      refine ⟨c.fresh, c', ?_, his⟩
      rw [if_neg fun hand => hxs (hrootIff.mp hand.2)]
      simp only [if_true, hleft, hinsert, hroot₁, hlast₁, hroot, hlast, hrootIff, hxs, hadapt,
        Bool.not_true, Bool.false_eq_true, false_and, and_false, or_false, if_false,
        some_bind]
  | false =>
    obtain ⟨c₁, hinsert, hroot₁, hlast₁, c', hadapt, his⟩ := hholds.behind addr
    refine ⟨c.fresh, c', ?_, his⟩
    simp only [hinsert, hroot₁, hlast₁, hroot, hlast, hlastIff, Bool.not_false, Bool.false_eq_true,
      false_and, or_false, false_or, true_and, if_false, some_bind]
    rw [hadapt]
    rfl

/-- Whether an entry belongs behind another. -/
def behind (f : Comparer α) (new e : Entry α) : Bool := decide (¬Le f new e)

theorem orderedInsert_eq (f : Comparer α) (new : Entry α) (es : List (Entry α)) :
    es.orderedInsert (Le f) new = es.takeWhile (behind f new) ++ new :: es.dropWhile (behind f new) :=
  List.orderedInsert_eq_take_drop (Le f) new es

/-- The loop of a sorted `Append` stops at the first entry that is not less. -/
theorem appendSeek_spec (f : Comparer α) (new : Entry α) {e : Entry α} :
    ∀ {ys xs : List (Entry α)} {fuel : Nat}, Body c.cells c.fresh (xs ++ e :: ys) →
      ys.length < fuel → c.appendSeek f new.2 fuel e.1 =
        some (headKey ((e :: ys).dropWhile (behind f new)))
  | _, _, 0, _, h => absurd h (Nat.not_lt_zero _)
  | ys, xs, fuel + 1, h, hfuel => by
    rw [appendSeek, h.node]
    dsimp only
    by_cases hgt : f.nodes new.2 e.2 > 0
    · have hbehind : behind f new e = true := decide_eq_true (Int.not_le.mpr hgt)
      rw [if_pos hgt, List.dropWhile_cons_of_pos hbehind]
      cases ys with
      | nil => rfl
      | cons g ys =>
        exact appendSeek_spec f new (List.append_cons xs e (g :: ys) ▸ h)
          (Nat.lt_of_succ_lt_succ hfuel)
    · have hbehind : ¬behind f new e = true := fun h =>
        of_decide_eq_true h (Int.not_lt.mp hgt)
      rw [if_neg hgt, List.dropWhile_cons_of_neg hbehind]
      rfl

theorem Is.appendSorted (h : c.Is l) (f : Comparer α) (addr : α)
    {e : Entry α} {es : List (Entry α)} (hes : l.entries = e :: es) :
    ∃ r c', c.appendSorted f addr e.1 = some (r, c') ∧ c'.Is (l.appendSorted f addr) := by
  have hpush := h.push addr true
  obtain ⟨entries, hholds, rfl⟩ := h.listing
  cases hes
  have hnil : Body c.cells c.fresh ([] ++ e :: es) := hholds.body
  have hnode := hnil.node
  unfold Chain.appendSorted Listing.appendSorted Listing.entry Listing.add
  dsimp only
  rw [hnode, orderedInsert_eq]
  simp only [Option.bind_eq_bind, Option.bind_some]
  by_cases hle : f.nodes addr e.2 ≤ 0
  · -- before all
    have hneg : ¬behind f (c.fresh, addr) e = true := fun hgt => of_decide_eq_true hgt hle
    rw [if_pos hle, List.takeWhile_cons_of_neg hneg, List.dropWhile_cons_of_neg hneg]
    exact hpush
  have hseek := appendSeek_spec f (c.fresh, addr) hnil hholds.body.length_le
  rw [if_neg hle, hseek]
  simp only [Option.bind_some]
  have hpos : behind f (c.fresh, addr) e = true := decide_eq_true hle
  have hsplit : (e :: es).takeWhile (behind f (c.fresh, addr)) ++
      (e :: es).dropWhile (behind f (c.fresh, addr)) = e :: es :=
    List.takeWhile_append_dropWhile
  have htake : (e :: es).takeWhile (behind f (c.fresh, addr)) ≠ [] := by
    rw [List.takeWhile_cons_of_pos hpos]
    exact List.cons_ne_nil _ _
  cases hdrop : (e :: es).dropWhile (behind f (c.fresh, addr)) with
  | nil =>
    -- behind all
    rw [hdrop, List.append_nil] at hsplit
    rw [hsplit, headKey_nil]
    obtain ⟨xs, g, hxs⟩ := (List.eq_nil_or_concat' (e :: es)).resolve_left
      (List.cons_ne_nil e es)
    rw [hxs] at hholds ⊢
    obtain ⟨c₁, hinsert, hroot₁, -, c', hadapt, his⟩ := hholds.behind addr
    refine ⟨c.fresh, c', ?_, by rw [List.append_assoc]; exact his⟩
    rw [if_pos rfl] at hadapt
    simp only [hholds.last, lastKey_concat, hinsert, hroot₁, hadapt, Option.bind_some]
  | cons g ys =>
    -- before `g`
    rw [hdrop] at hsplit
    rw [← hsplit] at hholds
    obtain ⟨c₁, hleft, hinsert, hroot₁, hlast₁, c', hadapt, his⟩ := hholds.before htake addr
    refine ⟨c.fresh, c', ?_, his⟩
    simp only [headKey_cons, hleft, hinsert, hroot₁, hlast₁, hadapt, Option.bind_some]

theorem Is.append (a : Addresses α) (h : c.Is l) (addr : α)
    (onleft : Bool) {nod : Option Nat} (hnod : ∀ p, nod = some p → p ∈ keys l.entries) :
    ∃ r c', c.append a addr onleft nod = some (r, c') ∧ c'.Is (l.append addr onleft nod) := by
  cases nod with
  | some p => exact h.appendBeside addr onleft (hnod p rfl)
  | none =>
    have hpush := h.push addr onleft
    cases hentries : l.entries with
    | nil =>
      have hroot : c.rootNode = none := by rw [h.holds.root, hentries, headKey_nil]
      have hsame : c.append a addr onleft none = c.push addr onleft := by
        simp only [Chain.append, Chain.push, hroot]
      have hlist : l.append addr onleft none = l.push addr onleft := by
        simp only [Listing.append, Listing.push, Listing.appendSorted, hentries,
          List.orderedInsert_nil, List.nil_append, ite_self]
        cases l.compareF <;> rfl
      rw [hsame, hlist]
      exact hpush
    | cons e es =>
      have hroot : c.rootNode = some e.1 := by rw [h.holds.root, hentries, headKey_cons]
      unfold Chain.append Listing.append
      rw [hroot]
      cases hcompare : l.compareF with
      | none =>
        rw [h.compareF, hcompare]
        exact hpush
      | some f =>
        have hsame : { c with beenSorted := true } = c := by rw [← h.holds.sorted]
        rw [h.compareF, hcompare]
        simp only [h.holds.sorted, if_true, some_bind]
        rw [hsame, hroot]
        exact h.appendSorted f addr hentries

/-! ## Removing nodes -/

/-- The loop of `Remove(idx, times)` frees the nodes of a part, and no other node changes. -/
theorem removeLoop_spec : ∀ (m : List (Entry α)) {p q : Option Nat} {c : Chain α},
    Thread (reader α) c.cells p m q → (keys m).Nodup →
      ∃ cells', removeLoop m.length p c = some { c with cells := cells' } ∧
        ∀ k, k ∉ keys m → cells' k = c.cells k
  | [], _, _, c, _, _ => ⟨c.cells, rfl, fun _ _ => rfl⟩
  | e :: m, p, q, c, ⟨hp, n, hn, hval, hrest⟩, hnodup => by
    have hcons := List.nodup_cons.mp hnodup
    have hthread : Thread (reader α) (update c.cells e.1 none) n.next m q := by
      refine hrest.congr fun f hf k hk => ⟨k, ?_, rfl, rfl⟩
      have hne : f.1 ≠ e.1 := fun heq => hcons.1 (by rw [← keys, ← heq]; exact mem_keys hf)
      rw [update_of_ne hne]
      exact hk
    obtain ⟨cells', hloop, hkeep⟩ :=
      removeLoop_spec m (c := { c with cells := update c.cells e.1 none }) hthread hcons.2
    refine ⟨cells', ?_, fun k hk => ?_⟩
    · rw [List.length_cons, removeLoop, hp]
      simp only [nodeRemove, hn, setNext, hloop, some_bind]
    · rw [keys_cons] at hk
      have hne : k ≠ e.1 := fun heq => hk (by rw [heq]; exact List.mem_cons_self)
      rw [hkeep k fun hmem => hk (List.mem_cons_of_mem _ hmem)]
      exact update_of_ne hne _ _

theorem removeMiddle {xs m ys : List (Entry α)}
    (h : Body c.cells c.fresh (xs ++ (m ++ ys))) :
    ∃ c₁ cells', removeLoop m.length (headKey (m ++ ys)) c = some c₁ ∧
      c₁.setNext (lastKey xs) (headKey ys) = some { c with cells := cells' } ∧
      Body cells' c.fresh (xs ++ ys) := by
  have hnodup := h.nodup
  rw [keys_append, keys_append] at hnodup
  obtain ⟨-, hright, hdisjoint⟩ := List.nodup_append.mp hnodup
  obtain ⟨q, -, hrest⟩ := thread_append.mp h.thread
  obtain ⟨q', hm, -⟩ := thread_append.mp hrest
  have hstart : q = headKey (m ++ ys) := by rw [hrest.start, Option.or_none]
  rw [hstart] at hm
  obtain ⟨cells₁, hloop, hkeep⟩ := removeLoop_spec m hm (List.nodup_append.mp hright).1
  cases xs using List.reverseRecOn with
  | nil =>
    refine ⟨_, cells₁, hloop, rfl, Body.remove h fun k hk => ?_⟩
    rw [hkeep k hk]
    cases c.cells k <;> rfl
  | append_singleton xs f =>
    have hf : c.cells f.1 = some ⟨headKey (m ++ ys), f.2⟩ := by
      rw [List.append_assoc] at h
      exact h.node
    have hfm : f.1 ∉ keys m := fun hmem => by
      refine hdisjoint f.1 ?_ f.1 (List.mem_append_left _ hmem) rfl
      exact mem_keys List.mem_append_cons_self
    refine ⟨_, update cells₁ f.1 (some ⟨headKey ys, f.2⟩), hloop, ?_, Body.remove h fun k hk => ?_⟩
    · rw [lastKey_concat, setNext_some (n := ⟨headKey (m ++ ys), f.2⟩) ((hkeep _ hfm).trans hf)]
    · rw [lastKey_concat]
      by_cases hkf : f.1 = k
      · subst hkf
        rw [update_self, hf, Option.map_some, if_pos rfl]
      · have hnone : ¬some f.1 = some k := fun heq => hkf (Option.some.inj heq)
        rw [update_of_ne (Ne.symm hkf), hkeep k hk]
        simp only [if_neg hnone]
        cases c.cells k <;> rfl

theorem Is.remove (h : c.Is l) {idx times : Nat}
    (hrange : idx + times ≤ l.entries.length) :
    ∃ r c', c.remove idx times = some (r, c') ∧ c'.Is (l.remove idx times) := by
  unfold Chain.remove Listing.remove
  by_cases hzero : times = 0
  · subst hzero
    rw [if_pos rfl, Nat.add_zero, List.take_append_drop]
    exact ⟨true, c, rfl, h⟩
  rw [if_neg hzero]
  obtain ⟨entries, hholds, rfl⟩ := h.listing
  dsimp only at hrange ⊢
  obtain ⟨xs, m, ys, rfl, rfl, rfl⟩ := exists_middle hrange
  have hm : m ≠ [] := fun hnil => hzero (hnil ▸ rfl)
  obtain ⟨e, m, rfl⟩ := List.exists_cons_of_ne_nil hm
  have hne : xs ++ (e :: m ++ ys) ≠ [] :=
    List.append_ne_nil_of_right_ne_nil xs (List.cons_ne_nil e (m ++ ys))
  have hat : (xs ++ (e :: m ++ ys))[xs.length]? = some e := by
    rw [List.getElem?_append_right (Nat.le_refl _), Nat.sub_self]
    rfl
  have hbehind := getElem?_behind xs (e :: m) ys
  have htake : (xs ++ (e :: m ++ ys)).take xs.length = xs := List.take_left
  have hdrop : (xs ++ (e :: m ++ ys)).drop (xs.length + (e :: m).length) = ys := by
    rw [← List.append_assoc, ← List.length_append, List.drop_left]
  obtain ⟨c₁, cells', hloop, hlink, hbody'⟩ := removeMiddle hholds.body
  have hleft := getLeft_spec hholds.body hholds.root
  have hends := ends_without hholds.root hholds.last
  obtain ⟨c', hadapt, his⟩ := nodeChainAdapt_spec { c with cells := cells' }
    (-((e :: m).length : Nat)) hbody' hends.1 hends.2 (by
      change (c.nodeCount : Int) + _ = _
      rw [hholds.count, List.length_append, List.length_append, List.length_append]
      omega) hholds.sorted
  refine ⟨true, c', ?_, by rw [htake, hdrop]; exact his⟩
  rw [locate_spec hholds.body hholds.root hne, locate_spec hholds.body hholds.root hne, hat, hbehind]
  rw [List.cons_append, headKey_cons] at hloop
  simp only [Option.map_some, hleft, hloop, hlink, hadapt, some_bind]

theorem removeWhere_spec {test : Nat → Node α → Bool} {T : Entry α → Bool}
    (hT : ∀ p (n : Node α), test p n = T (p, n.offs)) :
    ∀ {ys xs : List (Entry α)} {e : Entry α} {fuel : Nat}, c.Holds (xs ++ e :: ys) → ys.length < fuel →
      ∃ r c', removeWhere test fuel (lastKey xs) e.1 c = some (r, c') ∧
        c'.Is ⟨xs ++ (e :: ys).eraseP T, c.fresh, c.compareF⟩
  | _, _, _, 0, _, h => absurd h (Nat.not_lt_zero _)
  | ys, xs, e, fuel + 1, h, hfuel => by
    rw [removeWhere, h.body.node, some_bind, hT]
    by_cases hTe : T e = true
    · obtain ⟨cells', hremove, hbody'⟩ := nodeRemove_spec h.body
      have hroot : (if some e.1 = c.rootNode then headKey ys else c.rootNode) = headKey (xs ++ ys) :=
        h.root ▸ headKey_without h.body.nodup
      have hlast : (if some e.1 = c.lastNode then lastKey xs else c.lastNode) = lastKey (xs ++ ys) :=
        h.last ▸ lastKey_without h.body.nodup
      obtain ⟨c', hadapt, his⟩ := nodeChainAdapt_spec { c with cells := cells' } (-1) hbody' hroot
        hlast (by
          change (c.nodeCount : Int) + _ = _
          rw [h.count, List.length_append, List.length_append, List.length_cons]
          omega) h.sorted
      refine ⟨headKey ys, c', ?_, by rw [List.eraseP_cons_of_pos hTe]; exact his⟩
      rw [if_pos hTe, hremove, some_bind]
      dsimp only
      rw [hadapt]
      rfl
    · rw [if_neg hTe, List.eraseP_cons_of_neg hTe]
      cases ys with
      | nil => exact ⟨none, c, rfl, h, rfl, rfl⟩
      | cons f ys =>
        rw [List.append_cons] at h
        have ih := removeWhere_spec hT h (Nat.lt_of_succ_lt_succ hfuel)
        rw [lastKey_concat, ← List.append_cons] at ih
        exact ih

/-- `Remove(nod)` and `Remove(content)`, from the root on. -/
theorem Is.removeWhere (h : c.Is l) {test : Nat → Node α → Bool}
    {T : Entry α → Bool} (hT : ∀ p (n : Node α), test p n = T (p, n.offs)) {crt : Nat}
    (hroot : c.rootNode = some crt) :
    ∃ r c', Chain.removeWhere test c.fresh none crt c = some (r, c') ∧ c'.Is (l.removeWhere T) := by
  obtain ⟨entries, hholds, rfl⟩ := h.listing
  rw [hholds.root] at hroot
  cases entries with
  | nil => cases hroot
  | cons e es =>
    cases hroot
    exact removeWhere_spec hT (show c.Holds ([] ++ e :: es) from hholds) hholds.body.length_le

theorem Is.removeWhere_nil (h : c.Is l) (T : Entry α → Bool)
    (hroot : c.rootNode = none) : c.Is (l.removeWhere T) := by
  rw [h.holds.root] at hroot
  cases hentries : l.entries with
  | nil =>
    have hsame : l.removeWhere T = l := by
      unfold Listing.removeWhere
      rw [hentries, List.eraseP_nil, ← hentries]
    rw [hsame]
    exact h
  | cons e es =>
    rw [hentries] at hroot
    cases hroot

/-! ## `Exchange` -/

theorem Holds.revalue {es : List (Entry α)} (h : c.Holds es)
    {cells' : Nat → Option (Node α)} (f : Entry α → α)
    (hval : ∀ e ∈ es, cells' e.1 = (c.cells e.1).map fun n => { n with offs := f e }) :
    Holds { c with cells := cells' } (es.map fun e : Entry α => (e.1, f e)) := by
  have hthread : ∀ {es : List (Entry α)} {p q : Option Nat}, Thread (reader α) c.cells p es q →
      (∀ e ∈ es, cells' e.1 = (c.cells e.1).map fun n => { n with offs := f e }) →
      Thread (reader α) cells' p (es.map fun e : Entry α => (e.1, f e)) q := by
    intro es
    induction es with
    | nil => exact fun h _ => h
    | cons e es ih =>
      rintro p q ⟨hp, n, hn, -, hrest⟩ hall
      have hcell := hall e List.mem_cons_self
      rw [hn, Option.map_some] at hcell
      exact ⟨hp, _, hcell, rfl, ih hrest fun g hg => hall g (List.mem_cons_of_mem _ hg)⟩
  refine ⟨⟨?_, by simpa using h.body.nodup, by simpa using h.body.lt_fresh⟩,
    h.root.trans (headKey_map f es).symm, h.last.trans (lastKey_map f es).symm, ?_,
    by simpa using h.midl, h.sorted⟩
  · rw [headKey_map]
    exact hthread h.body.thread hval
  · exact h.count.trans (List.length_map (fun e : Entry α => (e.1, f e))).symm

theorem Is.exchange (h : c.Is l) {idx1 idx2 : Nat}
    (h1 : idx1 < l.entries.length) (h2 : idx2 < l.entries.length) :
    ∃ c', c.exchange idx1 idx2 = some c' ∧ c'.Is (l.exchange idx1 idx2) := by
  obtain ⟨es, hholds, rfl⟩ := h.listing
  dsimp only at h1 h2
  have hne : es ≠ [] := List.ne_nil_of_length_pos (Nat.zero_lt_of_lt h1)
  have hlocate : ∀ idx (hidx : idx < es.length), c.locate idx = some (some es[idx].1) := by
    intro idx hidx
    rw [locate_spec hholds.body hholds.root hne, List.getElem?_eq_getElem hidx]
    rfl
  unfold Chain.exchange Listing.exchange
  dsimp only
  rw [hlocate idx1 h1, hlocate idx2 h2, List.getElem?_eq_getElem h1, List.getElem?_eq_getElem h2]
  simp only [Option.bind_eq_bind, Option.bind_some]
  by_cases heq : idx1 = idx2
  · subst heq
    rw [if_pos rfl]
    refine ⟨c, rfl, ?_, rfl, rfl⟩
    dsimp only
    rw [List.set_set, List.set_getElem_self]
    exact hholds
  rw [if_neg heq]
  have hnodup := hholds.body.nodup
  have hkey : es[idx1].1 ≠ es[idx2].1 := fun hsame => heq (index_eq hnodup h1 h2 hsame)
  obtain ⟨n, hn, hnval⟩ := hholds.body.thread.mem (List.getElem_mem h1)
  obtain ⟨m, hm, hmval⟩ := hholds.body.thread.mem (List.getElem_mem h2)
  have hupdate : update c.cells es[idx1].1 (some { n with offs := m.offs }) es[idx2].1 = some m := by
    rw [update_of_ne (Ne.symm hkey), hm]
  simp only [hn, hm, modify, hupdate, Option.bind_some]
  refine ⟨_, rfl, ?_, rfl, rfl⟩
  rw [set_set_eq_map hnodup h1 h2 heq]
  refine hholds.revalue (exchanged es[idx1] es[idx2]) fun e he => ?_
  obtain ⟨k, hk, hkval⟩ := hholds.body.thread.mem he
  exact exchanged_cell (fun v n => { n with offs := v }) (fun _ => rfl) hn hnval hm hmval hkey hk hkval

/-! ## `SortByInsertion` -/

/-- The outer loop passes over entries that are in order. -/
theorem sortLoop_spec {cmp : α → α → Int} :
    ∀ {rest xs : List (Entry α)} {last : Entry α} {fuel : Nat},
      Body c.cells c.fresh (xs ++ last :: rest) →
      (last :: rest).IsChain (fun e e' => cmp e.2 e'.2 ≤ 0) → rest.length ≤ fuel →
        sortLoop cmp fuel last.1 (headKey rest) c = some c
  | [], _, _, _, _, _, _ => by rw [headKey_nil, sortLoop]
  | _ :: _, _, _, 0, _, _, hfuel => absurd hfuel (Nat.not_succ_le_zero _)
  | e :: rest, xs, last, fuel + 1, h, hchain, hfuel => by
    have hlast := h.node
    obtain ⟨hle, htail⟩ := List.isChain_cons_cons.mp hchain
    rw [List.append_cons] at h
    rw [headKey_cons, sortLoop, h.node, hlast]
    simp only [some_bind]
    rw [if_neg (Int.not_lt.mpr hle)]
    exact sortLoop_spec h htail (Nat.le_of_succ_le_succ hfuel)

namespace Listing

/-- What `setcmp` finds of two contents. -/
def cmpContents (a : Addresses α) (l : Listing α) : α → α → Int :=
  match l.compareF with
  | none => a.contents
  | some f => f.contents

/-- The list is in order, by the comparison that `SortByInsertion` makes of the contents and
by `Compare_f`. -/
def SortOk (a : Addresses α) (l : Listing α) : Prop :=
  l.entries.IsChain (fun e e' => l.cmpContents a e.2 e'.2 ≤ 0) ∧
    ∀ f, l.compareF = some f → l.entries.Pairwise (Le f)

end Listing

theorem Is.sortByInsertion {c : Chain α} {l : Listing α} (a : Addresses α) (h : c.Is l)
    (hok : l.SortOk a) : ∃ c', c.sortByInsertion a = some c' ∧ c'.Is l.sort := by
  have hsort : l.sort = l := by
    unfold Listing.sort
    cases hcompare : l.compareF with
    | none => rfl
    | some f =>
      dsimp only
      rw [(hok.2 f hcompare).insertionSort_eq, ← hcompare]
  have hcmp : c.cmpContents a = l.cmpContents a := by
    cases hcompare : l.compareF <;>
      simp only [Chain.cmpContents, Listing.cmpContents, h.compareF, hcompare]
  rw [hsort]
  refine ⟨c, ?_, h⟩
  unfold Chain.sortByInsertion
  rw [h.holds.root, hcmp]
  have hbody := h.holds.body
  have hchain := hok.1
  cases hentries : l.entries with
  | nil => rfl
  | cons e es =>
    rw [hentries] at hbody hchain
    have hnil : Body c.cells c.fresh ([] ++ e :: es) := hbody
    have hnode := hnil.node
    have hlen := hbody.length_le
    rw [List.length_cons] at hlen
    rw [headKey_cons]
    dsimp only
    rw [hnode]
    exact sortLoop_spec hnil hchain (Nat.le_of_succ_le hlen)

/-! ## Runs -/

/-- `Compare_f` puts the contents in an order. -/
def Orders (f : Comparer α) : Prop :=
  (∀ x y, f.nodes x y > 0 → f.nodes y x ≤ 0) ∧
    ∀ x y z, f.nodes x y ≤ 0 → f.nodes y z ≤ 0 → f.nodes x z ≤ 0

theorem pairwise_orderedInsert {f : Comparer α} (hf : Orders f) (new : Entry α)
    {es : List (Entry α)} (h : es.Pairwise (Le f)) :
    (es.orderedInsert (Le f) new).Pairwise (Le f) := by
  have htotal : Std.Total (Le f) := ⟨fun e e' => by
    by_cases hle : f.nodes e.2 e'.2 ≤ 0
    · exact Or.inl hle
    · exact Or.inr (hf.1 _ _ (Int.not_le.mp hle))⟩
  have htrans : IsTrans (Entry α) (Le f) := ⟨fun _ _ _ hab hbc => hf.2 _ _ _ hab hbc⟩
  exact List.Pairwise.orderedInsert new es h

namespace Listing

/-- The contents in order. -/
def contents (l : Listing α) : List α := l.entries.map Prod.snd

variable [DecidableEq α]

/-- The list of a new chain. -/
def new : Listing α := ⟨[], 0, none⟩

/-- A call, on a list. -/
def step (l : Listing α) : Call α → Listing α
  | .setCompare f => { l with compareF := f }
  | .push off endLeft => l.push off endLeft
  | .append addr onleft nod => l.append addr onleft nod
  | .remove idx times => l.remove idx times
  | .removeNode nod => l.removeWhere fun e => some e.1 == nod
  | .removeContent content => l.removeWhere fun e => e.2 == content
  | .exchange idx1 idx2 => l.exchange idx1 idx2
  | .sortByInsertion => l.sort

/-- Calls one after the other, on a list. -/
def run (l : Listing α) (calls : List (Call α)) : Listing α := calls.foldl step l

/-- What a call must meet: a sort and a sorted `Append` find the list in order; a given node
is one of the chain, indices and counts are in range. -/
def Ok (a : Addresses α) (l : Listing α) : Call α → Prop
  | .append _ _ (some p) => p ∈ keys l.entries
  | .append _ _ none => ∀ f, l.compareF = some f → Orders f ∧ l.entries.Pairwise (Le f)
  | .remove idx times => idx + times ≤ l.entries.length
  | .exchange idx1 idx2 => idx1 < l.entries.length ∧ idx2 < l.entries.length
  | .sortByInsertion => l.SortOk a
  | _ => True

/-- All calls meet it, each on the list it finds. -/
def AllOk (a : Addresses α) : Listing α → List (Call α) → Prop
  | _, [] => True
  | l, call :: calls => l.Ok a call ∧ AllOk a (l.step call) calls

theorem AllOk.last {a : Addresses α} {call : Call α} : ∀ {calls : List (Call α)} {l : Listing α},
    l.AllOk a (calls ++ [call]) → (l.run calls).Ok a call
  | [], _, h => h.1
  | c :: calls, l, h => (AllOk.last h.2 : (run (l.step c) calls).Ok a call)

end Listing

/-- The calls that leave a sorted list. -/
def Call.Sorts : Call α → Prop
  | .append _ _ none => True
  | .sortByInsertion => True
  | _ => False

/-- After a sort, and after a sorted `Append`, the contents ascend. -/
theorem Listing.ascending [DecidableEq α] {a : Addresses α} {l : Listing α} {call : Call α}
    (hok : l.Ok a call) (hsorts : call.Sorts) {f : Comparer α} (hf : l.compareF = some f) :
    (l.step call).contents.Pairwise fun x y => f.nodes x y ≤ 0 := by
  have hentries : (l.step call).entries.Pairwise (Le f) := by
    cases call with
    | append addr onleft nod =>
      cases nod with
      | some p => exact hsorts.elim
      | none =>
        obtain ⟨horders, hpairs⟩ := hok f hf
        simp only [Listing.step, Listing.append, hf]
        exact pairwise_orderedInsert horders _ hpairs
    | sortByInsertion =>
      have hpairs := hok.2 f hf
      simp only [Listing.step, Listing.sort, hf]
      rw [hpairs.insertionSort_eq]
      exact hpairs
    | _ => exact hsorts.elim
  exact List.pairwise_map.mpr hentries

/-- The invariant of the representation: from the root on as many nodes as counted, down to
the last; the ends are null together with the count; the middle is null or one of the nodes;
and the contents are these. -/
def Represents (c : Chain α) (contents : List α) : Prop :=
  ∃ ps : List Nat, walk Node.next c.cells c.fresh c.rootNode = some ps ∧
    ps.length = c.nodeCount ∧ ps.getLast? = c.lastNode ∧
    (c.rootNode = none ↔ c.nodeCount = 0) ∧ (c.lastNode = none ↔ c.nodeCount = 0) ∧
    (∀ p, c.midlNode = some p → p ∈ ps) ∧
    ps.map (fun p => (c.cells p).map Node.offs) = contents.map some

theorem Holds.represents {c : Chain α} {es : List (Entry α)} (h : c.Holds es) :
    c.Represents (es.map Prod.snd) := by
  refine ⟨keys es, ?_, ?_, ?_, end_eq_none h.count (Or.inl h.root),
    end_eq_none h.count (Or.inr h.last), h.midl, ?_⟩
  · rw [h.root]
    exact h.body.thread.walk h.body.length_le
  · rw [keys, List.length_map, h.count]
  · rw [h.last, keys, List.getLast?_map]
    rfl
  · rw [keys, List.map_map, List.map_map]
    refine List.map_congr_left fun e he => ?_
    obtain ⟨n, hn, hval⟩ := h.body.thread.mem he
    change (c.cells e.1).map Node.offs = some e.2
    rw [hn, ← hval]
    rfl

variable [DecidableEq α]

theorem Is.step {c : Chain α} {l : Listing α} (a : Addresses α) (h : c.Is l) {call : Call α}
    (hok : l.Ok a call) : ∃ c', c.step a call = some c' ∧ c'.Is (l.step call) := by
  have hsnd : ∀ {β : Type} {o : Option (β × Chain α)} {l' : Listing α},
      (∃ r c', o = some (r, c') ∧ c'.Is l') → ∃ c', o.map Prod.snd = some c' ∧ c'.Is l' := by
    rintro β _ l' ⟨r, c', rfl, his⟩
    exact ⟨c', rfl, his⟩
  cases call with
  | setCompare f => exact ⟨_, rfl, ⟨h.holds.body, h.holds.root, h.holds.last, h.holds.count,
      h.holds.midl, h.holds.sorted⟩, h.fresh, rfl⟩
  | push off endLeft => exact hsnd (h.push off endLeft)
  | append addr onleft nod =>
    refine hsnd (h.append a addr onleft fun p hp => ?_)
    cases hp
    exact hok
  | remove idx times => exact hsnd (h.remove hok)
  | removeNode nod =>
    refine hsnd ?_
    cases hroot : c.rootNode with
    | none =>
      refine ⟨none, c, ?_, h.removeWhere_nil _ hroot⟩
      simp only [removeNode, hroot]
    | some crt =>
      simp only [removeNode, hroot]
      exact h.removeWhere (T := fun e => some e.1 == nod) (fun _ _ => rfl) hroot
  | removeContent content =>
    refine hsnd ?_
    cases hroot : c.rootNode with
    | none =>
      refine ⟨none, c, ?_, h.removeWhere_nil _ hroot⟩
      simp only [removeContent, hroot]
    | some crt =>
      simp only [removeContent, hroot]
      exact h.removeWhere (T := fun e => e.2 == content) (fun _ _ => rfl) hroot
  | exchange idx1 idx2 => exact h.exchange hok.1 hok.2
  | sortByInsertion => exact h.sortByInsertion a hok

theorem Is.run (a : Addresses α) : ∀ {calls : List (Call α)} {c : Chain α} {l : Listing α},
    c.Is l → l.AllOk a calls → ∃ c', c.run a calls = some c' ∧ c'.Is (l.run calls)
  | [], c, _, h, _ => ⟨c, rfl, h⟩
  | call :: calls, c, l, h, hok => by
    obtain ⟨c₁, hstep, his⟩ := h.step a hok.1
    obtain ⟨c', hrun, hend⟩ := Is.run a his hok.2
    refine ⟨c', ?_, hend⟩
    rw [Chain.run, hstep]
    exact hrun

/-- After all calls of a run that meets the conditions, the chain is the list that the calls
make, in order where the last call sorts. -/
theorem chains_hold_lists (a : Addresses α) {calls : List (Call α)}
    (hok : (Listing.new : Listing α).AllOk a calls) :
    ∃ c, (new : Chain α).run a calls = some c ∧
      c.Represents ((Listing.new : Listing α).run calls).contents ∧
      ∀ before call f, calls = before ++ [call] → call.Sorts →
        ((Listing.new : Listing α).run before).compareF = some f →
        ((Listing.new : Listing α).run calls).contents.Pairwise fun x y => f.nodes x y ≤ 0 := by
  have hnew : (new : Chain α).Is Listing.new := ⟨holds_new, rfl, rfl⟩
  obtain ⟨c, hrun, his⟩ := hnew.run a hok
  refine ⟨c, hrun, his.holds.represents, ?_⟩
  rintro before call f rfl hsorts hf
  have hlast : (Listing.new : Listing α).run (before ++ [call]) =
      ((Listing.new : Listing α).run before).step call := List.foldl_append
  rw [hlast]
  exact Listing.ascending hok.last hsorts hf

/-- Numbers at their own addresses, and their order. -/
def byAddress : Addresses Nat := ⟨fun p q => (p : Int) - q, fun x y => (x : Int) - y⟩

def byValue : Comparer Nat := ⟨fun x y => (x : Int) - y, fun x y => (x : Int) - y⟩

/-- Some calls on a chain, in order. -/
def someCalls : List (Call Nat) :=
  [.append 1 false none, .append 4 false (some 0), .push 3 true, .removeContent 3,
    .setCompare (some byValue), .append 2 false none, .sortByInsertion, .remove 0 1]

theorem chains_hold_lists_some :
    ∃ c, (new : Chain Nat).run byAddress someCalls = some c ∧ c.Represents [2, 4] := by
  have horders : Orders byValue := by
    constructor
    · intro x y h
      exact Int.sub_nonpos_of_le (Int.le_of_lt (Int.lt_of_sub_pos h))
    · intro x y z hxy hyz
      exact Int.sub_nonpos_of_le (Int.le_trans (Int.le_of_sub_nonpos hxy) (Int.le_of_sub_nonpos hyz))
  have hok : (Listing.new : Listing Nat).AllOk byAddress someCalls := by
    refine ⟨nofun, (by decide : 0 ∈ [0]), trivial, trivial, trivial, fun f hf => ?_, ⟨?_, ?_⟩,
      (by decide : 0 + 1 ≤ 3), trivial⟩
    · cases hf
      exact ⟨horders, by decide⟩
    · decide
    · intro f hf
      cases hf
      decide
  obtain ⟨c, hrun, hrep, -⟩ := chains_hold_lists byAddress hok
  exact ⟨c, hrun, hrep⟩

/-- Of two nodes the second is moved to the front: three are counted, and the last is a node
that is freed.  And a sorted `Append` of `3` to `2, 1` leaves them so. -/
theorem sort_counts_twice :
    (∃ c, (new : Chain Nat).run byAddress [.push 2 true, .push 1 false, .sortByInsertion] = some c ∧
      walk Node.next c.cells c.fresh c.rootNode = some [2, 0] ∧ c.nodeCount = 3 ∧
      c.lastNode = some 1 ∧ ∀ contents, ¬c.Represents contents) ∧
    ∃ c, (new : Chain Nat).run byAddress [.push 2 true, .push 1 false, .setCompare (some byValue),
        .append 3 false none] = some c ∧ c.Represents [2, 1, 3] ∧
      ¬[2, 1, 3].Pairwise fun x y => byValue.nodes x y ≤ 0 := by
  refine ⟨⟨_, rfl, rfl, rfl, rfl, ?_⟩, _, rfl, ⟨[0, 1, 2], rfl, rfl, rfl, ⟨nofun, nofun⟩,
    ⟨nofun, nofun⟩, ?_, rfl⟩, by decide⟩
  · rintro contents ⟨ps, hwalk, hlen, -⟩
    cases hwalk
    cases hlen
  · intro p hp
    cases hp
    decide

end Chain

end Unisym.Datype
