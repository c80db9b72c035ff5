/-
# `StrReplaceSpec` — what `StrReplace` returns

The chain has a node for each of the pieces of the text but the last (`findLoop_eq`), and the loop that copies puts
the pieces together with the new string (`writeLoop_eq`).  The size of the block is that of the result as a word, and
`strReplace_iff` says that this is all that can go wrong: a result that does not fit with its terminator is written
behind a smaller block.
-/
import Mathlib.Tactic.Ring
import Mathlib.Tactic.NormNum
import Unisym.Library.Pieces
import Unisym.Text.StrReplace
import Unisym.Library.Steps

namespace Unisym.StrReplace

open Unisym.Blocks Unisym.Pieces List
open Memory (putAll SameBut)

/-- A string is in these cells. -/
def Holds (cells : List Cell) (text : List UInt8) : Prop :=
  0 ∉ text ∧ ∃ rest, cells = text.map some ++ some 0 :: rest

section Strings

variable {cells sub : List Cell} {c : UInt8} {text S : List UInt8}

theorem Holds.cons (h : Holds cells (c :: text)) : c ≠ 0 ∧ ∃ rest, cells = some c :: rest ∧ Holds rest text := by
  obtain ⟨hzero, rest, rfl⟩ := h
  refine ⟨fun hc => hzero (hc ▸ mem_cons_self), text.map some ++ some 0 :: rest, rfl, ?_, rest, rfl⟩
  exact fun hmem => hzero (mem_cons_of_mem c hmem)

theorem Holds.nil (h : Holds cells []) : ∃ rest, cells = some 0 :: rest := by
  obtain ⟨-, rest, rfl⟩ := h
  exact ⟨rest, rfl⟩

theorem Holds.drop {before : List UInt8} (h : Holds cells (before ++ text)) :
    Holds (cells.drop before.length) text := by
  obtain ⟨hzero, rest, rfl⟩ := h
  refine ⟨fun hmem => hzero (mem_append_right before hmem), rest, ?_⟩
  rw [map_append, append_assoc, ← length_map (f := some), drop_left]

theorem Holds.length_lt (h : Holds cells text) : text.length < cells.length := by
  obtain ⟨-, rest, rfl⟩ := h
  rw [length_append, length_map, length_cons]
  omega

theorem length_eq (h : Holds cells text) : length cells = some text.length := by
  induction text generalizing cells with
  | nil =>
    obtain ⟨rest, rfl⟩ := h.nil
    rfl
  | cons c text ih =>
    obtain ⟨hc, rest, rfl, hrest⟩ := h.cons
    rw [length, if_neg hc, ih hrest]
    rfl

theorem begins_eq (hsub : Holds sub S) (h : Holds cells text) : begins sub cells = some (decide (S <+: text)) := by
  induction S generalizing sub cells text with
  | nil =>
    obtain ⟨rest, rfl⟩ := hsub.nil
    have hnonempty : ∃ b more, cells = some b :: more := by
      match text with
      | [] => exact ⟨0, h.nil⟩
      | b :: text =>
        obtain ⟨-, more, hmore, -⟩ := h.cons
        exact ⟨b, more, hmore⟩
    obtain ⟨b, more, rfl⟩ := hnonempty
    rw [begins, if_neg fun hboth => hboth.2 rfl, decide_eq_true List.nil_prefix]
    rfl
  | cons a S ih =>
    obtain ⟨ha, more, rfl, hmore⟩ := hsub.cons
    match text with
    | [] =>
      obtain ⟨rest, rfl⟩ := h.nil
      have hnot : ¬ a :: S <+: [] := fun hpre => cons_ne_nil _ _ (prefix_nil.mp hpre)
      rw [begins, if_neg fun hboth => hboth.2 hboth.1, decide_eq_false hnot, beq_eq_false_iff_ne.mpr ha]
    | b :: text =>
      obtain ⟨-, rest, rfl, hrest⟩ := h.cons
      rw [begins]
      by_cases hab : a = b
      · rw [if_pos ⟨hab, ha⟩, ih hmore hrest]
        simp only [hab, cons_prefix_cons, true_and]
      · have hnot : ¬ a :: S <+: b :: text := fun hpre => hab (cons_prefix_cons.mp hpre).1
        rw [if_neg fun hboth => hab hboth.1, decide_eq_false hnot, beq_eq_false_iff_ne.mpr ha]

theorem indexString_eq (hsub : Holds sub S) (h : Holds cells text) :
    indexString sub cells = some ((firstCut S text).map fun parts => parts.1.length) := by
  induction text generalizing cells with
  | nil =>
    obtain ⟨rest, rfl⟩ := h.nil
    rfl
  | cons c text ih =>
    obtain ⟨hc, rest, rfl, hrest⟩ := h.cons
    rw [indexString, if_neg hc, begins_eq hsub h, firstCut, some_bind]
    by_cases hpre : S <+: c :: text
    · rw [decide_eq_true hpre, if_pos rfl, if_pos hpre]
      rfl
    · rw [decide_eq_false hpre, if_neg Bool.false_ne_true, if_neg hpre, ih hrest]
      cases firstCut S text <;> rfl

end Strings

/-! ## The chain -/

/-- A node for each occurrence, from `p` on. -/
def nodesOf (lens : Nat) : Pointer → List (List UInt8) → List Node
  | p, piece :: next :: rest =>
      ⟨p.add piece.length, lens⟩ :: nodesOf lens ((p.add piece.length).add lens) (next :: rest)
  | _, _ => []

theorem findLoop_eq {m : Memory UInt8} {subfrom : Pointer} {F : List UInt8} (hF : Holds (m.cells subfrom) F)
    (hne : F ≠ []) {fuel : Nat} (n nums : Nat) {timeLimit : Nat} (hlimit : nums + n = timeLimit) {p : Pointer}
    {text : List UInt8} (h : Holds (m.cells p) text) (hfuel : text.length < fuel) (dc : List Node) :
    findLoop m subfrom F.length timeLimit fuel p nums dc =
      some (nums + ((pieces F n text).length - 1), dc ++ nodesOf F.length p (pieces F n text)) := by
  induction fuel generalizing n nums p text dc with
  | zero => exact absurd hfuel (Nat.not_lt_zero _)
  | succ fuel ih =>
    rw [findLoop]
    cases n with
    | zero =>
      rw [if_neg (by omega), pieces, nodesOf, append_nil]
      · rfl
      · intro _ _ _ hcons
        exact absurd (List.cons.inj hcons).2.symm (cons_ne_nil _ _)
    | succ n =>
      rw [if_pos (by omega), indexString_eq hF h, pieces, some_bind]
      cases hcut : firstCut F text with
      | none =>
        simp only [Option.map_none, length_singleton, Nat.sub_self, Nat.add_zero, nodesOf, append_nil]
      | some parts =>
        obtain ⟨before, behind⟩ := parts
        have htext := firstCut_eq hcut
        have hpositive : 0 < F.length := length_pos_iff.mpr hne
        have hbehind : Holds (m.cells ((p.add before.length).add F.length)) behind := by
          rw [Memory.cells_add, Memory.cells_add, drop_drop, ← length_append]
          rw [htext, ← append_assoc] at h
          exact h.drop
        have hshort : behind.length < fuel := by
          rw [htext, length_append, length_append] at hfuel
          omega
        have hnext := ih n (nums + 1) (by omega) hbehind hshort (dc ++ [⟨p.add before.length, F.length⟩])
        have hpieces := length_pos_iff.mpr (pieces_ne_nil F n behind)
        simp only [Option.map_some, hnext, length_cons, Option.some.injEq, Prod.mk.injEq]
        refine ⟨by omega, ?_⟩
        cases hrest : pieces F n behind with
        | nil => exact absurd hrest (pieces_ne_nil F n behind)
        | cons next rest => rw [nodesOf, append_assoc, singleton_append]

/-! ## The copy -/

section Copy

variable {m : Memory UInt8} {p q subto : Pointer} {T : List UInt8}

theorem Holds.same {m' : Memory UInt8} {b : Nat} {text : List UInt8} (h : Holds (m.cells p) text)
    (hsame : SameBut b m m') (hp : p.block ≠ b) : Holds (m'.cells p) text := by
  rw [hsame.cells hp]
  exact h

theorem load_eq {c : UInt8} {rest : List Cell} (h : m.cells p = some c :: rest) : m.load p = some c := by
  rw [Memory.load, h]
  rfl

theorem cells_next {c : Cell} {rest : List Cell} (h : m.cells p = c :: rest) : m.cells (p.add 1) = rest := by
  rw [Memory.cells_add, h]
  rfl

theorem copyBytes_eq {piece : List UInt8} {rest : List Cell} (h : m.cells p = piece.map some ++ rest)
    (hpq : p.block ≠ q.block) : copyBytes piece.length m p q = putAll piece m q := by
  induction piece generalizing m p q with
  | nil => rfl
  | cons c piece ih =>
    rw [length_cons, copyBytes, load_eq h, putAll, some_bind]
    cases hstore : m.store q c with
    | none => rfl
    | some m' =>
      refine ih (p := p.add 1) (q := q.add 1) ?_ hpq
      rw [(Memory.store_sameBut hstore).cells (p := p.add 1) hpq]
      exact cells_next h

theorem copyString_eq {text : List UInt8} (h : Holds (m.cells p) text) (hpq : p.block ≠ q.block) {n : Nat}
    (hn : text.length < n) : copyString n m p q = (putAll text m q).map fun m => (m, q.add text.length) := by
  induction text generalizing m p q n with
  | nil =>
    obtain ⟨rest, hrest⟩ := h.nil
    match n with
    | n + 1 =>
      rw [copyString, load_eq hrest]
      rfl
  | cons c text ih =>
    obtain ⟨hc, rest, hcells, hrest⟩ := h.cons
    match n with
    | n + 1 =>
      rw [copyString, load_eq hcells, putAll, some_bind, if_neg hc]
      cases hstore : m.store q c with
      | none => rfl
      | some m' =>
        have hnext : Holds (m'.cells (p.add 1)) text := by
          rw [(Memory.store_sameBut hstore).cells (p := p.add 1) hpq, cells_next hcells]
          exact hrest
        have hcopy := ih (p := p.add 1) (q := q.add 1) hnext hpq (Nat.lt_of_succ_lt_succ hn)
        rw [Pointer.add_add, Nat.add_comm 1] at hcopy
        exact hcopy

theorem copyString_all {text : List UInt8} (h : Holds (m.cells p) text) (hpq : p.block ≠ q.block) :
    copyString (m.cells p).length m p q = (putAll text m q).map fun m => (m, q.add text.length) :=
  copyString_eq h hpq h.length_lt

/-- The loop puts the pieces together with the new string. -/
theorem writeLoop_eq {F : List UInt8} {pieces : List (List UInt8)} (hne : pieces ≠ [])
    (h : Holds (m.cells p) (F.intercalate pieces)) (hT : Holds (m.cells subto) T) (hpq : p.block ≠ q.block)
    (hsq : subto.block ≠ q.block) :
    writeLoop subto (nodesOf F.length p pieces) m p q =
      (putAll (T.intercalate pieces) m q).map fun m => (m, q.add (T.intercalate pieces).length) := by
  induction pieces generalizing m p q with
  | nil => exact absurd rfl hne
  | cons piece rest ih =>
    match rest with
    | [] =>
      rw [intercalate_singleton] at h
      rw [intercalate_singleton]
      exact copyString_all h hpq
    | next :: rest =>
      have hrest : next :: rest ≠ [] := cons_ne_nil _ _
      rw [intercalate_cons hrest] at h
      obtain ⟨more, hmore⟩ : ∃ more, m.cells p = piece.map some ++ more := by
        obtain ⟨-, more, hmore⟩ := h
        exact ⟨_, by rw [hmore, map_append, append_assoc]⟩
      have hdistance : (p.add piece.length).place - p.place = piece.length := Nat.add_sub_cancel_left _ _
      rw [intercalate_cons hrest, nodesOf, writeLoop]
      simp only [Memory.putAll_append, hdistance, copyBytes_eq hmore hpq, Option.bind_eq_bind]
      cases hpiece : putAll piece m q with
      | none => rfl
      | some m₁ =>
        have hsame₁ := Memory.putAll_sameBut hpiece
        have hcopy := copyString_all (q := q.add piece.length) (hT.same hsame₁ hsq) hsq
        simp only [Option.bind_some, hcopy]
        cases hto : putAll T m₁ (q.add piece.length) with
        | none => rfl
        | some m₂ =>
          have hsame₂ : SameBut q.block m m₂ := hsame₁.trans (Memory.putAll_sameBut (q := q.add piece.length) hto)
          have hbehind : Holds (m₂.cells ((p.add piece.length).add F.length)) (F.intercalate (next :: rest)) := by
            rw [Pointer.add_add, Memory.cells_add, hsame₂.cells hpq, ← length_append]
            rw [← append_assoc] at h
            exact h.drop
          have hloop := ih (p := (p.add piece.length).add F.length) (q := (q.add piece.length).add T.length) hrest
            hbehind (hT.same hsame₂ hsq) hpq hsq
          simp only [Option.map_some, Option.bind_some, hloop]
          simp only [Pointer.add_add, length_append, Nat.add_assoc]

end Copy

/-! ## The result -/

/-- A fresh block that is this string; nothing else of the memory has changed. -/
structure Returns (m : Memory UInt8) (text : List UInt8) (ret : Pointer) (m' : Memory UInt8) : Prop where
  fresh : m.blocks ret.block = none
  place : ret.place = 0
  block : m'.blocks ret.block = some ((text ++ [0]).map some)
  same : SameBut ret.block m m'

section Result

variable {bits : Nat} {m : Memory UInt8} {dest subfrom subto : Pointer} {D F T : List UInt8}

theorem Holds.block_ne {p : Pointer} {text : List UInt8} (h : Holds (m.cells p) text) : p.block ≠ m.next := by
  intro hb
  have hlength := h.length_lt
  rw [Memory.cells, hb, m.fresh m.next (le_refl _), Option.getD_none, drop_nil] at hlength
  exact Nat.not_lt_zero _ hlength

theorem putAll_returns {cells : List Cell} {text : List UInt8} (h : cells.length = text.length + 1) :
    ∃ m', putAll (text ++ [0]) (m.alloc cells) ⟨m.next, 0⟩ = some m' ∧ Returns m text ⟨m.next, 0⟩ m' := by
  have hlength : (text ++ [0]).length = cells.length := by rw [h, length_append, length_singleton]
  obtain ⟨m', hput, hbegins⟩ := (Memory.begins_alloc m cells).put_room (text ++ [0]) (by
    rw [hlength, length_nil, Nat.zero_add])
  refine ⟨m', hput, m.fresh m.next (le_refl _), rfl, hbegins.full hlength, ?_⟩
  exact (Memory.sameBut_alloc m cells).trans (Memory.putAll_sameBut hput)

theorem putAll_singleton (m : Memory UInt8) (q : Pointer) (c : UInt8) : putAll [c] m q = m.store q c := by
  rw [putAll]
  cases m.store q c <;> rfl

theorem strHeap_eq (h : Holds (m.cells dest) D) (hsize : D.length + 1 < 2 ^ bits) :
    ∃ ret m', strHeap bits m dest = some (ret, m') ∧ Returns m D ret m' := by
  obtain ⟨m', hput, hreturns⟩ := putAll_returns (m := m)
    length_replicate
  have hbefore := h.same (Memory.sameBut_alloc m (List.replicate (D.length + 1) (some 0))) h.block_ne
  refine ⟨⟨m.next, 0⟩, m', ?_, hreturns⟩
  rw [Memory.putAll_append] at hput
  obtain ⟨m₁, hput₁, hput₂⟩ := Option.bind_eq_some_iff.mp hput
  rw [putAll_singleton] at hput₂
  rw [strHeap, length_eq h, some_bind, Nat.mod_eq_of_lt hsize]
  simp only [zalc]
  rw [copyString_all hbefore h.block_ne, hput₁, Option.map_some, some_bind]
  simp only [hput₂, some_bind]

/-- What `StrReplace` is for: `times` bounds the number of occurrences that are replaced, and receives it. -/
def Replaces (m : Memory UInt8) (D F T : List UInt8) (times : Option Nat) (o : Outcome) : Prop :=
  Returns m (replaceFirst F T (times.getD D.length) D) o.ret o.memory ∧
    o.times = times.map fun n => min n (occurrences F D)

/-- The size that is computed is the one of the result, as a word. -/
theorem size_eq (F T D : List UInt8) (n bits : Nat) :
    ((D.length + ((T.length : Int) - F.length) * ((pieces F n D).length - 1 : Nat) + 1) % 2 ^ bits).toNat =
      ((replaceFirst F T n D).length + 1) % 2 ^ bits := by
  have hD := length_intercalate F (pieces_ne_nil F n D)
  have hT := length_intercalate T (pieces_ne_nil F n D)
  rw [intercalate_pieces] at hD
  rw [← replaceFirst] at hT
  obtain ⟨k, hk⟩ : ∃ k, (pieces F n D).length - 1 = k := ⟨_, rfl⟩
  have hsize : (D.length + ((T.length : Int) - F.length) * k + 1 : Int) = ((replaceFirst F T n D).length + 1 : Nat) := by
    rw [hT, hD, hk]
    push_cast
    ring
  rw [hk, hsize]
  exact_mod_cast Int.toNat_natCast _

/-- The copy is the result and its terminator, one byte behind the other. -/
theorem copy_eq (hD : Holds (m.cells dest) D) (hT : Holds (m.cells subto) T) (n : Nat) (cells : List Cell) :
    (writeLoop subto (nodesOf F.length dest (pieces F n D)) (m.alloc cells) dest ⟨m.next, 0⟩).bind
      (fun copied => copied.1.store copied.2 0) =
        putAll (replaceFirst F T n D ++ [0]) (m.alloc cells) ⟨m.next, 0⟩ := by
  have hsame := Memory.sameBut_alloc m cells
  have hwhole : Holds (m.cells dest) (F.intercalate (pieces F n D)) := by
    rw [intercalate_pieces]
    exact hD
  rw [writeLoop_eq (pieces_ne_nil F n D) (hwhole.same hsame hD.block_ne) (hT.same hsame hT.block_ne) hD.block_ne
    hT.block_ne, Memory.putAll_append, replaceFirst, Option.bind_map]
  exact congrArg _ (funext fun m' => (putAll_singleton m' _ 0).symm)

/-- Where something is replaced, the block has the size of the result, as a word. -/
theorem copied_iff {times : Option Nat} (hD : Holds (m.cells dest) D) (hT : Holds (m.cells subto) T)
    (hcount : (pieces F (times.getD D.length) D).length - 1 = min (times.getD D.length) (occurrences F D)) :
    (∃ o, ((salc m (((replaceFirst F T (times.getD D.length) D).length + 1) % 2 ^ bits)).bind fun block =>
        (writeLoop subto (nodesOf F.length dest (pieces F (times.getD D.length) D)) block.2 dest block.1).bind
          fun copied => (copied.1.store copied.2 0).bind fun m =>
            some (Outcome.mk block.1 m (times.map fun _ => (pieces F (times.getD D.length) D).length - 1))) = some o ∧
        Replaces m D F T times o) ↔
      (replaceFirst F T (times.getD D.length) D).length + 1 < 2 ^ bits := by
  obtain ⟨text, htext⟩ : ∃ text, replaceFirst F T (times.getD D.length) D = text := ⟨_, rfl⟩
  obtain ⟨size, hsize⟩ : ∃ size, (text.length + 1) % 2 ^ bits = size := ⟨_, rfl⟩
  have hcells : (List.replicate (size - 1) none ++ [some 0] : List Cell).length = size - 1 + 1 := by
    rw [length_append, length_replicate, length_singleton]
  have hcopy := copy_eq (F := F) hD hT (times.getD D.length) (List.replicate (size - 1) none ++ [some 0])
  rw [htext] at hcopy ⊢
  rw [hsize, salc]
  by_cases hfits : text.length + 1 < 2 ^ bits
  · rw [Nat.mod_eq_of_lt hfits] at hsize
    obtain ⟨m', hput, hreturns⟩ := putAll_returns (m := m)
      (hcells.trans (by omega : _ = text.length + 1))
    rw [if_neg (by omega), Option.bind_some]
    refine iff_of_true ⟨⟨⟨m.next, 0⟩, m', times.map fun _ => (pieces F (times.getD D.length) D).length - 1⟩, ?_, ?_, ?_⟩
      hfits
    · simp only [← Option.bind_assoc, hcopy, hput, Option.bind_some]
    · rw [htext]
      exact hreturns
    · cases times with
      | none => rfl
      | some n => exact congrArg some hcount
  · refine iff_of_false ?_ hfits
    rintro ⟨o, ho, -⟩
    have hless : size < text.length + 1 := by
      rw [← hsize]
      exact (Nat.mod_lt _ (Nat.two_pow_pos bits)).trans_le (Nat.le_of_not_lt hfits)
    by_cases hnull : size = 0
    · rw [if_pos hnull] at ho
      exact Option.some_ne_none o ho.symm
    · have hnone := (Memory.begins_alloc m (List.replicate (size - 1) none ++ [some 0])).put_full (text ++ [0]) (by
        rw [hcells, length_append, length_singleton, length_nil]
        omega)
      rw [if_neg hnull, Option.bind_some] at ho
      simp only [← Option.bind_assoc, hcopy] at ho
      rw [show (⟨m.next, 0⟩ : Pointer) = ⟨m.next, ([] : List UInt8).length⟩ from rfl, hnone] at ho
      exact Option.some_ne_none o ho.symm

theorem replaceIn_eq (hD : Holds (m.cells dest) D) (hF : Holds (m.cells subfrom) F) (hne : F ≠ [])
    (hT : Holds (m.cells subto) T) (hsize : D.length + 1 < 2 ^ bits) (times : Option Nat) :
    (∃ o, replaceIn bits m dest subfrom subto times = some o ∧ Replaces m D F T times o) ↔
      (replaceFirst F T (times.getD D.length) D).length + 1 < 2 ^ bits := by
  obtain ⟨ret, m₀, hheap, hreturns⟩ := strHeap_eq hD hsize
  have hload : ∃ c, m.load dest = some c ∧ (c = 0 ↔ D = []) := by
    match D with
    | [] =>
      obtain ⟨rest, hrest⟩ := hD.nil
      exact ⟨0, load_eq hrest, iff_of_true rfl rfl⟩
    | c :: D =>
      obtain ⟨hc, rest, hrest, -⟩ := hD.cons
      exact ⟨c, load_eq hrest, iff_of_false hc (cons_ne_nil c D)⟩
  obtain ⟨c, hc, hzero⟩ := hload
  have hpieces : pieces F (times.getD (2 ^ bits - 1)) D = pieces F (times.getD D.length) D := by
    cases times with
    | some n => rfl
    | none => exact pieces_of_length_le hne (by rw [Option.getD_none]; omega)
  have hcount : (pieces F (times.getD D.length) D).length - 1 = min (times.getD D.length) (occurrences F D) :=
    length_pieces hne _ D
  have hnone : (pieces F (times.getD D.length) D).length - 1 = 0 → replaceFirst F T (times.getD D.length) D = D ∧
      (times.map fun n => min n (occurrences F D)) = times.map fun _ => 0 := by
    intro hk
    obtain ⟨piece, hpiece⟩ : ∃ piece, pieces F (times.getD D.length) D = [piece] := by
      match hp : pieces F (times.getD D.length) D with
      | [] => exact absurd hp (pieces_ne_nil _ _ _)
      | [piece] => exact ⟨piece, rfl⟩
      | _ :: _ :: _ => rw [hp] at hk; exact absurd hk (Nat.succ_ne_zero _)
    have hwhole := intercalate_pieces F (times.getD D.length) D
    rw [hpiece, intercalate_singleton] at hwhole
    refine ⟨by rw [replaceFirst, hpiece, intercalate_singleton, hwhole], ?_⟩
    cases times with
    | none => rfl
    | some n => exact congrArg some (hcount.symm.trans hk)
  rw [replaceIn, hc, some_bind]
  by_cases hempty : D = []
  · have hk : (pieces F (times.getD D.length) D).length - 1 = 0 := by
      have hle := length_pieces_le hne (times.getD D.length) D
      rw [hempty] at hle ⊢
      exact Nat.sub_eq_zero_of_le hle
    obtain ⟨hsame, htimes⟩ := hnone hk
    rw [if_pos (hzero.mpr hempty), hheap, hsame]
    refine iff_of_true ⟨_, rfl, ?_, htimes.symm⟩ hsize
    rw [hsame]
    exact hreturns
  · obtain ⟨f, F', hFcons⟩ := exists_cons_of_ne_nil hne
    obtain ⟨hf, restF, hcellsF, -⟩ := (hFcons ▸ hF : Holds (m.cells subfrom) (f :: F')).cons
    have hfind := findLoop_eq hF hne (times.getD (2 ^ bits - 1)) 0 (Nat.zero_add _) hD (Nat.lt_add_one _) []
    rw [hpieces, Nat.zero_add, nil_append] at hfind
    rw [if_neg (hempty ∘ hzero.mp), load_eq hcellsF]
    simp only [some_bind, hf, if_false, length_eq hT, length_eq hF, length_eq hD, hfind]
    by_cases hk : (pieces F (times.getD D.length) D).length - 1 = 0
    · obtain ⟨hsame, htimes⟩ := hnone hk
      rw [if_neg (not_not.mpr hk), hheap, hsame]
      refine iff_of_true ⟨_, rfl, ?_, htimes.symm⟩ hsize
      rw [hsame]
      exact hreturns
    · rw [if_pos hk, size_eq]
      exact copied_iff hD hT hcount

/-- `StrReplace` does what it is for exactly when the result and its terminator have a size. -/
theorem strReplace_iff (hD : Holds (m.cells dest) D) (hF : Holds (m.cells subfrom) F) (hne : F ≠ [])
    (hT : Holds (m.cells subto) T) (hsize : D.length + 1 < 2 ^ bits) (times : Option Nat) :
    (∃ o, strReplace bits m (some dest) (some subfrom) (some subto) times = some o ∧ Replaces m D F T times o) ↔
      (replaceFirst F T (times.getD D.length) D).length + 1 < 2 ^ bits := by
  rw [strReplace, if_neg (show ¬ malcLimit = 0 from Nat.succ_ne_zero _)]
  exact replaceIn_eq hD hF hne hT hsize times

end Result

/-! ## A result that has no size -/

/-- A memory with three strings. -/
def strings (D F T : List UInt8) : Memory UInt8 :=
  (((⟨fun _ => none, 0, fun _ _ => rfl⟩ : Memory UInt8).alloc (D.map some ++ [some 0])).alloc
    (F.map some ++ [some 0])).alloc (T.map some ++ [some 0])

theorem holds_strings {D F T : List UInt8} (hD : 0 ∉ D) (hF : 0 ∉ F) (hT : 0 ∉ T) :
    Holds ((strings D F T).cells ⟨0, 0⟩) D ∧ Holds ((strings D F T).cells ⟨1, 0⟩) F ∧
      Holds ((strings D F T).cells ⟨2, 0⟩) T :=
  ⟨⟨hD, [], rfl⟩, ⟨hF, [], rfl⟩, hT, [], rfl⟩

theorem strReplace_twice :
    (∃ o, strReplace 64 (strings [120, 44, 120, 44, 120] [44] [58, 58]) (some ⟨0, 0⟩) (some ⟨1, 0⟩) (some ⟨2, 0⟩)
        (some 7) = some o ∧ Replaces (strings [120, 44, 120, 44, 120] [44] [58, 58]) [120, 44, 120, 44, 120] [44] [58, 58]
        (some 7) o) ↔ (replaceFirst [44] [58, 58] 7 [120, 44, 120, 44, 120]).length + 1 < 2 ^ 64 :=
  have h := holds_strings (D := [120, 44, 120, 44, 120]) (F := [44]) (T := [58, 58]) (by decide) (by decide) (by decide)
  strReplace_iff h.1 h.2.1 (cons_ne_nil _ _) h.2.2 (by decide) (some 7)

theorem pieces_replicate (c : UInt8) (n : Nat) :
    pieces [c] n (List.replicate n c) = List.replicate (n + 1) [] := by
  induction n with
  | zero => rfl
  | succ n ih =>
    have hcut : firstCut [c] (List.replicate (n + 1) c) = some ([], List.replicate n c) := by
      rw [replicate_succ, firstCut, if_pos (cons_prefix_cons.mpr ⟨rfl, List.nil_prefix⟩)]
      rfl
    rw [pieces, hcut, replicate_succ]
    exact congrArg _ ih

theorem length_replaceFirst_replicate (c d : UInt8) (n k : Nat) :
    (replaceFirst [c] (List.replicate k d) n (List.replicate n c)).length = n * k := by
  rw [replaceFirst, length_intercalate _ (pieces_ne_nil _ _ _), pieces_replicate, length_replicate,
    length_replicate, flatten_replicate_nil, length_nil, Nat.zero_add, Nat.add_sub_cancel]

/-- 65536 characters that become 65536 characters each: the block has the size 1. -/
theorem strReplace_overflows :
    ¬ ∃ o, strReplace 32 (strings (List.replicate 65536 97) [97] (List.replicate 65536 98)) (some ⟨0, 0⟩) (some ⟨1, 0⟩)
        (some ⟨2, 0⟩) none = some o ∧ Replaces (strings (List.replicate 65536 97) [97] (List.replicate 65536 98))
        (List.replicate 65536 97) [97] (List.replicate 65536 98) none o := by
  have h := holds_strings (D := List.replicate 65536 97) (F := [97]) (T := List.replicate 65536 98)
    (fun hmem => absurd (eq_of_mem_replicate hmem) (by decide)) (by decide)
    (fun hmem => absurd (eq_of_mem_replicate hmem) (by decide))
  rw [strReplace, if_neg (show ¬ malcLimit = 0 from Nat.succ_ne_zero _), replaceIn_eq h.1 h.2.1 (cons_ne_nil _ _)
    h.2.2 (by rw [length_replicate]; decide), Option.getD_none, length_replicate, length_replaceFirst_replicate]
  decide

end Unisym.StrReplace
