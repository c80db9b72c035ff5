/-
# `JsonExact` — `ConfigJSON` against JSON

`parse_json` takes every text with delimited strings and runs of digits.  So it decides JSON, and
makes the value of the text, exactly where all strings and numbers of such a text are plain:
nothing but what JSON allows and no `\u` escape in a string, and an integer of 64 bits as JSON
writes it.
-/
import Unisym.Format.JsonSpec

namespace Unisym.Format

open List

open Lango (Text)

/-! ## All strings and numbers of a value -/

section

variable {S S' T N N' M : Text → Prop}

mutual

theorem Doc.All.combine (hS : ∀ raw, S raw → S' raw → T raw) (hN : ∀ raw, N raw → N' raw → M raw) :
    ∀ {d : Doc}, d.All S N → d.All S' N' → d.All T M
  | .null, _, _ => trivial
  | .bool _, _, _ => trivial
  | .num raw, h, h' => hN raw h h'
  | .str raw, h, h' => hS raw h h'
  | .arr _, h, h' => allElements_combine hS hN h h'
  | .obj _, h, h' => allMembers_combine hS hN h h'

theorem allElements_combine (hS : ∀ raw, S raw → S' raw → T raw) (hN : ∀ raw, N raw → N' raw → M raw) :
    ∀ {es : List Doc}, allElements S N es → allElements S' N' es → allElements T M es
  | [], _, _ => trivial
  | _ :: _, h, h' => ⟨Doc.All.combine hS hN h.1 h'.1, allElements_combine hS hN h.2 h'.2⟩

theorem allMembers_combine (hS : ∀ raw, S raw → S' raw → T raw) (hN : ∀ raw, N raw → N' raw → M raw) :
    ∀ {ms : List (Text × Doc)}, allMembers S N ms → allMembers S' N' ms → allMembers T M ms
  | [], _, _ => trivial
  | (key, _) :: _, h, h' =>
    ⟨hS key h.1 h'.1, Doc.All.combine hS hN h.2.1 h'.2.1, allMembers_combine hS hN h.2.2 h'.2.2⟩

end

end

theorem Doc.All.mono {S S' N N' : Text → Prop} {d : Doc} (h : d.All S N) (hS : ∀ raw, S raw → S' raw)
    (hN : ∀ raw, N raw → N' raw) : d.All S' N' :=
  .combine (fun raw h _ => hS raw h) (fun raw h _ => hN raw h) h h

section

variable (str str' : Text → Text) (num num' : Text → Text × Int)

mutual

/-- Two readings of the strings and numbers make one tree only if they agree on all of them. -/
theorem tree_eq_iff : ∀ d : Doc, d.tree str num = d.tree str' num' ↔
    d.All (fun raw => str raw = str' raw) fun raw => num raw = num' raw
  | .null => iff_of_true rfl trivial
  | .bool _ => iff_of_true rfl trivial
  | .num raw => by
    constructor
    · intro h
      exact Prod.ext (congrArg JSONNode.strVal h) (congrArg JSONNode.numVal h)
    · intro h
      show ({ type := .number, numVal := (num raw).2, strVal := (num raw).1 } : JSONNode) = _
      rw [show num raw = num' raw from h]
      rfl
  | .str raw =>
    ⟨congrArg JSONNode.strVal, congrArg fun s => ({ type := .string, strVal := s } : JSONNode)⟩
  | .arr es => by
    refine Iff.trans ?_ (elementTrees_eq_iff es)
    exact ⟨congrArg JSONNode.arrayHead,
      congrArg fun ns => ({ type := .array, arrayHead := ns } : JSONNode)⟩
  | .obj ms => by
    refine Iff.trans ?_ (memberTrees_eq_iff ms)
    exact ⟨congrArg JSONNode.objectHead,
      congrArg fun ns => ({ type := .object, objectHead := ns } : JSONNode)⟩

theorem elementTrees_eq_iff : ∀ es : List Doc, elementTrees str num es = elementTrees str' num' es ↔
    allElements (fun raw => str raw = str' raw) (fun raw => num raw = num' raw) es
  | [] => iff_of_true rfl trivial
  | d :: es => cons_eq_cons.trans (and_congr (tree_eq_iff d) (elementTrees_eq_iff es))

theorem memberTrees_eq_iff : ∀ ms : List (Text × Doc),
    memberTrees str num ms = memberTrees str' num' ms ↔
    allMembers (fun raw => str raw = str' raw) (fun raw => num raw = num' raw) ms
  | [] => iff_of_true rfl trivial
  | (_, d) :: ms => by
    refine cons_eq_cons.trans (Iff.trans ?_ and_assoc)
    exact and_congr (Prod.mk_inj.trans (and_congr Iff.rfl (tree_eq_iff d))) (memberTrees_eq_iff ms)

end

end

/-! ## The parser -/

theorem IsLax.unique {d d' : Doc} {text : Text} (h : IsLax d text) (h' : IsLax d' text) : d = d' := by
  obtain ⟨⟨w, t, w₁, hw, ht, hw₁, rfl⟩, hlax⟩ := h
  obtain ⟨⟨w', t', w₁', hw', ht', hw₁', heq⟩, hlax'⟩ := h'
  have hskip := congrArg skipJsonWhitespace heq
  rw [ht.skip hlax hw, ht'.skip hlax' hw'] at hskip
  have hfree : ∀ {w : Text}, Ws w → DigitFree w := by
    intro w hw c hc
    exact isDigit_ws (hw c (mem_of_mem_head? hc))
  exact (doc_unique d ht ht' hlax hlax' (hfree hw₁) (hfree hw₁') hskip).1

theorem IsJson.isLax {d : Doc} {text : Text} (h : IsJson d text) : IsLax d text :=
  ⟨h.1, h.2.mono (fun _ => JsonChars.delimited) fun _ => JsonInt.digitRun⟩

section

variable (c : ConfigJSON) {text : Text}

theorem parseJson_lax {d : Doc} (h : IsLax d text) : c.parseJson (some text) = ⟨some d.parsed, true⟩ := by
  obtain ⟨⟨w, t, w', hw, ht, hw', rfl⟩, hlax⟩ := h
  have hfree : DigitFree w' := fun x hx => isDigit_ws (hw' x (mem_of_mem_head? hx))
  have hfuel : 2 * ([] ++ (t ++ w')).length < 2 * (w ++ (t ++ w')).length + 1 := by
    simp only [length_append, nil_append]
    omega
  have hvalue := (parsesAll _).1 ws_nil ht hlax hfree hfuel
  have hne : t ++ w' ≠ [] := by
    obtain ⟨x, t', rfl, -⟩ := ht.head hlax
    exact cons_ne_nil _ _
  rw [nil_append] at hvalue
  unfold ConfigJSON.parseJson
  dsimp only
  rw [ht.skip hlax hw, if_neg hne, hvalue]
  exact if_pos (skip_eq_nil.mpr hw')

theorem parseJson_valid (h : (c.parseJson (some text)).Probe = true) : ∃ d, IsLax d text := by
  obtain ⟨w, hw, htext⟩ := skip_split text
  unfold ConfigJSON.Probe ConfigJSON.parseJson at h
  dsimp only at h
  split at h
  · cases h
  split at h
  · rename_i parsed p hvalue
    split at h
    · rename_i hp
      obtain ⟨d, w₁, t, hw₁, ht, hlax, hskip, -⟩ := (invAll _).1 hvalue
      refine ⟨d, ⟨w ++ w₁, t, p, hw.append hw₁, ht, skip_eq_nil.mp hp, ?_⟩, hlax⟩
      rw [append_assoc, ← hskip]
      exact htext
    · cases h
  · cases h

end

/-! ## When it is JSON -/

/-- What JSON allows in a string, and no `\u` escape. -/
def PlainString (raw : Text) : Prop := JsonChars raw ∧ ∀ u, .unit u ∉ pieces raw

/-- An integer of 64 bits, as JSON writes it. -/
def PlainNumber (raw : Text) : Prop :=
  JsonInt raw ∧ -2 ^ 63 ≤ numberValue raw ∧ numberValue raw < 2 ^ 63

/-- `Probe` decides whether a text is a JSON document with integers, and the tree is its value. -/
def Exact (c : ConfigJSON) (text : Text) : Prop :=
  ((c.parseJson (some text)).Probe = true ↔ ∃ d, IsJson d text) ∧
    ∀ d, IsJson d text → (c.parseJson (some text)).rootNode = some d.value

/-- The tree of the parser is the value of a JSON document exactly if it is plain. -/
theorem parsed_eq_value {d : Doc} (h : d.All JsonChars JsonInt) :
    d.parsed = d.value ↔ d.All PlainString PlainNumber := by
  refine (tree_eq_iff staged stringValue bufferedNumber (fun raw => (raw, numberValue raw)) d).trans ?_
  constructor
  · intro heq
    exact h.combine (fun raw h heq => ⟨h, (staged_eq_stringValue h).mp heq⟩)
      (fun raw h heq => ⟨h, (bufferedNumber_eq h).mp heq⟩) heq
  · intro hplain
    exact hplain.mono (fun raw h => (staged_eq_stringValue h.1).mpr h.2) fun raw h =>
      (bufferedNumber_eq h.1).mpr h.2

/-- `ConfigJSON` is exact on a text unless its structure has a string or a number that is not
plain. -/
theorem parseJson_exact (c : ConfigJSON) (text : Text) :
    Exact c text ↔ ∀ d, IsLax d text → d.All PlainString PlainNumber := by
  constructor
  · intro hexact d hlax
    have hparse := parseJson_lax c hlax
    obtain ⟨d', hjson⟩ := hexact.1.mp (by rw [hparse]; rfl)
    obtain rfl := hlax.unique hjson.isLax
    refine (parsed_eq_value hjson.2).mp ?_
    have hroot := hexact.2 d hjson
    rw [hparse] at hroot
    exact Option.some.inj hroot
  · intro hplain
    have hjson : ∀ {d : Doc}, IsLax d text → IsJson d text := fun h =>
      ⟨h.1, (hplain _ h).mono (fun _ h => h.1) fun _ h => h.1⟩
    refine ⟨⟨fun h => ?_, ?_⟩, ?_⟩
    · obtain ⟨d, hlax⟩ := parseJson_valid c h
      exact ⟨d, hjson hlax⟩
    · rintro ⟨d, h⟩
      rw [parseJson_lax c h.isLax]
      rfl
    · intro d h
      rw [parseJson_lax c h.isLax]
      exact congrArg some ((parsed_eq_value h.2).mpr (hplain d h.isLax))

/-- A minus sign alone passes for a number. -/
theorem parseJson_minus : ¬Exact .new ['-'] := by
  intro hexact
  have hlax : IsLax (.num ['-']) ['-'] := by
    refine ⟨⟨[], ['-'], [], ws_nil, .num _, ws_nil, rfl⟩, ?_⟩
    exact ⟨cons_ne_nil _ _, [], forall_mem_nil _, .inr rfl⟩
  obtain ⟨d, hjson⟩ := hexact.1.mp (by rw [parseJson_lax .new hlax]; rfl)
  obtain rfl := hlax.unique hjson.isLax
  obtain ⟨ds, hne, hds, -, hraw⟩ : JsonInt ['-'] := hjson.2
  rcases hraw with rfl | hraw
  · exact absurd (hds '-' mem_cons_self) (by decide)
  · exact hne (List.cons.inj hraw).2.symm

end Unisym.Format
