/-
# `JsonSpec` — the texts that `ConfigJSON` takes

The parser takes the texts with a `Doc` whose strings are delimited and whose numbers are runs
of digits, and the tree it makes is the one of that `Doc`: `parsesAll` and `parsed_inv`, by
induction on the fuel.  A text has no more than one such `Doc` (`IsLax.unique`).
-/
import Unisym.Library.Steps
import Unisym.Format.JsonTokens
import Mathlib.Data.List.DropRight

namespace Unisym.Format

open List

open Lango (Text)
open Doc (Spells SpellsElements SpellsMembers)

/-- Strings are delimited, and numbers are runs of digits. -/
abbrev Doc.Lax (d : Doc) : Prop := d.All Delimited DigitRun

/-- The tree of the parser. -/
def Doc.parsed (d : Doc) : JSONNode := d.tree staged bufferedNumber

/-! ## The first character -/

inductive Kind where
  | null | bool | num | str | arr | obj

def Doc.kind : Doc → Kind
  | .null => .null
  | .bool _ => .bool
  | .num _ => .num
  | .str _ => .str
  | .arr _ => .arr
  | .obj _ => .obj

/-- The kind of a value by its first character. -/
def charKind (c : Char) : Kind :=
  if c = 'n' then .null
  else if c = 't' ∨ c = 'f' then .bool
  else if c = '"' then .str
  else if c = '[' then .arr
  else if c = '{' then .obj
  else .num

variable {c : Char} {d : Doc} {t w : Text}

theorem number_ne {d : Char} (hc : c = '-' ∨ c.isDigit = true) (hminus : d ≠ '-')
    (hdigit : d.isDigit = false) : c ≠ d := by
  rintro rfl
  exact hc.elim hminus fun h => Bool.false_ne_true (hdigit.symm.trans h)

theorem charKind_number (hc : c = '-' ∨ c.isDigit = true) :
    charKind c = .num ∧ isJsonWhitespace c = false ∧ c ≠ ']' := by
  refine ⟨?_, ?_, number_ne hc (by decide) rfl⟩
  · unfold charKind
    rw [if_neg (number_ne hc (by decide) rfl),
      if_neg (not_or.mpr ⟨number_ne hc (by decide) rfl, number_ne hc (by decide) rfl⟩),
      if_neg (number_ne hc (by decide) rfl), if_neg (number_ne hc (by decide) rfl),
      if_neg (number_ne hc (by decide) rfl)]
  · refine decide_eq_false ?_
    rintro (h | h | h | h)
    · exact number_ne hc (by decide) rfl h
    · exact number_ne hc (by decide) rfl h
    · exact number_ne hc (by decide) rfl h
    · exact number_ne hc (by decide) rfl h

theorem DigitRun.head {raw : Text} (h : DigitRun raw) :
    ∃ c t, raw = c :: t ∧ (c = '-' ∨ c.isDigit = true) := by
  obtain ⟨hne, ds, hds, rfl | rfl⟩ := h
  · cases raw with
    | nil => exact absurd rfl hne
    | cons c t => exact ⟨c, t, rfl, .inr (hds c mem_cons_self)⟩
  · exact ⟨'-', ds, rfl, .inl rfl⟩

theorem Doc.Spells.head (h : d.Spells t) (hlax : d.Lax) :
    ∃ c t', t = c :: t' ∧ charKind c = d.kind ∧ isJsonWhitespace c = false ∧ c ≠ ']' := by
  cases h with
  | null => exact ⟨_, _, rfl, rfl, rfl, by decide⟩
  | bool b => cases b <;> exact ⟨_, _, rfl, rfl, rfl, by decide⟩
  | num raw =>
    obtain ⟨c, t, rfl, hc⟩ := DigitRun.head hlax
    exact ⟨c, t, rfl, charKind_number hc⟩
  | str raw => exact ⟨_, _, rfl, rfl, rfl, by decide⟩
  | arr => exact ⟨_, _, rfl, rfl, rfl, by decide⟩
  | obj => exact ⟨_, _, rfl, rfl, rfl, by decide⟩

theorem Doc.Spells.skip (h : d.Spells t) (hlax : d.Lax) (hw : Ws w) (rest : Text) :
    skipJsonWhitespace (w ++ (t ++ rest)) = t ++ rest := by
  obtain ⟨c, t', rfl, -, hc, -⟩ := h.head hlax
  rw [skip_ws hw]
  exact skip_token hc _

theorem isDigit_ws (hc : isJsonWhitespace c = true) : c.isDigit = false := by
  rcases of_decide_eq_true hc with rfl | rfl | rfl | rfl <;> rfl

theorem digitFree_ws (hw : Ws w) (hc : c.isDigit = false) (rest : Text) :
    DigitFree (w ++ c :: rest) := by
  intro x hx
  cases w with
  | nil => exact Option.some.inj hx ▸ hc
  | cons a w => exact Option.some.inj hx ▸ isDigit_ws (hw a mem_cons_self)

theorem skip_to (hw : Ws w) (hc : isJsonWhitespace c = false) (rest : Text) :
    skipJsonWhitespace (w ++ c :: rest) = c :: rest := (skip_ws hw _).trans (skip_token hc _)

/-! ## What is spelled is parsed -/

def JSONNode.addElements (arr : JSONNode) (ns : List JSONNode) : JSONNode :=
  { arr with arrayHead := arr.arrayHead ++ ns }

def JSONNode.addMembers (obj : JSONNode) (ns : List (Text × JSONNode)) : JSONNode :=
  { obj with objectHead := obj.objectHead ++ ns }

theorem JSONNode.addElements_cons (arr n : JSONNode) (ns : List JSONNode) :
    (arr.addArrayElement n).addElements ns = arr.addElements (n :: ns) :=
  congrArg (fun l => { arr with arrayHead := l }) (append_cons arr.arrayHead n ns).symm

theorem JSONNode.addMembers_cons (obj n : JSONNode) (key : Text) (ns : List (Text × JSONNode)) :
    (obj.addObjectMember key n).addMembers ns = obj.addMembers ((key, n) :: ns) :=
  congrArg (fun l => { obj with objectHead := l }) (append_cons obj.objectHead (key, n) ns).symm

def ParsesValue (fuel : Nat) : Prop :=
  ∀ {d : Doc} {w t rest : Text}, Ws w → d.Spells t → d.Lax → DigitFree rest →
    2 * (w ++ (t ++ rest)).length < fuel →
    parseJsonValue fuel (w ++ (t ++ rest)) = some (d.parsed, rest)

def ParsesElements (fuel : Nat) : Prop :=
  ∀ {d : Doc} {es : List Doc} {t rest : Text} {arr : JSONNode}, SpellsElements (d :: es) t →
    allElements Delimited DigitRun (d :: es) → 2 * (t ++ ']' :: rest).length + 1 < fuel →
    arrayLoop fuel (t ++ ']' :: rest) arr =
      some (arr.addElements (elementTrees staged bufferedNumber (d :: es)), rest)

def ParsesMembers (fuel : Nat) : Prop :=
  ∀ {m : Text × Doc} {ms : List (Text × Doc)} {t rest : Text} {obj : JSONNode},
    SpellsMembers (m :: ms) t → allMembers Delimited DigitRun (m :: ms) →
    2 * (t ++ '}' :: rest).length + 1 < fuel →
    objectLoop fuel (t ++ '}' :: rest) obj =
      some (obj.addMembers (memberTrees staged bufferedNumber (m :: ms)), rest)

/-- A value with whitespace around it, in front of a delimiter. -/
theorem ParsesValue.padded {fuel : Nat} (hv : ParsesValue fuel) {w' : Text} (hw : Ws w)
    (h : d.Spells t) (hlax : d.Lax) (hw' : Ws w') (hc : c.isDigit = false) {rest : Text}
    (hfuel : 2 * (w ++ (t ++ (w' ++ c :: rest))).length < fuel) :
    parseJsonValue fuel (skipJsonWhitespace (w ++ (t ++ (w' ++ c :: rest)))) =
      some (d.parsed, w' ++ c :: rest) := by
  rw [h.skip hlax hw]
  refine hv ws_nil h hlax (digitFree_ws hw' hc rest) ?_
  rw [length_append] at hfuel
  exact Nat.lt_of_le_of_lt (Nat.mul_le_mul_left 2 (Nat.le_add_left _ _)) hfuel

section

variable {fuel : Nat} {p q q' r rest str : Text} {arr obj val : JSONNode}

theorem arrayLoop_comma (hval : parseJsonValue fuel (skipJsonWhitespace p) = some (val, r))
    (hr : skipJsonWhitespace r = ',' :: rest) :
    arrayLoop (fuel + 1) p arr = arrayLoop fuel rest (arr.addArrayElement val) := by
  rw [arrayLoop, hval, some_bind]
  dsimp only
  rw [hr]
  rfl

theorem arrayLoop_close (hval : parseJsonValue fuel (skipJsonWhitespace p) = some (val, r))
    (hr : skipJsonWhitespace r = ']' :: rest) :
    arrayLoop (fuel + 1) p arr = some (arr.addArrayElement val, rest) := by
  rw [arrayLoop, hval, some_bind]
  dsimp only
  rw [hr]
  rfl

section

variable (hkey : parseJsonString (skipJsonWhitespace p) = some (str, q)) (hq : skipJsonWhitespace q = ':' :: q')
  (hval : parseJsonValue fuel (skipJsonWhitespace q') = some (val, r))
include hkey hq hval

theorem objectLoop_value : objectLoop (fuel + 1) p obj =
      match skipJsonWhitespace r with
      | ',' :: p => objectLoop fuel p (obj.addObjectMember str val)
      | '}' :: p => some (obj.addObjectMember str val, p)
      | _ => none := by
  rw [objectLoop, hkey, some_bind]
  dsimp only
  rw [hq]
  show (parseJsonValue fuel (skipJsonWhitespace q')).bind _ = _
  rw [hval]
  rfl

theorem objectLoop_comma (hr : skipJsonWhitespace r = ',' :: rest) :
    objectLoop (fuel + 1) p obj = objectLoop fuel rest (obj.addObjectMember str val) := by
  rw [objectLoop_value hkey hq hval, hr]
  rfl

theorem objectLoop_close (hr : skipJsonWhitespace r = '}' :: rest) :
    objectLoop (fuel + 1) p obj = some (obj.addObjectMember str val, rest) := by
  rw [objectLoop_value hkey hq hval, hr]
  rfl

end

end

theorem parsesElements_succ {fuel : Nat} (hv : ParsesValue fuel) (he : ParsesElements fuel) :
    ParsesElements (fuel + 1) := by
  intro d es t rest arr h hlax hfuel
  cases h with
  | @one _ w t w' hw h hw' =>
    have htext : w ++ (t ++ w') ++ ']' :: rest = w ++ (t ++ (w' ++ ']' :: rest)) := by
      simp only [append_assoc]
    rw [htext] at hfuel ⊢
    have hval := hv.padded hw h hlax.1 hw' rfl (Nat.lt_of_succ_lt_succ hfuel)
    exact arrayLoop_close hval (skip_to hw' rfl rest)
  | @cons _ e es w t w' ts hw h hw' hs =>
    have htext : w ++ (t ++ (w' ++ ',' :: ts)) ++ ']' :: rest =
        w ++ (t ++ (w' ++ ',' :: (ts ++ ']' :: rest))) := by
      simp only [append_assoc, cons_append]
    rw [htext] at hfuel ⊢
    have hval := hv.padded hw h hlax.1 hw' rfl (Nat.lt_of_succ_lt_succ hfuel)
    have hless : 2 * (ts ++ ']' :: rest).length + 1 < fuel := by
      simp only [length_append, length_cons] at hfuel ⊢
      omega
    rw [arrayLoop_comma hval (skip_to hw' rfl _), he hs hlax.2 hless, JSONNode.addElements_cons]
    rfl

theorem member_key {key w w₁ p : Text} (hkey : Delimited key) (hw : Ws w) (hw₁ : Ws w₁) :
    parseJsonString (skipJsonWhitespace (w ++ (quoted key ++ (w₁ ++ ':' :: p)))) =
        some (staged key, w₁ ++ ':' :: p) ∧
      skipJsonWhitespace (w₁ ++ ':' :: p) = ':' :: p := by
  refine ⟨?_, skip_to hw₁ rfl p⟩
  have hskip : skipJsonWhitespace (w ++ (quoted key ++ (w₁ ++ ':' :: p))) =
      quoted key ++ (w₁ ++ ':' :: p) := skip_to hw rfl _
  rw [hskip, parseJsonString_quoted hkey]

theorem parsesMembers_succ {fuel : Nat} (hv : ParsesValue fuel) (hm : ParsesMembers fuel) :
    ParsesMembers (fuel + 1) := by
  intro m ms t rest obj h hlax hfuel
  cases h with
  | @one key d w w₁ w₂ t w' hw hw₁ hw₂ h hw' =>
    have htext : w ++ (quoted key ++ (w₁ ++ ':' :: (w₂ ++ (t ++ w')))) ++ '}' :: rest =
        w ++ (quoted key ++ (w₁ ++ ':' :: (w₂ ++ (t ++ (w' ++ '}' :: rest))))) := by
      simp only [append_assoc, cons_append]
    rw [htext] at hfuel ⊢
    have hless : 2 * (w₂ ++ (t ++ (w' ++ '}' :: rest))).length < fuel := by
      simp only [length_append, length_cons] at hfuel ⊢
      omega
    obtain ⟨hkey, hcolon⟩ := member_key hlax.1 hw hw₁
    have hval := hv.padded hw₂ h hlax.2.1 hw' rfl hless
    exact objectLoop_close hkey hcolon hval (skip_to hw' rfl rest)
  | @cons key d m ms w w₁ w₂ t w' ts hw hw₁ hw₂ h hw' hs =>
    have htext : w ++ (quoted key ++ (w₁ ++ ':' :: (w₂ ++ (t ++ (w' ++ ',' :: ts))))) ++ '}' :: rest =
        w ++ (quoted key ++ (w₁ ++ ':' :: (w₂ ++ (t ++ (w' ++ ',' :: (ts ++ '}' :: rest)))))) := by
      simp only [append_assoc, cons_append]
    rw [htext] at hfuel ⊢
    have hless : 2 * (w₂ ++ (t ++ (w' ++ ',' :: (ts ++ '}' :: rest)))).length < fuel ∧
        2 * (ts ++ '}' :: rest).length + 1 < fuel := by
      simp only [length_append, length_cons] at hfuel ⊢
      omega
    obtain ⟨hkey, hcolon⟩ := member_key hlax.1 hw hw₁
    have hval := hv.padded hw₂ h hlax.2.1 hw' rfl hless.1
    rw [objectLoop_comma hkey hcolon hval (skip_to hw' rfl _), hm hs hlax.2.2 hless.2,
      JSONNode.addMembers_cons]
    rfl

/-- The elements of an array start with no closing bracket. -/
theorem skip_elements {d : Doc} {es : List Doc} {t : Text} (h : SpellsElements (d :: es) t)
    (hlax : allElements Delimited DigitRun (d :: es)) (rest : Text) :
    ∃ c p, skipJsonWhitespace (t ++ rest) = c :: p ∧ c ≠ ']' := by
  have hvalue : ∀ {w t : Text}, Ws w → d.Spells t → ∀ rest,
      ∃ c p, skipJsonWhitespace (w ++ (t ++ rest)) = c :: p ∧ c ≠ ']' := by
    intro w t hw h rest
    obtain ⟨c, t', rfl, -, -, hc⟩ := h.head hlax.1
    exact ⟨c, t' ++ rest, h.skip hlax.1 hw rest, hc⟩
  cases h with
  | one hw h =>
    rw [append_assoc, append_assoc]
    exact hvalue hw h _
  | cons hw h =>
    rw [append_assoc, append_assoc]
    exact hvalue hw h _

theorem skip_members {m : Text × Doc} {ms : List (Text × Doc)} {t : Text}
    (h : SpellsMembers (m :: ms) t) (rest : Text) :
    ∃ p, skipJsonWhitespace (t ++ rest) = '"' :: p := by
  cases h with
  | one hw =>
    rw [append_assoc]
    exact ⟨_, skip_to hw rfl _⟩
  | cons hw =>
    rw [append_assoc]
    exact ⟨_, skip_to hw rfl _⟩

theorem skip_skip (p : Text) : skipJsonWhitespace (skipJsonWhitespace p) = skipJsonWhitespace p :=
  dropWhile_idempotent _ _

section

variable (fuel : Nat) {c : Char} {p rest : Text} (n : JSONNode)

theorem arrayLoop_skip : arrayLoop fuel (skipJsonWhitespace p) n = arrayLoop fuel p n := by
  cases fuel with
  | zero => rfl
  | succ fuel => rw [arrayLoop, arrayLoop, skip_skip]

theorem objectLoop_skip : objectLoop fuel (skipJsonWhitespace p) n = objectLoop fuel p n := by
  cases fuel with
  | zero => rfl
  | succ fuel => rw [objectLoop, objectLoop, skip_skip]

theorem parseArray_open (hp : skipJsonWhitespace p = c :: rest) (hc : c ≠ ']') :
    (match skipJsonWhitespace p with
      | ']' :: p => some (n, p)
      | p => arrayLoop fuel p n) = arrayLoop fuel p n := by
  rw [← arrayLoop_skip, hp]
  split
  · rename_i heq
    exact absurd (List.cons.inj heq).1 hc
  · rfl

theorem parseObject_open (hp : skipJsonWhitespace p = c :: rest) (hc : c ≠ '}') :
    (match skipJsonWhitespace p with
      | '}' :: p => some (n, p)
      | p => objectLoop fuel p n) = objectLoop fuel p n := by
  rw [← objectLoop_skip, hp]
  split
  · rename_i heq
    exact absurd (List.cons.inj heq).1 hc
  · rfl

end

theorem parsesValue_succ {fuel : Nat} (he : ParsesElements fuel) (hm : ParsesMembers fuel) :
    ParsesValue (fuel + 1) := by
  intro d w t rest hw h hlax hrest hfuel
  have hless : 2 * (t ++ rest).length < fuel + 1 := by
    rw [length_append] at hfuel
    omega
  rw [parseJsonValue, h.skip hlax hw]
  cases h with
  | null => rfl
  | bool b => cases b <;> rfl
  | num raw =>
    obtain ⟨c, t', rfl, hc⟩ := DigitRun.head hlax
    have hnumber := parseJsonNumber_run hlax hrest
    show (if c = '{' then _ else _) = _
    rw [if_neg (number_ne hc (by decide) rfl), if_neg (number_ne hc (by decide) rfl),
      if_neg (number_ne hc (by decide) rfl), if_neg (number_ne hc (by decide) rfl),
      if_neg (number_ne hc (by decide) rfl), if_neg (number_ne hc (by decide) rfl), if_pos hc]
    exact congrArg some hnumber
  | str raw =>
    show (parseJsonString (quoted raw ++ rest)).bind _ = _
    rw [parseJsonString_quoted hlax]
    rfl
  | @arr es t h =>
    show (match skipJsonWhitespace (t ++ [']'] ++ rest) with
      | ']' :: p => some (({ type := .array } : JSONNode), p)
      | p => arrayLoop fuel p { type := .array }) = _
    rw [append_assoc]
    cases es with
    | nil =>
      cases h with
      | nil hw =>
        rw [show skipJsonWhitespace (t ++ ([']'] ++ rest)) = ']' :: rest from skip_to hw rfl rest]
        rfl
    | cons d es =>
      obtain ⟨c, p, hp, hc⟩ := skip_elements h hlax ([']'] ++ rest)
      rw [parseArray_open fuel _ hp hc]
      show arrayLoop fuel (t ++ ']' :: rest) _ = _
      refine he h hlax ?_
      simp only [length_append, length_cons, length_nil] at hless ⊢
      omega
  | @obj ms t h =>
    show (match skipJsonWhitespace (t ++ ['}'] ++ rest) with
      | '}' :: p => some (({ type := .object } : JSONNode), p)
      | p => objectLoop fuel p { type := .object }) = _
    rw [append_assoc]
    cases ms with
    | nil =>
      cases h with
      | nil hw =>
        rw [show skipJsonWhitespace (t ++ (['}'] ++ rest)) = '}' :: rest from skip_to hw rfl rest]
        rfl
    | cons m ms =>
      obtain ⟨p, hp⟩ := skip_members h (['}'] ++ rest)
      rw [parseObject_open fuel _ hp (by decide)]
      show objectLoop fuel (t ++ '}' :: rest) _ = _
      refine hm h hlax ?_
      simp only [length_append, length_cons, length_nil] at hless ⊢
      omega

theorem parsesAll (fuel : Nat) : ParsesValue fuel ∧ ParsesElements fuel ∧ ParsesMembers fuel := by
  induction fuel with
  | zero =>
    refine ⟨?_, ?_, ?_⟩
    · intro d w t rest _ _ _ _ hfuel
      exact absurd hfuel (Nat.not_lt_zero _)
    · intro d es t rest arr _ _ hfuel
      exact absurd hfuel (Nat.not_lt_zero _)
    · intro m ms t rest obj _ _ hfuel
      exact absurd hfuel (Nat.not_lt_zero _)
  | succ fuel ih =>
    obtain ⟨hv, he, hm⟩ := ih
    exact ⟨parsesValue_succ he hm, parsesElements_succ hv he, parsesMembers_succ hv hm⟩

/-! ## What is parsed is spelled -/

def InvValue (fuel : Nat) : Prop :=
  ∀ {p rest : Text} {n : JSONNode}, parseJsonValue fuel p = some (n, rest) →
    ∃ (d : Doc) (w t : Text), Ws w ∧ d.Spells t ∧ d.Lax ∧ p = w ++ (t ++ rest) ∧ n = d.parsed

def InvElements (fuel : Nat) : Prop :=
  ∀ {p rest : Text} {arr n : JSONNode}, arrayLoop fuel p arr = some (n, rest) →
    ∃ es t, SpellsElements es t ∧ es ≠ [] ∧ allElements Delimited DigitRun es ∧ p = t ++ ']' :: rest ∧
      n = arr.addElements (elementTrees staged bufferedNumber es)

def InvMembers (fuel : Nat) : Prop :=
  ∀ {p rest : Text} {obj n : JSONNode}, objectLoop fuel p obj = some (n, rest) →
    ∃ ms t, SpellsMembers ms t ∧ ms ≠ [] ∧ allMembers Delimited DigitRun ms ∧ p = t ++ '}' :: rest ∧
      n = obj.addMembers (memberTrees staged bufferedNumber ms)

variable {w w' t key : Text} {d : Doc} {es : List Doc} {ms : List (Text × Doc)}

theorem Ws.append (hw : Ws w) (hw' : Ws w') : Ws (w ++ w') := fun c hc =>
  (mem_append.mp hc).elim (hw c) (hw' c)

/-- A value behind whitespace that was skipped, and the whitespace that is skipped next. -/
theorem InvValue.padded {fuel : Nat} (hv : InvValue fuel) {p r : Text} {val : JSONNode}
    (h : parseJsonValue fuel (skipJsonWhitespace p) = some (val, r)) :
    ∃ (d : Doc) (w t w' : Text), Ws w ∧ d.Spells t ∧ d.Lax ∧ Ws w' ∧
      p = w ++ (t ++ (w' ++ skipJsonWhitespace r)) ∧ val = d.parsed := by
  obtain ⟨w, hw, hp⟩ := skip_split p
  obtain ⟨d, w₁, t, hw₁, hspells, hlax, hp₁, hval⟩ := hv h
  obtain ⟨w', hw', hr⟩ := skip_split r
  refine ⟨d, w ++ w₁, t, w', hw.append hw₁, hspells, hlax, hw', ?_, hval⟩
  rw [← hr, append_assoc, ← hp₁, ← hp]

theorem invElements_succ {fuel : Nat} (hv : InvValue fuel) (he : InvElements fuel) :
    InvElements (fuel + 1) := by
  intro p rest arr n h
  rw [arrayLoop] at h
  obtain ⟨⟨val, r⟩, hval, h⟩ := Option.bind_eq_some_iff.mp h
  obtain ⟨d, w, t, w', hw, hspells, hlax, hw', rfl, rfl⟩ := hv.padded hval
  dsimp only at h
  split at h
  · rename_i q hr
    obtain ⟨es, ts, hes, hne, hall, rfl, rfl⟩ := he h
    cases es with
    | nil => exact absurd rfl hne
    | cons e es =>
      refine ⟨d :: e :: es, _, .cons hw hspells hw' hes, cons_ne_nil _ _, ⟨hlax, hall⟩, ?_,
        JSONNode.addElements_cons _ _ _⟩
      rw [hr]
      simp only [append_assoc, cons_append]
  · rename_i q hr
    cases h
    refine ⟨[d], _, .one hw hspells hw', cons_ne_nil _ _, ⟨hlax, trivial⟩, ?_, rfl⟩
    rw [hr]
    simp only [append_assoc]
  · cases h

theorem invMembers_succ {fuel : Nat} (hv : InvValue fuel) (hm : InvMembers fuel) :
    InvMembers (fuel + 1) := by
  intro p rest obj n h
  rw [objectLoop] at h
  obtain ⟨⟨str, q⟩, hkey, h⟩ := Option.bind_eq_some_iff.mp h
  obtain ⟨w, hw, hp⟩ := skip_split p
  obtain ⟨key, hdelimited, hp', rfl⟩ := parseJsonString_inv hkey
  obtain ⟨w₁, hw₁, hq⟩ := skip_split q
  dsimp only at h
  split at h
  · rename_i q' hcolon
    obtain ⟨⟨val, r⟩, hval, h⟩ := Option.bind_eq_some_iff.mp h
    obtain ⟨d, w₂, t, w', hw₂, hspells, hlax, hw', rfl, rfl⟩ := hv.padded hval
    rw [hp, hp', hq, hcolon]
    dsimp only at h
    split at h
    · rename_i q'' hr
      obtain ⟨ms, ts, hms, hne, hall, rfl, rfl⟩ := hm h
      cases ms with
      | nil => exact absurd rfl hne
      | cons m ms =>
        refine ⟨(key, d) :: m :: ms, _, .cons hw hw₁ hw₂ hspells hw' hms, cons_ne_nil _ _,
          ⟨hdelimited, hlax, hall⟩, ?_, JSONNode.addMembers_cons _ _ _ _⟩
        rw [hr]
        simp only [append_assoc, cons_append]
    · rename_i q'' hr
      cases h
      refine ⟨[(key, d)], _, .one hw hw₁ hw₂ hspells hw', cons_ne_nil _ _,
        ⟨hdelimited, hlax, trivial⟩, ?_, rfl⟩
      rw [hr]
      simp only [append_assoc, cons_append]
    · cases h
  · cases h

theorem InvElements.array {fuel : Nat} (he : InvElements fuel) {p rest : Text} {n : JSONNode}
    (h : (match skipJsonWhitespace p with
      | ']' :: p => some (({ type := .array } : JSONNode), p)
      | p => arrayLoop fuel p { type := .array }) = some (n, rest)) :
    ∃ es t, SpellsElements es t ∧ allElements Delimited DigitRun es ∧ p = t ++ ']' :: rest ∧
      n = (Doc.arr es).parsed := by
  split at h
  · rename_i q hq
    cases h
    obtain ⟨w, hw, hp⟩ := skip_split p
    exact ⟨[], w, .nil hw, trivial, hq ▸ hp, rfl⟩
  · rw [arrayLoop_skip] at h
    obtain ⟨es, t, hes, -, hall, hp, rfl⟩ := he h
    exact ⟨es, t, hes, hall, hp, rfl⟩

theorem InvMembers.object {fuel : Nat} (hm : InvMembers fuel) {p rest : Text} {n : JSONNode}
    (h : (match skipJsonWhitespace p with
      | '}' :: p => some (({ type := .object } : JSONNode), p)
      | p => objectLoop fuel p { type := .object }) = some (n, rest)) :
    ∃ ms t, SpellsMembers ms t ∧ allMembers Delimited DigitRun ms ∧ p = t ++ '}' :: rest ∧
      n = (Doc.obj ms).parsed := by
  split at h
  · rename_i q hq
    cases h
    obtain ⟨w, hw, hp⟩ := skip_split p
    exact ⟨[], w, .nil hw, trivial, hq ▸ hp, rfl⟩
  · rw [objectLoop_skip] at h
    obtain ⟨ms, t, hms, -, hall, hp, rfl⟩ := hm h
    exact ⟨ms, t, hms, hall, hp, rfl⟩

theorem literal_inv {lit p : Text} (h : lit.isPrefixOf p = true) : p = lit ++ p.drop lit.length := by
  obtain ⟨rest, rfl⟩ := List.isPrefixOf_iff_prefix.mp h
  rw [drop_left]

theorem invValue_succ {fuel : Nat} (he : InvElements fuel) (hm : InvMembers fuel) :
    InvValue (fuel + 1) := by
  intro p rest n h
  obtain ⟨w, hw, hp⟩ := skip_split p
  rw [parseJsonValue] at h
  split at h
  · cases h
  rename_i c q hq
  rw [hq] at hp
  -- it is enough to read the token behind the whitespace
  suffices hvalue : ∃ (d : Doc) (t : Text), d.Spells t ∧ d.Lax ∧ c :: q = t ++ rest ∧ n = d.parsed by
    obtain ⟨d, t, hspells, hlax, heq, hn⟩ := hvalue
    exact ⟨d, w, t, hw, hspells, hlax, heq ▸ hp, hn⟩
  split_ifs at h with hobj harr hstr htrue htrue' hfalse hfalse' hnull hnull' hnumber
  · subst hobj
    obtain ⟨ms, t, hms, hall, rfl, hn⟩ := hm.object h
    refine ⟨.obj ms, _, .obj hms, hall, ?_, hn⟩
    simp only [append_assoc, cons_append, nil_append]
  · subst harr
    obtain ⟨es, t, hes, hall, rfl, hn⟩ := he.array h
    refine ⟨.arr es, _, .arr hes, hall, ?_, hn⟩
    simp only [append_assoc, cons_append, nil_append]
  · obtain ⟨⟨str, r⟩, hparse, h⟩ := Option.bind_eq_some_iff.mp h
    cases h
    obtain ⟨raw, hraw, heq, rfl⟩ := parseJsonString_inv hparse
    exact ⟨.str raw, _, .str raw, hraw, heq, rfl⟩
  · cases h
    exact ⟨.bool true, _, .bool true, trivial, literal_inv htrue', rfl⟩
  · cases h
    exact ⟨.bool false, _, .bool false, trivial, literal_inv hfalse', rfl⟩
  · cases h
    exact ⟨.null, _, .null, trivial, literal_inv hnull', rfl⟩
  · obtain ⟨raw, r, hraw, hrest, heq⟩ := parseJsonNumber_inv (p := q) hnumber
    rw [heq, parseJsonNumber_run hraw hrest] at h
    cases h
    exact ⟨.num raw, _, .num raw, hraw, heq, rfl⟩

theorem invAll (fuel : Nat) : InvValue fuel ∧ InvElements fuel ∧ InvMembers fuel := by
  induction fuel with
  | zero =>
    refine ⟨?_, ?_, ?_⟩
    · exact fun h => nomatch h
    · exact fun h => nomatch h
    · exact fun h => nomatch h
  | succ fuel ih =>
    obtain ⟨hv, he, hm⟩ := ih
    exact ⟨invValue_succ he hm, invElements_succ hv he, invMembers_succ hv hm⟩

/-! ## A text has one structure -/

/-- What stands behind the first of the elements. -/
inductive ElementsTail : List Doc → Text → Text → Prop where
  | close (r : Text) : ElementsTail [] r (']' :: r)
  | comma {e : Doc} {es : List Doc} {ts : Text} (h : SpellsElements (e :: es) ts) (r : Text) :
      ElementsTail (e :: es) r (',' :: (ts ++ ']' :: r))

/-- What stands behind the first of the members. -/
inductive MembersTail : List (Text × Doc) → Text → Text → Prop where
  | close (r : Text) : MembersTail [] r ('}' :: r)
  | comma {m : Text × Doc} {ms : List (Text × Doc)} {ts : Text} (h : SpellsMembers (m :: ms) ts)
      (r : Text) : MembersTail (m :: ms) r (',' :: (ts ++ '}' :: r))

/-- Text that goes on with neither whitespace nor a digit. -/
def Headed (x : Text) : Prop :=
  ∃ c y, x = c :: y ∧ isJsonWhitespace c = false ∧ c.isDigit = false

theorem ElementsTail.headed (h : ElementsTail es r x) : Headed x := by
  cases h <;> exact ⟨_, _, rfl, rfl, rfl⟩

theorem MembersTail.headed (h : MembersTail ms r x) : Headed x := by
  cases h <;> exact ⟨_, _, rfl, rfl, rfl⟩

theorem split_elements (h : SpellsElements (d :: es) t) (r : Text) :
    ∃ w t₁ w₁ x, Ws w ∧ d.Spells t₁ ∧ Ws w₁ ∧ ElementsTail es r x ∧
      t ++ ']' :: r = w ++ (t₁ ++ (w₁ ++ x)) := by
  cases h with
  | one hw h hw₁ =>
    refine ⟨_, _, _, _, hw, h, hw₁, .close r, ?_⟩
    simp only [append_assoc]
  | cons hw h hw₁ hs =>
    refine ⟨_, _, _, _, hw, h, hw₁, .comma hs r, ?_⟩
    simp only [append_assoc, cons_append]

theorem split_members
    (h : SpellsMembers ((key, d) :: ms) t) (r : Text) :
    ∃ w w₁ w₂ t₁ w₃ x, Ws w ∧ Ws w₁ ∧ Ws w₂ ∧ d.Spells t₁ ∧ Ws w₃ ∧ MembersTail ms r x ∧
      t ++ '}' :: r = w ++ (quoted key ++ (w₁ ++ ':' :: (w₂ ++ (t₁ ++ (w₃ ++ x))))) := by
  cases h with
  | one hw hw₁ hw₂ h hw₃ =>
    refine ⟨_, _, _, _, _, _, hw, hw₁, hw₂, h, hw₃, .close r, ?_⟩
    simp only [append_assoc, cons_append]
  | cons hw hw₁ hw₂ h hw₃ hs =>
    refine ⟨_, _, _, _, _, _, hw, hw₁, hw₂, h, hw₃, .comma hs r, ?_⟩
    simp only [append_assoc, cons_append]

theorem ws_unique (hw : Ws w) (hw' : Ws w') {c c' : Char} {x x' : Text}
    (hc : isJsonWhitespace c = false) (hc' : isJsonWhitespace c' = false)
    (heq : w ++ c :: x = w' ++ c' :: x') : c = c' ∧ x = x' := by
  have hskip := congrArg skipJsonWhitespace heq
  rw [skip_to hw hc, skip_to hw' hc'] at hskip
  exact List.cons.inj hskip

def UniqueDoc (d : Doc) : Prop :=
  ∀ {d' : Doc} {t t' r r' : Text}, d.Spells t → d'.Spells t' → d.Lax → d'.Lax → DigitFree r →
    DigitFree r' → t ++ r = t' ++ r' → d = d' ∧ r = r'

def UniqueElements (es : List Doc) : Prop :=
  ∀ {es' : List Doc} {t t' r r' : Text}, SpellsElements es t → SpellsElements es' t' →
    allElements Delimited DigitRun es → allElements Delimited DigitRun es' →
    t ++ ']' :: r = t' ++ ']' :: r' → es = es' ∧ r = r'

def UniqueMembers (ms : List (Text × Doc)) : Prop :=
  ∀ {ms' : List (Text × Doc)} {t t' r r' : Text}, SpellsMembers ms t → SpellsMembers ms' t' →
    allMembers Delimited DigitRun ms → allMembers Delimited DigitRun ms' →
    t ++ '}' :: r = t' ++ '}' :: r' → ms = ms' ∧ r = r'

/-- Whitespace in front of a value and behind it is no part of it. -/
theorem UniqueDoc.padded {d' : Doc} (hd : UniqueDoc d) {w₁ x t' w₁' x' : Text}
    (hw : Ws w) (h : d.Spells t) (hlax : d.Lax) (hw₁ : Ws w₁) (hx : Headed x)
    (hw' : Ws w') (h' : d'.Spells t') (hlax' : d'.Lax) (hw₁' : Ws w₁') (hx' : Headed x')
    (heq : w ++ (t ++ (w₁ ++ x)) = w' ++ (t' ++ (w₁' ++ x'))) : d = d' ∧ x = x' := by
  obtain ⟨c, y, rfl, hc⟩ := hx
  obtain ⟨c', y', rfl, hc'⟩ := hx'
  have hskip := congrArg skipJsonWhitespace heq
  rw [h.skip hlax hw, h'.skip hlax' hw'] at hskip
  obtain ⟨hdoc, hrest⟩ := hd h h' hlax hlax' (digitFree_ws hw₁ hc.2 y) (digitFree_ws hw₁' hc'.2 y') hskip
  obtain ⟨rfl, rfl⟩ := ws_unique hw₁ hw₁' hc.1 hc'.1 hrest
  exact ⟨hdoc, rfl⟩

theorem uniqueElements_nil : UniqueElements [] := by
  intro es' t t' r r' h h' _ hall' heq
  obtain ⟨hw⟩ := h
  cases es' with
  | nil =>
    obtain ⟨hw'⟩ := h'
    exact ⟨rfl, (ws_unique hw hw' rfl rfl heq).2⟩
  | cons d es' =>
    obtain ⟨c, p, hskip, hc⟩ := skip_elements h' hall' (']' :: r')
    rw [← heq, skip_to hw rfl] at hskip
    exact absurd (List.cons.inj hskip).1.symm hc

theorem uniqueElements_cons (hd : UniqueDoc d) (hes : UniqueElements es) :
    UniqueElements (d :: es) := by
  intro es' t t' r r' h h' hall hall' heq
  cases es' with
  | nil =>
    obtain ⟨hw'⟩ := h'
    obtain ⟨c, p, hskip, hc⟩ := skip_elements h hall (']' :: r)
    rw [heq, skip_to hw' rfl] at hskip
    exact absurd (List.cons.inj hskip).1.symm hc
  | cons d' es' =>
    obtain ⟨w, t₁, w₁, x, hw, ht, hw₁, htail, htext⟩ := split_elements h r
    obtain ⟨w', t₁', w₁', x', hw', ht', hw₁', htail', htext'⟩ := split_elements h' r'
    rw [htext, htext'] at heq
    obtain ⟨rfl, hrest⟩ :=
      hd.padded hw ht hall.1 hw₁ htail.headed hw' ht' hall'.1 hw₁' htail'.headed heq
    cases htail with
    | close =>
      cases htail' with
      | close => exact ⟨rfl, (List.cons.inj hrest).2⟩
      | comma => exact absurd (List.cons.inj hrest).1 (by decide)
    | comma hs =>
      cases htail' with
      | close => exact absurd (List.cons.inj hrest).1 (by decide)
      | comma hs' =>
        obtain ⟨hes', hr⟩ := hes hs hs' hall.2 hall'.2 (List.cons.inj hrest).2
        exact ⟨congrArg _ hes', hr⟩

theorem uniqueMembers_nil : UniqueMembers [] := by
  intro ms' t t' r r' h h' _ _ heq
  obtain ⟨hw⟩ := h
  cases ms' with
  | nil =>
    obtain ⟨hw'⟩ := h'
    exact ⟨rfl, (ws_unique hw hw' rfl rfl heq).2⟩
  | cons m ms' =>
    obtain ⟨p, hskip⟩ := skip_members h' ('}' :: r')
    rw [← heq, skip_to hw rfl] at hskip
    exact absurd (List.cons.inj hskip).1 (by decide)

theorem quoted_append_unique {raw raw' r r' : Text} (hraw : Delimited raw) (hraw' : Delimited raw')
    (heq : quoted raw ++ r = quoted raw' ++ r') : raw = raw' ∧ r = r' := by
  unfold quoted at heq
  simp only [cons_append, append_assoc, nil_append] at heq
  exact hraw.unique hraw' (List.cons.inj heq).2

theorem quoted_unique {key' w₁ w₁' y y' : Text} (hkey : Delimited key) (hkey' : Delimited key')
    (hw : Ws w) (hw₁ : Ws w₁) (hw' : Ws w') (hw₁' : Ws w₁')
    (heq : w ++ (quoted key ++ (w₁ ++ ':' :: y)) = w' ++ (quoted key' ++ (w₁' ++ ':' :: y'))) :
    key = key' ∧ y = y' := by
  have hskip := congrArg skipJsonWhitespace heq
  rw [show skipJsonWhitespace (w ++ (quoted key ++ (w₁ ++ ':' :: y))) = quoted key ++ (w₁ ++ ':' :: y)
      from skip_to hw rfl _,
    show skipJsonWhitespace (w' ++ (quoted key' ++ (w₁' ++ ':' :: y'))) =
      quoted key' ++ (w₁' ++ ':' :: y') from skip_to hw' rfl _] at hskip
  obtain ⟨rfl, hrest⟩ := quoted_append_unique hkey hkey' hskip
  exact ⟨rfl, (ws_unique hw₁ hw₁' rfl rfl hrest).2⟩

theorem uniqueMembers_cons (hd : UniqueDoc d)
    (hms : UniqueMembers ms) : UniqueMembers ((key, d) :: ms) := by
  intro ms' t t' r r' h h' hall hall' heq
  cases ms' with
  | nil =>
    obtain ⟨hw'⟩ := h'
    obtain ⟨p, hskip⟩ := skip_members h ('}' :: r)
    rw [heq, skip_to hw' rfl] at hskip
    exact absurd (List.cons.inj hskip).1 (by decide)
  | cons m ms' =>
    obtain ⟨key', d'⟩ := m
    obtain ⟨w, w₁, w₂, t₁, w₃, x, hw, hw₁, hw₂, ht, hw₃, htail, htext⟩ := split_members h r
    obtain ⟨w', w₁', w₂', t₁', w₃', x', hw', hw₁', hw₂', ht', hw₃', htail', htext'⟩ :=
      split_members h' r'
    rw [htext, htext'] at heq
    obtain ⟨rfl, hafter⟩ := quoted_unique hall.1 hall'.1 hw hw₁ hw' hw₁' heq
    obtain ⟨rfl, hrest⟩ :=
      hd.padded hw₂ ht hall.2.1 hw₃ htail.headed hw₂' ht' hall'.2.1 hw₃' htail'.headed hafter
    cases htail with
    | close =>
      cases htail' with
      | close => exact ⟨rfl, (List.cons.inj hrest).2⟩
      | comma => exact absurd (List.cons.inj hrest).1 (by decide)
    | comma hs =>
      cases htail' with
      | close => exact absurd (List.cons.inj hrest).1 (by decide)
      | comma hs' =>
        obtain ⟨hms', hr⟩ := hms hs hs' hall.2.2 hall'.2.2 (List.cons.inj hrest).2
        exact ⟨congrArg _ hms', hr⟩

theorem kind_unique {d' : Doc} {t' r r' : Text} (h : d.Spells t) (h' : d'.Spells t') (hlax : d.Lax)
    (hlax' : d'.Lax) (heq : t ++ r = t' ++ r') : d.kind = d'.kind := by
  obtain ⟨c, t, rfl, hc, -⟩ := h.head hlax
  obtain ⟨c', t', rfl, hc', -⟩ := h'.head hlax'
  rw [← hc, ← hc', (List.cons.inj heq).1]

theorem uniqueDoc_null : UniqueDoc .null := by
  intro d' t t' r r' h h' hlax hlax' _ _ heq
  have hkind := kind_unique h h' hlax hlax' heq
  cases d' with
  | null =>
    cases h
    cases h'
    exact ⟨rfl, append_cancel_left heq⟩
  | _ => cases hkind

theorem uniqueDoc_bool (b : Bool) : UniqueDoc (.bool b) := by
  intro d' t t' r r' h h' hlax hlax' _ _ heq
  have hkind := kind_unique h h' hlax hlax' heq
  cases d' with
  | bool b' =>
    cases h
    cases h'
    have hb : b = b' := by
      cases b <;> cases b' <;> first | rfl | exact absurd (List.cons.inj heq).1 (by decide)
    subst hb
    exact ⟨rfl, append_cancel_left heq⟩
  | _ => cases hkind

theorem uniqueDoc_num (raw : Text) : UniqueDoc (.num raw) := by
  intro d' t t' r r' h h' hlax hlax' hr hr' heq
  have hkind := kind_unique h h' hlax hlax' heq
  cases d' with
  | num raw' =>
    cases h
    cases h'
    obtain ⟨rfl, hrest⟩ := DigitRun.unique hlax hlax' hr hr' heq
    exact ⟨rfl, hrest⟩
  | _ => cases hkind

theorem uniqueDoc_str (raw : Text) : UniqueDoc (.str raw) := by
  intro d' t t' r r' h h' hlax hlax' _ _ heq
  have hkind := kind_unique h h' hlax hlax' heq
  cases d' with
  | str raw' =>
    cases h
    cases h'
    obtain ⟨rfl, hrest⟩ := quoted_append_unique hlax hlax' heq
    exact ⟨rfl, hrest⟩
  | _ => cases hkind

theorem uniqueDoc_arr (hes : UniqueElements es) : UniqueDoc (.arr es) := by
  intro d' t t' r r' h h' hlax hlax' _ _ heq
  have hkind := kind_unique h h' hlax hlax' heq
  cases d' with
  | arr es' =>
    cases h with
    | arr hs =>
      cases h' with
      | arr hs' =>
        simp only [cons_append, append_assoc, nil_append] at heq
        obtain ⟨rfl, hrest⟩ := hes hs hs' hlax hlax' (List.cons.inj heq).2
        exact ⟨rfl, hrest⟩
  | _ => cases hkind

theorem uniqueDoc_obj (hms : UniqueMembers ms) : UniqueDoc (.obj ms) := by
  intro d' t t' r r' h h' hlax hlax' _ _ heq
  have hkind := kind_unique h h' hlax hlax' heq
  cases d' with
  | obj ms' =>
    cases h with
    | obj hs =>
      cases h' with
      | obj hs' =>
        simp only [cons_append, append_assoc, nil_append] at heq
        obtain ⟨rfl, hrest⟩ := hms hs hs' hlax hlax' (List.cons.inj heq).2
        exact ⟨rfl, hrest⟩
  | _ => cases hkind

mutual

theorem doc_unique : ∀ d : Doc, UniqueDoc d
  | .null => uniqueDoc_null
  | .bool b => uniqueDoc_bool b
  | .num raw => uniqueDoc_num raw
  | .str raw => uniqueDoc_str raw
  | .arr es => uniqueDoc_arr (elements_unique es)
  | .obj ms => uniqueDoc_obj (members_unique ms)

theorem elements_unique : ∀ es : List Doc, UniqueElements es
  | [] => uniqueElements_nil
  | d :: es => uniqueElements_cons (doc_unique d) (elements_unique es)

theorem members_unique : ∀ ms : List (Text × Doc), UniqueMembers ms
  | [] => uniqueMembers_nil
  | (_, d) :: ms => uniqueMembers_cons (doc_unique d) (members_unique ms)

end

end Unisym.Format
