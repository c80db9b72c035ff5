/-
# `HTTPSpec` — how a response parses as it grows

A header ends with its first blank line, and a header line of some name is the first one that begins with the name
and a colon (`lookup`).  The functions that look for header lines stay in the header and find exactly these
(`findHeader_eq`), so that what comes behind the header is nothing to them.

The status is not looked for in the header: the code is behind the first space from the sixth byte on, wherever it
is.  And the declared length is a word.  `parses_uniformly_iff` says for which responses this makes no difference.
-/
import Mathlib.Data.List.DropRight
import Mathlib.Data.Nat.ModEq
import Unisym.Network.HTTP
import Unisym.Library.Steps

namespace Unisym.Network.HTTP

open List Option

/-! ## What the header says -/

/-- The end of a header. -/
def terminator : Bytes := [13, 10, 13, 10]

/-- The header, up to its blank line, and the body. -/
def headerOf : Bytes → Option (Bytes × Bytes)
  | [] => none
  | c :: rest =>
      if terminator <+: c :: rest then some (terminator, rest.drop 3)
      else (headerOf rest).map fun parts => (c :: parts.1, parts.2)

/-- What follows the name and the colon, if the line begins so. -/
def fieldValue : (name line : Bytes) → Option Bytes
  | [], c :: line => if c = 58 then some line else none
  | e :: name, c :: line => if asciiEqual c e then fieldValue name line else none
  | _, [] => none

def trimmed (value : Bytes) : Bytes := (value.dropWhile isBlank).rdropWhile isBlank

/-- The value of the first line of this name. -/
def lookup (name header : Bytes) : Option Bytes :=
  ((header.splitOnP isBreak).findSome? (fieldValue name)).map trimmed

/-- The number that decimal digits denote. -/
def decimal (digits : Bytes) : Nat := digits.foldl (fun value digit => value * 10 + (digit.toNat - 48)) 0

/-- The length that the header declares. -/
def declared (response : Bytes) : Option Nat := do
  let parts ← headerOf response
  let value ← lookup contentLengthName parts.1
  if value ≠ [] ∧ value.all isDigit then some (decimal value) else none

/-- The number of bytes after the header. -/
def bodyLength (response : Bytes) : Nat :=
  match headerOf response with
  | some (_, body) => body.length
  | none => 0

/-- From the first space on, behind the first five bytes. -/
def statusText (response : Bytes) : Bytes := (response.drop 5).dropWhile (· != 32)

/-- The status code is still to come, although the first five bytes are those of a response. -/
def StatusOpen (response : Bytes) : Prop :=
  protocol <+: response ∧ (statusText response).length < 4 ∧ (statusText response).tail.all isDigit

instance (response : Bytes) : Decidable (StatusOpen response) := inferInstanceAs (Decidable (_ ∧ _ ∧ _))

/-! ## Reading at a place -/

section Places

variable {front text back : Bytes} {p : UInt8 → Bool}

@[simp] theorem getElem?_place {c : UInt8} {rest : Bytes} :
    (front ++ c :: rest)[front.length]? = some c := by
  rw [getElem?_append_right (le_refl _), Nat.sub_self, getElem?_cons_zero]

theorem skipFrom_eq (text front : Bytes) :
    skipFrom (front ++ (text ++ back)) p text.length front.length =
      some (front.length + (text.takeWhile p).length) := by
  induction text generalizing front with
  | nil => rfl
  | cons c text ih =>
    have hnext := ih (front ++ [c])
    rw [append_assoc, singleton_append, length_append, length_singleton] at hnext
    rw [cons_append, length_cons, skipFrom, getElem?_place, some_bind]
    cases hc : p c with
    | true =>
      rw [if_pos rfl, takeWhile_cons_of_pos hc, length_cons]
      refine hnext.trans (congrArg some ?_)
      omega
    | false =>
      rw [takeWhile_cons_of_neg (by rw [hc]; exact Bool.false_ne_true), if_neg Bool.false_ne_true]
      rfl

theorem skip_eq {limit : Nat} (hlimit : limit = front.length + text.length) :
    skip (front ++ (text ++ back)) p limit front.length = some (front.length + (text.takeWhile p).length) := by
  rw [skip, hlimit, Nat.add_sub_cancel_left]
  exact skipFrom_eq text front

theorem skipBack_eq (text : Bytes) :
    skipBack (front ++ (text ++ back)) p front.length text.length =
      some (front.length + (text.rdropWhile p).length) := by
  induction text using List.reverseRecOn generalizing back with
  | nil => rfl
  | append_singleton text c ih =>
    have hread : (front ++ (text ++ (c :: back)))[front.length + text.length]? = some c := by
      rw [← append_assoc, ← length_append, getElem?_place]
    rw [append_assoc, singleton_append, length_append, length_singleton, skipBack, hread,
      some_bind]
    cases hc : p c with
    | true =>
      rw [if_pos rfl, rdropWhile_concat_pos _ _ _ hc]
      exact ih
    | false =>
      rw [rdropWhile_concat_neg _ _ _ (by rw [hc]; exact Bool.false_ne_true), if_neg Bool.false_ne_true,
        length_append]
      rfl

end Places

/-! ## The header -/

variable {response header body : Bytes}

theorem headerOf_parts (h : headerOf response = some (header, body)) :
    header ++ body = response ∧ terminator <:+ header := by
  induction response generalizing header body with
  | nil => exact absurd h.symm (some_ne_none _)
  | cons c rest ih =>
    rw [headerOf] at h
    split at h
    · next hfirst =>
      obtain ⟨rfl, rfl⟩ := Prod.mk.inj (Option.some.inj h)
      obtain ⟨after, hafter⟩ := hfirst
      refine ⟨?_, suffix_rfl⟩
      rw [← hafter, ← (List.cons.inj hafter).2]
      rfl
    · next hfirst =>
      obtain ⟨⟨header', body'⟩, hrest, heq⟩ := map_eq_some_iff.mp h
      obtain ⟨rfl, rfl⟩ := Prod.mk.inj heq
      obtain ⟨hparts, hend⟩ := ih hrest
      exact ⟨congrArg (c :: ·) hparts, hend.trans (suffix_cons c header')⟩

theorem headerOf_of_infix (h : terminator <:+: response) :
    ∃ parts, headerOf response = some parts := by
  induction response with
  | nil => exact absurd (infix_nil.mp h) (cons_ne_nil _ _)
  | cons c rest ih =>
    rw [headerOf]
    split
    · exact ⟨_, rfl⟩
    · next hfirst =>
      obtain ⟨parts, hparts⟩ := ih ((infix_cons_iff.mp h).resolve_left hfirst)
      exact ⟨_, congrArg _ hparts⟩

theorem headerOf_length (h : headerOf response = some (header, body)) :
    4 ≤ header.length ∧ header.length + body.length = response.length := by
  obtain ⟨hparts, hend⟩ := headerOf_parts h
  exact ⟨hend.length_le, by rw [← hparts, length_append]⟩

theorem headerOf_short (h : response.length < 4) : headerOf response = none := by
  cases hparts : headerOf response with
  | none => rfl
  | some parts =>
    have hlength := headerOf_length hparts
    omega

theorem headerOf_append (h : headerOf response = some (header, body)) (s : Bytes) :
    headerOf (response ++ s) = some (header, body ++ s) := by
  induction response generalizing header body with
  | nil => exact absurd h.symm (some_ne_none _)
  | cons c rest ih =>
    have hlong : 4 ≤ (c :: rest).length := by
      have hlength := headerOf_length h
      omega
    rw [headerOf] at h
    rw [cons_append, headerOf]
    split at h
    · next hfirst =>
      obtain ⟨rfl, rfl⟩ := Prod.mk.inj (Option.some.inj h)
      have hlonger : terminator <+: c :: (rest ++ s) := hfirst.trans (prefix_append (c :: rest) s)
      rw [if_pos hlonger, drop_append_of_le_length (Nat.le_of_succ_le_succ hlong)]
    · next hfirst =>
      obtain ⟨⟨header', body'⟩, hrest, heq⟩ := map_eq_some_iff.mp h
      obtain ⟨rfl, rfl⟩ := Prod.mk.inj heq
      have hnot : ¬ terminator <+: c :: (rest ++ s) := fun hlonger =>
        hfirst (prefix_of_prefix_length_le hlonger (prefix_append (c :: rest) s) hlong)
      rw [if_neg hnot, ih hrest]
      rfl

theorem headerLengthFrom_succ (front rest : Bytes) {c0 c1 c2 c3 : UInt8} (n : Nat) :
    headerLengthFrom (front ++ c0 :: c1 :: c2 :: c3 :: rest) (n + 1) front.length =
      if terminator <+: c0 :: c1 :: c2 :: c3 :: rest then some (front.length + 4)
      else headerLengthFrom (front ++ c0 :: c1 :: c2 :: c3 :: rest) n (front.length + 1) := by
  have hplace (k : Nat) : (front ++ c0 :: c1 :: c2 :: c3 :: rest)[front.length + k]? =
      (c0 :: c1 :: c2 :: c3 :: rest)[k]? := by
    rw [getElem?_append_right (Nat.le_add_right _ _), Nat.add_sub_cancel_left]
  rw [headerLengthFrom, getElem?_place, hplace 1, hplace 2, hplace 3]
  simp only [some_bind, getElem?_cons_succ, getElem?_cons_zero, terminator, cons_prefix_cons, List.nil_prefix, and_true]
  split_ifs <;> first | rfl | grind

theorem headerLengthFrom_eq (text front : Bytes) :
    headerLengthFrom (front ++ text) (text.length - 3) front.length =
      some (((headerOf text).map fun parts => front.length + parts.1.length).getD 0) := by
  induction text generalizing front with
  | nil => rfl
  | cons c0 text ih =>
    match text with
    | [] | [_] | [_, _] =>
      rw [headerOf_short (by simp only [length_cons, length_nil]; omega)]
      rfl
    | c1 :: c2 :: c3 :: rest =>
      have hnext := ih (front ++ [c0])
      rw [append_assoc, singleton_append, length_append, length_singleton] at hnext
      have hsteps : (c0 :: c1 :: c2 :: c3 :: rest).length - 3 = (c1 :: c2 :: c3 :: rest).length - 3 + 1 := by
        simp only [length_cons]
        omega
      rw [hsteps, headerLengthFrom_succ, hnext, headerOf.eq_2 c0]
      split
      · rfl
      · rw [Option.map_map]
        congr 3
        funext parts
        rw [Function.comp_apply, length_cons]
        omega

theorem headerLength_eq (response : Bytes) :
    headerLength response = some (((headerOf response).map fun parts => parts.1.length).getD 0) := by
  have hfrom := headerLengthFrom_eq response []
  simp only [nil_append, length_nil, Nat.zero_add] at hfrom
  rw [headerLength]
  split
  · next hshort =>
    rw [headerOf_short hshort]
    rfl
  · exact hfrom

/-! ## The header lines -/

section Lines

variable {front line back : Bytes}

theorem fieldValue_split {name value : Bytes} (h : fieldValue name line = some value) :
    ∃ label, line = label ++ value ∧ label.length = name.length + 1 := by
  induction name generalizing line with
  | nil =>
    match line with
    | [] => exact absurd h.symm (some_ne_none _)
    | c :: line =>
      rw [fieldValue] at h
      split at h
      · exact ⟨[c], congrArg (c :: ·) (Option.some.inj h), rfl⟩
      · exact absurd h.symm (some_ne_none _)
  | cons e name ih =>
    match line with
    | [] => exact absurd h.symm (some_ne_none _)
    | c :: line =>
      rw [fieldValue] at h
      split at h
      · obtain ⟨label, rfl, hlength⟩ := ih h
        exact ⟨c :: label, rfl, congrArg Nat.succ hlength⟩
      · exact absurd h.symm (some_ne_none _)

/-- The comparison with a name, behind what is equal already. -/
theorem nameMatchFrom_eq (name equal rest : Bytes) :
    nameMatchFrom (front ++ ((equal ++ rest) ++ back)) front.length (equal ++ rest).length name equal.length =
      some (fieldValue name rest).isSome := by
  induction name generalizing equal rest with
  | nil =>
    match rest with
    | [] =>
      rw [nameMatchFrom, if_neg (by rw [append_nil]; exact Nat.lt_irrefl _)]
      rfl
    | c :: rest =>
      have hread : (front ++ ((equal ++ c :: rest) ++ back))[front.length + equal.length]? = some c := by
        rw [append_assoc, ← append_assoc front, ← length_append]
        exact getElem?_place
      have hin : equal.length < (equal ++ c :: rest).length := by
        rw [length_append, length_cons]
        omega
      rw [nameMatchFrom, if_pos hin, hread, some_bind, fieldValue]
      by_cases hc : c = 58
      · rw [if_pos hc, hc]
        rfl
      · rw [if_neg hc, beq_eq_false_iff_ne.mpr hc]
        rfl
  | cons e name ih =>
    match rest with
    | [] =>
      rw [nameMatchFrom, if_pos (by rw [append_nil])]
      rfl
    | c :: rest =>
      have hread : (front ++ ((equal ++ c :: rest) ++ back))[front.length + equal.length]? = some c := by
        rw [append_assoc, ← append_assoc front, ← length_append]
        exact getElem?_place
      have hin : ¬ equal.length ≥ (equal ++ c :: rest).length := by
        rw [length_append, length_cons]
        omega
      have hequal : (equal ++ [c]).length = equal.length + 1 := length_append
      have hnext := ih (equal ++ [c]) rest
      rw [append_assoc equal, singleton_append, hequal] at hnext
      rw [nameMatchFrom, if_neg hin, hread, some_bind, fieldValue]
      cases hc : asciiEqual c e with
      | true => exact hnext
      | false => rfl

/-- The part of a response that a view shows. -/
def shown (response : Bytes) (view : HTTPView) : Bytes := (response.drop view.start).take view.length

/-- The value of a line that has the name, without the blanks around it. -/
theorem trimmed_view (label value : Bytes) :
    ∃ view, shown (front ++ (label ++ value)) view = trimmed value ∧
      view.start + view.length ≤ (front ++ (label ++ value)).length ∧
      ∀ back, (do
        let cursor ← skip (front ++ (label ++ value ++ back)) isBlank (front.length + (label ++ value).length)
          (front.length + label.length)
        let finish ← skipBack (front ++ (label ++ value ++ back)) isBlank cursor
          (front.length + (label ++ value).length - cursor)
        some (HTTPView.mk cursor (finish - cursor))) = some view := by
  obtain ⟨blanks, hblanks⟩ : ∃ blanks, value.takeWhile isBlank = blanks := ⟨_, rfl⟩
  obtain ⟨kept, hkept⟩ : ∃ kept, value.dropWhile isBlank = kept := ⟨_, rfl⟩
  obtain ⟨after, hafter⟩ := List.rdropWhile_prefix isBlank kept
  have hvalue : value = blanks ++ kept := by rw [← hblanks, ← hkept, takeWhile_append_dropWhile]
  have htrimmed : trimmed value = kept.rdropWhile isBlank := by rw [trimmed, hkept]
  refine ⟨⟨(front ++ label ++ blanks).length, (trimmed value).length⟩, ?_, ?_, ?_⟩
  · have htext : front ++ (label ++ value) = (front ++ label ++ blanks) ++ (trimmed value ++ after) := by
      rw [htrimmed, hafter, hvalue]
      simp only [append_assoc]
    rw [shown, htext, drop_left, take_left]
  · have hlength : kept.length = (trimmed value).length + after.length := by
      rw [htrimmed, ← length_append, hafter]
    rw [hvalue] at *
    simp only [length_append] at *
    omega
  · intro back
    have hskip : skip (front ++ (label ++ value ++ back)) isBlank (front.length + (label ++ value).length)
        (front.length + label.length) = some (front ++ label ++ blanks).length := by
      have htext : front ++ (label ++ value ++ back) = (front ++ label) ++ (value ++ back) := by
        simp only [append_assoc]
      have hlimit : front.length + (label ++ value).length = (front ++ label).length + value.length := by
        simp only [length_append]
        omega
      have hcursor : front.length + label.length = (front ++ label).length := length_append.symm
      rw [hcursor, htext, skip_eq hlimit, hblanks, ← length_append]
    have hback : skipBack (front ++ (label ++ value ++ back)) isBlank (front ++ label ++ blanks).length
        (front.length + (label ++ value).length - (front ++ label ++ blanks).length) =
          some ((front ++ label ++ blanks).length + (trimmed value).length) := by
      have htext : front ++ (label ++ value ++ back) = (front ++ label ++ blanks) ++ (kept ++ back) := by
        rw [hvalue]
        simp only [append_assoc]
      have hleft : front.length + (label ++ value).length - (front ++ label ++ blanks).length = kept.length := by
        rw [hvalue]
        simp only [length_append]
        omega
      rw [hleft, htext, htrimmed]
      exact skipBack_eq kept
    rw [hskip, bind_eq_bind, bind_some, hback, bind_some, Nat.add_sub_cancel_left]

theorem shown_append {response : Bytes} {view : HTTPView} (h : view.start + view.length ≤ response.length)
    (s : Bytes) : shown (response ++ s) view = shown response view := by
  rw [shown, drop_append_of_le_length (by omega), take_append_of_le_length]
  · rfl
  · rw [length_drop]
    omega

section Split

variable {β : Type} {p : UInt8 → Bool} {f : Bytes → Option β} (hf : f [] = none)
include hf

theorem findSome?_splitOnP_cons {c : UInt8} (hc : p c = true) (text : Bytes) :
    ((c :: text).splitOnP p).findSome? f = (text.splitOnP p).findSome? f := by
  have hsplit := splitOnP_append_cons_of_forall_mem (forall_mem_nil _) c hc text
  rw [nil_append] at hsplit
  rw [hsplit, findSome?_cons, hf]

theorem findSome?_splitOnP_dropWhile (text : Bytes) :
    ((text.dropWhile p).splitOnP p).findSome? f = (text.splitOnP p).findSome? f := by
  induction text with
  | nil => rfl
  | cons c text ih =>
    cases hc : p c with
    | true => rw [dropWhile_cons_of_pos hc, ih, findSome?_splitOnP_cons hf hc]
    | false => rw [dropWhile_cons_of_neg (by rw [hc]; exact Bool.false_ne_true)]

theorem findSome?_splitOnP (text : Bytes) :
    (text.splitOnP p).findSome? f =
      (f (text.takeWhile fun c => !p c)).or (((text.dropWhile fun c => !p c).splitOnP p).findSome? f) := by
  obtain ⟨line, hline⟩ : ∃ line, text.takeWhile (fun c => !p c) = line := ⟨_, rfl⟩
  have hmem : ∀ c ∈ line, p c = false := fun c hc => by
    rw [← hline] at hc
    simpa using mem_takeWhile_imp hc
  have htext : text = line ++ text.dropWhile fun c => !p c := by
    rw [← hline, takeWhile_append_dropWhile]
  rw [hline]
  cases hrest : text.dropWhile fun c => !p c with
  | nil =>
    rw [htext, hrest, append_nil, splitOnP_eq_singleton hmem, findSome?_cons]
    cases f line with
    | none =>
      rw [splitOnP_nil, findSome?_cons, hf]
      rfl
    | some value => rfl
  | cons b rest =>
    have hb : p b = true := by
      have hnot := head_dropWhile_not (fun c => !p c) (l := text) (by rw [hrest]; exact cons_ne_nil _ _)
      simpa [hrest] using hnot
    rw [htext, hrest, splitOnP_append_cons_of_forall_mem hmem b hb, findSome?_cons,
      findSome?_splitOnP_cons hf hb]
    cases f line with
    | none => rfl
    | some value => rfl

end Split

theorem fieldValue_nil (name : Bytes) : fieldValue name [] = none := by
  cases name with
  | nil => rfl
  | cons e name => rfl

theorem length_nextLine {p : UInt8 → Bool} {text : Bytes} (htext : text ≠ []) :
    ((text.dropWhile fun c => !p c).dropWhile p).length < text.length := by
  match text with
  | [] => exact absurd rfl htext
  | c :: text =>
    cases hc : p c with
    | true =>
      rw [dropWhile_cons_of_neg (by rw [hc]; exact Bool.false_ne_true), dropWhile_cons_of_pos hc]
      exact Nat.lt_succ_of_le (length_dropWhile_le p text)
    | false =>
      rw [dropWhile_cons_of_pos (by rw [hc]; rfl)]
      exact Nat.lt_succ_of_le (((dropWhile_sublist p).trans (dropWhile_sublist _)).length_le)

/-- One iteration of `HTTPFindHeader`: it looks at one line. -/
theorem findHeaderFrom_succ {name text line rest breaks next : Bytes} (fuel : Nat) (htext : text ≠ [])
    (hline : (text.takeWhile fun c => !isBreak c) = line) (hrest : (text.dropWhile fun c => !isBreak c) = rest)
    (hbreaks : rest.takeWhile isBreak = breaks) (hnext : rest.dropWhile isBreak = next) :
    findHeaderFrom (front ++ (text ++ back)) (front.length + text.length) name (fuel + 1) front.length =
      if (fieldValue name line).isSome then (do
        let cursor ← skip (front ++ (line ++ (rest ++ back))) isBlank (front.length + line.length)
          (front.length + name.length + 1)
        let finish ← skipBack (front ++ (line ++ (rest ++ back))) isBlank cursor (front.length + line.length - cursor)
        some (some ⟨cursor, finish - cursor⟩))
      else findHeaderFrom ((front ++ line ++ breaks) ++ (next ++ back))
        ((front ++ line ++ breaks).length + next.length) name fuel (front ++ line ++ breaks).length := by
  have hsplit : text = line ++ rest := by rw [← hline, ← hrest, takeWhile_append_dropWhile]
  have hrestSplit : rest = breaks ++ next := by rw [← hbreaks, ← hnext, takeWhile_append_dropWhile]
  have hlast : skip (front ++ (text ++ back)) (fun c => !isBreak c) (front.length + text.length) front.length =
      some (front.length + line.length) := by
    rw [skip_eq rfl, hline]
  have hmatch : nameMatchFrom (front ++ (text ++ back)) front.length (front.length + line.length - front.length)
      name 0 = some (fieldValue name line).isSome := by
    have hmatch := @nameMatchFrom_eq front (rest ++ back) name [] line
    rw [hsplit, append_assoc, Nat.add_sub_cancel_left]
    exact hmatch
  have hskip : skip (front ++ (text ++ back)) isBreak (front.length + text.length) (front.length + line.length) =
      some (front ++ line ++ breaks).length := by
    have hlimit : front.length + text.length = (front ++ line).length + rest.length := by
      rw [hsplit, length_append, length_append, Nat.add_assoc]
    have hplace : front ++ (text ++ back) = (front ++ line) ++ (rest ++ back) := by
      rw [hsplit]
      simp only [append_assoc]
    have hcursor : front.length + line.length = (front ++ line).length := length_append.symm
    rw [hplace, hcursor, skip_eq hlimit, hbreaks, ← length_append]
  have hin : front.length < front.length + text.length :=
    Nat.lt_add_of_pos_right (length_pos_iff.mpr htext)
  rw [findHeaderFrom, if_pos hin]
  simp only [hlast, hmatch, hskip, some_bind]
  split
  · rw [hsplit, append_assoc]
  · have hplace : front ++ (text ++ back) = (front ++ line ++ breaks) ++ (next ++ back) := by
      rw [hsplit, hrestSplit]
      simp only [append_assoc]
    have hlimit : front.length + text.length = (front ++ line ++ breaks).length + next.length := by
      rw [hsplit, hrestSplit]
      simp only [length_append]
      omega
    rw [hplace, hlimit]

/-- `HTTPFindHeader` from a line on: the view does not depend on what comes behind the header. -/
theorem findHeaderFrom_eq (name : Bytes) {fuel : Nat} (text front : Bytes) (hfuel : text.length < fuel) :
    ∃ o : Option HTTPView, o.map (shown (front ++ text)) = lookup name text ∧
      (∀ view ∈ o, view.start + view.length ≤ (front ++ text).length) ∧
      ∀ back, findHeaderFrom (front ++ (text ++ back)) (front.length + text.length) name fuel front.length = some o := by
  induction fuel generalizing text front with
  | zero => exact absurd hfuel (Nat.not_lt_zero _)
  | succ fuel ih =>
    by_cases htext : text = []
    · subst htext
      refine ⟨none, ?_, fun _ h => absurd h (not_mem_none _), fun back => ?_⟩
      · rw [lookup, splitOnP_nil, findSome?_cons, fieldValue_nil]
        rfl
      · rw [findHeaderFrom, length_nil, Nat.add_zero, if_neg (Nat.lt_irrefl _)]
    obtain ⟨line, hline⟩ : ∃ line, text.takeWhile (fun c => !isBreak c) = line := ⟨_, rfl⟩
    obtain ⟨rest, hrest⟩ : ∃ rest, text.dropWhile (fun c => !isBreak c) = rest := ⟨_, rfl⟩
    obtain ⟨breaks, hbreaks⟩ : ∃ breaks, rest.takeWhile isBreak = breaks := ⟨_, rfl⟩
    obtain ⟨next, hnext⟩ : ∃ next, rest.dropWhile isBreak = next := ⟨_, rfl⟩
    have hlookup : lookup name text = ((fieldValue name line).or
        ((next.splitOnP isBreak).findSome? (fieldValue name))).map trimmed := by
      rw [lookup, findSome?_splitOnP (fieldValue_nil name), hline, hrest, ← hnext,
        findSome?_splitOnP_dropWhile (fieldValue_nil name)]
    have hstep (back : Bytes) := @findHeaderFrom_succ front back name _ _ _ _ _ fuel htext hline hrest
      hbreaks hnext
    have hall : front ++ text = front ++ line ++ rest := by
      rw [← hline, ← hrest, append_assoc, takeWhile_append_dropWhile]
    cases hvalue : fieldValue name line with
    | some value =>
      obtain ⟨label, hlabel, hlabelLength⟩ := fieldValue_split hvalue
      obtain ⟨view, hshown, hwithin, hview⟩ := trimmed_view label value
      rw [← hlabel] at hshown hwithin
      refine ⟨some view, ?_, ?_, fun back => ?_⟩
      · rw [hlookup, hvalue, map_some, hall, shown_append hwithin, hshown]
        rfl
      · intro view' hmem
        obtain rfl := mem_some_iff.mp hmem
        rw [hall, length_append]
        exact hwithin.trans (Nat.le_add_right _ _)
      · have hview := congrArg (Option.map some) (hview (rest ++ back))
        rw [← hlabel, hlabelLength] at hview
        rw [hstep, hvalue, if_pos isSome_some]
        simpa only [Nat.add_assoc, append_assoc, bind_eq_bind, map_bind, Function.comp_def, map_some]
          using hview
    | none =>
      have hshorter : next.length < fuel := by
        have hlength := length_nextLine (p := isBreak) htext
        rw [hrest, hnext] at hlength
        omega
      obtain ⟨o, hshown, hwithin, hfind⟩ := ih next (front ++ line ++ breaks) hshorter
      have hbehind : front ++ line ++ breaks ++ next = front ++ text := by
        rw [hall, ← hbreaks, ← hnext, append_assoc, takeWhile_append_dropWhile]
      rw [hbehind] at hshown hwithin
      refine ⟨o, ?_, hwithin, fun back => ?_⟩
      · rw [hshown, hlookup, hvalue, none_or, lookup]
      · rw [hstep, hvalue]
        exact hfind back

/-- `HTTPFindHeader` finds the first header line of the name. -/
theorem findHeader_eq {header body name : Bytes} (hname : name ≠ [])
    (hheader : ∀ s, headerOf (header ++ (body ++ s)) = some (header, body ++ s)) :
    ∃ o : Option HTTPView, o.map (shown header) = lookup name header ∧
      (∀ view ∈ o, view.start + view.length ≤ header.length) ∧
      ∀ s, findHeader (header ++ (body ++ s)) name = some o := by
  obtain ⟨o, hshown, hwithin, hfind⟩ := findHeaderFrom_eq name header [] (Nat.lt_succ_self _)
  simp only [nil_append, length_nil, Nat.zero_add] at hshown hwithin hfind
  refine ⟨o, hshown, hwithin, fun s => ?_⟩
  have hlength := (headerOf_length (hheader s)).1
  have hfound : ¬(header.length = 0 ∨ name = []) := not_or.mpr ⟨by omega, hname⟩
  rw [findHeader, headerLength_eq, hheader, some_bind, map_some, getD_some,
    if_neg hfound]
  exact hfind (body ++ s)

theorem findHeader_none {response : Bytes} (name : Bytes) (h : headerOf response = none) :
    findHeader response name = some none := by
  rw [findHeader, headerLength_eq, h, some_bind]
  exact if_pos (Or.inl rfl)

/-! ## The declared length -/

theorem valueFrom_eq (bits : Nat) (text before : Bytes) (value : Nat) :
    valueFrom (front ++ ((before ++ text) ++ back)) bits front.length text.length before.length (value % 2 ^ bits) =
      some (if text.all isDigit then
        some (text.foldl (fun value digit => value * 10 + (digit.toNat - 48)) value % 2 ^ bits) else none) := by
  induction text generalizing before value with
  | nil => rfl
  | cons c text ih =>
    have hread : (front ++ ((before ++ c :: text) ++ back))[front.length + before.length]? = some c := by
      rw [append_assoc, ← append_assoc front, ← length_append]
      exact getElem?_place
    have hbefore : (before ++ [c]).length = before.length + 1 := length_append
    have hnext := ih (before ++ [c]) (value * 10 + (c.toNat - 48))
    rw [append_assoc before, singleton_append, hbefore] at hnext
    have hvalue : (value % 2 ^ bits * 10 + (c.toNat - 48)) % 2 ^ bits = (value * 10 + (c.toNat - 48)) % 2 ^ bits :=
      Nat.ModEq.add_right _ (Nat.ModEq.mul_right _ (Nat.mod_modEq _ _))
    rw [length_cons, valueFrom, hread, some_bind, hvalue, all_cons]
    cases hc : isDigit c with
    | true => exact hnext
    | false => rfl

/-- `HTTPContentLength` is the declared length, as a word. -/
theorem contentLength_eq (bits : Nat) {header body : Bytes}
    (hheader : ∀ s, headerOf (header ++ (body ++ s)) = some (header, body ++ s)) (s : Bytes) :
    contentLength (header ++ (body ++ s)) bits =
      some ((declared (header ++ (body ++ s))).map (· % 2 ^ bits)) := by
  obtain ⟨o, hshown, hwithin, hfind⟩ := findHeader_eq (by decide : contentLengthName ≠ []) hheader
  rw [contentLength, hfind, some_bind, declared, hheader, some_bind, ← hshown]
  cases o with
  | none => rfl
  | some view =>
    have hin := hwithin view rfl
    obtain ⟨value, hvalue⟩ : ∃ value, shown header view = value := ⟨_, rfl⟩
    have hlength : value.length = view.length := by
      rw [← hvalue, shown, length_take, length_drop]
      omega
    have hplace : header ++ (body ++ s) =
        header.take view.start ++ (([] ++ value) ++ (header.drop (view.start + view.length) ++ (body ++ s))) := by
      rw [← hvalue, shown, nil_append, ← drop_drop, ← append_assoc (List.take view.length _),
        take_append_drop, ← append_assoc (List.take view.start _), take_append_drop]
    have hstart : (header.take view.start).length = view.start := by
      rw [length_take]
      omega
    have hfold := @valueFrom_eq (header.take view.start) (header.drop (view.start + view.length) ++
      (body ++ s)) bits value [] 0
    rw [← hplace, hstart, hlength, Nat.zero_mod] at hfold
    rw [map_some, some_bind, hvalue]
    by_cases hempty : value = []
    · rw [hempty] at hlength
      rw [if_neg (fun h => h.1 hempty)]
      exact if_pos hlength.symm
    · have hlong : view.length ≠ 0 := fun h => hempty (length_eq_zero_iff.mp (hlength.trans h))
      refine (if_neg hlong).trans (hfold.trans ?_)
      by_cases hdigits : value.all isDigit = true
      · rw [if_pos hdigits, if_pos ⟨hempty, hdigits⟩]
        rfl
      · rw [if_neg hdigits, if_neg (fun h => hdigits h.2)]
        rfl

end Lines

/-! ## The status line -/

/-- The status code of the text from the first space on, and 0 if there is none. -/
def codeOf : Bytes → Nat
  | _ :: a :: b :: c :: _ =>
      if isDigit a && isDigit b && isDigit c then
        ((a.toNat - 48) * 10 + (b.toNat - 48)) * 10 + (c.toNat - 48)
      else 0
  | _ => 0

theorem codeOf_short {text : Bytes} (h : text.length < 4) : codeOf text = 0 := by
  match text with
  | [] | [_] | [_, _] | [_, _, _] => rfl
  | _ :: _ :: _ :: _ :: _ => exact absurd h (by simp only [length_cons]; omega)

theorem startsFrom_eq (expected text front : Bytes) (h : expected.length ≤ text.length) :
    startsFrom (front ++ text) expected front.length = some (expected.isPrefixOf text) := by
  induction expected generalizing text front with
  | nil => rfl
  | cons e expected ih =>
    match text with
    | [] => exact absurd h (Nat.not_succ_le_zero _)
    | c :: text =>
      have hnext := ih text (front ++ [c]) (Nat.le_of_succ_le_succ h)
      have hfront : (front ++ [c]).length = front.length + 1 := length_append
      rw [append_assoc, singleton_append, hfront] at hnext
      rw [startsFrom, getElem?_place, some_bind, isPrefixOf_cons_cons]
      by_cases hc : c = e
      · rw [if_neg (not_not.mpr hc), hnext, hc, beq_self_eq_true, Bool.true_and]
      · rw [if_pos hc, beq_eq_false_iff_ne.mpr (Ne.symm hc), Bool.false_and]

theorem digitsFrom_eq (front back : Bytes) (sep a b c : UInt8) :
    digitsFrom (front ++ sep :: a :: b :: c :: back) (front.length + 1) 3 0 0 =
      some (codeOf (sep :: a :: b :: c :: back)) := by
  have hplace (k : Nat) : (front ++ sep :: a :: b :: c :: back)[front.length + 1 + k]? = (a :: b :: c :: back)[k]? := by
    rw [getElem?_append_right (by omega), show front.length + 1 + k - front.length = k + 1 by omega]
    rfl
  simp only [digitsFrom, hplace, getElem?_cons_zero, getElem?_cons_succ, some_bind, codeOf]
  cases isDigit a with
  | false => simp
  | true =>
    cases isDigit b with
    | false => simp
    | true => cases isDigit c <;> simp

theorem parseStatusCode_eq {response : Bytes} (h : 12 ≤ response.length) :
    parseStatusCode response = some (if protocol <+: response then codeOf (statusText response) else 0) := by
  have hstarts : startsFrom response protocol 0 = some (protocol.isPrefixOf response) :=
    startsFrom_eq protocol response [] (Nat.le_trans (by decide) h)
  rw [parseStatusCode, if_neg (Nat.not_lt.mpr h), hstarts, some_bind]
  by_cases hprotocol : protocol <+: response
  · rw [List.isPrefixOf_iff_prefix.mpr hprotocol, if_pos hprotocol]
    obtain ⟨rest, rfl⟩ := hprotocol
    obtain ⟨version, hversion⟩ : ∃ version, rest.takeWhile (· != 32) = version := ⟨_, rfl⟩
    obtain ⟨text, htext⟩ : ∃ text, rest.dropWhile (· != 32) = text := ⟨_, rfl⟩
    have hsplit : rest = version ++ text := by rw [← hversion, ← htext, takeWhile_append_dropWhile]
    have hstatus : statusText (protocol ++ rest) = text := htext
    have hskip : skip (protocol ++ rest) (· != 32) (protocol ++ rest).length 5 = some (protocol ++ version).length := by
      have hskip := @skip_eq protocol rest [] (· != 32) _ rfl
      rw [append_nil, hversion, ← length_append, ← length_append] at hskip
      exact hskip
    have hall : protocol ++ rest = (protocol ++ version) ++ text := by rw [hsplit, append_assoc]
    rw [hstatus, Bool.not_true, if_neg Bool.false_ne_true, hskip, some_bind, hall,
      @length_append _ (protocol ++ version)]
    match text with
    | [] | [_] | [_, _] | [_, _, _] =>
      rw [codeOf_short (by simp only [length_cons, length_nil]; omega)]
      exact if_pos (by simp only [length_cons, length_nil]; omega)
    | sep :: a :: b :: c :: back =>
      have hsep : sep = 32 := by
        have hnot := head_dropWhile_not (fun c : UInt8 => c != 32) (l := rest)
          (by rw [htext]; exact cons_ne_nil _ _)
        simpa [htext] using hnot
      have hroom : ¬ (protocol ++ version).length + 4 > (protocol ++ version).length +
          (sep :: a :: b :: c :: back).length := by
        simp only [length_cons]
        omega
      rw [if_neg hroom, getElem?_place, some_bind, if_neg (not_not.mpr hsep)]
      exact digitsFrom_eq (protocol ++ version) back sep a b c
  · have hnot : protocol.isPrefixOf response = false := Bool.eq_false_iff.mpr fun h =>
      hprotocol (List.isPrefixOf_iff_prefix.mp h)
    rw [hnot, if_neg hprotocol]
    rfl

theorem isBreak_of_isDigit {c : UInt8} (h : isDigit c = true) : (!isBreak c) = true := by
  rw [isDigit, Bool.and_eq_true, decide_eq_true_eq, decide_eq_true_eq] at h
  rw [isBreak, Bool.not_eq_true', Bool.or_eq_false_iff, beq_eq_false_iff_ne, beq_eq_false_iff_ne]
  constructor <;> rintro rfl <;> exact absurd h.1 (by decide)

/-- Two line ends need four bytes, a code that is there needs four other ones. -/
theorem codeOf_brief {text : Bytes} (hbreaks : 4 ≤ text.countP isBreak) (hshort : text.length < 7) :
    codeOf (text.dropWhile (· != 32)) = 0 := by
  obtain ⟨rest, hrest⟩ : ∃ rest, text.dropWhile (· != 32) = rest := ⟨_, rfl⟩
  rw [hrest]
  match rest with
  | [] | [_] | [_, _] | [_, _, _] => rfl
  | sep :: a :: b :: c :: back =>
    have hsep : sep = 32 := by
      have hnot := head_dropWhile_not (fun c : UInt8 => c != 32) (l := text)
        (by rw [hrest]; exact cons_ne_nil _ _)
      simpa [hrest] using hnot
    have hothers : (sep :: a :: b :: c :: back).countP (fun c => !isBreak c) ≤ text.countP fun c => !isBreak c := by
      rw [← hrest]
      exact (dropWhile_sublist _).countP_le
    have hcount : text.length = text.countP isBreak + text.countP fun c => !isBreak c := by
      simpa using length_eq_countP_add_countP isBreak (l := text)
    rw [codeOf]
    split
    · next hdigits =>
      rw [Bool.and_eq_true, Bool.and_eq_true] at hdigits
      have hcons (c : UInt8) (hc : (!isBreak c) = true) (rest : Bytes) :
          (c :: rest).countP (fun c => !isBreak c) = rest.countP (fun c => !isBreak c) + 1 :=
        countP_cons_of_pos (p := fun c => !isBreak c) hc
      rw [hcons sep (by rw [hsep]; decide), hcons a (isBreak_of_isDigit hdigits.1.1),
        hcons b (isBreak_of_isDigit hdigits.1.2), hcons c (isBreak_of_isDigit hdigits.2)] at hothers
      omega
    · rfl

theorem countP_terminator {response : Bytes} (h : terminator <:+: response) : 4 ≤ response.countP isBreak := by
  obtain ⟨before, after, rfl⟩ := h
  rw [countP_append, countP_append, show terminator.countP isBreak = 4 from rfl]
  omega

theorem parseStatusCode_of_header {response : Bytes} (h : terminator <:+: response) :
    parseStatusCode response = some (if protocol <+: response then codeOf (statusText response) else 0) := by
  by_cases hlong : 12 ≤ response.length
  · exact parseStatusCode_eq hlong
  · rw [parseStatusCode, if_pos (Nat.lt_of_not_le hlong)]
    split
    · next hprotocol =>
      have hbreaks := countP_terminator h
      obtain ⟨text, rfl⟩ := hprotocol
      rw [countP_append, show protocol.countP isBreak = 0 from rfl, Nat.zero_add] at hbreaks
      rw [length_append, show protocol.length = 5 from rfl] at hlong
      exact congrArg some (codeOf_brief hbreaks (by omega)).symm
    · rfl

section Line

variable {p : UInt8 → Bool} {b : UInt8}

theorem skip_line (behind ahead : Bytes) (hb : p b = false) :
    ∃ behind' ahead', behind ++ ahead = behind' ++ ahead' ∧
      ∀ back, skip (behind ++ ahead ++ b :: back) p (behind ++ ahead ++ b :: back).length behind.length =
        some behind'.length := by
  refine ⟨behind ++ ahead.takeWhile p, ahead.dropWhile p, ?_, fun back => ?_⟩
  · rw [append_assoc, takeWhile_append_dropWhile]
  · have hstop : (ahead ++ b :: back).takeWhile p = ahead.takeWhile p := by
      rw [takeWhile_append]
      split
      · next hall =>
        rw [takeWhile_cons_of_neg (by rw [hb]; exact Bool.false_ne_true), append_nil]
        exact ((List.takeWhile_prefix p).eq_of_length hall).symm
      · rfl
    have hskip := @skip_eq behind (ahead ++ b :: back) [] p _ rfl
    rw [append_nil, hstop, ← length_append, ← length_append, ← append_assoc] at hskip
    exact hskip

theorem skipSpace_line (behind ahead : Bytes) (hb : b ≠ 32) :
    ∃ behind' ahead', behind ++ ahead = behind' ++ ahead' ∧
      ∀ back, skipSpace (behind ++ ahead ++ b :: back) behind.length = some behind'.length := by
  have hin (back : Bytes) : behind.length < (behind ++ ahead ++ b :: back).length := by
    simp only [length_append, length_cons]
    omega
  match ahead with
  | [] =>
    refine ⟨behind, [], rfl, fun back => ?_⟩
    rw [skipSpace, if_pos (hin back), append_nil, getElem?_place, some_bind, if_neg hb]
  | c :: ahead =>
    by_cases hc : c = 32
    · refine ⟨behind ++ [c], ahead, by rw [append_assoc, singleton_append], fun back => ?_⟩
      rw [skipSpace, if_pos (hin back), append_assoc, cons_append, getElem?_place, some_bind, if_pos hc, length_append, length_singleton]
    · refine ⟨behind, c :: ahead, rfl, fun back => ?_⟩
      rw [skipSpace, if_pos (hin back), append_assoc, cons_append, getElem?_place, some_bind, if_neg hc]

/-- `HTTPParseStatusLine`: the reason is in the first line. -/
theorem parseStatusLine_eq (line : Bytes) (hb : isBreak b = true) :
    ∃ reason, ∀ back, parseStatusLine (line ++ b :: back) = (parseStatusCode (line ++ b :: back)).map fun code =>
      if code = 0 then none else some ⟨code % 2 ^ 16, reason⟩ := by
  have hspace : b ≠ 32 := by
    rintro rfl
    exact absurd hb (by decide)
  have hdigit : isDigit b = false := Bool.eq_false_iff.mpr fun h => by
    have hnot := isBreak_of_isDigit h
    rw [hb] at hnot
    exact Bool.false_ne_true hnot
  obtain ⟨behind₁, ahead₁, h₁, hskip₁⟩ := skip_line (p := fun c => c != 32 && !isBreak c) [] line
    (by rw [hb, Bool.not_true, Bool.and_false])
  rw [nil_append] at h₁
  obtain ⟨behind₂, ahead₂, h₂, hskip₂⟩ := skipSpace_line behind₁ ahead₁ hspace
  obtain ⟨behind₃, ahead₃, h₃, hskip₃⟩ := skip_line (p := isDigit) behind₂ ahead₂ hdigit
  obtain ⟨behind₄, ahead₄, h₄, hskip₄⟩ := skipSpace_line behind₃ ahead₃ hspace
  obtain ⟨behind₅, ahead₅, h₅, hskip₅⟩ := skip_line (p := fun c => !isBreak c) behind₄ ahead₄
    (by rw [hb, Bool.not_true])
  refine ⟨⟨behind₄.length, behind₅.length - behind₄.length⟩, fun back => ?_⟩
  have hskip₁ := hskip₁ back
  have hskip₂ := hskip₂ back
  have hskip₃ := hskip₃ back
  have hskip₄ := hskip₄ back
  have hskip₅ := hskip₅ back
  rw [nil_append] at hskip₁
  rw [← h₁] at hskip₂
  rw [← h₂, ← h₁] at hskip₃
  rw [← h₃, ← h₂, ← h₁] at hskip₄
  rw [← h₄, ← h₃, ← h₂, ← h₁] at hskip₅
  rw [parseStatusLine]
  cases parseStatusCode (line ++ b :: back) with
  | none => rfl
  | some code =>
    rw [bind_eq_bind, bind_some, map_some]
    by_cases hcode : code = 0
    · rw [if_pos hcode, if_pos hcode]
    · rw [if_neg hcode, if_neg hcode]
      simp only [length_nil] at hskip₁
      simp only [hskip₁, hskip₂, hskip₃, hskip₄, hskip₅, bind_some]

end Line

/-! ## Every read is in the response -/

theorem skip_some (p : UInt8 → Bool) {response : Bytes} {limit cursor : Nat} (hlimit : limit ≤ response.length)
    (hcursor : cursor ≤ limit) : ∃ c, skip response p limit cursor = some c ∧ c ≤ limit := by
  obtain ⟨front, hfront⟩ : ∃ front, response.take cursor = front := ⟨_, rfl⟩
  obtain ⟨text, htext⟩ : ∃ text, (response.drop cursor).take (limit - cursor) = text := ⟨_, rfl⟩
  have hfrontLength : front.length = cursor := by
    rw [← hfront, length_take]
    omega
  have htextLength : text.length = limit - cursor := by
    rw [← htext, length_take, length_drop]
    omega
  have hsplit : response = front ++ (text ++ (response.drop cursor).drop (limit - cursor)) := by
    rw [← htext, take_append_drop, ← hfront, take_append_drop]
  have hlength := (List.takeWhile_prefix p (l := text)).length_le
  refine ⟨front.length + (text.takeWhile p).length, ?_, by omega⟩
  have hskip := @skip_eq front text ((response.drop cursor).drop (limit - cursor)) p limit (by omega)
  rw [← hsplit, hfrontLength] at hskip
  rw [hskip, hfrontLength]

theorem skipSpace_some {response : Bytes} {cursor : Nat} (hcursor : cursor ≤ response.length) :
    ∃ c, skipSpace response cursor = some c ∧ c ≤ response.length := by
  rw [skipSpace]
  split
  · next hin =>
    rw [getElem?_eq_getElem hin, some_bind]
    split
    · exact ⟨_, rfl, hin⟩
    · exact ⟨_, rfl, hcursor⟩
  · exact ⟨_, rfl, hcursor⟩

theorem parseStatusLine_some (response : Bytes) : ∃ o, parseStatusLine response = some o := by
  obtain ⟨code, hcode⟩ : ∃ code, parseStatusCode response = some code := by
    by_cases hlong : 12 ≤ response.length
    · exact ⟨_, parseStatusCode_eq hlong⟩
    · exact ⟨0, if_pos (Nat.lt_of_not_le hlong)⟩
  rw [parseStatusLine, hcode, bind_eq_bind, bind_some]
  split
  · exact ⟨_, rfl⟩
  · obtain ⟨c₁, h₁, hle₁⟩ := skip_some (fun c => c != 32 && !isBreak c) (le_refl response.length) (Nat.zero_le _)
    obtain ⟨c₂, h₂, hle₂⟩ := skipSpace_some hle₁
    obtain ⟨c₃, h₃, hle₃⟩ := skip_some isDigit (le_refl response.length) hle₂
    obtain ⟨c₄, h₄, hle₄⟩ := skipSpace_some hle₃
    obtain ⟨c₅, h₅, hle₅⟩ := skip_some (fun c => !isBreak c) (le_refl response.length) hle₄
    rw [h₁, bind_some, h₂, bind_some, h₃, bind_some, h₄, bind_some, h₅, bind_some]
    exact ⟨_, rfl⟩

theorem headerOf_extends {response header body : Bytes} (h : headerOf response = some (header, body)) (s : Bytes) :
    headerOf (header ++ (body ++ s)) = some (header, body ++ s) := by
  rw [← append_assoc, (headerOf_parts h).1]
  exact headerOf_append h s

theorem findHeader_some (response name : Bytes) : ∃ o, findHeader response name = some o := by
  cases h : headerOf response with
  | none => exact ⟨none, findHeader_none name h⟩
  | some parts =>
    by_cases hname : name = []
    · rw [findHeader, headerLength_eq, some_bind, if_pos (Or.inr hname)]
      exact ⟨none, rfl⟩
    · obtain ⟨o, -, -, hfind⟩ := findHeader_eq hname (headerOf_extends h)
      have hfound := hfind []
      rw [append_nil, (headerOf_parts h).1] at hfound
      exact ⟨o, hfound⟩

theorem parseHeader_eq (response : Bytes) :
    parseHeader response = some ((headerOf response).map fun parts =>
      (⟨0, parts.1.length⟩, ⟨parts.1.length, parts.2.length⟩)) := by
  rw [parseHeader, headerLength_eq, some_bind]
  cases h : headerOf response with
  | none => rfl
  | some parts =>
    obtain ⟨header, body⟩ := parts
    have hlength := headerOf_length h
    have hlong : header.length ≠ 0 := Nat.ne_of_gt (Nat.lt_of_lt_of_le (Nat.succ_pos 3) hlength.1)
    rw [map_some, getD_some, if_neg hlong, ← hlength.2, Nat.add_sub_cancel_left]
    rfl

/-- No function of these reads outside of the response, whatever it is. -/
theorem parseResponse_some (response : Bytes) (bits : Nat) : ∃ view, parseResponse response bits = some view := by
  obtain ⟨status, hstatus⟩ := parseStatusLine_some response
  obtain ⟨type, htype⟩ := findHeader_some response contentTypeName
  obtain ⟨length, hlength⟩ : ∃ length, contentLength response bits = some length := by
    cases h : headerOf response with
    | none =>
      rw [contentLength, findHeader_none _ h]
      exact ⟨none, rfl⟩
    | some parts =>
      have hlength := contentLength_eq bits (headerOf_extends h) []
      rw [append_nil, (headerOf_parts h).1] at hlength
      exact ⟨_, hlength⟩
  rw [parseResponse, hstatus, parseHeader_eq, hlength, htype]
  exact ⟨_, rfl⟩

/-! ## A response that grows -/

section Growth

variable {response header body : Bytes} {bits : Nat}

section

variable (h : headerOf response = some (header, body))
include h

theorem declared_append (s : Bytes) : declared (response ++ s) = declared response := by
  rw [declared, headerOf_append h, declared, h]
  rfl

theorem findHeader_append (name s : Bytes) : findHeader (response ++ s) name = findHeader response name := by
  by_cases hname : name = []
  · rw [findHeader, headerLength_eq, findHeader, headerLength_eq, bind_eq_bind, bind_some,
      bind_some, if_pos (Or.inr hname), if_pos (Or.inr hname)]
  · obtain ⟨o, -, -, hfind⟩ := findHeader_eq hname (headerOf_extends h)
    have hwhole := hfind s
    have hpart := hfind []
    rw [← append_assoc, (headerOf_parts h).1] at hwhole
    rw [append_nil, (headerOf_parts h).1] at hpart
    rw [hwhole, hpart]

theorem contentLength_of_header : contentLength response bits = some ((declared response).map (· % 2 ^ bits)) := by
  have hlength := contentLength_eq bits (headerOf_extends h) []
  rw [append_nil, (headerOf_parts h).1] at hlength
  exact hlength

theorem responseComplete_eq :
    responseComplete response bits = some true ↔ ∃ n, declared response = some n ∧ n % 2 ^ bits ≤ body.length := by
  obtain ⟨status, hstatus⟩ := parseStatusLine_some response
  obtain ⟨type, htype⟩ := findHeader_some response contentTypeName
  have hview : parseResponse response bits = some ⟨status, some (⟨0, header.length⟩, ⟨header.length, body.length⟩),
      (declared response).map (· % 2 ^ bits), type⟩ := by
    rw [parseResponse, hstatus, parseHeader_eq, h, contentLength_of_header h, htype]
    rfl
  rw [responseComplete, hview, some_bind, parses, isSome_some, Bool.or_true,
    Bool.not_true, if_neg Bool.false_ne_true]
  cases declared response with
  | none =>
    constructor
    · intro hfalse
      exact absurd (Option.some.inj hfalse) Bool.false_ne_true
    · rintro ⟨n, hn, -⟩
      exact absurd hn.symm (some_ne_none n)
  | some n =>
    constructor
    · intro htrue
      exact ⟨n, rfl, of_decide_eq_true (Option.some.inj htrue)⟩
    · rintro ⟨n', hn, hle⟩
      obtain rfl := Option.some.inj hn
      exact congrArg some (decide_eq_true hle)

end

/-- The header is there before all of the response is, and so is the line that ends it. -/
theorem exists_line (h : terminator <:+: response) : ∃ line back, response = line ++ 13 :: back := by
  obtain ⟨line, after, hresponse⟩ := h
  exact ⟨line, [10, 13, 10] ++ after, by rw [← hresponse, append_assoc]; rfl⟩

theorem codeOf_append {text : Bytes} (h : ¬(text.length < 4 ∧ text.tail.all isDigit)) (s : Bytes) :
    codeOf (text ++ s) = codeOf text := by
  match text with
  | [] => exact absurd ⟨Nat.zero_lt_succ 3, rfl⟩ h
  | _ :: _ :: _ :: _ :: _ => rfl
  | [_] => exact absurd ⟨Nat.succ_lt_succ (Nat.zero_lt_succ 2), rfl⟩ h
  | [_, a] =>
    have ha : isDigit a = false := Bool.eq_false_iff.mpr fun hdigit =>
      h ⟨by simp only [length_cons, length_nil]; omega, by simpa using hdigit⟩
    match s with
    | [] | [_] => rfl
    | b :: c :: _ => simp [codeOf, ha]
  | [_, a, b] =>
    have hab : (isDigit a && isDigit b) = false := Bool.eq_false_iff.mpr fun hdigit =>
      h ⟨by simp only [length_cons, length_nil]; omega, by simpa using hdigit⟩
    match s with
    | [] => rfl
    | c :: _ => simp [codeOf, hab]

theorem codeOf_completed {text : Bytes} (hsome : text ≠ []) (hshort : text.length < 4)
    (hdigits : text.tail.all isDigit = true) : codeOf (text ++ ascii "111") ≠ 0 := by
  have hone : isDigit 49 = true := rfl
  match text with
  | [] => exact absurd rfl hsome
  | _ :: _ :: _ :: _ :: _ => exact absurd hshort (by simp only [length_cons]; omega)
  | [_] => exact Nat.succ_ne_zero 110
  | [_, a] =>
    have ha : isDigit a = true := by simpa using hdigits
    simp [codeOf, ascii, ha, hone]
  | [_, a, b] =>
    have hab : isDigit a = true ∧ isDigit b = true := by simpa using hdigits
    simp [codeOf, ascii, hab, hone]

theorem statusText_append {text : Bytes} (h : (text.drop 5).dropWhile (· != 32) ≠ []) (hlong : 5 ≤ text.length)
    (s : Bytes) : statusText (text ++ s) = statusText text ++ s := by
  rw [statusText, drop_append_of_le_length hlong, dropWhile_append]
  have hsome : ((text.drop 5).dropWhile (· != 32)).isEmpty = false := isEmpty_eq_false_iff.mpr h
  rw [hsome, if_neg Bool.false_ne_true]
  rfl

theorem parseStatusCode_append (h : terminator <:+: response) (hopen : ¬ StatusOpen response) (s : Bytes) :
    parseStatusCode (response ++ s) = parseStatusCode response := by
  have hlonger : terminator <:+: response ++ s := h.trans (prefix_append response s).isInfix
  rw [parseStatusCode_of_header hlonger, parseStatusCode_of_header h]
  by_cases hprotocol : protocol <+: response
  · rw [if_pos (hprotocol.trans (prefix_append response s)), if_pos hprotocol]
    have htext : ¬((statusText response).length < 4 ∧ (statusText response).tail.all isDigit) := fun htext =>
      hopen ⟨hprotocol, htext⟩
    have hsome : statusText response ≠ [] := fun hnil => htext (by rw [hnil]; exact ⟨Nat.zero_lt_succ 3, rfl⟩)
    rw [statusText_append hsome hprotocol.length_le, codeOf_append htext]
  · have hnot : ¬ protocol <+: response ++ s := by
      intro hstarts
      rcases prefix_or_prefix_of_prefix hstarts (prefix_append response s) with hpre | hpre
      · exact hprotocol hpre
      · have hbreaks := (countP_terminator h).trans hpre.sublist.countP_le
        exact absurd hbreaks (by decide)
    rw [if_neg hnot, if_neg hprotocol]

theorem parseStatusLine_append (h : terminator <:+: response) (hopen : ¬ StatusOpen response) (s : Bytes) :
    parseStatusLine (response ++ s) = parseStatusLine response := by
  have hcode := parseStatusCode_append h hopen s
  obtain ⟨line, back, rfl⟩ := exists_line h
  obtain ⟨reason, hreason⟩ := parseStatusLine_eq (b := 13) line rfl
  rw [append_assoc, cons_append] at hcode ⊢
  rw [hreason, hreason, hcode]

/-- What makes the code of an open status. -/
def completion (response : Bytes) : Bytes := if statusText response = [] then ascii " 200" else ascii "111"

theorem completion_length : (completion response).length ≤ 4 := by
  rw [completion]
  split <;> decide

theorem parseStatusLine_open (h : terminator <:+: response) (hopen : StatusOpen response) :
    parseStatusLine response = some none ∧
      ∃ status, parseStatusLine (response ++ completion response) = some (some status) := by
  obtain ⟨hprotocol, hshort, hdigits⟩ := hopen
  have hlonger : terminator <:+: response ++ completion response :=
    h.trans (prefix_append response _).isInfix
  have hcode : parseStatusCode response = some 0 := by
    rw [parseStatusCode_of_header h, if_pos hprotocol, codeOf_short hshort]
  have hnext : codeOf (statusText (response ++ completion response)) ≠ 0 := by
    rw [completion]
    by_cases hnil : statusText response = []
    · have hall : ∀ c ∈ response.drop 5, (c != 32) = true := dropWhile_eq_nil_iff.mp hnil
      have hlong : 5 ≤ response.length := hprotocol.length_le
      rw [if_pos hnil, statusText, drop_append_of_le_length hlong, dropWhile_append_of_pos hall]
      decide
    · rw [if_neg hnil, statusText_append hnil hprotocol.length_le]
      exact codeOf_completed hnil hshort hdigits
  have hcode' := parseStatusCode_of_header hlonger
  rw [if_pos (hprotocol.trans (prefix_append response _))] at hcode'
  obtain ⟨line, back, hline⟩ := exists_line h
  obtain ⟨reason, hreason⟩ := parseStatusLine_eq (b := 13) line rfl
  have hpart := hreason back
  have hwhole := hreason (back ++ completion response)
  rw [← cons_append, ← append_assoc, ← hline, hcode', map_some, if_neg hnext] at hwhole
  rw [← hline, hcode, map_some, if_pos rfl] at hpart
  exact ⟨hpart, _, hwhole⟩

end Growth

/-! ## The results of the functions -/

/-- What is known of a response as soon as its header is there. -/
def known (view : HTTPResponseView) :
    Option HTTPStatusLine × Option HTTPView × Option Nat × Option HTTPView :=
  (view.status, view.header.map Prod.fst, view.contentLength, view.contentType)

/-- However the response arrives, it parses the same, and it is complete when its declared length is there. -/
structure ParsesUniformly (bits : Nat) (response : Bytes) : Prop where
  inside : (∀ name, findHeader response name ≠ none) ∧ parseResponse response bits ≠ none ∧
    responseComplete response bits ≠ none
  same : ∀ s, (response ++ s).length < 2 ^ bits →
    (parseResponse (response ++ s) bits).map known = (parseResponse response bits).map known
  stays : ∀ s, (response ++ s).length < 2 ^ bits →
    responseComplete response bits = some true → responseComplete (response ++ s) bits = some true
  complete : responseComplete response bits = some true ↔
    ∃ n, declared response = some n ∧ n ≤ bodyLength response

section Uniform

variable {response : Bytes} {bits : Nat}

theorem responseComplete_some (response : Bytes) (bits : Nat) : responseComplete response bits ≠ none := by
  obtain ⟨view, hview⟩ := parseResponse_some response bits
  rw [responseComplete, hview, some_bind]
  split
  · exact some_ne_none _
  · split <;> exact some_ne_none _

theorem parseResponse_status (response : Bytes) (bits : Nat) :
    (parseResponse response bits).map (Prod.fst ∘ known) = parseStatusLine response := by
  obtain ⟨view, hview⟩ := parseResponse_some response bits
  rw [hview, map_some]
  rw [parseResponse] at hview
  obtain ⟨status, hstatus, hview⟩ := bind_eq_some_iff.mp hview
  obtain ⟨header, -, hview⟩ := bind_eq_some_iff.mp hview
  obtain ⟨length, -, hview⟩ := bind_eq_some_iff.mp hview
  obtain ⟨type, -, hview⟩ := bind_eq_some_iff.mp hview
  obtain rfl := Option.some.inj hview
  exact hstatus.symm

theorem parseResponse_append (h : terminator <:+: response) (hopen : ¬ StatusOpen response) (s : Bytes) :
    (parseResponse (response ++ s) bits).map known = (parseResponse response bits).map known := by
  obtain ⟨⟨header, body⟩, hparts⟩ := headerOf_of_infix h
  have hlonger := headerOf_append hparts s
  obtain ⟨status, hstatus⟩ := parseStatusLine_some response
  obtain ⟨type, htype⟩ := findHeader_some response contentTypeName
  rw [parseResponse, parseResponse, parseStatusLine_append h hopen, hstatus, parseHeader_eq, parseHeader_eq, hparts,
    hlonger, contentLength_of_header hparts, contentLength_of_header hlonger, declared_append hparts,
    findHeader_append hparts, htype]
  rfl

/-- A response with a header parses the same however it arrives exactly when its status code is not still to come,
and the declared length is a word, or what is left of it in a word is longer than the body. -/
theorem parses_uniformly_iff (hheader : terminator <:+: response) (hroom : response.length + 4 < 2 ^ bits) :
    ParsesUniformly bits response ↔
      ¬ StatusOpen response ∧ ∀ n, declared response = some n → n < 2 ^ bits ∨ bodyLength response < n % 2 ^ bits := by
  obtain ⟨⟨header, body⟩, hparts⟩ := headerOf_of_infix hheader
  have hbody : bodyLength response = body.length := by rw [bodyLength, hparts]
  have hlength := headerOf_length hparts
  rw [hbody]
  constructor
  · intro huniform
    refine ⟨fun hopen => ?_, fun n hn => ?_⟩
    · obtain ⟨hnone, status, hsome⟩ := parseStatusLine_open hheader hopen
      have hshort : (completion response).length ≤ 4 := completion_length
      have hsame := huniform.same (completion response) (by rw [length_append]; omega)
      have hstatus := congrArg (Option.map Prod.fst) hsame
      rw [Option.map_map, Option.map_map] at hstatus
      have hwhole := (parseResponse_status _ bits).symm.trans (hstatus.trans (parseResponse_status response bits))
      rw [hnone, hsome] at hwhole
      exact some_ne_none status (Option.some.inj hwhole)
    · by_contra hnot
      rw [not_or, Nat.not_lt, Nat.not_lt] at hnot
      have hcomplete := huniform.complete.mp ((responseComplete_eq hparts).mpr ⟨n, hn, hnot.2⟩)
      obtain ⟨n', hn', hle⟩ := hcomplete
      obtain rfl := Option.some.inj (hn.symm.trans hn')
      omega
  · rintro ⟨hopen, hfits⟩
    refine ⟨⟨fun name => ?_, ?_, responseComplete_some response bits⟩, fun s _ => parseResponse_append hheader hopen s,
      fun s _ hcomplete => ?_, ?_⟩
    · obtain ⟨o, ho⟩ := findHeader_some response name
      exact fun hnone => some_ne_none o (ho.symm.trans hnone)
    · obtain ⟨view, hview⟩ := parseResponse_some response bits
      exact fun hnone => some_ne_none view (hview.symm.trans hnone)
    · obtain ⟨n, hn, hle⟩ := (responseComplete_eq hparts).mp hcomplete
      refine (responseComplete_eq (headerOf_append hparts s)).mpr ⟨n, ?_, ?_⟩
      · rw [declared_append hparts, hn]
      · rw [length_append]
        exact hle.trans (Nat.le_add_right _ _)
    · rw [responseComplete_eq hparts]
      refine exists_congr fun n => and_congr_right fun hn => ?_
      rw [hbody]
      rcases hfits n hn with hword | hlong
      · rw [Nat.mod_eq_of_lt hword]
      · exact ⟨fun hle => absurd hle (Nat.not_le.mpr hlong), fun hle =>
          absurd ((Nat.mod_le n _).trans hle) (Nat.not_le.mpr hlong)⟩

end Uniform

theorem parses_uniformly_ok :
    ParsesUniformly 64 (ascii "HTTP/1.1 200 OK\r\nContent-Length: 2\r\n\r\nok") ↔
      ¬ StatusOpen (ascii "HTTP/1.1 200 OK\r\nContent-Length: 2\r\n\r\nok") ∧
        ∀ n, declared (ascii "HTTP/1.1 200 OK\r\nContent-Length: 2\r\n\r\nok") = some n →
          n < 2 ^ 64 ∨ bodyLength (ascii "HTTP/1.1 200 OK\r\nContent-Length: 2\r\n\r\nok") < n % 2 ^ 64 :=
  parses_uniformly_iff ⟨ascii "HTTP/1.1 200 OK\r\nContent-Length: 2", ascii "ok", rfl⟩ (by decide)

/-- A status line that has no code yet takes one from the body, and a length of 2^64 is none. -/
theorem parses_otherwise :
    (terminator <:+: ascii "HTTP/\r\n\r\n" ∧ ¬ ParsesUniformly 64 (ascii "HTTP/\r\n\r\n")) ∧
      terminator <:+: ascii "content-length:18446744073709551616\r\n\r\n" ∧
        ¬ ParsesUniformly 64 (ascii "content-length:18446744073709551616\r\n\r\n") := by
  refine ⟨⟨⟨ascii "HTTP/", [], rfl⟩, ?_⟩, ⟨ascii "content-length:18446744073709551616", [], rfl⟩, ?_⟩
  · intro huniform
    have hsame := huniform.same (ascii " 200") (by decide)
    exact absurd hsame (by decide)
  · intro huniform
    obtain ⟨n, hn, hle⟩ := huniform.complete.mp (by decide)
    have hdeclared : declared (ascii "content-length:18446744073709551616\r\n\r\n") = some (2 ^ 64) := by decide
    obtain rfl := Option.some.inj (hdeclared.symm.trans hn)
    exact absurd hle (by decide)

end Unisym.Network.HTTP
