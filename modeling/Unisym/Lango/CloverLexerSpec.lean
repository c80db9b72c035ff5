/-
# `CloverLexerSpec` — texts and their tokens

The tokens of a text are those of its parts, where the parts do not run together: `Closed` parts
may stand before anything, `Open` ones before a space or a mark.
-/
import Unisym.Lango.CloverLexer
import Unisym.Lango.CloverPrinter

namespace Unisym.Lango

open List

variable {ch : Char} {text rest : Text} {token : Filling}

/-! ## The next token -/

theorem isWordChar_iff : isWordChar ch = true ↔
    isSpace ch = false ∧ ch ≠ ';' ∧ isPunctuation ch = false ∧ ch ≠ '-' := by
  simp only [isWordChar, Bool.and_eq_true, Bool.not_eq_true', decide_eq_true_eq, and_assoc]

theorem skipIgnored_length : (comment : Bool) → (text : Text) →
    (skipIgnored comment text).length ≤ text.length
  | _, [] => Nat.le_refl _
  | comment, ch :: rest => by
    unfold skipIgnored
    split
    · exact Nat.le_succ_of_le (skipIgnored_length _ rest)
    split
    · exact Nat.le_succ_of_le (skipIgnored_length _ rest)
    split
    · exact Nat.le_succ_of_le (skipIgnored_length _ rest)
    · exact Nat.le_refl _

theorem skipIgnored_head : {comment : Bool} → {text : Text} →
    skipIgnored comment text = ch :: rest → isSpace ch = false ∧ ch ≠ ';'
  | _, [], h => by cases h
  | comment, c :: text, h => by
    unfold skipIgnored at h
    split at h
    · exact skipIgnored_head h
    split at h
    · exact skipIgnored_head h
    split at h
    · exact skipIgnored_head h
    · cases h
      exact ⟨Bool.eq_false_iff.mpr ‹_›, ‹_›⟩

theorem quoted_length : (token : Filling) → (text : Text) →
    (quoted token text).2.length ≤ text.length
  | token, text => by
    fun_induction quoted token text with
    | case1 | case2 | case3 => simp only [length_cons, length_nil]; omega
    | case4 token ch rest ih => simp only [length_cons]; omega
    | case5 token ch rest _ _ _ ih => simp only [length_cons]; omega

theorem word_rest : (token : Filling) → (text : Text) →
    (word token text).2 = text.dropWhile isWordChar
  | _, [] => rfl
  | token, ch :: rest => by
    rw [word, dropWhile_cons]
    split
    · exact word_rest _ rest
    · rfl

theorem word_length (token : Filling) (text : Text) :
    (word token text).2.length ≤ text.length := by
  rw [word_rest]
  exact (dropWhile_sublist _).length_le

theorem next_length {t : Text} (h : next text = some (t, rest)) : rest.length < text.length := by
  have hskip := skipIgnored_length false text
  unfold next at h
  cases hs : skipIgnored false text with
  | nil => rw [hs] at h; cases h
  | cons ch tail =>
    obtain ⟨hspace, hcomment⟩ := skipIgnored_head hs
    rw [hs] at h hskip
    rw [length_cons] at hskip
    refine Nat.lt_of_lt_of_le (Nat.lt_succ_of_le ?_) hskip
    dsimp only at h
    split at h
    · cases h
      exact quoted_length _ _
    split at h
    · cases h
      exact Nat.le_refl _
    case isFalse hmark =>
      split at h
      · split at h
        · cases h
          exact Nat.le_succ _
        · cases h
          exact word_length _ _
      case isFalse hminus =>
        cases h
        have hword : isWordChar ch = true :=
          isWordChar_iff.mpr ⟨hspace, hcomment, Bool.eq_false_iff.mpr hmark, hminus⟩
        rw [word, if_pos hword]
        exact word_length _ _

theorem tokensOf_length : (fuel : Nat) → (text : Text) → text.length ≤ fuel →
    tokensOf fuel text = lex text
  | 0, text, h => by
    rw [length_eq_zero_iff.mp (Nat.le_zero.mp h)]
    rfl
  | fuel + 1, text, h => by
    unfold lex
    cases htext : text.length with
    | zero =>
      rw [length_eq_zero_iff.mp htext]
      rfl
    | succ n =>
      rw [tokensOf, tokensOf]
      cases hnext : next text with
      | none => rfl
      | some pair =>
        obtain ⟨t, rest⟩ := pair
        have hlt := next_length hnext
        show t :: tokensOf fuel rest = t :: tokensOf n rest
        rw [tokensOf_length fuel rest (by omega), tokensOf_length n rest (by omega)]

theorem lex_of_next {t : Text} (h : next text = some (t, rest)) : lex text = t :: lex rest := by
  have hlt := next_length h
  rw [← tokensOf_length (text.length - 1 + 1) text (by omega), tokensOf, h]
  show t :: tokensOf (text.length - 1) rest = _
  rw [tokensOf_length _ rest (by omega)]

theorem lex_congr {text' : Text} (h : next text = next text') : lex text = lex text' := by
  cases hnext : next text' with
  | none =>
    have hnone (t : Text) (ht : next t = none) : lex t = [] := by
      unfold lex
      cases t.length with
      | zero => rfl
      | succ n => rw [tokensOf, ht]
    rw [hnone text (h.trans hnext), hnone text' hnext]
  | some pair =>
    obtain ⟨t, rest⟩ := pair
    rw [lex_of_next (h.trans hnext), lex_of_next hnext]

/-! ## One token -/

theorem lex_space (h : isSpace ch = true) : lex (ch :: rest) = lex rest := by
  refine lex_congr ?_
  unfold next
  rw [skipIgnored, if_neg (by decide), if_pos h]

/-- A text that goes on behind a word: it is over, or with something else. -/
def Delimited (rest : Text) : Prop := ∀ ch ∈ rest.head?, isWordChar ch = false

theorem push_contents (h : nul ∉ token.contents) :
    (token.push ch).contents = token.contents ++ [ch] := by
  have hall : reference token.contents = token.contents :=
    takeWhile_eq_self_iff.mpr fun c hc => decide_eq_true fun hnul => h (hnul ▸ hc)
  unfold Filling.push
  split
  · rw [hall]
  · rfl

theorem word_append : {token : Filling} → {w : Text} → nul ∉ token.contents → nul ∉ w →
    (∀ ch ∈ w, isWordChar ch = true) → Delimited rest →
    (word token (w ++ rest)).1.contents = token.contents ++ w ∧ (word token (w ++ rest)).2 = rest
  | token, [], _, _, _, hrest => by
    cases rest with
    | nil => exact ⟨(append_nil _).symm, rfl⟩
    | cons c tail =>
      have hc : ¬ isWordChar c = true := Bool.eq_false_iff.mp (hrest c rfl)
      rw [nil_append, word, if_neg hc]
      exact ⟨(append_nil _).symm, rfl⟩
  | token, ch :: w, htoken, hnul, hw, hrest => by
    obtain ⟨hch, hw⟩ := forall_mem_cons.mp hw
    have hne : ch ≠ nul := fun h => hnul (h ▸ mem_cons_self)
    have hpush : (token.push ch).contents = token.contents ++ [ch] := push_contents htoken
    have hfree : nul ∉ (token.push ch).contents := by
      rw [hpush, mem_append, mem_singleton]
      exact fun h => h.elim htoken fun h => hne h.symm
    obtain ⟨hcontents, htail⟩ :=
      word_append hfree (fun h => hnul (mem_cons_of_mem _ h)) hw hrest
    rw [cons_append, word, if_pos hch]
    refine ⟨?_, htail⟩
    rw [hcontents, hpush, append_assoc]
    rfl

theorem isPunctuation_iff : isPunctuation ch = true ↔
    ch ∈ ['@', '%', '^', '(', ')', '{', '}', ',', '=', ':'] := by
  simp only [isPunctuation, Bool.or_eq_true, decide_eq_true_eq, mem_cons, not_mem_nil,
    or_false, or_assoc]

theorem lex_mark (h : isPunctuation ch = true) : lex (ch :: rest) = [ch] :: lex rest := by
  have hmark := isPunctuation_iff.mp h
  simp only [mem_cons, not_mem_nil, or_false] at hmark
  rcases hmark with rfl | rfl | rfl | rfl | rfl | rfl | rfl | rfl | rfl | rfl <;>
    exact lex_of_next rfl

theorem lex_arrow : lex ('-' :: '>' :: rest) = ['-', '>'] :: lex rest := lex_of_next rfl

theorem lex_word {w : Text} (hw : ∀ c ∈ ch :: w, isWordChar c = true) (hnul : nul ∉ ch :: w)
    (hquote : ch ≠ '"') (hrest : Delimited rest) : lex (ch :: w ++ rest) = (ch :: w) :: lex rest := by
  obtain ⟨hspace, hcomment, hmark, hminus⟩ := isWordChar_iff.mp (hw ch mem_cons_self)
  have hfree : nul ∉ (Filling.contents {}) := nofun
  obtain ⟨hcontents, htail⟩ := word_append hfree hnul hw hrest
  refine lex_of_next ?_
  unfold next
  rw [cons_append, skipIgnored, if_neg (by decide), if_neg (Bool.eq_false_iff.mp hspace),
    if_neg hcomment]
  dsimp only
  rw [if_neg hquote, if_neg (Bool.eq_false_iff.mp hmark), if_neg hminus, ← cons_append, hcontents, htail]
  rfl

theorem lex_minus {w : Text} (hw : ∀ c ∈ w, isWordChar c = true) (hnul : nul ∉ w)
    (harrow : w.head? ≠ some '>') (hrest : Delimited rest) :
    lex ('-' :: w ++ rest) = ('-' :: w) :: lex rest := by
  have hfree : nul ∉ (Filling.push {} '-').contents := by decide
  obtain ⟨hcontents, htail⟩ := word_append hfree hnul hw hrest
  have hminus : next ('-' :: (w ++ rest)) =
      some ((word (Filling.push {} '-') (w ++ rest)).1.contents,
        (word (Filling.push {} '-') (w ++ rest)).2) := by
    cases h : w ++ rest with
    | nil => rfl
    | cons c tail =>
      have hne : c ≠ '>' := by
        rintro rfl
        cases w with
        | nil =>
          rw [nil_append] at h
          exact absurd (hrest '>' (by rw [h]; rfl)) (by decide)
        | cons d w =>
          cases h
          exact harrow rfl
      unfold next
      rw [show skipIgnored false ('-' :: c :: tail) = '-' :: c :: tail from rfl]
      dsimp only
      rw [if_neg (by decide), if_neg (by decide), if_pos rfl]
      split
      case h_1 heq =>
        cases heq
        exact absurd rfl hne
      case h_2 => rfl
  refine lex_of_next (hminus.trans ?_)
  rw [hcontents, htail]
  rfl

theorem quoted_escape : {token : Filling} → {path : Text} → {rest : Text} →
    nul ∉ token.contents → nul ∉ path →
    (quoted token (escape path ++ '"' :: rest)).1.contents = token.contents ++ path ∧
      (quoted token (escape path ++ '"' :: rest)).2 = rest
  | token, [], rest, _, _ => by
    rw [show escape [] ++ '"' :: rest = '"' :: rest from rfl, quoted]
    exact ⟨(append_nil _).symm, rfl⟩
  | token, ch :: path, rest, htoken, hnul => by
    have hne : ch ≠ nul := fun h => hnul (h ▸ mem_cons_self)
    have hpush : (token.push ch).contents = token.contents ++ [ch] := push_contents htoken
    have hfree : nul ∉ (token.push ch).contents := by
      rw [hpush, mem_append, mem_singleton]
      exact fun h => h.elim htoken fun h => hne h.symm
    have hstep : quoted token (escape (ch :: path) ++ '"' :: rest) =
        quoted (token.push ch) (escape path ++ '"' :: rest) := by
      rw [escape, flatMap_cons, append_assoc]
      split
      case isTrue => rfl
      case isFalse hother =>
        rw [singleton_append, quoted]
        · rfl
        · exact fun h => hother (.inl h)
        · exact fun h _ => hother (.inr h)
        · exact fun _ _ h _ => hother (.inr h)
    obtain ⟨hcontents, htail⟩ :=
      @quoted_escape (token.push ch) path rest hfree fun h => hnul (mem_cons_of_mem _ h)
    rw [hstep]
    refine ⟨?_, htail⟩
    rw [hcontents, hpush, append_assoc]
    rfl

theorem lex_quoted {path : Text} (hnul : nul ∉ path) :
    lex ('"' :: (escape path ++ '"' :: rest)) = path :: lex rest := by
  obtain ⟨hcontents, htail⟩ := @quoted_escape {} path rest nofun hnul
  refine lex_of_next ?_
  have hnext : next ('"' :: (escape path ++ '"' :: rest)) =
      some ((quoted {} (escape path ++ '"' :: rest)).1.contents,
        (quoted {} (escape path ++ '"' :: rest)).2) := rfl
  rw [hnext, hcontents, htail]
  rfl

/-! ## Parts of a text -/

/-- A part that may stand before anything, with its tokens -/
def Closed (a : Text) (ts : List Text) : Prop := ∀ rest, lex (a ++ rest) = ts ++ lex rest

/-- A part that may stand before what ends a word, with its tokens -/
def Open (a : Text) (ts : List Text) : Prop := ∀ rest, Delimited rest → lex (a ++ rest) = ts ++ lex rest

/-- A part that ends a word -/
def ends : Text → Bool
  | [] => false
  | ch :: _ => !isWordChar ch

variable {a b : Text} {ts us : List Text}

theorem Closed.nil : Closed [] [] := fun _ => rfl

theorem Closed.append (h : Closed a ts) (h' : Closed b us) : Closed (a ++ b) (ts ++ us) := by
  intro rest
  rw [append_assoc, h, h', append_assoc]

theorem Closed.appendOpen (h : Closed a ts) (h' : Open b us) : Open (a ++ b) (ts ++ us) := by
  intro rest hrest
  rw [append_assoc, h, h' rest hrest, append_assoc]

theorem Closed.toOpen (h : Closed a ts) : Open a ts := fun rest _ => h rest

theorem ends_append (h : ends b = true) : Delimited (b ++ rest) := by
  cases b with
  | nil => cases h
  | cons ch b =>
    rintro c hc
    cases hc
    have hch : (!isWordChar ch) = true := h
    rwa [Bool.not_eq_true'] at hch

theorem Open.append (h : Open a ts) (h' : Closed b us) (hb : ends b = true) :
    Closed (a ++ b) (ts ++ us) := by
  intro rest
  rw [append_assoc, h _ (ends_append hb), h', append_assoc]

theorem Open.appendOpen (h : Open a ts) (h' : Open b us) (hb : ends b = true) :
    Open (a ++ b) (ts ++ us) := by
  intro rest hrest
  rw [append_assoc, h _ (ends_append hb), h' rest hrest, append_assoc]

theorem Closed.tokens (h : Closed a ts) : lex a = ts := by
  have hnil := h []
  rw [append_nil] at hnil
  exact hnil.trans (append_nil _)

/-- A text without quotes and comments that ends in a space or a mark -/
def closes (a : Text) : Bool :=
  a.all (fun ch => ch ≠ '"' && ch ≠ ';' && ch ≠ nul) &&
    a.getLast?.all fun ch => isSpace ch || isPunctuation ch

theorem closes_suffix {w : Text} (h : closes (w ++ a) = true) : closes a = true := by
  obtain ⟨hall, hlast⟩ := Bool.and_eq_true_iff.mp h
  rw [all_append, Bool.and_eq_true_iff] at hall
  refine Bool.and_eq_true_iff.mpr ⟨hall.2, ?_⟩
  cases ha : a.getLast? with
  | none => rfl
  | some ch =>
    rw [getLast?_append, ha] at hlast
    exact hlast

/-- Behind the first word of such a text there is something that ends it. -/
theorem closes_word {ch : Char} {tail : Text} (h : closes (ch :: tail) = true)
    (hspace : isSpace ch = false) (hmark : isPunctuation ch = false) :
    ends (tail.dropWhile isWordChar) = true := by
  have hlast := (Bool.and_eq_true_iff.mp h).2
  cases hdrop : tail.dropWhile isWordChar with
  | cons c rest =>
    have hhead := head?_dropWhile_not isWordChar tail
    rw [hdrop] at hhead
    exact congrArg not hhead
  | nil =>
    have hall : ∀ c ∈ tail, isWordChar c = true := dropWhile_eq_nil_iff.mp hdrop
    have hnone : ∀ c ∈ ch :: tail, (isSpace c || isPunctuation c) = false := by
      refine forall_mem_cons.mpr ⟨by rw [hspace, hmark]; rfl, fun c hc => ?_⟩
      obtain ⟨hspace', -, hmark', -⟩ := isWordChar_iff.mp (hall c hc)
      rw [hspace', hmark']
      rfl
    rw [getLast?_eq_some_getLast (cons_ne_nil ch tail)] at hlast
    have hfalse := hnone _ (getLast_mem (cons_ne_nil ch tail))
    exact absurd (hfalse.symm.trans hlast) (by decide)

/-- What may be a word without quotes and comments is one. -/
theorem open_word {ch : Char} {w : Text} (hch : isWordChar ch = true ∨ ch = '-' ∧ w.head? ≠ some '>')
    (hw : ∀ c ∈ w, isWordChar c = true) (hnul : nul ∉ ch :: w) (hquote : ch ≠ '"') :
    Open (ch :: w) [ch :: w] := by
  intro rest hrest
  rcases hch with hch | ⟨rfl, harrow⟩
  · exact lex_word (forall_mem_cons.mpr ⟨hch, hw⟩) hnul hquote hrest
  · exact lex_minus hw (fun h => hnul (mem_cons_of_mem _ h)) harrow hrest

theorem closed_of_closes : (a : Text) → closes a = true → Closed a (lex a)
  | [], _ => Closed.nil
  | ch :: tail, h => by
    have hsuffix {w r : Text} (hr : tail = w ++ r) : closes r = true := by
      subst hr
      exact closes_suffix (w := ch :: w) h
    have hall := all_eq_true.mp (Bool.and_eq_true_iff.mp h).1
    cases hspace : isSpace ch with
    | true =>
      intro rest
      rw [cons_append, lex_space hspace, lex_space hspace]
      exact closed_of_closes tail (hsuffix (nil_append _).symm) rest
    | false =>
    cases hmark : isPunctuation ch with
    | true =>
      intro rest
      rw [cons_append, lex_mark hmark, lex_mark hmark, cons_append]
      exact congrArg _ (closed_of_closes tail (hsuffix (nil_append _).symm) rest)
    | false =>
    have hch := hall ch mem_cons_self
    simp only [Bool.and_eq_true, decide_eq_true_eq] at hch
    by_cases harrow : ch = '-' ∧ tail.head? = some '>'
    · obtain ⟨rfl, harrow⟩ := harrow
      obtain ⟨tail', rfl⟩ := head?_eq_some_iff.mp harrow
      intro rest
      rw [cons_append, cons_append, lex_arrow, lex_arrow, cons_append]
      exact congrArg _ (closed_of_closes tail' (hsuffix (singleton_append).symm) rest)
    · -- a word, and behind it something that ends it
      have hsplit : tail = tail.takeWhile isWordChar ++ tail.dropWhile isWordChar :=
        takeWhile_append_dropWhile.symm
      have hlength : (tail.dropWhile isWordChar).length ≤ tail.length :=
        (dropWhile_sublist _).length_le
      have hrest := closed_of_closes (tail.dropWhile isWordChar) (hsuffix hsplit)
      have hnul : nul ∉ ch :: tail.takeWhile isWordChar := by
        intro hmem
        have hmem' : nul ∈ ch :: tail :=
          (cons_sublist_cons.mpr (takeWhile_sublist _)).subset hmem
        exact absurd (hall nul hmem') (by decide)
      have hword : Open (ch :: tail.takeWhile isWordChar) [ch :: tail.takeWhile isWordChar] := by
        refine open_word ?_ (fun c hc => mem_takeWhile_imp hc) hnul hch.1.1
        by_cases hminus : ch = '-'
        · refine .inr ⟨hminus, fun h => harrow ⟨hminus, ?_⟩⟩
          rw [head?_takeWhile] at h
          exact (Option.filter_eq_some_iff.mp h).1
        · exact .inl (isWordChar_iff.mpr ⟨hspace, hch.1.2, hmark, hminus⟩)
      have hclosed := hword.append hrest (closes_word h hspace hmark)
      rw [cons_append, ← hsplit] at hclosed
      rw [hclosed.tokens]
      exact hclosed
termination_by a => a.length

/-! ## Names -/

/-- A name that is one token again when it is printed without quotes -/
def Plain (name : Text) : Prop := lex (reference name) = [name]

theorem push_length : (token.push ch).contents.length ≤ token.contents.length + 1 := by
  have hreference : (reference token.contents).length ≤ token.contents.length :=
    (takeWhile_sublist _).length_le
  unfold Filling.push
  split <;> simp only [length_append, length_singleton] <;> omega

theorem quoted_contents_length : (token : Filling) → (text : Text) →
    (quoted token text).1.contents.length ≤ token.contents.length + text.length
  | token, text => by
    fun_induction quoted token text with
    | case1 | case2 | case3 => exact Nat.le_add_right _ _
    | case4 token ch rest ih | case5 token ch rest _ _ _ ih =>
      have hpush := @push_length ch token
      simp only [length_cons]
      omega

theorem word_contents_length : (token : Filling) → (text : Text) →
    (word token text).1.contents.length + (word token text).2.length ≤
      token.contents.length + text.length
  | token, text => by
    fun_induction word token text with
    | case1 => exact Nat.le_refl _
    | case2 token ch rest _ ih =>
      have hpush := @push_length ch token
      simp only [length_cons]
      omega
    | case3 => exact Nat.le_refl _

theorem skipIgnored_suffix : (comment : Bool) → (text : Text) → skipIgnored comment text <:+ text
  | _, [] => suffix_refl _
  | comment, ch :: rest => by
    unfold skipIgnored
    split
    · exact (skipIgnored_suffix _ rest).trans (suffix_cons _ _)
    split
    · exact (skipIgnored_suffix _ rest).trans (suffix_cons _ _)
    split
    · exact (skipIgnored_suffix _ rest).trans (suffix_cons _ _)
    · exact suffix_refl _

theorem next_of_lex {t : Text} (h : lex text = t :: ts) :
    ∃ rest, next text = some (t, rest) ∧ lex rest = ts := by
  cases hnext : next text with
  | none =>
    have hnil : lex text = lex [] := lex_congr hnext
    rw [hnil] at h
    cases h
  | some pair =>
    obtain ⟨t', rest⟩ := pair
    rw [lex_of_next hnext] at h
    cases h
    exact ⟨rest, rfl, rfl⟩

theorem reference_length (name : Text) : (reference name).length ≤ name.length :=
  (takeWhile_sublist _).length_le

theorem nul_not_mem_reference (name : Text) : nul ∉ reference name := by
  intro h
  exact absurd (mem_takeWhile_imp h) (by decide)

/-- A word that takes as many characters as it gets is the text itself. -/
theorem word_whole (htoken : nul ∉ token.contents) (hnul : nul ∉ text)
    (hlength : token.contents.length + text.length ≤ (word token text).1.contents.length) :
    (∀ c ∈ text, isWordChar c = true) ∧ (word token text).1.contents = token.contents ++ text := by
  have hcount := word_contents_length token text
  have hrest : (word token text).2 = [] := length_eq_zero_iff.mp (by omega)
  rw [word_rest] at hrest
  have hall : ∀ c ∈ text, isWordChar c = true := dropWhile_eq_nil_iff.mp hrest
  refine ⟨hall, ?_⟩
  have happend := @word_append [] token text htoken hnul hall nofun
  rw [append_nil] at happend
  exact happend.1

/-- A first token as long as the text is the text, and may stand before what ends a word. -/
theorem next_whole {r name : Text} (h : next r = some (name, rest)) (hlength : r.length ≤ name.length)
    (hnul : nul ∉ r) : r = name ∧ Open name [name] := by
  have hsuffix := skipIgnored_suffix false r
  unfold next at h
  cases hs : skipIgnored false r with
  | nil => rw [hs] at h; cases h
  | cons ch tail =>
    obtain ⟨hspace, hcomment⟩ := skipIgnored_head hs
    rw [hs] at h hsuffix
    have hle := hsuffix.length_le
    have hfree : nul ∉ ch :: tail := fun h => hnul (hsuffix.subset h)
    have htail : nul ∉ tail := fun h => hfree (mem_cons_of_mem _ h)
    have hwhole (hname : name.length ≤ (ch :: tail).length) : r = ch :: tail :=
      (hsuffix.eq_of_length (by omega)).symm
    rw [length_cons] at hle
    dsimp only at h
    split at h
    · -- a quoted token is shorter than its text
      cases h
      have hquoted := quoted_contents_length {} tail
      rw [show (Filling.contents {}).length = 0 from rfl] at hquoted
      omega
    case isFalse hquote =>
    split at h
    case isTrue hmark =>
      cases h
      have hone : (Filling.push {} ch).contents = [ch] := rfl
      rw [hone] at hlength hwhole ⊢
      have hnone : tail = [] :=
        length_eq_zero_iff.mp (Nat.le_zero.mp (Nat.le_of_succ_le_succ (hle.trans hlength)))
      have hr := hwhole (Nat.le_add_left _ _)
      rw [hnone] at hr
      exact ⟨hr, fun _ _ => lex_mark hmark⟩
    case isFalse hmark =>
    split at h
    case isTrue hminus =>
      subst hminus
      split at h
      case h_1 tail =>
        cases h
        have hone : ((Filling.push {} '-').push '>').contents = ['-', '>'] := rfl
        rw [hone] at hlength hwhole ⊢
        rw [length_cons] at hle
        have hnone : tail = [] :=
          length_eq_zero_iff.mp (Nat.le_zero.mp
            (Nat.le_of_succ_le_succ (Nat.le_of_succ_le_succ (hle.trans hlength))))
        have hr := hwhole (Nat.le_add_left _ _)
        rw [hnone] at hr
        exact ⟨hr, fun _ _ => lex_arrow⟩
      case h_2 tail harrow =>
        cases h
        have hone : (Filling.push {} '-').contents.length = 1 := rfl
        have hpush : nul ∉ (Filling.push {} '-').contents := by decide
        obtain ⟨hall, hcontents⟩ := word_whole hpush htail (by rw [hone]; omega)
        rw [hcontents] at hlength hwhole ⊢
        refine ⟨hwhole (Nat.le_refl _), open_word (.inr ⟨rfl, ?_⟩) hall hfree (by decide)⟩
        intro hhead
        obtain ⟨tail', rfl⟩ := head?_eq_some_iff.mp hhead
        exact harrow tail' rfl
    case isFalse hminus =>
      cases h
      have hnone : nul ∉ (Filling.contents {}) := nofun
      have hzero : (Filling.contents {}).length = 0 := rfl
      obtain ⟨hall, hcontents⟩ := word_whole hnone hfree (by
        rw [hzero, length_cons]
        omega)
      rw [hcontents] at hlength hwhole ⊢
      obtain ⟨hch, hall⟩ := forall_mem_cons.mp hall
      exact ⟨hwhole (Nat.le_refl _), open_word (.inl hch) hall hfree hquote⟩

/-- A plain name has no zero byte and stands as it is before what ends a word. -/
theorem Plain.open {name : Text} (h : Plain name) :
    reference name = name ∧ Open name [name] := by
  obtain ⟨rest, hnext, -⟩ := next_of_lex h
  exact next_whole hnext (reference_length name) (nul_not_mem_reference name)

end Unisym.Lango
