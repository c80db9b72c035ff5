/-
# `CommentSpec` — the comment handlers, and the loop with them

The question of a handler leaves what is behind the character in hand (`opens_spec`), the
second call reads a fitting comment as a whole (`consume_spec`).  With the iterations of
`Unisym.Text.LexingSpec` this makes the loop follow `Lexes` (`Lexes.loop`).
-/
import Unisym.Text.LexingSpec

namespace Unisym.Text

open LinearParser List

variable {m : Methods} {lp : LinearParser} {c : Char} {rem rest line body : List Char}

/-! ## The question -/

namespace LinearParser

/-- The second character of an opener is looked at and put back, also where there is none. -/
theorem Stands.peek (h : lp.Stands rem) (htext : ∀ d ∈ rem, TextByte d) :
    lp.getChar.1 = rem.head? ∧
      (lp.getChar.2.backChar (lp.getChar.1.getD charEOF)).Awaits rem ∧
      (lp.getChar.2.backChar (lp.getChar.1.getD charEOF)).linebuf = lp.linebuf := by
  cases rem with
  | nil =>
    obtain ⟨lp', hget, ⟨stack, hstack, hnil⟩, hline⟩ := h.getChar_nil
    obtain ⟨hrev, hsrc⟩ := append_eq_nil_iff.mp hnil
    cases reverse_eq_nil_iff.mp hrev
    rw [hget]
    have heof : charEOF ≠ nul := by decide
    exact ⟨rfl, .inr ⟨rfl, hsrc, hstack.push heof⟩, hline⟩
  | cons d rem =>
    have hd := htext d mem_cons_self
    obtain ⟨lp', hget, hstands, hline⟩ := h.getChar_cons hd.ne_eof
    rw [hget]
    exact ⟨rfl, .inl (hstands.backChar hd.ne_nul), hline⟩

end LinearParser

/-- What a handler answers at `c`, and what it leaves: all but `c`. -/
def Answers (style : CommentStyle) (lp : LinearParser) (c : Char) (rem : List Char)
    (r : Option (Bool × LinearParser)) : Prop :=
  ∃ lp', r = some (style.opens (c :: rem), lp') ∧ lp'.Awaits rem ∧ (c ≠ '/' → lp'.Stands rem) ∧
    lp'.linebuf = lp.linebuf

section Opens

open CommentStyle

theorem opens_sharp : opens .sharp (c :: rem) = decide (some c = some '#') := by
  unfold opens
  split <;> simp_all

theorem opens_c : opens .c (c :: rem) = (decide (c = '/') && decide (rem.head? = some '*')) := by
  cases rem <;> unfold opens <;> split <;> simp_all

theorem opens_cpp : opens .cpp (c :: rem) = (decide (c = '/') && decide (rem.head? = some '/')) := by
  cases rem <;> unfold opens <;> split <;> simp_all

theorem opens_cCpp : opens .cCpp (c :: rem) =
    (decide (c = '/') && decide (rem.head? = some '/' ∨ rem.head? = some '*')) := by
  cases rem <;> unfold opens <;> split <;> simp_all

end Opens

theorem opens_spec (style : CommentStyle) (F : Nat) (h : lp.Stands rem) (hc : TextByte c)
    (htext : ∀ d ∈ rem, TextByte d) :
    Answers style lp c rem (style.handler m F true (lp.backChar c)) := by
  have hback : (lp.backChar c).Stands (c :: rem) := h.backChar hc.ne_nul
  obtain ⟨lp₁, hget, hstands, hline⟩ := hback.getChar_cons hc.ne_eof
  obtain ⟨hpeek, hawaits, hkept⟩ := hstands.peek htext
  -- the handlers that look at two characters differ in what they ask of the second
  have htwo : ∀ p : Option Char → Prop, [DecidablePred p] →
      style.opens (c :: rem) = (decide (c = '/') && decide (p rem.head?)) →
      Answers style lp c rem (if some c ≠ some '/' then some (false, lp₁) else
        some (decide (p lp₁.getChar.1), lp₁.getChar.2.backChar (lp₁.getChar.1.getD charEOF))) := by
    intro p _ hopens
    by_cases hc : c = '/'
    · rw [decide_eq_true hc, Bool.true_and] at hopens
      rw [if_neg (not_not_intro (congrArg some hc)), hpeek, ← hopens]
      rw [hpeek] at hawaits hkept
      exact ⟨_, rfl, hawaits, fun hne => absurd hc hne, hkept.trans hline⟩
    · rw [decide_eq_false hc, Bool.false_and] at hopens
      rw [if_pos fun heq => hc (Option.some.inj heq), ← hopens]
      exact ⟨_, rfl, hstands.awaits, fun _ => hstands, hline⟩
  have hfirst : (lp.backChar c).getChar.1 = some c := by rw [hget]
  have hsecond : (lp.backChar c).getChar.2 = lp₁ := by rw [hget]
  cases style with
  | sharp =>
    show Answers .sharp lp c rem (some (decide ((lp.backChar c).getChar.1 = some '#'), (lp.backChar c).getChar.2))
    rw [hfirst, hsecond]
    rw [← opens_sharp]
    exact ⟨lp₁, rfl, hstands.awaits, fun _ => hstands, hline⟩
  | c =>
    show Answers .c lp c rem (lineParseCommentC F true (lp.backChar c))
    unfold lineParseCommentC
    dsimp only
    rw [if_pos rfl, hfirst, hsecond]
    exact htwo (· = some '*') opens_c
  | cpp =>
    show Answers .cpp lp c rem (lineParseCommentCpp m F true (lp.backChar c))
    unfold lineParseCommentCpp
    dsimp only
    rw [if_pos rfl, hfirst, hsecond]
    exact htwo (· = some '/') opens_cpp
  | cCpp =>
    show Answers .cCpp lp c rem (lineParseCommentCCpp m F true (lp.backChar c))
    unfold lineParseCommentCCpp
    dsimp only
    rw [if_pos rfl, hfirst, hsecond]
    exact htwo (fun o => o = some '/' ∨ o = some '*') opens_cCpp

/-! ## The comment -/

namespace LinearParser

/-- What a handler leaves of a comment. -/
def Consumed (r : Option (Bool × LinearParser)) (line rest : List Char) : Prop :=
  ∃ b lp', r = some (b, lp') ∧ lp'.Stands rest ∧ lp'.linebuf.Holds line

theorem restOfLine_spec (hrest : ∀ c, rest.head? = some c → isBreak c = true) (htext : ∀ d ∈ rest, TextByte d) :
    ∀ {fuel : Nat} {body line : List Char} {lp : LinearParser}, body.length < fuel →
      (∀ d ∈ body, isBreak d = false) → (∀ d ∈ body, TextByte d) → lp.Stands (body ++ rest) →
      lp.linebuf.Holds line → ∃ lp', Parsing.restOfLine fuel lp = some (rest.head?, lp') ∧
        lp'.Stands rest.tail ∧ lp'.linebuf.Holds (line ++ body) := by
  intro fuel
  induction fuel with
  | zero =>
    intro body line lp hfuel
    exact absurd hfuel (Nat.not_lt_zero _)
  | succ fuel ih =>
    intro body line lp hfuel hbody hbytes h hline
    cases body with
    | nil =>
      rw [append_nil]
      cases rest with
      | nil =>
        obtain ⟨lp', hget, hstands, hkept⟩ := Stands.getChar_nil h
        refine ⟨lp', ?_, hstands, hkept ▸ hline⟩
        simp only [Parsing.restOfLine, hget, head?_nil]
      | cons c rest =>
        obtain ⟨lp', hget, hstands, hkept⟩ := Stands.getChar_cons h (htext c mem_cons_self).ne_eof
        have hbreak : c = '\n' ∨ c = '\r' := by
          have := hrest c rfl
          unfold isBreak at this
          simpa using this
        refine ⟨lp', ?_, hstands, hkept ▸ hline⟩
        simp only [Parsing.restOfLine, hget, head?_cons]
        rw [if_pos hbreak]
    | cons c body =>
      obtain ⟨hc, hbytes⟩ := forall_mem_cons.mp hbytes
      obtain ⟨hplain, hbody⟩ := forall_mem_cons.mp hbody
      obtain ⟨lp', hget, hstands, hkept⟩ := Stands.getChar_cons h hc.ne_eof
      have hheld : lp'.linebuf.Holds line := hkept ▸ hline
      have hbreak : ¬(c = '\n' ∨ c = '\r') := by
        unfold isBreak at hplain
        simpa using hplain
      obtain ⟨lp₂, hrun, hleft, hholds⟩ := ih (Nat.lt_of_succ_lt_succ hfuel) hbody hbytes
        (show (lp'.setChar c).Stands _ from hstands) (hheld.push hc.ne_nul)
      rw [append_assoc] at hholds
      refine ⟨lp₂, ?_, hleft, hholds⟩
      simp only [Parsing.restOfLine, hget]
      rw [if_neg hbreak]
      exact hrun

theorem Stands.unread (h : lp.Stands rest.tail) (htext : ∀ d ∈ rest, TextByte d) :
    (match rest.head? with
      | none => lp
      | some c => lp.backChar c).Stands rest := by
  cases rest with
  | nil => exact h
  | cons c rest => exact Stands.backChar h (htext c mem_cons_self).ne_nul

/-- Where no line is continued, the loop of `LineParse_Comment_Cpp` reads the rest of a line. -/
theorem commentCppLoop_eq (hcont : m.lineContinuation = false) : ∀ (fuel : Nat) (last : Option Char)
    (lp : LinearParser), commentCppLoop m fuel lp.getChar.1 last lp.getChar.2 = Parsing.restOfLine fuel lp
  | 0, _, _ => rfl
  | fuel + 1, last, lp => by
    rw [Parsing.restOfLine]
    rcases lp.getChar with ⟨_ | c, lp'⟩
    · rfl
    · simp only [commentCppLoop, hcont, Bool.false_and, Bool.false_eq_true, if_false]
      rw [commentCppLoop_eq hcont fuel (some c) (lp'.setChar c)]

/-- A block comment, from the character `c` in hand on.  `last` goes to the line before `c`, and
the star that ends the comment does not. -/
theorem commentCLoop_spec (body : List Char) : ∀ {fuel : Nat} {rem line : List Char} {last c : Char}
    {lp : LinearParser}, body.length + 1 < fuel → last ≠ '*' → c :: rem = body ++ '*' :: '/' :: rest →
      (∀ d ∈ body, d ≠ '*' ∧ d ≠ '/') → (∀ d ∈ body, TextByte d) → lp.Stands rem →
      lp.linebuf.Holds line →
      ∃ lp', commentCLoop fuel (some c) last lp = some lp' ∧ lp'.Stands rest ∧
        lp'.linebuf.Holds ((if last ≠ nul then line ++ [last] else line) ++ body) := by
  have hpush : ∀ {line : List Char} {last : Char} {lp : LinearParser}, lp.linebuf.Holds line →
      (if last ≠ nul then lp.setChar last else lp).linebuf.Holds
        (if last ≠ nul then line ++ [last] else line) := by
    intro line last lp hline
    by_cases hlast : last ≠ nul
    · rw [if_pos hlast, if_pos hlast]
      exact hline.push hlast
    · rw [if_neg hlast, if_neg hlast]
      exact hline
  have hkeep : ∀ {rem : List Char} {last : Char} {lp : LinearParser}, lp.Stands rem →
      (if last ≠ nul then lp.setChar last else lp).Stands rem := by
    intro rem last lp h
    split <;> exact h
  induction body with
  | nil =>
    intro fuel rem line last c lp hfuel hlast htext _ _ h hline
    obtain ⟨rfl, rfl⟩ := List.cons.inj htext
    obtain ⟨n, rfl⟩ := Nat.exists_eq_add_of_lt hfuel
    obtain ⟨lp', hget, hstands, hkept⟩ := Stands.getChar_cons (hkeep h) (by decide)
    rw [append_nil, length_nil, Nat.zero_add, Nat.add_comm 1 n]
    refine ⟨lp', ?_, hstands, hkept ▸ hpush hline⟩
    simp only [commentCLoop, hlast, false_or]
    rw [if_neg (by decide), hget]
    rfl
  | cons b body ih =>
    intro fuel rem line last c lp hfuel hlast htext hbody hbytes h hline
    obtain ⟨rfl, htail⟩ := List.cons.inj htext
    obtain ⟨⟨hstar, hslash⟩, hbody⟩ := forall_mem_cons.mp hbody
    obtain ⟨hc, hbytes⟩ := forall_mem_cons.mp hbytes
    obtain ⟨next, rem', hrem, hnext⟩ : ∃ next rem', body ++ '*' :: '/' :: rest = next :: rem' ∧
        next ≠ charEOF := by
      cases body with
      | nil => exact ⟨'*', _, rfl, by decide⟩
      | cons d body => exact ⟨d, _, rfl, (hbytes d mem_cons_self).ne_eof⟩
    obtain ⟨n, rfl⟩ := Nat.exists_eq_add_of_lt hfuel
    have hthere : (if last ≠ nul then lp.setChar last else lp).Stands _ := hkeep h
    rw [htail.trans hrem] at hthere
    obtain ⟨lp', hget, hstands, hkept⟩ := Stands.getChar_cons hthere hnext
    have hheld : lp'.linebuf.Holds (if last ≠ nul then line ++ [last] else line) := by
      rw [hkept]
      exact hpush hline
    have hfuel' : body.length + 1 < (c :: body).length + 1 + n := by
      rw [length_cons]
      omega
    obtain ⟨lp₂, hrun, hleft, hholds⟩ := ih hfuel' hstar hrem.symm hbody hbytes hstands hheld
    rw [if_pos hc.ne_nul, append_assoc] at hholds
    refine ⟨lp₂, ?_, hleft, hholds⟩
    simp only [commentCLoop, hlast, hslash, or_self, if_false]
    rw [hget]
    exact hrun

end LinearParser

theorem consume_spec (hcont : m.lineContinuation = false) {style : CommentStyle} {com : Comment}
    (hcom : com.Fits style rest) {F : Nat} (hfuel : (com.text style ++ rest).length < F)
    (htext : ∀ d ∈ com.text style ++ rest, TextByte d)
    (h : lp.Stands ((com.text style).tail ++ rest)) (hline : lp.linebuf.Holds []) :
    Consumed (style.handler m F false lp) (com.token style) rest := by
  have hafter : ∀ d ∈ rest, TextByte d := fun d hd => htext d (mem_append_right _ hd)
  have hbytes : ∀ {body : List Char}, (∀ d ∈ body, d ∈ com.text style) → ∀ d ∈ body, TextByte d :=
    fun hmem d hd => htext d (mem_append_left _ (hmem d hd))
  have hlen : (com.text style).length < F := by
    rw [length_append] at hfuel
    exact Nat.lt_of_le_of_lt (Nat.le_add_right _ _) hfuel
  -- the end of a handler that reads the rest of a line
  have hend : ∀ {o : Option (Option Char × LinearParser)} {b : Bool} {line : List Char},
      (∃ lp', o = some (rest.head?, lp') ∧ lp'.Stands rest.tail ∧ lp'.linebuf.Holds line) →
      Consumed (o.map fun r => match r.1 with
        | none => (b, r.2)
        | some c => (b, r.2.backChar c)) line rest := by
    rintro _ b line ⟨lp', rfl, hleft, hholds⟩
    have hunread := Stands.unread hleft hafter
    cases hhead : rest.head? with
    | none =>
      rw [hhead] at hunread
      exact ⟨b, lp', rfl, hunread, hholds⟩
    | some c =>
      rw [hhead] at hunread
      exact ⟨b, lp'.backChar c, rfl, hunread, hholds⟩
  cases hcom with
  | @sharp body _ hne hbody hrest =>
    have hread := restOfLine_spec hrest hafter
      (Nat.lt_trans (Nat.lt_succ_self body.length) hlen) hbody
      (hbytes fun d hd => mem_cons_of_mem _ hd) h hline
    exact hend hread
  | @cpp body _ hbody hrest =>
    have hslash : TextByte '/' := hbytes (fun d hd => by
      cases mem_singleton.mp hd
      exact mem_cons_self) _ mem_cons_self
    have hread := restOfLine_spec hrest hafter
      (Nat.lt_trans (Nat.lt_succ_self _) hlen)
      (forall_mem_cons.mpr ⟨rfl, hbody⟩) (hbytes fun d hd => mem_cons_of_mem _ hd) h hline
    rw [← commentCppLoop_eq hcont F none] at hread
    exact hend hread
  | @line body _ hne hbody hrest =>
    obtain ⟨lp₁, hget, hstands, hkept⟩ := Stands.getChar_cons (c := '/') h (by decide)
    have hread := restOfLine_spec hrest hafter
      (Nat.lt_trans (Nat.lt_succ_self _) (Nat.lt_trans (Nat.lt_succ_self _) hlen)) hbody
      (hbytes fun d hd => mem_cons_of_mem _ (mem_cons_of_mem _ hd)) hstands (hkept ▸ hline)
    rw [← commentCppLoop_eq hcont F none] at hread
    obtain ⟨b, lp₂, hrun, hleft, hholds⟩ := hend (b := true) hread
    refine ⟨true, lp₂, ?_, hleft, hholds⟩
    have hinner : lineParseCommentCpp m F false lp₁ = some (b, lp₂) := hrun
    show lineParseCommentCCpp m F false lp = some (true, lp₂)
    unfold lineParseCommentCCpp
    dsimp only
    have hstar : (some '/' : Option Char) ≠ some '*' := by decide
    rw [hget, if_neg Bool.false_ne_true, if_neg hstar, if_pos rfl, hinner]
    rfl
  | @block body hne hbody =>
    obtain ⟨lp₁, hget, hstands, hkept⟩ := Stands.getChar_cons (c := '*') h (by decide)
    have hmem : ∀ d ∈ body, TextByte d := hbytes fun d hd =>
      mem_cons_of_mem _ (mem_cons_of_mem _ (mem_append_left _ hd))
    have htail : lp₁.Stands (body ++ '*' :: '/' :: rest) := by
      rw [show body ++ '*' :: '/' :: rest = (body ++ ['*', '/']) ++ rest from
        (append_assoc body ['*', '/'] rest).symm]
      exact hstands
    cases body with
    | nil => exact absurd rfl hne
    | cons c body =>
      obtain ⟨lp₂, hget₂, hstands₂, hkept₂⟩ :=
        Stands.getChar_cons htail (hmem c mem_cons_self).ne_eof
      have hfuel' : (c :: body).length + 1 < F := by
        have : (Comment.block (c :: body)).text .cCpp = '/' :: '*' :: ((c :: body) ++ ['*', '/']) := rfl
        rw [this, length_cons, length_cons, length_append] at hlen
        omega
      have hholds₂ : lp₂.linebuf.Holds [] := by
        rw [hkept₂, hkept]
        exact hline
      obtain ⟨lp₃, hrun, hleft, hholds⟩ := commentCLoop_spec (c :: body) hfuel'
        (show nul ≠ '*' by decide) rfl hbody hmem
        hstands₂ hholds₂
      rw [if_neg (not_not_intro rfl)] at hholds
      have hinner : lineParseCommentC F false lp₁ = some (true, lp₃) := by
        unfold lineParseCommentC
        dsimp only
        rw [hget₂, if_neg Bool.false_ne_true, hrun]
        rfl
      refine ⟨true, lp₃, ?_, hleft, hholds⟩
      show lineParseCommentCCpp m F false lp = some (true, lp₃)
      unfold lineParseCommentCCpp
      dsimp only
      rw [hget, if_neg Bool.false_ne_true, if_pos rfl, hinner]
      rfl

/-! ## The text gets shorter -/

theorem dropFeed_suffix (c : Char) (rem : List Char) : dropFeed c rem <:+ rem := by
  cases rem with
  | nil => exact suffix_rfl
  | cons cc rem =>
    show (if (cc = '\n' ∨ cc = '\r') ∧ c ≠ cc then rem else cc :: rem) <:+ cc :: rem
    split
    · exact suffix_cons _ _
    · exact suffix_rfl

/-- An escape is one character and digits.  Either the text ends in it, or nothing of what
follows the text matters. -/
theorem escaped_spec (seg : List Char) :
    (escaped seg = none ∧ (seg = [] ∨ ∃ c digits, seg = c :: digits ∧ ∀ d ∈ digits, asciiIsxdigit d = true)) ∨
      ∃ (c : Char) (digits : List Char) (r : Char × List Char), seg = c :: (digits ++ r.2) ∧ (∀ d ∈ digits, asciiIsxdigit d = true) ∧
        ∀ rest, escaped (seg ++ rest) = some (r.1, r.2 ++ rest) := by
  have hhex : ∀ {d : Char}, asciiIsdigit d = true → asciiIsxdigit d = true := fun h => by
    unfold asciiIsxdigit
    rw [h]
    rfl
  have hempty : ∀ d ∈ ([] : List Char), asciiIsxdigit d = true := fun d hd => nomatch hd
  have hsingle : ∀ {d : Char}, asciiIsxdigit d = true → ∀ x ∈ [d], asciiIsxdigit x = true :=
    fun h x hx => mem_singleton.mp hx ▸ h
  cases seg with
  | nil => exact .inl ⟨rfl, .inl rfl⟩
  | cons c seg =>
    by_cases hdigit : asciiIsdigit c = true
    · cases seg with
      | nil => exact .inl ⟨by simp only [escaped, hdigit, if_true], .inr ⟨c, [], rfl, hempty⟩⟩
      | cons n₁ seg =>
        by_cases hone : asciiIsdigit n₁ = true
        · cases seg with
          | nil =>
            exact .inl ⟨by simp only [escaped, hdigit, hone, if_true],
              .inr ⟨c, [n₁], rfl, hsingle (hhex hone)⟩⟩
          | cons n₂ seg =>
            right
            by_cases htwo : asciiIsdigit n₂ = true
            · refine ⟨c, [n₁, n₂],
                (charOf (bytdif n₂ '0' + bytdif n₁ '0' * 8 + bytdif c '0' * 8 * 8), seg), rfl, ?_,
                fun rest => ?_⟩
              · exact forall_mem_cons.mpr ⟨hhex hone, hsingle (hhex htwo)⟩
              · simp only [escaped, cons_append, hdigit, hone, htwo, if_true]
            · refine ⟨c, [n₁], (charOf (bytdif n₁ '0' + bytdif c '0'), n₂ :: seg), rfl,
                hsingle (hhex hone), fun rest => ?_⟩
              simp only [escaped, cons_append, hdigit, hone, if_true, if_neg htwo]
        · right
          refine ⟨c, [], (charOf (bytdif c '0'), n₁ :: seg), rfl, hempty, fun rest => ?_⟩
          simp only [escaped, cons_append, hdigit, if_true, if_neg hone]
    · by_cases hx : c = 'x'
      · subst hx
        cases seg with
        | nil =>
          refine .inl ⟨?_, .inr ⟨'x', [], rfl, hempty⟩⟩
          simp only [escaped, if_neg hdigit, if_true]
        | cons n₁ seg =>
          by_cases hone : asciiIsxdigit n₁ = true
          · cases seg with
            | nil =>
              refine .inl ⟨?_, .inr ⟨'x', [n₁], rfl, hsingle hone⟩⟩
              simp only [escaped, if_neg hdigit, hone, if_true]
            | cons n₂ seg =>
              right
              by_cases htwo : asciiIsxdigit n₂ = true
              · refine ⟨'x', [n₁, n₂], (charOf (hexOf n₁ * 16 + hexOf n₂), seg), rfl, ?_, fun rest => ?_⟩
                · exact forall_mem_cons.mpr ⟨hone, hsingle htwo⟩
                · simp only [escaped, cons_append, if_neg hdigit, hone, htwo, if_true]
              · refine ⟨'x', [n₁], (charOf (hexOf n₁), n₂ :: seg), rfl, hsingle hone, fun rest => ?_⟩
                simp only [escaped, cons_append, if_neg hdigit, hone, if_true, if_neg htwo]
          · right
            refine ⟨'x', [], (nul, n₁ :: seg), rfl, hempty, fun rest => ?_⟩
            simp only [escaped, cons_append, if_neg hdigit, if_true, if_neg hone]
      · right
        refine ⟨c, [], ((escSeq.lookup c).getD c, seg), rfl, hempty, fun rest => ?_⟩
        simp only [escaped, cons_append, if_neg hdigit, if_neg hx]

theorem escaped_suffix {r : Char × List Char} (h : escaped rem = some r) : r.2 <:+ rem := by
  rcases escaped_spec rem with ⟨hnone, -⟩ | ⟨c, digits, r', hrem, -, hsome⟩
  · rw [hnone] at h
    cases h
  · have hrun := hsome []
    rw [append_nil, append_nil, h] at hrun
    cases hrun
    rw [hrem]
    exact ⟨c :: digits, rfl⟩

theorem Local.string_suffix {l : Local} {q : Char} {raw : Bool} {r : Local × List Char × List Key}
    (h : l.string m c rem q raw = some r) : r.2.1 <:+ rem := by
  unfold Local.string at h
  split at h
  · cases h
    exact suffix_rfl
  · split at h
    · cases h
      exact suffix_rfl
    · split at h
      · cases hesc : escaped rem with
        | none =>
          rw [hesc] at h
          cases h
        | some r' =>
          rw [hesc] at h
          cases h
          exact escaped_suffix hesc
      · split at h
        all_goals
          cases h
          exact suffix_rfl

/-- The number scanner on lists is the one on its states. -/
theorem scanNumber_scans (rem : List Char) : ∀ s : NumScan,
    ∃ s' rest, Scans s rem s' (scanNumber s rem).1 rest ∧ (scanNumber s rem).2 = s'.putBack rest := by
  induction rem with
  | nil => exact fun s => ⟨s, [], .done s, rfl⟩
  | cons c rem ih =>
    intro s
    cases haccept : s.accept c with
    | none =>
      have hscan : scanNumber s (c :: rem) = ([], s.putBack (c :: rem)) := by rw [scanNumber, haccept]
      rw [hscan]
      exact ⟨s, c :: rem, .stop rem haccept, rfl⟩
    | some s₁ =>
      obtain ⟨s', rest, hscans, hleft⟩ := ih s₁
      have hscan : scanNumber s (c :: rem) = (c :: (scanNumber s₁ rem).1, (scanNumber s₁ rem).2) := by
        rw [scanNumber, haccept]
      rw [hscan]
      exact ⟨s', rest, .more haccept hscans, hleft⟩

theorem scanNumber_digit (hc : TextByte c) (hdigit : asciiIsdigit c = true) (rem : List Char) :
    ∃ s₁, NumScan.start.accept c = some s₁ ∧
      scanNumber .start (c :: rem) = (c :: (scanNumber s₁ rem).1, (scanNumber s₁ rem).2) := by
  obtain ⟨s₁, haccept⟩ := accept_digit .start (hc.ascii hdigit) hdigit
  refine ⟨s₁, haccept, ?_⟩
  rw [scanNumber, haccept]

theorem Ascii.textByte (h : Ascii c) : TextByte c :=
  ⟨h.1, h.ne_eof, Nat.lt_trans h.2 (by decide)⟩

/-- Behind a number the text is shorter, also where the number put its last character back. -/
theorem scanNumber_shortens (htext : ∀ d ∈ c :: rem, TextByte d) (hdigit : asciiIsdigit c = true) :
    (scanNumber .start (c :: rem)).2.length ≤ rem.length ∧
      ∀ d ∈ (scanNumber .start (c :: rem)).2, TextByte d := by
  obtain ⟨s₁, -, hscan⟩ := scanNumber_digit (htext c mem_cons_self) hdigit rem
  obtain ⟨s', rest, hscans, hleft⟩ := scanNumber_scans (c :: rem) .start
  have happend := hscans.append
  have hres := hscans.res_eq
  have htaken : 1 ≤ (scanNumber .start (c :: rem)).1.length := by
    rw [hscan]
    exact Nat.succ_le_succ (Nat.zero_le _)
  have hlen := congrArg List.length happend
  rw [length_append, length_cons] at hlen
  rw [hleft]
  constructor
  · rw [Parsing.length_putBack]
    cases hd : s'.dangling with
    | false =>
      rw [if_neg Bool.false_ne_true]
      omega
    | true =>
      have htwo := (NumScan.lastc_of_dangling hd).1
      rw [hres, show NumScan.start.res = 0 from rfl] at htwo
      rw [if_pos rfl]
      omega
  · have hrest : ∀ d ∈ rest, TextByte d := fun d hd => htext d (by
      rw [happend]
      exact mem_append_right _ hd)
    unfold NumScan.putBack
    cases hd : s'.dangling with
    | false => exact hrest
    | true =>
      rw [if_pos rfl]
      intro d hmem
      rcases mem_append.mp hmem with hmem | hmem
      · exact hrest d (mem_of_mem_take hmem)
      · rcases mem_cons.mp hmem with rfl | hmem
        · exact (NumScan.lastc_of_dangling hd).2.1.textByte
        · exact hrest d (mem_of_mem_drop hmem)

theorem Local.text_shortens (l : Local) (htext : ∀ d ∈ c :: rem, TextByte d) :
    (l.text m c rem).2.1.length ≤ rem.length ∧ ∀ d ∈ (l.text m c rem).2.1, TextByte d := by
  have hrem : rem.length ≤ rem.length ∧ ∀ d ∈ rem, TextByte d :=
    ⟨Nat.le_refl _, fun d hd => htext d (mem_cons_of_mem _ hd)⟩
  unfold Local.text
  split
  · exact hrem
  · split
    · next h =>
      exact scanNumber_shortens htext (Bool.and_eq_true_iff.mp (Bool.and_eq_true_iff.mp h).1).1
    · split
      · split <;> exact hrem
      · split <;> exact hrem

/-! ## Plain text -/

namespace Local

variable {l : Local}

/-- Where the next character stands, outside of a string. -/
def mode (l : Local) : Mode := if l.type = .identy then .ident else .other

theorem mode_eq_ident (h : l.type = .identy) : l.mode = .ident := if_pos h

theorem mode_eq_other (h : l.type ≠ .identy) : l.mode = .other := if_neg h

/-- Behind a character that is of no identifier and no number. -/
theorem next_other (hident : Parsing.isIdenty m c = false) (l : Local) : l.mode.next m c = .other := by
  have hdigit : asciiIsdigit c = false := (Bool.or_eq_false_iff.mp (Bool.or_eq_false_iff.mp hident).1).2
  have henter : Mode.enter m c = .other := by
    unfold Mode.enter
    rw [hdigit, hident]
    rfl
  unfold mode
  split
  · show (if Parsing.isIdenty m c then Mode.ident else Mode.enter m c) = _
    rw [hident, henter]
    rfl
  · exact henter

theorem next_break (hc : c = '\n' ∨ c = '\r') (l : Local) : l.mode.next m c = .other := by
  refine next_other ?_ l
  rcases hc with rfl | rfl <;> simp [Parsing.isIdenty] <;> decide

/-- The tokens of `apd` at a number, and of the number. -/
def number (m : Methods) (l : Local) (taken : List Char) : List Key :=
  (if l.type ≠ .any then l.flush m else []) ++
    flush m { (if l.type ≠ .any then fresh else l) with
      line := (if l.type ≠ .any then fresh else l).line ++ taken
      type := .number }

/-- A character begins a string or a number, or it goes to the line or to a new one. -/
theorem text_cases (m : Methods) (hstr : l.str = none) (c : Char) :
    quotes m c = true ∨
    (quotes m c = false ∧ asciiIsdigit c = true ∧ l.type ≠ .identy ∧
      (∀ s₁, NumScan.start.accept c = some s₁ → l.mode.next m c = .number s₁) ∧
      ∀ xs, l.text m c xs = (fresh, (scanNumber .start (c :: xs)).2,
        l.number m (scanNumber .start (c :: xs)).1)) ∨
    (quotes m c = false ∧ ∃ line t ks, (line = l.line ++ [c] ∧ ks = [] ∨ line = [c] ∧ ks = l.flush m) ∧
      t.Calm ∧ l.mode.next m c = mode ⟨line, t, none⟩ ∧ ∀ xs, l.text m c xs = (⟨line, t, none⟩, xs, ks)) := by
  cases hquote : quotes m c with
  | true => exact .inl rfl
  | false =>
    right
    have hnot : ¬quotes m c = true := Bool.eq_false_iff.mp hquote
    by_cases hnumber : (asciiIsdigit c && m.handlerNumchk && decide (l.type ≠ .identy)) = true
    · left
      obtain ⟨hboth, htype⟩ := Bool.and_eq_true_iff.mp hnumber
      have htype := of_decide_eq_true htype
      refine ⟨rfl, (Bool.and_eq_true_iff.mp hboth).1, htype, fun s₁ haccept => ?_, fun xs => ?_⟩
      · rw [mode_eq_other htype]
        show Mode.enter m c = _
        unfold Mode.enter
        rw [if_pos hboth, haccept]
      · unfold text number
        rw [if_neg hnot, if_pos hnumber]
    · right
      refine ⟨rfl, ?_⟩
      cases hident : Parsing.isIdenty m c with
      | true =>
        have hidenty : Toktype.identy.Calm := .inr (.inr (.inr (.inl rfl)))
        have hmode : l.mode.next m c = .ident := by
          by_cases htype : l.type = .identy
          · rw [mode_eq_ident htype]
            exact if_pos hident
          · have hdigit : ¬(asciiIsdigit c && m.handlerNumchk) = true := fun hboth =>
              hnumber (by rw [hboth]; exact decide_eq_true htype)
            rw [mode_eq_other htype]
            show Mode.enter m c = .ident
            unfold Mode.enter
            rw [if_neg hdigit, if_pos hident]
        by_cases hsame : l.type = .identy ∨ l.type = .any
        · refine ⟨l.line ++ [c], .identy, [], .inl ⟨rfl, rfl⟩, hidenty, hmode, fun xs => ?_⟩
          unfold text
          rw [if_neg hnot, if_neg hnumber, if_pos hident, if_pos hsame, hstr]
        · have htype : (if m.treatidenUnderscore && c = '_' then Toktype.identy else getctype c) =
              .identy := by
            split
            · rfl
            · next hunder =>
              have halnum : asciiIsalnum c = true :=
                (Bool.or_eq_true_iff.mp hident).resolve_right hunder
              unfold getctype
              rw [if_pos halnum]
          refine ⟨[c], .identy, _, .inr ⟨rfl, rfl⟩, hidenty, hmode, fun xs => ?_⟩
          unfold text
          rw [if_neg hnot, if_neg hnumber, if_pos hident, if_neg hsame, htype]
      | false =>
        have halnum : asciiIsalnum c = false := (Bool.or_eq_false_iff.mp hident).1
        have htype : getctype c ≠ .identy := by
          unfold getctype
          rw [halnum, if_neg Bool.false_ne_true]
          split
          · exact Toktype.noConfusion
          · split <;> exact Toktype.noConfusion
        have hmode : ∀ line, l.mode.next m c = mode ⟨line, getctype c, none⟩ := fun line =>
          (next_other hident l).trans (mode_eq_other (l := ⟨line, getctype c, none⟩) htype).symm
        have hother : ¬Parsing.isIdenty m c = true := Bool.eq_false_iff.mp hident
        by_cases hsame : l.type = getctype c ∨ l.type = .any
        · refine ⟨_, getctype c, _, .inl ⟨rfl, rfl⟩, getctype_calm c, hmode _, fun xs => ?_⟩
          unfold text
          rw [if_neg hnot, if_neg hnumber, if_neg hother, if_pos hsame, hstr]
        · refine ⟨_, getctype c, _, .inr ⟨rfl, rfl⟩, getctype_calm c, hmode _, fun xs => ?_⟩
          unfold text
          rw [if_neg hnot, if_neg hnumber, if_neg hother, if_neg hsame]

end Local

/-! ## The loop -/

/-- The parser with the handler of a style, or with none. -/
def Methods.commenting (m : Methods) (F : Nat) (style : Option CommentStyle) : Methods :=
  { m with handlerComment := style.map (·.handler m F) }

namespace Parsing

variable {st : Parsing} {l : Local} {out : List Key} {style : Option CommentStyle} {F fuel : Nat}

theorem Is.outside (h : st.Is l out) (hstr : l.str = none) : st.yoString = false := by
  rw [h.str.yoString, hstr]
  rfl

theorem Is.not_direct (h : st.Is l out) (hstr : l.str = none) (hdirect : m.directive = nul) :
    st.atDirective m c = some false := by
  unfold atDirective
  have htype : st.crtTType ≠ .direct := by
    rw [h.type]
    intro heq
    have hcalm := h.calm hstr
    rw [heq] at hcalm
    rcases hcalm with h | h | h | h | h <;> cases h
  rw [if_neg htype, if_neg fun hand => hand.1 hdirect]

/-- At a character of plain text, which a handler was asked about. -/
theorem Is.step_text (hcont : m.lineContinuation = false) (hdirect : m.directive = nul)
    (hfuel : (c :: rem).length < fuel) (h : st.Is l out) (hstr : l.str = none)
    (hc : ¬(c = '\n' ∨ c = '\r')) (hopens : ∀ s, style = some s → s.opens (c :: rem) = false)
    (hstands : st.lp.Stands rem) (htext : ∀ d ∈ c :: rem, TextByte d) :
    ∃ st', step (m.commenting F style) fuel c st = some (true, st') ∧ st'.Goes (l.text m c rem) out := by
  obtain ⟨hbyte, hrem⟩ := forall_mem_cons.mp htext
  have hyo : ¬st.yoString = true := Bool.eq_false_iff.mp (h.outside hstr)
  unfold Parsing.step
  rw [if_neg hyo, if_neg hc, h.not_direct (m := m.commenting F style) hstr hdirect, Option.bind_some,
    if_neg Bool.false_ne_true]
  cases style with
  | none =>
    obtain ⟨st', hrun, hgoes⟩ := h.textStep (m := m.commenting F none) hcont hfuel hstr hstands.awaits
      (fun _ => hstands) htext
    refine ⟨st', ?_, hgoes⟩
    show Option.map _ (st.textStep (m.commenting F none) fuel c) = _
    rw [hrun]
    rfl
  | some s =>
    obtain ⟨lp', hask, hawaits, hleft, hline⟩ := opens_spec (m := m) s F hstands hbyte hrem
    have his : ({ st with lp := lp' } : Parsing).Is l out :=
      ⟨hline ▸ h.line, h.type, h.str, h.keys_eq, h.calm⟩
    have hdigit : asciiIsdigit c = true → lp'.Stands rem := fun hdigit => hleft fun heq => by
      rw [heq] at hdigit
      exact absurd hdigit (by decide)
    obtain ⟨st', hrun, hgoes⟩ := his.textStep (m := m.commenting F (some s)) hcont hfuel hstr hawaits
      hdigit htext
    refine ⟨st', ?_, hgoes⟩
    show Option.bind (s.handler m F true (st.lp.backChar c)) _ = _
    rw [hask, hopens s rfl, Option.bind_some]
    show Option.map _ (Parsing.textStep (m.commenting F (some s)) fuel c { st with lp := lp' }) = _
    rw [hrun]
    rfl

/-- A comment that was found: it ends the token that is there, and is one itself. -/
theorem Is.commentStep {comment : Bool → LinearParser → Option (Bool × LinearParser)} {token : List Char}
    (h : st.Is l out) (hstr : l.str = none)
    (hread : Consumed (comment false { st.lp with linebuf := st.lp.linebuf.clear }) token rest) :
    ∃ st', Parsing.commentStep m comment st = some st' ∧
      st'.Goes (.fresh, rest, l.flush m ++ Local.flush m ⟨token, .comment, none⟩) out := by
  obtain ⟨b, lp₂, hrun, hstands, hholds⟩ := hread
  have hyo := h.outside hstr
  let found : Parsing := { (st.apd m).mark with lp := lp₂, crtTType := .comment }
  have hkeys : keys (found.apd m).dc = keys (st.apd m).dc ++ Local.flush m ⟨token, .comment, none⟩ :=
    Parsing.keys_apd m hholds rfl hyo
  refine ⟨{ (found.apd m).mark with crtTType := .any }, ?_, ⟨hholds.clear, rfl, hyo, ?_, fun _ => .inl rfl⟩,
    hstands.awaits⟩
  · unfold Parsing.commentStep
    dsimp only
    show Option.map _ (comment false { st.lp with linebuf := st.lp.linebuf.clear }) = _
    rw [hrun]
    rfl
  · refine hkeys.trans ?_
    rw [h.keys_apd m, append_assoc]

theorem Is.step_comment {s : CommentStyle} {com : Comment} (hcont : m.lineContinuation = false)
    (hdirect : m.directive = nul) (hfuel : (com.text s ++ rest).length < F) (h : st.Is l out)
    (hstr : l.str = none) (hcom : com.Fits s rest) (htext : ∀ d ∈ com.text s ++ rest, TextByte d)
    (hrem : com.text s ++ rest = c :: rem) (hstands : st.lp.Stands rem) :
    ∃ st', step (m.commenting F (some s)) fuel c st = some (true, st') ∧
      st'.Goes (.fresh, rest, l.flush m ++ Local.flush m ⟨com.token s, .comment, none⟩) out := by
  obtain ⟨hopens, hc, htail, hmore⟩ : s.opens (c :: rem) = true ∧ ¬(c = '\n' ∨ c = '\r') ∧
      (com.text s).tail ++ rest = rem ∧ (c = '/' → rem ≠ []) := by
    cases hcom
    all_goals
      obtain ⟨rfl, rfl⟩ := List.cons.inj hrem
      refine ⟨rfl, by decide, rfl, ?_⟩
      first
        | exact fun heq => absurd heq (by decide)
        | exact fun _ => cons_ne_nil _ _
  obtain ⟨hbyte, hbytes⟩ := forall_mem_cons.mp (hrem ▸ htext)
  have hyo : ¬st.yoString = true := Bool.eq_false_iff.mp (h.outside hstr)
  obtain ⟨lp', hask, hawaits, hother, hline⟩ := opens_spec (m := m) s F hstands hbyte hbytes
  have hleft : lp'.Stands rem := by
    by_cases hslash : c = '/'
    · obtain ⟨d, rem, rfl⟩ := exists_cons_of_ne_nil (hmore hslash)
      exact hawaits.stands
    · exact hother hslash
  rw [← htail] at hleft
  have his : ({ st with lp := lp' } : Parsing).Is l out :=
    ⟨hline ▸ h.line, h.type, h.str, h.keys_eq, h.calm⟩
  have hread := consume_spec hcont hcom hfuel htext
    (show ({ lp' with linebuf := lp'.linebuf.clear } : LinearParser).Stands _ from hleft) his.line.clear
  obtain ⟨st', hrun, hgoes⟩ := his.commentStep (m := m.commenting F (some s)) hstr hread
  refine ⟨st', ?_, hgoes⟩
  unfold Parsing.step
  rw [if_neg hyo, if_neg hc, h.not_direct (m := m.commenting F (some s)) hstr hdirect, Option.bind_some,
    if_neg Bool.false_ne_true]
  show Option.bind (s.handler m F true (st.lp.backChar c)) _ = _
  rw [hask, hopens, Option.bind_some]
  show Option.map _ (Parsing.commentStep (m.commenting F (some s)) (s.handler m F) { st with lp := lp' }) = _
  rw [hrun]
  rfl

theorem Is.finish (h : st.Is l out) (m : Methods) :
    keys (if st.lp.linebuf.counts ≠ 0 then st.apd m else st).dc = out ++ l.last m := by
  unfold Local.last
  by_cases hempty : l.line = []
  · rw [if_pos hempty, if_neg (not_not_intro (h.line.counts_eq_zero.mpr hempty)), append_nil]
    exact h.keys_eq
  · rw [if_neg hempty, if_pos fun hzero => hempty (h.line.counts_eq_zero.mp hzero)]
    exact h.keys_apd m

end Parsing

/-- From the state `l` on, the loop makes the tokens `ks` of `rem`. -/
def Makes (m : Methods) (F : Nat) (style : Option CommentStyle) (l : Local) (rem : List Char)
    (ks : List Key) : Prop :=
  ∀ (fuel : Nat) (st : Parsing) (out : List Key), rem.length < fuel → rem.length < F →
    (∀ d ∈ rem, TextByte d) → st.Is l out → st.lp.Awaits rem →
    ∃ st', Parsing.loop (m.commenting F style) fuel st = some st' ∧
      keys (if st'.lp.linebuf.counts ≠ 0 then st'.apd (m.commenting F style) else st').dc = out ++ ks

theorem Makes.next {F : Nat} {style : Option CommentStyle} {l : Local} {r : Local × List Char × List Key}
    {ks : List Key} (hnext : Makes m F style r.1 r.2.1 ks) (hshort : r.2.1.length ≤ rem.length)
    (hbytes : (∀ d ∈ c :: rem, TextByte d) → ∀ d ∈ r.2.1, TextByte d)
    (hstep : ∀ {fuel : Nat} {st : Parsing} {out : List Key}, (c :: rem).length < fuel →
      (c :: rem).length < F → (∀ d ∈ c :: rem, TextByte d) → st.Is l out → st.lp.Stands rem →
      ∃ st', Parsing.step (m.commenting F style) fuel c st = some (true, st') ∧ st'.Goes r out) :
    Makes m F style l (c :: rem) (r.2.2 ++ ks) := by
  intro fuel st out hfuel hF htext his hawaits
  obtain ⟨n, rfl⟩ := Nat.exists_eq_add_of_lt hfuel
  obtain ⟨lp', hget, hstands, hline⟩ :=
    hawaits.stands.getChar_cons (htext c mem_cons_self).ne_eof
  have his' : ({ st with lp := lp' } : Parsing).Is l out :=
    ⟨hline ▸ his.line, his.type, his.str, his.keys_eq, his.calm⟩
  obtain ⟨st₁, hrun, hgoes⟩ := hstep hfuel hF htext his' hstands
  have hlt : r.2.1.length < (c :: rem).length := Nat.lt_succ_of_le hshort
  obtain ⟨st', hloop, hkeys⟩ := hnext _ st₁ _ (Nat.lt_of_lt_of_le hlt (Nat.le_add_right _ n))
    (Nat.lt_trans hlt hF) (hbytes htext) hgoes.is hgoes.awaits
  refine ⟨st', ?_, ?_⟩
  · simp only [Parsing.loop, hget, hrun, Option.bind_some, if_true]
    exact hloop
  · rw [hkeys, append_assoc]

theorem Lexes.loop (hcont : m.lineContinuation = false) (hdirect : m.directive = nul) (F : Nat)
    {style : Option CommentStyle} {l : Local} {ks : List Key} (h : Lexes m style l rem ks) :
    Makes m F style l rem ks := by
  induction h with
  | done l =>
    intro fuel st out hfuel hF htext his hawaits
    obtain ⟨n, rfl⟩ := Nat.exists_eq_add_of_lt hfuel
    obtain ⟨lp', hget, hstands, hline⟩ := hawaits.getChar_nil
    refine ⟨{ st with lp := lp' }, ?_, ?_⟩
    · simp only [Parsing.loop, hget]
    · have his' : ({ st with lp := lp' } : Parsing).Is l out :=
        ⟨hline ▸ his.line, his.type, his.str, his.keys_eq, his.calm⟩
      exact his'.finish (m.commenting F style)
  | @string l l' q c raw rem rem' ks out hstr hstep hline h ih =>
    have hsuffix := Local.string_suffix hstep
    refine Makes.next (r := (l', rem', ks)) ih hsuffix.length_le
      (fun htext d hd => htext d (mem_cons_of_mem _ (hsuffix.subset hd))) ?_
    intro fuel st out hfuel hF htext his hstands
    obtain ⟨st', hrun, hgoes⟩ := (his.stringStep (m := m.commenting F style) (c := c) hstands
      (fun d hd => htext d (mem_cons_of_mem _ hd)) hstr).2 _ hstep hline
    refine ⟨st', ?_, hgoes⟩
    have hyo : st.yoString = true := by rw [his.str.yoString, hstr]; rfl
    unfold Parsing.step
    rw [if_pos hyo, hrun]
  | @cut l q c raw rem hstr hstep =>
    intro fuel st out hfuel hF htext his hawaits
    obtain ⟨n, rfl⟩ := Nat.exists_eq_add_of_lt hfuel
    obtain ⟨lp', hget, hstands, hline⟩ :=
      hawaits.stands.getChar_cons (htext c mem_cons_self).ne_eof
    have his' : ({ st with lp := lp' } : Parsing).Is l out :=
      ⟨hline ▸ his.line, his.type, his.str, his.keys_eq, his.calm⟩
    obtain ⟨st', hrun, hend⟩ := (his'.stringStep (m := m.commenting F style) (c := c) hstands
      (fun d hd => htext d (mem_cons_of_mem _ hd)) hstr).1 hstep
    refine ⟨st', ?_, hend.finish (m.commenting F style)⟩
    have hyo : st.yoString = true := by rw [his.str.yoString, hstr]; rfl
    have hstopped : Parsing.step (m.commenting F style) ((c :: rem).length + n + 1) c { st with lp := lp' } =
        some (false, st') := by
      unfold Parsing.step
      rw [if_pos hyo, hrun]
    simp only [Parsing.loop, hget, hstopped, Option.bind_some, Bool.false_eq_true, if_false]
  | @feed l c rem out hstr hc h ih =>
    have hsuffix := dropFeed_suffix c rem
    refine Makes.next (r := (.fresh, dropFeed c rem, l.last m)) ih hsuffix.length_le
      (fun htext d hd => htext d (mem_cons_of_mem _ (hsuffix.subset hd))) ?_
    intro fuel st out hfuel hF htext his hstands
    refine ⟨st.linefeedStep (m.commenting F style) c, ?_, his.linefeedStep (m := m.commenting F style)
      hcont hstr hstands fun d hd => htext d (mem_cons_of_mem _ hd)⟩
    unfold Parsing.step
    rw [if_neg (Bool.eq_false_iff.mp (his.outside hstr)), if_pos hc]
  | @text l c rem out hstr hc hopens h ih =>
    by_cases htext : ∀ d ∈ c :: rem, TextByte d
    · have hshort := Local.text_shortens (m := m) l htext
      exact Makes.next (r := l.text m c rem) ih hshort.1 (fun _ => hshort.2)
        fun hfuel hF htext his hstands => his.step_text hcont hdirect hfuel hstr hc hopens hstands htext
    · exact fun _ _ _ _ _ hbytes => absurd hbytes htext
  | @comment l s com rest out hstr hstyle hcom h ih =>
    subst hstyle
    obtain ⟨c, rem, hrem, hlen⟩ : ∃ c rem, com.text s ++ rest = c :: rem ∧ rest.length ≤ rem.length := by
      cases hcom
      all_goals
        refine ⟨_, _, rfl, ?_⟩
        simp
        try omega
    rw [hrem, ← append_assoc]
    refine Makes.next (r := (.fresh, rest, _)) ih hlen
      (fun htext d hd => (hrem ▸ htext) d (mem_append_right _ hd)) ?_
    intro fuel st out hfuel hF htext his hstands
    exact his.step_comment hcont hdirect (by rw [hrem]; exact hF) hstr hcom (hrem ▸ htext) hrem hstands

end Unisym.Text
