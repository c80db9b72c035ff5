/-
# `CommentTokens` — a text with comments, token by token

A text is cut at its comments.  A piece between two of them is `clear`: no comment opens in it
outside of its strings, no number of it ends in a dot or a sign, and no escape makes the
character zero.  What comes of such a piece does not depend on what stands around it
(`Local.continues`), because a comment ends the token in front of it.

So the tokens of the text are those of its pieces, each parsed alone and with no handler, with
one token for each comment between them (`parse_comments`).  Where a comment stands between two
names they stay two names.
-/
import Unisym.Text.CommentSpec

namespace Unisym.Text

open LinearParser List

variable {m : Methods} {c : Char} {seg rest : List Char}

/-! ## Places -/

/-- Where a character stands: at plain text, or in a string with its quote and whether a
backslash was the last character. -/
inductive Place where
  | code (mode : Mode)
  | inside (q : Char) (raw : Bool)

namespace Place

/-- Behind `c`. -/
def next (m : Methods) : Place → Char → Place
  | code mode, c => if Local.quotes m c then inside c false else code (mode.next m c)
  | inside q true, _ => inside q false
  | inside q false, c => if q = c then code .other else if c = '\\' then inside q true else inside q false

/-- Behind a text. -/
def after (m : Methods) (p : Place) (xs : List Char) : Place := xs.foldl (next m) p

def isCode : Place → Bool
  | code _ => true
  | inside _ _ => false

end Place

/-- Nothing in the text opens a comment outside of its strings, where `rest` follows.  No number
of it ends in a dot or a sign, and no escape is zero. -/
def clear (m : Methods) (style : CommentStyle) (rest : List Char) : Place → List Char → Bool
  | .code mode, [] => !mode.dangles none
  | .inside _ _, [] => true
  | .code mode, c :: seg =>
      !mode.dangles (some c) && !style.opens (c :: (seg ++ rest)) &&
        clear m style rest ((Place.code mode).next m c) seg
  | .inside q raw, c :: seg =>
      !(m.stringEscapeSequence && !raw && c = '\\' && (escaped seg).any (·.1 = nul)) &&
        clear m style rest ((Place.inside q raw).next m c) seg

variable {style : CommentStyle} {p : Place}

theorem clear_tail (h : clear m style rest p (c :: seg) = true) :
    clear m style rest (p.next m c) seg = true := by
  cases p with
  | code mode => exact (Bool.and_eq_true_iff.mp h).2
  | inside q raw => exact (Bool.and_eq_true_iff.mp h).2

theorem clear_append (xs : List Char) : ∀ {p : Place}, clear m style rest p (xs ++ seg) = true →
    clear m style rest (p.after m xs) seg = true := by
  induction xs with
  | nil => exact fun h => h
  | cons x xs ih => exact fun h => ih (clear_tail h)

theorem Place.after_append (p : Place) (xs ys : List Char) :
    p.after m (xs ++ ys) = (p.after m xs).after m ys := foldl_append

/-! ## Readers on a longer text -/

/-- What a text goes on with: nothing, or the first character of a comment. -/
def Follows (rest : List Char) : Prop := ∀ c, rest.head? = some c → c = '#' ∨ c = '/'

theorem accept_comment (s : NumScan) (hc : c = '#' ∨ c = '/') : s.accept c = none := by
  rcases hc with rfl | rfl <;> rfl

theorem dropFeed_append (hrest : Follows rest) (c : Char) (seg : List Char) :
    dropFeed c (seg ++ rest) = dropFeed c seg ++ rest := by
  cases seg with
  | nil =>
    cases rest with
    | nil => rfl
    | cons d rest =>
      have hd : ¬(d = '\n' ∨ d = '\r') := by
        rcases hrest d rfl with rfl | rfl <;> decide
      exact if_neg fun h => hd h.1
  | cons d seg =>
    show (if (d = '\n' ∨ d = '\r') ∧ c ≠ d then seg ++ rest else d :: (seg ++ rest)) =
      (if (d = '\n' ∨ d = '\r') ∧ c ≠ d then seg else d :: seg) ++ rest
    split <;> rfl

/-- A number that keeps its last character is scanned as if nothing followed. -/
theorem scanNumber_append (hrest : Follows rest) {s s' : NumScan} {taken left : List Char}
    (h : Scans s seg s' taken left) (hd : s'.dangling = false) :
    scanNumber s seg = (taken, left) ∧ scanNumber s (seg ++ rest) = (taken, left ++ rest) := by
  induction h with
  | done s =>
    have hkept : ∀ rest : List Char, s.putBack rest = rest := fun rest => by
      unfold NumScan.putBack
      rw [hd]
      rfl
    refine ⟨congrArg (Prod.mk []) (hkept []), ?_⟩
    rw [nil_append]
    cases rest with
    | nil => exact congrArg (Prod.mk []) (hkept [])
    | cons d rest =>
      rw [scanNumber, accept_comment s (hrest d rfl), hkept]
  | @stop s c cs haccept =>
    have hkept : ∀ rest : List Char, s.putBack rest = rest := fun rest => by
      unfold NumScan.putBack
      rw [hd]
      rfl
    rw [cons_append, scanNumber, scanNumber, haccept, hkept, hkept]
    exact ⟨rfl, rfl⟩
  | more haccept h ih =>
    obtain ⟨halone, hmore⟩ := ih hd
    rw [cons_append, scanNumber, scanNumber, haccept]
    dsimp only
    rw [halone, hmore]
    exact ⟨rfl, rfl⟩

/-! ## Places behind a reader -/

theorem quote_of_quotes (h : Local.quotes m c = true) : c = '"' ∨ c = '\'' := by
  rcases Bool.or_eq_true_iff.mp h with h | h
  · exact .inl (of_decide_eq_true (Bool.and_eq_true_iff.mp h).2)
  · exact .inr (of_decide_eq_true (Bool.and_eq_true_iff.mp h).2)

theorem quotes_of_accept {s s' : NumScan} (h : s.accept c = some s') : Local.quotes m c = false := by
  cases hq : Local.quotes m c with
  | false => rfl
  | true =>
    rcases quote_of_quotes hq with rfl | rfl <;> cases h

/-- A number of a clear text keeps its last character, and behind it the text is clear. -/
theorem clear_number {s s' : NumScan} {taken left : List Char} (h : Scans s seg s' taken left)
    (hclear : clear m style rest (.code (.number s)) seg = true) :
    s'.dangling = false ∧ clear m style rest (.code .other) left = true ∧
      ((Place.code (.number s)).after m seg).isCode = ((Place.code .other).after m left).isCode := by
  induction h with
  | done s =>
    refine ⟨?_, rfl, rfl⟩
    unfold clear at hclear
    simpa [Mode.dangles] using hclear
  | @stop s c cs haccept =>
    have henter : Mode.next m (.number s) c = .enter m c := by simp only [Mode.next, haccept]
    have hnext : (Place.code (.number s)).next m c = (Place.code .other).next m c := by
      show (if Local.quotes m c then Place.inside c false else .code (Mode.next m (.number s) c)) = _
      rw [henter]
      rfl
    obtain ⟨hhead, htail⟩ := Bool.and_eq_true_iff.mp hclear
    obtain ⟨hdangles, hopens⟩ := Bool.and_eq_true_iff.mp hhead
    refine ⟨?_, ?_, ?_⟩
    · change (!((s.accept c).isNone && s.dangling)) = true at hdangles
      rw [haccept] at hdangles
      simpa using hdangles
    · unfold clear
      rw [hopens, ← hnext, htail]
      rfl
    · show (((Place.code (.number s)).next m c).after m cs).isCode = _
      rw [hnext]
      rfl
  | @more s s₁ s' c cs taken left haccept h ih =>
    have hnext : (Place.code (.number s)).next m c = .code (.number s₁) := by
      have hmode : Mode.next m (.number s) c = .number s₁ := by simp only [Mode.next, haccept]
      show (if Local.quotes m c then Place.inside c false else .code (Mode.next m (.number s) c)) = _
      rw [quotes_of_accept haccept, hmode]
      rfl
    have htail := clear_tail hclear
    rw [hnext] at htail
    obtain ⟨hd, hleft, hcode⟩ := ih htail
    refine ⟨hd, hleft, ?_⟩
    show (((Place.code (.number s)).next m c).after m cs).isCode = _
    rw [hnext, hcode]

theorem Place.after_digits {q : Char} (hq : q = '"' ∨ q = '\'') (digits : List Char)
    (h : ∀ d ∈ digits, asciiIsxdigit d = true) :
    (Place.inside q false).after m digits = .inside q false := by
  induction digits with
  | nil => rfl
  | cons d digits ih =>
    obtain ⟨hd, h⟩ := forall_mem_cons.mp h
    have hquote : q ≠ d := by
      rintro rfl
      rcases hq with rfl | rfl <;> exact absurd hd (by decide)
    have hslash : d ≠ '\\' := by
      rintro rfl
      exact absurd hd (by decide)
    have hnext : (Place.inside q false).next m d = .inside q false := by
      show (if q = d then Place.code .other else if d = '\\' then .inside q true else .inside q false) = _
      rw [if_neg hquote, if_neg hslash]
    show ((Place.inside q false).next m d).after m digits = _
    rw [hnext, ih h]

/-! ## One piece -/

namespace Local

/-- What `Parse` keeps between two iterations. -/
structure Good (m : Methods) (l : Local) : Prop where
  plain : ∀ x ∈ l.line, x ≠ nul
  calm : l.str = none → l.type.Calm
  quote : ∀ q raw, l.str = some (q, raw) → q = '"' ∨ q = '\''
  whole : ∀ q raw, l.str = some (q, raw) → m.stringEscapeSequence = true → raw = false

/-- The place of the next character. -/
def place (l : Local) : Place :=
  match l.str with
  | none => .code (if l.type = .identy then .ident else .other)
  | some (q, raw) => .inside q raw

theorem fresh_plain : ∀ x ∈ fresh.line, x ≠ nul := fun _ hx => absurd hx not_mem_nil

theorem fresh_good : fresh.Good m := ⟨fresh_plain, fun _ => .inl rfl, nofun, nofun⟩

/-- The piece `seg` has tokens of its own, and makes them in front of `rest` too: where it ends
outside of a string, the end of `rest` is that of the whole. -/
def Continues (m : Methods) (style : CommentStyle) (rest : List Char) (l : Local) (seg : List Char) : Prop :=
  ∃ out, Lexes m none l seg out ∧ ∀ ks, (rest = [] ∧ ks = [] ∨ (l.place.after m seg).isCode = true) →
    (∀ l' : Local, l'.str = none → l'.Good m → Lexes m (some style) l' rest (l'.last m ++ ks)) →
    Lexes m (some style) l (seg ++ rest) (out ++ ks)

theorem Continues.next {l l' : Local} {seg' : List Char} {ks : List Key}
    (h : Continues m style rest l' seg')
    (hafter : (l.place.after m (c :: seg)).isCode = (l'.place.after m seg').isCode)
    (halone : ∀ out, Lexes m none l' seg' out → Lexes m none l (c :: seg) (ks ++ out))
    (hwhole : ∀ out, Lexes m (some style) l' (seg' ++ rest) out →
      Lexes m (some style) l (c :: (seg ++ rest)) (ks ++ out)) : Continues m style rest l (c :: seg) := by
  obtain ⟨out, hout, hmore⟩ := h
  refine ⟨ks ++ out, halone out hout, fun ks' hend hnext => ?_⟩
  rw [hafter] at hend
  rw [append_assoc]
  exact hwhole _ (hmore ks' hend hnext)

variable {l : Local} {q : Char} {raw : Bool}

theorem place_of_some (hstr : l.str = some (q, raw)) : l.place = .inside q raw := by
  unfold place
  rw [hstr]

theorem place_of_none (hstr : l.str = none) : l.place = .code l.mode := by
  unfold place
  rw [hstr]
  rfl

theorem plain_push (h : ∀ x ∈ l.line, x ≠ nul) (hc : c ≠ nul) : ∀ x ∈ l.line ++ [c], x ≠ nul := by
  intro x hx
  rcases mem_append.mp hx with hx | hx
  · exact h x hx
  · exact mem_singleton.mp hx ▸ hc

/-- What is not longer continues. -/
def ShorterContinue (m : Methods) (style : CommentStyle) (rest seg : List Char) : Prop :=
  ∀ (l' : Local) (seg' : List Char), seg'.length ≤ seg.length → l'.Good m →
    clear m style rest l'.place seg' = true → (∀ d ∈ seg', TextByte d) → Continues m style rest l' seg'

theorem continues_string (hgood : l.Good m) (hstr : l.str = some (q, raw)) (hc : TextByte c)
    (hclear : clear m style rest l.place (c :: seg) = true) (hbytes : ∀ d ∈ seg, TextByte d)
    (ih : ShorterContinue m style rest seg) :
    Continues m style rest l (c :: seg) := by
  have hquote := hgood.quote q raw hstr
  have hwhole := hgood.whole q raw hstr
  rw [place_of_some hstr] at hclear
  -- a character that goes to the line
  have hcollect : ∀ raw' : Bool, (m.stringEscapeSequence = true → raw' = false) →
      (Place.inside q raw).next m c = .inside q raw' →
      (∀ xs, l.string m c xs q raw = some ({ l with line := l.line ++ [c], str := some (q, raw') }, xs, [])) →
      Continues m style rest l (c :: seg) := by
    intro raw' hesc hplace hstep
    have hline := plain_push hgood.plain hc.ne_nul
    have hgood' : Good m { l with line := l.line ++ [c], str := some (q, raw') } :=
      ⟨hline, nofun, fun _ _ h => by cases h; exact hquote, fun _ _ h => by cases h; exact hesc⟩
    have htail := clear_tail hclear
    rw [hplace] at htail
    refine (ih { l with line := l.line ++ [c], str := some (q, raw') } seg (Nat.le_refl _) hgood' htail
      hbytes).next ?_ (fun out h => .string hstr (hstep seg) hline h)
      (fun out h => .string hstr (hstep (seg ++ rest)) hline h)
    rw [place_of_some hstr]
    show (((Place.inside q raw).next m c).after m seg).isCode = _
    rw [hplace]
    rfl
  by_cases hraw : (!m.stringEscapeSequence && raw) = true
  · obtain ⟨hesc, hraw'⟩ := Bool.and_eq_true_iff.mp hraw
    refine hcollect false (fun _ => rfl) (by rw [hraw']; rfl) fun xs => ?_
    unfold Local.string
    rw [if_pos hraw]
  have hopen : raw = false := by
    cases hesc : m.stringEscapeSequence with
    | true => exact hwhole hesc
    | false =>
      rw [hesc] at hraw
      exact Bool.eq_false_iff.mpr hraw
  subst hopen
  by_cases hend : q = c
  · have hstep : ∀ xs, l.string m c xs q false = some (fresh, xs, l.flush m) := fun xs => by
      unfold Local.string
      rw [if_neg hraw, if_pos hend]
    have hplace : (Place.inside q false).next m c = .code .other := if_pos hend
    have htail := clear_tail hclear
    rw [hplace] at htail
    refine (ih fresh seg (Nat.le_refl _) fresh_good htail hbytes).next ?_
      (fun out h => .string hstr (hstep seg) fresh_plain h)
      (fun out h => .string hstr (hstep (seg ++ rest)) fresh_plain h)
    rw [place_of_some hstr]
    show (((Place.inside q false).next m c).after m seg).isCode = _
    rw [hplace]
    rfl
  by_cases hslash : c = '\\'
  · have hplace : (Place.inside q false).next m c = .inside q true := by
      show (if q = c then Place.code .other else if c = '\\' then .inside q true else .inside q false) = _
      rw [if_neg hend, if_pos hslash]
    cases hesc : m.stringEscapeSequence with
    | false =>
      refine hcollect true (fun h => absurd (hesc.symm.trans h) Bool.false_ne_true) hplace fun xs => ?_
      unfold Local.string
      rw [if_neg hraw, if_neg hend, hesc, if_neg (by simp), if_pos hslash]
    | true =>
      have hread : ∀ xs, l.string m c xs q false =
          (escaped xs).map fun r => ({ l with line := l.line ++ [r.1] }, r.2, []) := fun xs => by
        unfold Local.string
        rw [if_neg hraw, if_neg hend, hesc, if_pos (by simp [hslash])]
      have hinside := clear_tail hclear
      rw [hplace] at hinside
      have hcode : ((Place.inside q false).after m (c :: seg)).isCode =
          ((Place.inside q true).after m seg).isCode := by
        show (((Place.inside q false).next m c).after m seg).isCode = _
        rw [hplace]
      rcases escaped_spec seg with ⟨hnone, hshape⟩ | ⟨d, digits, r, hseg, hdigits, hsome⟩
      · -- the text ends in the escape
        have hout : ((Place.inside q true).after m seg).isCode = false := by
          rcases hshape with rfl | ⟨d, digits, rfl, hdigits⟩
          · rfl
          · show ((Place.inside q false).after m digits).isCode = false
            rw [Place.after_digits hquote digits hdigits]
            rfl
        refine ⟨l.last m, .cut hstr (by rw [hread, hnone]; rfl), fun ks hend hnext => ?_⟩
        rw [place_of_some hstr, hcode, hout] at hend
        obtain ⟨rfl, rfl⟩ := hend.resolve_right Bool.false_ne_true
        rw [append_nil, append_nil]
        exact .cut hstr (by rw [hread, hnone]; rfl)
      · have hrun : escaped seg = some r := by
          have := hsome []
          rwa [append_nil, append_nil] at this
        have hne : r.1 ≠ nul := by
          have hhead := (Bool.and_eq_true_iff.mp hclear).1
          rw [hesc, hrun] at hhead
          simpa [hslash] using hhead
        have hgood' : Good m { l with line := l.line ++ [r.1] } :=
          ⟨plain_push hgood.plain hne, hgood.calm, hgood.quote, hgood.whole⟩
        have hleft : clear m style rest (.inside q false) r.2 = true := by
          rw [hseg] at hinside
          have := clear_append digits (clear_tail hinside)
          rwa [show (Place.inside q true).next m d = .inside q false from rfl,
            Place.after_digits hquote digits hdigits] at this
        have hsuffix : r.2 <:+ seg := escaped_suffix hrun
        refine (ih { l with line := l.line ++ [r.1] } r.2 hsuffix.length_le hgood'
          ((place_of_some (l := { l with line := l.line ++ [r.1] }) hstr).symm ▸ hleft)
          fun x hx => hbytes x (hsuffix.subset hx)).next ?_
          (fun out h => .string hstr (by rw [hread, hrun]; rfl) hgood'.plain h)
          (fun out h => .string hstr (by rw [hread, hsome]; rfl) hgood'.plain h)
        rw [place_of_some hstr, hcode, place_of_some (l := { l with line := l.line ++ [r.1] }) hstr, hseg]
        show ((Place.inside q false).after m (digits ++ r.2)).isCode = _
        rw [Place.after_append, Place.after_digits hquote digits hdigits]
  · refine hcollect false (fun _ => rfl) ?_ fun xs => ?_
    · show (if q = c then Place.code .other else if c = '\\' then .inside q true else .inside q false) = _
      rw [if_neg hend, if_neg hslash]
    · unfold Local.string
      rw [if_neg hraw, if_neg hend, if_neg (by simp [hslash]), if_neg hslash, ← hstr]

theorem code_next (hquote : quotes m c = false) (mode : Mode) :
    (Place.code mode).next m c = .code (mode.next m c) := by
  show (if quotes m c then Place.inside c false else .code (mode.next m c)) = _
  rw [hquote]
  rfl

theorem place_next_break (hc : c = '\n' ∨ c = '\r') (l : Local) :
    (Place.code l.mode).next m c = .code .other := by
  rw [code_next (by rcases hc with rfl | rfl <;> simp [quotes]), next_break hc]

theorem continues_feed (hrest : Follows rest) (hstr : l.str = none) (hc : c = '\n' ∨ c = '\r')
    (hclear : clear m style rest l.place (c :: seg) = true) (hbytes : ∀ d ∈ seg, TextByte d)
    (ih : ShorterContinue m style rest seg) :
    Continues m style rest l (c :: seg) := by
  rw [place_of_none hstr] at hclear
  have hplace := place_next_break (m := m) hc l
  have htail := clear_tail hclear
  rw [hplace] at htail
  have hsuffix := dropFeed_suffix c seg
  obtain ⟨hleft, hcode⟩ : clear m style rest (.code .other) (dropFeed c seg) = true ∧
      ((Place.code .other).after m seg).isCode = ((Place.code .other).after m (dropFeed c seg)).isCode := by
    cases seg with
    | nil => exact ⟨htail, rfl⟩
    | cons d seg =>
      by_cases hdrop : (d = '\n' ∨ d = '\r') ∧ c ≠ d
      · have hdropped : dropFeed c (d :: seg) = seg := if_pos hdrop
        have hnext : (Place.code .other).next m d = .code .other := place_next_break hdrop.1 fresh
        have hmore := clear_tail htail
        rw [hnext] at hmore
        rw [hdropped]
        refine ⟨hmore, ?_⟩
        show (((Place.code .other).next m d).after m seg).isCode = _
        rw [hnext]
      · have hkept : dropFeed c (d :: seg) = d :: seg := if_neg hdrop
        rw [hkept]
        exact ⟨htail, rfl⟩
  refine (ih fresh (dropFeed c seg) hsuffix.length_le fresh_good hleft
    fun x hx => hbytes x (hsuffix.subset hx)).next ?_ (fun out h => .feed hstr hc h) (fun out h => ?_)
  · rw [place_of_none hstr]
    show (((Place.code _).next m c).after m seg).isCode = _
    rw [hplace]
    exact hcode
  · refine .feed hstr hc ?_
    rw [dropFeed_append hrest]
    exact h

theorem continues_text (hrest : Follows rest) (hgood : l.Good m) (hstr : l.str = none)
    (hbreak : ¬(c = '\n' ∨ c = '\r')) (hc : TextByte c)
    (hclear : clear m style rest l.place (c :: seg) = true) (hbytes : ∀ d ∈ seg, TextByte d)
    (ih : ShorterContinue m style rest seg) :
    Continues m style rest l (c :: seg) := by
  rw [place_of_none hstr] at hclear
  have htail := clear_tail hclear
  have hopens : style.opens (c :: (seg ++ rest)) = false := by
    have := (Bool.and_eq_true_iff.mp (Bool.and_eq_true_iff.mp hclear).1).2
    simpa using this
  -- from what `text` makes of the piece, alone and in front of `rest`
  have hstep : ∀ (l' : Local) (seg' : List Char) (ks : List Key), seg' <:+ seg → l'.Good m →
      clear m style rest l'.place seg' = true →
      (((Place.code l.mode).next m c).after m seg).isCode = (l'.place.after m seg').isCode →
      l.text m c seg = (l', seg', ks) → l.text m c (seg ++ rest) = (l', seg' ++ rest, ks) →
      Continues m style rest l (c :: seg) := by
    intro l' seg' ks hsuffix hgood' hclear' hcode halone hwhole
    have hcontinues := ih l' seg' hsuffix.length_le hgood' hclear' fun x hx => hbytes x (hsuffix.subset hx)
    have hafter : (l.place.after m (c :: seg)).isCode = (l'.place.after m seg').isCode := by
      rw [place_of_none hstr]
      exact hcode
    refine @Continues.next _ _ _ _ _ _ _ _ ks hcontinues hafter (fun out h => ?_) (fun out h => ?_)
    · have : Lexes m none l (c :: seg) _ := .text hstr hbreak nofun (by rw [halone]; exact h)
      rwa [halone] at this
    · have : Lexes m (some style) l (c :: (seg ++ rest)) _ :=
        .text hstr hbreak (fun s hs => by cases hs; exact hopens) (by rw [hwhole]; exact h)
      rwa [hwhole] at this
  rcases text_cases m hstr c with hquote | ⟨hquote, hdigit, -, hnext, hread⟩ |
    ⟨hquote, line, t, ks, hline, hcalm, hnext, hread⟩
  · have hplace : (Place.code l.mode).next m c = .inside c false := if_pos hquote
    rw [hplace] at htail
    let opened : Local :=
      ⟨[], if c = '\'' then m.stringSingleQuoteType else .string, some (c, false)⟩
    have hread : ∀ xs, l.text m c xs = (opened, xs, l.flush m) := fun xs => if_pos hquote
    refine hstep opened seg _ suffix_rfl ⟨fresh_plain, nofun, ?_, ?_⟩ htail (by rw [hplace]; rfl)
      (hread seg) (hread (seg ++ rest))
    · rintro _ _ ⟨⟩
      exact quote_of_quotes hquote
    · rintro _ _ ⟨⟩ _
      rfl
  · obtain ⟨s₁, haccept, -⟩ := scanNumber_digit hc hdigit seg
    obtain ⟨s', left, hscans, -⟩ := scanNumber_scans seg s₁
    have hplace : (Place.code l.mode).next m c = .code (.number s₁) := by
      rw [code_next hquote, hnext s₁ haccept]
    rw [hplace] at htail
    obtain ⟨hd, hleft, hcode⟩ := clear_number hscans htail
    obtain ⟨halone, hmore⟩ := scanNumber_append hrest (.more haccept hscans) hd
    have hsuffix : left <:+ seg := ⟨_, hscans.append.symm⟩
    refine hstep fresh left _ hsuffix fresh_good hleft (by rw [hplace, hcode]; rfl)
      ((hread seg).trans (by rw [halone])) ((hread (seg ++ rest)).trans ?_)
    rw [show c :: (seg ++ rest) = (c :: seg) ++ rest from rfl, hmore]
  · have hplace : (Place.code l.mode).next m c = .code (mode ⟨line, t, none⟩) := by
      rw [code_next hquote, hnext]
    rw [hplace] at htail
    have hplain : ∀ x ∈ line, x ≠ nul := by
      rcases hline with ⟨rfl, -⟩ | ⟨rfl, -⟩
      · exact plain_push hgood.plain hc.ne_nul
      · exact fun x hx => mem_singleton.mp hx ▸ hc.ne_nul
    exact hstep ⟨line, t, none⟩ seg ks suffix_rfl ⟨hplain, fun _ => hcalm, nofun, nofun⟩ htail
      (by rw [hplace]; rfl) (hread seg) (hread (seg ++ rest))

/-- A clear piece has tokens of its own, whatever stands behind it. -/
theorem continues (hrest : Follows rest) : ∀ (n : Nat) {seg : List Char} {l : Local}, seg.length ≤ n →
    l.Good m → clear m style rest l.place seg = true → (∀ d ∈ seg, TextByte d) →
    Continues m style rest l seg := by
  have hnil : ∀ {l : Local}, l.Good m → Continues m style rest l [] := by
    intro l hgood
    refine ⟨l.last m, .done l, fun ks hend hnext => ?_⟩
    cases hstr : l.str with
    | none => exact hnext l hstr hgood
    | some o =>
      obtain ⟨q, raw⟩ := o
      rw [place_of_some hstr] at hend
      obtain ⟨rfl, rfl⟩ := hend.resolve_right Bool.false_ne_true
      rw [append_nil, append_nil]
      exact .done l
  intro n
  induction n with
  | zero =>
    intro seg l hlen hgood hclear hbytes
    cases length_eq_zero_iff.mp (Nat.le_zero.mp hlen)
    exact hnil hgood
  | succ n ih =>
    intro seg l hlen hgood hclear hbytes
    cases seg with
    | nil => exact hnil hgood
    | cons c seg =>
      obtain ⟨hc, hbytes⟩ := forall_mem_cons.mp hbytes
      have hmore : ShorterContinue m style rest seg := fun l' seg' hle =>
        ih (Nat.le_trans hle (Nat.le_of_succ_le_succ hlen))
      cases hstr : l.str with
      | some o => exact continues_string hgood (q := o.1) hstr hc hclear hbytes hmore
      | none =>
        by_cases hbreak : c = '\n' ∨ c = '\r'
        · exact continues_feed hrest hstr hbreak hclear hbytes hmore
        · exact continues_text hrest hgood hstr hbreak hc hclear hbytes hmore

end Local

/-! ## The whole text -/

/-- Pieces of plain text, each with the comment behind it. -/
abbrev Pieces := List (List Char × Comment)

/-- The text of the pieces and of the one behind the last comment. -/
def spelled (style : CommentStyle) : Pieces → List Char → List Char
  | [], final => final
  | (seg, com) :: pieces, final => seg ++ (com.text style ++ spelled style pieces final)

/-- The pieces are clear, and each but the last one ends outside of a string; the comments are
read as a whole. -/
def Commented (m : Methods) (style : CommentStyle) : Pieces → List Char → Prop
  | [], final => clear m style [] (.code .other) final = true
  | (seg, com) :: pieces, final =>
      clear m style (com.text style ++ spelled style pieces final) (.code .other) seg = true ∧
        ((Place.code .other).after m seg).isCode = true ∧ com.Fits style (spelled style pieces final) ∧
        Commented m style pieces final

/-- `Parse` on a new parser. -/
def parsed (m : Methods) (fuel : Nat) (text : List Char) : Option (List Key) :=
  ((LinearParser.new text).parse m fuel []).map fun r => keys r.1

/-- The settings without a handler and without the sentinel. -/
def Methods.bare (m : Methods) : Methods := { m with handlerComment := none, GHT := false }

/-- The token of a comment. -/
def commentKey (m : Methods) (style : CommentStyle) (com : Comment) : List Key :=
  if m.omitComment then [] else [(com.token style, .comment)]

/-- The tokens of the pieces, each parsed alone, with those of the comments between them. -/
def pieceKeys (m : Methods) (style : CommentStyle) (fuel : Nat) : Pieces → List Char → Option (List Key)
  | [], final => parsed m.bare fuel final
  | (seg, com) :: pieces, final =>
      (parsed m.bare fuel seg).bind fun ks =>
        (pieceKeys m style fuel pieces final).map fun more => ks ++ (commentKey m style com ++ more)

theorem Comment.Fits.token_ne_nil {com : Comment} (h : com.Fits style rest) : com.token style ≠ [] := by
  cases h with
  | sharp hne => exact hne
  | cpp => exact cons_ne_nil _ _
  | line hne => exact hne
  | block hne => exact hne

theorem Comment.Fits.flush {com : Comment} (h : com.Fits style rest) (m : Methods) :
    Local.flush m ⟨com.token style, .comment, none⟩ = commentKey m style com := by
  unfold Local.flush commentKey
  have hne := h.token_ne_nil
  cases m.omitComment <;> simp [hne]

theorem Lexes.parsed {o : Option CommentStyle} {text : List Char} {ks : List Key} {F fuel : Nat}
    (hcont : m.lineContinuation = false) (hdirect : m.directive = nul)
    (h : Lexes m o .fresh text ks) (hfuel : text.length < fuel) (hF : text.length < F)
    (hbytes : ∀ d ∈ text, TextByte d) :
    Text.parsed (m.commenting F o) fuel text = some (keys (sentinel m) ++ ks) := by
  have hkeys : keys (Parsing.enter (m.commenting F o) (.new text) []).dc = keys (sentinel m) := by
    show keys (if m.GHT then _ else _) = _
    unfold sentinel
    cases m.GHT <;> rfl
  have hstart : (Parsing.enter (m.commenting F o) (.new text) []).Is .fresh (keys (sentinel m)) :=
    ⟨UString.holds_new, rfl, rfl, hkeys, fun _ => .inl rfl⟩
  have hstands : (Parsing.enter (m.commenting F o) (.new text) []).lp.Stands text :=
    ⟨[], UString.holds_new, rfl⟩
  obtain ⟨st, hrun, hout⟩ :=
    h.loop hcont hdirect F fuel _ _ hfuel hF hbytes hstart hstands.awaits
  unfold Text.parsed LinearParser.parse
  rw [hrun]
  exact congrArg some hout

/-- The sentinel and the handler are of no concern to `Lexes`. -/
theorem Lexes.bare {o : Option CommentStyle} {l : Local} {text : List Char} {ks : List Key}
    (h : Lexes m o l text ks) : Lexes m.bare o l text ks := by
  induction h with
  | done l => exact .done (m := m.bare) l
  | string hstr hstep hline _ ih => exact .string (m := m.bare) hstr hstep hline ih
  | cut hstr hstep => exact .cut (m := m.bare) hstr hstep
  | feed hstr hc _ ih => exact .feed (m := m.bare) hstr hc ih
  | text hstr hc hopens _ ih => exact .text (m := m.bare) hstr hc hopens ih
  | comment hstr hstyle hcom _ ih => exact .comment (m := m.bare) hstr hstyle hcom ih

theorem Comment.Fits.follows {com : Comment} (h : com.Fits style rest) :
    Follows (com.text style ++ rest) := by
  intro c hc
  cases h
  all_goals
    cases hc
    first
      | exact .inl rfl
      | exact .inr rfl

theorem Commented.lexes (hcont : m.lineContinuation = false) (hdirect : m.directive = nul) {fuel : Nat}
    {final : List Char} : ∀ {pieces : Pieces}, Commented m style pieces final →
      (∀ d ∈ spelled style pieces final, TextByte d) → (spelled style pieces final).length < fuel →
      ∃ ks, pieceKeys m style fuel pieces final = some ks ∧
        Lexes m (some style) .fresh (spelled style pieces final) ks := by
  have halone : ∀ {seg : List Char} {out : List Key}, seg.length < fuel → (∀ d ∈ seg, TextByte d) →
      Lexes m none .fresh seg out → parsed m.bare fuel seg = some out := fun hlen hbytes h =>
    Lexes.parsed (m := m.bare) (F := fuel) hcont hdirect h.bare hlen hlen hbytes
  intro pieces
  induction pieces with
  | nil =>
    intro h hbytes hfuel
    obtain ⟨out, hout, hwhole⟩ := Local.continues (nofun : Follows []) final.length
      (Nat.le_refl _) Local.fresh_good h hbytes
    have hend := hwhole [] (.inl ⟨rfl, rfl⟩) fun l' _ _ => by
      rw [append_nil]
      exact .done l'
    rw [append_nil, append_nil] at hend
    exact ⟨out, halone hfuel hbytes hout, hend⟩
  | cons piece pieces ih =>
    obtain ⟨seg, com⟩ := piece
    intro h hbytes hfuel
    obtain ⟨hclear, hcode, hcom, hmore⟩ := h
    have hmem : ∀ d ∈ seg, TextByte d := fun d hd => hbytes d (mem_append_left _ hd)
    have hrest : ∀ d ∈ spelled style pieces final, TextByte d := fun d hd =>
      hbytes d (mem_append_right _ (mem_append_right _ hd))
    have hlen : (spelled style ((seg, com) :: pieces) final).length =
        seg.length + ((com.text style).length + (spelled style pieces final).length) := by
      show (seg ++ (com.text style ++ spelled style pieces final)).length = _
      rw [length_append, length_append]
    obtain ⟨ks, hks, hlexes⟩ := ih hmore hrest (by omega)
    obtain ⟨out, hout, hwhole⟩ := Local.continues hcom.follows seg.length (Nat.le_refl _)
      Local.fresh_good hclear hmem
    refine ⟨out ++ (commentKey m style com ++ ks), ?_, ?_⟩
    · show (parsed m.bare fuel seg).bind _ = _
      rw [halone (by omega) hmem hout, Option.bind_some, hks]
      rfl
    · refine hwhole _ (.inr hcode) fun l' hstr hgood => ?_
      have hflush : l'.last m = l'.flush m := by
        unfold Local.last Local.flush
        by_cases hempty : l'.line = []
        · have hstring : l'.type ≠ .string := fun heq => by
            have hcalm := hgood.calm hstr
            rw [heq] at hcalm
            rcases hcalm with h | h | h | h | h <;> cases h
          have hnone : l'.line = [] ∧ l'.type ≠ .string ∧ l'.str = none := ⟨hempty, hstring, hstr⟩
          rw [if_pos hempty, if_pos hnone, ite_self]
        · rw [if_neg hempty]
      rw [hflush, ← hcom.flush m]
      exact .comment hstr rfl hcom hlexes

/-- **A text with comments.**  The comments are found where their openers stand outside of the
strings, and each piece between them makes the tokens that it makes alone. -/
theorem parse_comments (hcont : m.lineContinuation = false) (hdirect : m.directive = nul)
    (style : CommentStyle) (pieces : Pieces) (final : List Char) (h : Commented m style pieces final)
    (hbytes : ∀ d ∈ spelled style pieces final, TextByte d) (fuel : Nat)
    (hfuel : (spelled style pieces final).length < fuel) :
    ∃ ks, pieceKeys m style fuel pieces final = some ks ∧
      parsed (style.install fuel m) fuel (spelled style pieces final) = some (keys (sentinel m) ++ ks) := by
  obtain ⟨ks, hkeys, hlexes⟩ := h.lexes hcont hdirect hbytes hfuel
  exact ⟨ks, hkeys, hlexes.parsed hcont hdirect hfuel hfuel hbytes⟩

/-- The settings of plain text, with strings in double quotes. -/
def quotingMethods : Methods := { plainMethods with stringDoubleQuote := true }

/-- A line comment, a block comment between two names, and an opener in a string. -/
theorem parse_comments_both :
    ∃ ks, pieceKeys quotingMethods .cCpp 40
        [("a=\"//\"; ".toList, .line " x".toList), ("\nb".toList, .block "y".toList)] "c".toList = some ks ∧
      parsed (CommentStyle.cCpp.install 40 quotingMethods) 40 "a=\"//\"; // x\nb/*y*/c".toList =
        some (keys (sentinel quotingMethods) ++ ks) := by
  have hall : ("a=\"//\"; // x\nb/*y*/c".toList.all fun ch => ch != nul && ch.toNat < 128) = true := by
    decide
  have hbytes : ∀ ch ∈ "a=\"//\"; // x\nb/*y*/c".toList, TextByte ch := by
    intro ch hch
    have hboth := Bool.and_eq_true_iff.mp (all_eq_true.mp hall ch hch)
    exact Ascii.textByte ⟨bne_iff_ne.mp hboth.1, of_decide_eq_true hboth.2⟩
  have hbreaks : (" x".toList.all fun c => !isBreak c) = true := by decide
  have hy : ['y'] = "y".toList := by decide
  have hline : (Comment.line " x".toList).Fits .cCpp "\nb/*y*/c".toList :=
    .line (by decide) (fun c hc => by simpa using all_eq_true.mp hbreaks c hc)
      (by rintro _ ⟨⟩; rfl)
  have hblock : (Comment.block "y".toList).Fits .cCpp "c".toList :=
    .block (by decide) (hy ▸ forall_mem_singleton.mpr (by decide)) _
  have hfinal : clear quotingMethods .cCpp [] (.code .other) "c".toList = true := by decide
  exact parse_comments (m := quotingMethods) rfl rfl .cCpp
    [("a=\"//\"; ".toList, .line " x".toList), ("\nb".toList, .block "y".toList)] "c".toList
    ⟨by decide, by decide, hline, by decide, by decide, hblock, hfinal⟩
    hbytes 40 (by decide)

/-- A comment between two names is not read as if it were not there. -/
theorem parse_comment_separates :
    (parsed (CommentStyle.cCpp.install 20 plainMethods) 20 "a/*x*/b".toList).map
        (fun ks => ks.filter fun k => k.2 ≠ .comment) ≠
      parsed plainMethods 20 "ab".toList := by
  decide

end Unisym.Text
