/-
# `KeptText` — which texts the parser keeps

**The defect.**  A number that ends in a dot or a sign (`1.`, `2e+`) puts this character back
and leaves it in the line too, so it comes out twice, and the second time behind the character
that ended the number: `1.;` is read as `1.` and `;.`.

**What holds** (`parse_keeps_characters`): the parser stops, and the texts of its tokens are
the input without its line breaks exactly when no number of the input ends so
(`numbersClosed`).  Each such number makes the output one character longer (`Outcome`), and
nothing makes it shorter.
-/
import Unisym.Text.CommentSpec

namespace Unisym.Text

open List

variable {m : Methods} {l : Local} {c : Char} {rem : List Char} {ks : List Key}

/-- The texts of the tokens. -/
def spell (ks : List Key) : List Char := ks.flatMap (·.1)

theorem spell_append (ks₁ ks₂ : List Key) : spell (ks₁ ++ ks₂) = spell ks₁ ++ spell ks₂ :=
  flatMap_append

theorem spell_keys (dc : List Tnode) : spell (keys dc) = texts dc := by
  unfold spell keys texts
  rw [flatMap_map]

theorem Methods.PlainText.quotes (hm : m.PlainText) (c : Char) : Local.quotes m c = false := by
  unfold Local.quotes
  rw [hm.double, hm.single]
  rfl

theorem Methods.PlainText.spell_flush (hm : m.PlainText) (htype : l.type ≠ .comment) :
    spell (l.flush m) = l.line := by
  unfold Local.flush
  rw [hm.spaces, decide_eq_false htype, Bool.false_and, Bool.and_false, Bool.or_self,
    if_neg Bool.false_ne_true]
  split
  · next hempty => exact hempty.1.symm
  · exact append_nil _

theorem Methods.PlainText.spell_last (hm : m.PlainText) (htype : l.type ≠ .comment) :
    spell (l.last m) = l.line := by
  unfold Local.last
  split
  · next hempty => exact hempty.symm
  · exact hm.spell_flush htype

/-! ## One iteration -/

/-- What an iteration did: the text is kept, and the numbers left are those of before; or a
number dangled, and there is one character more. -/
def Outcome (m : Methods) (l : Local) (rem : List Char) (r : Local × List Char × List Key) : Prop :=
  (spell r.2.2 ++ r.1.line ++ unbroken r.2.1 = l.line ++ unbroken rem ∧
    numbersClosed m l.mode rem = numbersClosed m r.1.mode r.2.1) ∨
  ((spell r.2.2 ++ r.1.line ++ unbroken r.2.1).length = (l.line ++ unbroken rem).length + 1 ∧
    numbersClosed m l.mode rem = false)

theorem Local.closed_cons (l : Local) (c : Char) (rem : List Char) :
    numbersClosed m l.mode (c :: rem) = numbersClosed m (l.mode.next m c) rem := by
  have hdangles : l.mode.dangles (some c) = false := by
    unfold mode
    split <;> rfl
  rw [numbersClosed, hdangles]
  rfl

/-- A line break ends the token and is dropped, with the second character of it. -/
theorem Methods.PlainText.feed (hm : m.PlainText) (htype : l.type ≠ .comment) (hc : isBreak c = true)
    (rem : List Char) :
    Outcome m l (c :: rem) (.fresh, dropFeed c rem, l.last m) := by
  have hor : ∀ {d : Char}, isBreak d = true → d = '\n' ∨ d = '\r' := fun h => by
    simpa [isBreak] using h
  have hdropped : unbroken (dropFeed c rem) = unbroken rem ∧
      numbersClosed m .other (dropFeed c rem) = numbersClosed m .other rem := by
    cases rem with
    | nil => exact ⟨rfl, rfl⟩
    | cons d rem =>
      by_cases hdrop : (d = '\n' ∨ d = '\r') ∧ c ≠ d
      · have hbreak : isBreak d = true := by
          rcases hdrop.1 with rfl | rfl <;> rfl
        have hclosed := Local.closed_cons (m := m) .fresh d rem
        rw [Local.next_break hdrop.1] at hclosed
        rw [show dropFeed c (d :: rem) = rem from if_pos hdrop]
        exact ⟨(unbroken_cons_of_break hbreak rem).symm, hclosed.symm⟩
      · rw [show dropFeed c (d :: rem) = d :: rem from if_neg hdrop]
        exact ⟨rfl, rfl⟩
  refine .inl ⟨?_, ?_⟩
  · rw [hm.spell_last htype, unbroken_cons_of_break hc, hdropped.1]
    exact congrArg (· ++ _) (append_nil _)
  · rw [Local.closed_cons, Local.next_break (hor hc)]
    exact hdropped.2.symm

/-- The text a scanner leaves is that of `rest`, with the dangling character once more. -/
theorem length_unbroken_putBack {s : NumScan} (rest : List Char) (hd : s.dangling = true) :
    (unbroken (s.putBack rest)).length = (unbroken rest).length + 1 := by
  obtain ⟨_, _, hbreak⟩ := NumScan.lastc_of_dangling hd
  have hsplit : unbroken rest = unbroken (rest.take 1) ++ unbroken (rest.drop 1) := by
    rw [← unbroken_append, take_append_drop]
  unfold NumScan.putBack
  rw [if_pos hd, unbroken_append, unbroken_cons hbreak, hsplit, length_append,
    length_append, length_cons, Nat.add_assoc]

theorem Methods.PlainText.spell_number (hm : m.PlainText) (htype : l.type ≠ .comment) (taken : List Char) :
    spell (l.number m taken) = l.line ++ taken := by
  unfold Local.number
  rw [spell_append, hm.spell_flush Toktype.noConfusion]
  split
  · rw [hm.spell_flush htype]
    rfl
  · rfl

/-- A number is one token, and only a dangling one changes the text. -/
theorem Methods.PlainText.number (hm : m.PlainText) (htype : l.type ≠ .comment) (hc : TextByte c)
    (hdigit : asciiIsdigit c = true)
    (hnext : ∀ s₁, NumScan.start.accept c = some s₁ → l.mode.next m c = .number s₁) :
    Outcome m l (c :: rem) (.fresh, (scanNumber .start (c :: rem)).2,
      l.number m (scanNumber .start (c :: rem)).1) := by
  obtain ⟨s₁, haccept, hscan⟩ := scanNumber_digit hc hdigit rem
  obtain ⟨s', rest, hscans, hleft⟩ := scanNumber_scans rem s₁
  have hclosed : numbersClosed m l.mode (c :: rem) = (!s'.dangling && numbersClosed m .other rest) := by
    rw [Local.closed_cons, hnext s₁ haccept, hscans.closed]
  have hread : unbroken (c :: rem) = (c :: (scanNumber s₁ rem).1) ++ unbroken rest := by
    rw [unbroken_cons (NumScan.accept_some haccept).2.2]
    have happend := congrArg unbroken hscans.append
    rw [unbroken_append, hscans.unbroken_taken] at happend
    exact congrArg (c :: ·) happend
  unfold Outcome
  rw [hscan, hm.spell_number htype, hleft, hclosed, hread]
  cases hd : s'.dangling with
  | false =>
    have hrest : s'.putBack rest = rest := by
      unfold NumScan.putBack
      rw [hd]
      rfl
    rw [hrest]
    exact .inl ⟨by simp [Local.fresh], rfl⟩
  | true =>
    refine .inr ⟨?_, rfl⟩
    simp only [length_append, length_unbroken_putBack rest hd]
    show _ + 0 + _ = _
    omega

/-- A character of plain text, behind which the parser is outside of strings again. -/
theorem Methods.PlainText.text (hm : m.PlainText) (hstr : l.str = none) (hcalm : l.type.Calm)
    (hc : TextByte c) (hbreak : isBreak c = false) (rem : List Char) :
    ((l.text m c rem).1.str = none ∧ (l.text m c rem).1.type.Calm) ∧
      Outcome m l (c :: rem) (l.text m c rem) := by
  rcases Local.text_cases m hstr c with hquote | ⟨-, hdigit, -, hnext, hread⟩ |
    ⟨-, line, t, ks, hline, ht, hnext, hread⟩
  · rw [hm.quotes] at hquote
    cases hquote
  · rw [hread]
    exact ⟨⟨rfl, .inl rfl⟩, hm.number hcalm.ne_comment hc hdigit hnext⟩
  · rw [hread]
    refine ⟨⟨rfl, ht⟩, .inl ⟨?_, by rw [Local.closed_cons, hnext]⟩⟩
    rw [unbroken_cons hbreak]
    rcases hline with ⟨rfl, rfl⟩ | ⟨rfl, rfl⟩
    · show l.line ++ [c] ++ unbroken rem = _
      rw [append_assoc, singleton_append]
    · rw [hm.spell_flush hcalm.ne_comment, append_assoc, singleton_append]

/-! ## A whole text -/

/-- The tokens of `rem` behind `l` have its text exactly when no number dangles; else they are longer. -/
def Spells (m : Methods) (l : Local) (rem : List Char) (ks : List Key) : Prop :=
  (numbersClosed m l.mode rem = true → spell ks = l.line ++ unbroken rem) ∧
  (numbersClosed m l.mode rem = false → (l.line ++ unbroken rem).length < (spell ks).length)

theorem Outcome.spells {r : Local × List Char × List Key} (h : Outcome m l rem r)
    (hmore : Spells m r.1 r.2.1 ks) : Spells m l rem (r.2.2 ++ ks) := by
  have hspell := spell_append r.2.2 ks
  rcases h with ⟨hkept, hclosed⟩ | ⟨hlonger, hopen⟩
  · unfold Spells
    rw [hspell, hclosed, ← hkept]
    refine ⟨fun h => ?_, fun h => ?_⟩
    · rw [hmore.1 h, append_assoc]
    · have := hmore.2 h
      simp only [length_append] at this ⊢
      omega
  · refine ⟨fun h => absurd (hopen.symm.trans h) Bool.noConfusion, fun _ => ?_⟩
    have hle : (r.1.line ++ unbroken r.2.1).length ≤ (spell ks).length := by
      cases h : numbersClosed m r.1.mode r.2.1 with
      | true => exact Nat.le_of_eq (congrArg List.length (hmore.1 h).symm)
      | false => exact Nat.le_of_lt (hmore.2 h)
    rw [hspell]
    simp only [length_append] at hle hlonger ⊢
    omega

theorem Methods.PlainText.lexes (hm : m.PlainText) : ∀ (n : Nat) {rem : List Char} {l : Local},
    rem.length ≤ n → l.str = none → l.type.Calm → (∀ d ∈ rem, TextByte d) →
    ∃ ks, Lexes m none l rem ks ∧ Spells m l rem ks := by
  have hnil : ∀ {l : Local}, l.type.Calm → ∃ ks, Lexes m none l [] ks ∧ Spells m l [] ks := by
    intro l hcalm
    have hclosed : numbersClosed m l.mode [] = true := by
      unfold Local.mode
      split <;> rfl
    refine ⟨l.last m, .done l, fun _ => ?_, fun h => absurd (hclosed.symm.trans h) Bool.noConfusion⟩
    exact (hm.spell_last hcalm.ne_comment).trans (append_nil _).symm
  intro n
  induction n with
  | zero =>
    intro rem l hlen _ hcalm _
    cases length_eq_zero_iff.mp (Nat.le_zero.mp hlen)
    exact hnil hcalm
  | succ n ih =>
    intro rem l hlen hstr hcalm hbytes
    cases rem with
    | nil => exact hnil hcalm
    | cons c rem =>
      have hrem : rem.length ≤ n := Nat.le_of_succ_le_succ hlen
      obtain ⟨hc, htail⟩ := forall_mem_cons.mp hbytes
      by_cases hbreak : c = '\n' ∨ c = '\r'
      · have hsuffix := dropFeed_suffix c rem
        obtain ⟨ks, hlexes, hspells⟩ := ih (Nat.le_trans hsuffix.length_le hrem) (l := .fresh) rfl (.inl rfl)
          fun d hd => htail d (hsuffix.subset hd)
        have hfeed := hm.feed hcalm.ne_comment
          (show isBreak c = true by rcases hbreak with rfl | rfl <;> rfl) rem
        exact ⟨_, .feed hstr hbreak hlexes, hfeed.spells hspells⟩
      · obtain ⟨⟨hstr', hcalm'⟩, houtcome⟩ := hm.text hstr hcalm hc
          (show isBreak c = false by unfold isBreak; simpa using hbreak) rem
        obtain ⟨hshort, hleft⟩ := Local.text_shortens (m := m) l hbytes
        obtain ⟨ks, hlexes, hspells⟩ := ih (Nat.le_trans hshort hrem) hstr' hcalm' hleft
        exact ⟨_, .text hstr hbreak nofun hlexes, houtcome.spells hspells⟩

/-! ## The chain grows -/

namespace Parsing

variable {st st' : Parsing} {fuel : Nat}

theorem apd_grows (m : Methods) (st : Parsing) : st.dc <+: (st.apd m).dc := by
  show st.dc <+: (if _ then st.dc else tokenAppend st.dc _ _ _ _ _ _)
  unfold tokenAppend
  split
  · exact prefix_rfl
  · split
    · exact prefix_rfl
    · exact prefix_append _ _

theorem not_continued (hm : m.PlainText) (lp : LinearParser) : lp.continued m = false := by
  unfold LinearParser.continued
  rw [hm.continuation, Bool.false_and]

theorem linefeedStep_grows (hm : m.PlainText) (c : Char) (st : Parsing) :
    st.dc <+: (st.linefeedStep m c).dc := by
  unfold Parsing.linefeedStep
  dsimp only
  rw [not_continued hm, if_pos (by rfl)]
  split
  · exact apd_grows m { st with lp := { st.lp.eatLinefeed c with
      pos := { (st.lp.eatLinefeed c).pos with y := (st.lp.eatLinefeed c).pos.y + 1 } } }
  · exact prefix_rfl

theorem stringStep_grows (m : Methods) (c : Char) (st : Parsing) : st.dc <+: (st.stringStep m c).2.dc := by
  unfold Parsing.stringStep
  split
  · exact prefix_rfl
  split
  · exact apd_grows m st
  split
  · exact prefix_rfl
  split <;> exact prefix_rfl

theorem textStep_grows (hm : m.PlainText) (h : st.textStep m fuel c = some st') : st.dc <+: st'.dc := by
  unfold Parsing.textStep at h
  rw [hm.double, hm.single, Bool.false_and, Bool.false_and, Bool.or_self, if_neg Bool.false_ne_true] at h
  split at h
  · unfold Parsing.numberStep at h
    obtain ⟨⟨n, lp⟩, -, rfl⟩ := Option.map_eq_some_iff.mp h
    have hentry : st.dc <+: (if st.crtTType ≠ .any then (st.apd m).mark else st).dc := by
      split
      · exact apd_grows m st
      · exact prefix_rfl
    exact hentry.trans (apd_grows m
      { (if st.crtTType ≠ .any then (st.apd m).mark else st) with lp := lp, crtTType := .number })
  · split at h
    all_goals
      split at h
      · cases h
        exact prefix_rfl
      · cases h
        exact apd_grows m st

theorem directiveStep_grows (hm : m.PlainText) (h : st.directiveStep m fuel = some st') : st.dc <+: st'.dc := by
  unfold Parsing.directiveStep at h
  obtain ⟨⟨c, st₁⟩, hlines, rfl⟩ := Option.map_eq_some_iff.mp h
  cases fuel with
  | zero => cases hlines
  | succ fuel =>
    obtain ⟨⟨c', lp⟩, -, hline⟩ := Option.bind_eq_some_iff.mp hlines
    dsimp only at hline
    rw [not_continued hm, if_neg Bool.false_ne_true] at hline
    cases hline
    exact (apd_grows m st).trans (apd_grows m { (st.apd m).mark with crtTType := .direct, lp := lp })

theorem step_grows (hm : m.PlainText) {b : Bool} (h : step m fuel c st = some (b, st')) : st.dc <+: st'.dc := by
  unfold step at h
  split at h
  · obtain rfl : (st.stringStep m c).2 = st' := congrArg Prod.snd (Option.some.inj h)
    exact stringStep_grows m c st
  split at h
  · cases h
    exact linefeedStep_grows hm c st
  obtain ⟨direct, -, hrun⟩ := Option.bind_eq_some_iff.mp h
  split at hrun
  · obtain ⟨st₁, hrun, heq⟩ := Option.map_eq_some_iff.mp hrun
    cases heq
    exact directiveStep_grows hm hrun
  · rw [hm.comment] at hrun
    obtain ⟨st₁, hrun, heq⟩ := Option.map_eq_some_iff.mp hrun
    cases heq
    exact textStep_grows hm hrun

theorem loop_grows (hm : m.PlainText) : ∀ {fuel : Nat} {st st' : Parsing}, loop m fuel st = some st' →
    st.dc <+: st'.dc := by
  intro fuel
  induction fuel with
  | zero => exact nofun
  | succ fuel ih =>
    intro st st' h
    unfold loop at h
    split at h
    · cases h
      exact prefix_rfl
    · obtain ⟨⟨b, st₁⟩, hstep, hmore⟩ := Option.bind_eq_some_iff.mp h
      have hgrown := step_grows hm hstep
      cases b with
      | true => exact hgrown.trans (ih hmore)
      | false =>
        cases hmore
        exact hgrown

end Parsing

/-- The parser comes to an end on every input, and the texts of its tokens are the input
without its line breaks exactly when no number of the input ends in a dot or a sign. -/
theorem parse_keeps_characters {m : Methods} (hm : m.PlainText) (dc : List Tnode)
    {input : List Char} (hinput : ∀ c ∈ input, Ascii c) {fuel : Nat}
    (hfuel : input.length < fuel) :
    ∃ tokens lp, (LinearParser.new input).parse m fuel dc =
        some (dc ++ sentinel m ++ tokens, lp) ∧
      (texts tokens = unbroken input ↔ numbersClosed m .other input = true) := by
  have hbytes : ∀ c ∈ input, TextByte c := fun c hc => (hinput c hc).textByte
  obtain ⟨ks, hlexes, hkeep, hmore⟩ := hm.lexes input.length (Nat.le_refl _) (l := .fresh) rfl (.inl rfl) hbytes
  have hplain : m.commenting fuel none = m := by
    obtain ⟨_, _, _⟩ := m
    cases hm.comment
    rfl
  have hdc : (Parsing.enter m (.new input) dc).dc = dc ++ sentinel m := by
    unfold Parsing.enter sentinel
    cases m.GHT with
    | true => rfl
    | false => exact (append_nil dc).symm
  have hstart : (Parsing.enter m (.new input) dc).Is .fresh (keys (dc ++ sentinel m)) :=
    ⟨UString.holds_new, rfl, rfl, congrArg keys hdc, fun _ => .inl rfl⟩
  obtain ⟨st, hrun, hout⟩ := hlexes.loop hm.continuation hm.directive fuel fuel _ _ hfuel hfuel hbytes hstart
    (.inl ⟨[], UString.holds_new, rfl⟩)
  rw [hplain] at hrun hout
  have hgrown : dc ++ sentinel m <+: (if st.lp.linebuf.counts ≠ 0 then st.apd m else st).dc := by
    rw [← hdc]
    refine (Parsing.loop_grows hm hrun).trans ?_
    split
    · exact Parsing.apd_grows m st
    · exact prefix_rfl
  obtain ⟨tokens, htokens⟩ := hgrown
  refine ⟨tokens, _, (congrArg (Option.map _) hrun).trans
    (congrArg (fun dc => some (dc, _)) htokens.symm), ?_⟩
  have htexts : texts tokens = spell ks := by
    rw [← htokens, keys, map_append] at hout
    rw [← spell_keys]
    exact congrArg spell (append_cancel_left hout)
  rw [htexts]
  refine ⟨fun hsame => ?_, hkeep⟩
  by_contra hopen
  have hlonger := hmore (Bool.eq_false_iff.mpr hopen)
  rw [hsame] at hlonger
  exact absurd hlonger (Nat.lt_irrefl _)

/-- `a1 = 2.5e-3;` and a line break, in seven tokens. -/
theorem parse_keeps_assignment :
    ∃ tokens lp, (LinearParser.new "a1 = 2.5e-3;\r\n".toList).parse plainMethods 15 [] =
        some ([] ++ sentinel plainMethods ++ tokens, lp) ∧
      texts tokens = "a1 = 2.5e-3;".toList := by
  have hall : ("a1 = 2.5e-3;\r\n".toList.all fun ch => ch != nul && ch.toNat < 128) = true := by
    decide
  have hascii : ∀ ch ∈ "a1 = 2.5e-3;\r\n".toList, Ascii ch := by
    intro ch hch
    have hboth := Bool.and_eq_true_iff.mp (all_eq_true.mp hall ch hch)
    exact ⟨bne_iff_ne.mp hboth.1, of_decide_eq_true hboth.2⟩
  obtain ⟨tokens, lp, hparse, hiff⟩ := @parse_keeps_characters plainMethods
    plainMethods_plainText [] "a1 = 2.5e-3;\r\n".toList hascii 15 (by decide)
  exact ⟨tokens, lp, hparse, hiff.mpr (by decide)⟩

/-- `1.;` is read as `1.` and `;.`. -/
theorem parse_doubles_dot :
    ((LinearParser.new "1.;".toList).parse plainMethods 4 []).map (fun r => texts (r.1.drop 1)) =
        some "1.;.".toList ∧
      unbroken "1.;".toList ≠ "1.;.".toList := by
  decide

end Unisym.Text
