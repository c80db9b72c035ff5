/-
# `LexingSpec` — the parser follows `Lexes`

First what the readers of the parser take off the text, then one lemma for each kind of
iteration, and at the end the loop (`Lexes.loop`).
-/
import Unisym.Text.Lexing

namespace Unisym.Text

open LinearParser List

variable {m : Methods} {lp : LinearParser} {c : Char} {rem line : List Char}

/-! ## Readers -/

namespace LinearParser

theorem Stands.eatLinefeed (h : lp.Stands rem) (htext : ∀ d ∈ rem, TextByte d) (c : Char) :
    (lp.eatLinefeed c).Stands (dropFeed c rem) ∧ (lp.eatLinefeed c).linebuf = lp.linebuf := by
  cases rem with
  | nil =>
    obtain ⟨lp', hget, hstands, hline⟩ := h.getChar_nil
    unfold LinearParser.eatLinefeed
    rw [hget]
    exact ⟨hstands, hline⟩
  | cons cc rem =>
    obtain ⟨hcc, -⟩ := forall_mem_cons.mp htext
    obtain ⟨lp', hget, hstands, hline⟩ := h.getChar_cons hcc.ne_eof
    have hback : (lp'.backChar cc).Stands (cc :: rem) := hstands.backChar hcc.ne_nul
    unfold LinearParser.eatLinefeed dropFeed
    rw [hget]
    dsimp only
    by_cases hbreak : cc = '\n' ∨ cc = '\r'
    · by_cases hsame : c = cc
      · rw [if_pos hbreak, if_pos hsame, if_neg fun h => h.2 hsame]
        exact ⟨hback, hline⟩
      · rw [if_pos hbreak, if_neg hsame, if_pos ⟨hbreak, hsame⟩]
        exact ⟨hstands, hline⟩
    · rw [if_neg hbreak, if_neg fun h => hbreak h.1]
      exact ⟨hback, hline⟩

/-- The number scanner stops, with its characters in the line. -/
theorem Stands.numChkLoop (hcont : m.lineContinuation = false) (fuel : Nat) :
    ∀ {rem line : List Char} {s : NumScan} {lp : LinearParser}, rem.length < fuel → lp.Stands rem →
      lp.linebuf.Holds line → (∀ d ∈ rem, TextByte d) →
      ∃ n lp', Text.numChkLoop m fuel s lp = some (n, lp') ∧ lp'.Stands (scanNumber s rem).2 ∧
        lp'.linebuf.Holds (line ++ (scanNumber s rem).1) := by
  induction fuel with
  | zero =>
    intro rem line s lp hfuel
    exact absurd hfuel (Nat.not_lt_zero _)
  | succ fuel ih =>
    intro rem line s lp hfuel h hline htext
    cases rem with
    | nil =>
      obtain ⟨lp', hget, hstands, hline'⟩ := h.getChar_nil
      refine ⟨(s.finish none lp').1, (s.finish none lp').2, ?_, ?_⟩
      · simp only [Text.numChkLoop, hget]
      · show (s.finish none lp').2.Stands (s.putBack []) ∧ (s.finish none lp').2.linebuf.Holds (line ++ [])
        rw [append_nil]
        unfold NumScan.finish NumScan.putBack
        cases hd : s.dangling with
        | true =>
          refine ⟨hstands.backChar (NumScan.lastc_of_dangling hd).2.1.1, ?_⟩
          show lp'.linebuf.Holds line
          rw [hline']
          exact hline
        | false => exact ⟨hstands, hline' ▸ hline⟩
    | cons c rem =>
      obtain ⟨hc, hrem⟩ := forall_mem_cons.mp htext
      obtain ⟨lp', hget, hstands, hline'⟩ := h.getChar_cons hc.ne_eof
      have hheld : lp'.linebuf.Holds line := hline' ▸ hline
      cases haccept : s.accept c with
      | none =>
        refine ⟨(s.finish (some c) lp').1, (s.finish (some c) lp').2, ?_, ?_⟩
        · simp only [Text.numChkLoop, hget, haccept, hcont, Bool.false_and, Bool.false_eq_true, if_false]
        · have hscan : scanNumber s (c :: rem) = ([], s.putBack (c :: rem)) := by
            rw [scanNumber, haccept]
          rw [hscan, append_nil]
          unfold NumScan.finish NumScan.putBack
          cases hd : s.dangling with
          | true =>
            have hlast : (lp'.backChar s.lastc).Stands (s.lastc :: rem) :=
              hstands.backChar (NumScan.lastc_of_dangling hd).2.1.1
            exact ⟨hlast.backChar hc.ne_nul, hheld⟩
          | false => exact ⟨hstands.backChar hc.ne_nul, hheld⟩
      | some s₁ =>
        obtain ⟨n, lp₂, hrun, hleft, hholds⟩ :=
          ih (s := s₁) (Nat.lt_of_succ_lt_succ hfuel) (show (lp'.setChar c).Stands _ from hstands)
            (hheld.push hc.ne_nul) hrem
        have hscan : scanNumber s (c :: rem) = (c :: (scanNumber s₁ rem).1, (scanNumber s₁ rem).2) := by
          rw [scanNumber, haccept]
        refine ⟨n, lp₂, ?_, ?_⟩
        · simp only [Text.numChkLoop, hget, haccept]
          exact hrun
        · rw [hscan]
          rw [append_assoc] at hholds
          exact ⟨hleft, hholds⟩

/-- `rem` is what there is to read, with the end of the source put back or not. -/
def Awaits (lp : LinearParser) (rem : List Char) : Prop :=
  lp.Stands rem ∨ rem = [] ∧ lp.src = [] ∧ lp.todobuf.Holds [charEOF]

theorem Stands.awaits (h : lp.Stands rem) : lp.Awaits rem := .inl h

theorem Awaits.stands (h : lp.Awaits (c :: rem)) : lp.Stands (c :: rem) := by
  rcases h with h | ⟨hnil, -⟩
  · exact h
  · exact absurd hnil (cons_ne_nil _ _)

theorem Awaits.getChar_nil (h : lp.Awaits []) :
    ∃ lp', lp.getChar = (none, lp') ∧ lp'.Stands [] ∧ lp'.linebuf = lp.linebuf := by
  rcases h with h | ⟨-, hsrc, htodo⟩
  · exact h.getChar_nil
  · obtain ⟨todo, hinn, hempty⟩ := UString.Holds.inn_append (show lp.todobuf.Holds ([] ++ [charEOF]) from htodo)
    refine ⟨lp.getChar.2, ?_, ?_⟩
    · unfold getChar
      rw [hinn]
      simp only [or_true, if_true, askChar, hsrc, head?_nil]
    · unfold getChar
      rw [hinn]
      simp only [or_true, if_true, askChar]
      exact ⟨⟨[], hempty, by rw [hsrc]; rfl⟩, trivial⟩

/-- An escape was read: its character is in the line.  Or the text ended in it. -/
def Escapes (lp : LinearParser) (r : Bool × LinearParser) : Option (Char × List Char) → Prop
  | none => r.1 = false ∧ r.2.linebuf = lp.linebuf
  | some (ch, rem) => r.1 = true ∧ r.2.Stands rem ∧ r.2.linebuf = lp.linebuf.push ch

theorem Escapes.of_linebuf {lp₁ : LinearParser} {r : Bool × LinearParser} {o : Option (Char × List Char)}
    (h : Escapes lp₁ r o) (hline : lp₁.linebuf = lp.linebuf) : Escapes lp r o := by
  cases o with
  | none => exact ⟨h.1, h.2.trans hline⟩
  | some o => exact ⟨h.1, h.2.1, hline ▸ h.2.2⟩

/-- One more character: none is left, or it belongs to the escape, or it is put back. -/
theorem Stands.readMore {p : Char → Bool} {ch : Char} {more : Char → LinearParser → Bool × LinearParser}
    {reads : Char → List Char → Option (Char × List Char)}
    (hmore : ∀ {d : Char} {rest : List Char} {lp₁ : LinearParser}, lp₁.Stands rest →
      (∀ e ∈ rest, TextByte e) → Escapes lp₁ (more d lp₁) (reads d rest)) :
    lp.Stands rem → (∀ d ∈ rem, TextByte d) → Escapes lp
      (match lp.getChar with
      | (none, lp) => (false, lp)
      | (some d, lp) => if p d then more d lp else (true, (lp.setChar ch).backChar d))
      (match rem with
      | [] => none
      | d :: rem => if p d then reads d rem else some (ch, d :: rem)) := by
  intro h htext
  cases rem with
  | nil =>
    obtain ⟨lp₁, hget, -, hline⟩ := h.getChar_nil
    rw [hget]
    exact ⟨rfl, hline⟩
  | cons d rem =>
    obtain ⟨hd, hrem⟩ := forall_mem_cons.mp htext
    obtain ⟨lp₁, hget, h₁, hline⟩ := h.getChar_cons hd.ne_eof
    rw [hget]
    dsimp only
    by_cases hp : p d = true
    · rw [if_pos hp, if_pos hp]
      exact (hmore h₁ hrem).of_linebuf hline
    · rw [if_neg hp, if_neg hp]
      exact ⟨rfl, Stands.backChar h₁ hd.ne_nul, congrArg (UString.push · _) hline⟩

theorem Stands.escapeOctal (h : lp.Stands rem) (htext : ∀ d ∈ rem, TextByte d)
    (hc : asciiIsdigit c = true) : Escapes lp (Text.escapeOctal c lp) (escaped (c :: rem)) := by
  unfold Text.escapeOctal escaped
  dsimp only
  rw [if_pos hc]
  refine Stands.readMore (fun h₁ hrest => Stands.readMore (fun h₂ _ => ?_) h₁ hrest) h htext
  exact ⟨rfl, h₂, rfl⟩

theorem Stands.escapeHex (h : lp.Stands rem) (htext : ∀ d ∈ rem, TextByte d) :
    Escapes lp (Text.escapeHex lp) (escaped ('x' :: rem)) := by
  unfold Text.escapeHex escaped
  dsimp only
  rw [if_neg (by decide), if_pos rfl]
  refine Stands.readMore (fun h₁ hrest => Stands.readMore (fun h₂ _ => ?_) h₁ hrest) h htext
  exact ⟨rfl, h₂, rfl⟩

theorem Stands.handlerEscapeSequence (h : lp.Stands rem) (htext : ∀ d ∈ rem, TextByte d) :
    Escapes lp (Text.handlerEscapeSequence lp) (escaped rem) := by
  unfold Text.handlerEscapeSequence
  cases rem with
  | nil =>
    obtain ⟨lp₁, hget, -, hline⟩ := h.getChar_nil
    rw [hget]
    exact ⟨rfl, hline⟩
  | cons c rem =>
    obtain ⟨hc, hrem⟩ := forall_mem_cons.mp htext
    obtain ⟨lp₁, hget, h₁, hline⟩ := h.getChar_cons hc.ne_eof
    rw [hget]
    dsimp only
    by_cases hdigit : asciiIsdigit c = true
    · rw [if_pos hdigit]
      exact (h₁.escapeOctal hrem hdigit).of_linebuf hline
    · rw [if_neg hdigit]
      by_cases hx : c = 'x'
      · subst hx
        rw [if_pos rfl]
        exact (h₁.escapeHex hrem).of_linebuf hline
      · unfold escaped
        dsimp only
        rw [if_neg hx, if_neg hdigit, if_neg hx]
        exact ⟨rfl, h₁, congrArg (UString.push · _) hline⟩

end LinearParser

theorem TextByte.ascii (h : TextByte c) (hdigit : asciiIsdigit c = true) : Ascii c := by
  refine ⟨h.ne_nul, ?_⟩
  have hlt := h.lt
  have hdif := of_decide_eq_true hdigit
  unfold bytdif at hdif
  rw [show '0'.toNat = 48 from rfl] at hdif
  omega

/-! ## The state of `Parse` -/

namespace Parsing

/-- The string that `Parse` is in. -/
def Within (st : Parsing) : Option (Char × Bool) → Prop
  | none => st.yoString = false
  | some (q, raw) => st.yoString = true ∧ st.strtok = q ∧ st.yoStringRawEscape = raw

/-- The state is `l`, with these tokens in the chain. -/
structure Is (st : Parsing) (l : Local) (out : List Key) : Prop where
  line : st.lp.linebuf.Holds l.line
  type : st.crtTType = l.type
  str : st.Within l.str
  keys_eq : keys st.dc = out
  calm : l.str = none → l.type.Calm

variable {st : Parsing} {l : Local} {out : List Key}

theorem Within.yoString {o : Option (Char × Bool)} (h : st.Within o) : st.yoString = o.isSome := by
  cases o with
  | none => exact h
  | some o => exact h.1

theorem keys_apd (m : Methods) (hline : st.lp.linebuf.Holds l.line) (htype : st.crtTType = l.type)
    (hstr : st.yoString = l.str.isSome) : keys (st.apd m).dc = keys st.dc ++ l.flush m := by
  have hempty : (st.lp.linebuf.counts = 0 ∧ st.crtTType ≠ .string ∧ ¬st.yoString = true) ↔
      (l.line = [] ∧ l.type ≠ .string ∧ l.str = none) := by
    rw [hline.counts_eq_zero, htype, hstr, Option.isSome_iff_ne_none, not_not]
  unfold apd Local.flush
  dsimp only
  rw [htype]
  split
  · exact (append_nil _).symm
  · rw [← htype]
    unfold tokenAppend
    by_cases h : st.lp.linebuf.counts = 0 ∧ st.crtTType ≠ .string ∧ ¬st.yoString = true
    · rw [if_pos h, htype, if_pos (hempty.mp h)]
      exact (append_nil _).symm
    · rw [if_neg h, if_neg fun h' => h (hempty.mpr (htype ▸ h')), hline.strHeapN]
      exact map_append

/-- Behind an iteration: the state is `l`, with more tokens in the chain, and `rem` is left. -/
structure Goes (st : Parsing) (r : Local × List Char × List Key) (out : List Key) : Prop where
  is : st.Is r.1 (out ++ r.2.2)
  awaits : st.lp.Awaits r.2.1

theorem Goes.of_no_keys {l : Local} (h : st.Is l out) (hawaits : st.lp.Awaits rem) :
    st.Goes (l, rem, []) out := ⟨(append_nil out).symm ▸ h, hawaits⟩

theorem Is.keys_apd (h : st.Is l out) (m : Methods) : keys (st.apd m).dc = out ++ l.flush m := by
  rw [Parsing.keys_apd m h.line h.type h.str.yoString, h.keys_eq]

theorem Is.stringStep (h : st.Is l out) (hstands : st.lp.Stands rem) (htext : ∀ d ∈ rem, TextByte d)
    {q : Char} {raw : Bool} (hstr : l.str = some (q, raw)) :
    (l.string m c rem q raw = none → ∃ st', st.stringStep m c = (false, st') ∧ st'.Is l out) ∧
      ∀ r, l.string m c rem q raw = some r → (∀ x ∈ r.1.line, x ≠ nul) →
        ∃ st', st.stringStep m c = (true, st') ∧ st'.Goes r out := by
  obtain ⟨hyo, hq, hraw⟩ : st.yoString = true ∧ st.strtok = q ∧ st.yoStringRawEscape = raw := by
    have hwithin := h.str
    rw [hstr] at hwithin
    exact hwithin
  have hcollect : ∀ (raw' : Bool) (ch : Char), ch ≠ nul →
      ({ st.setChar ch with yoStringRawEscape := raw' } : Parsing).Is
        { l with line := l.line ++ [ch], str := some (q, raw') } out := fun raw' ch hch =>
    ⟨h.line.push hch, h.type, ⟨hyo, hq, rfl⟩, h.keys_eq, nofun⟩
  unfold Local.string Parsing.stringStep
  rw [hraw, hq]
  split
  · refine ⟨nofun, ?_⟩
    rintro _ ⟨⟩ hplain
    exact ⟨_, rfl, .of_no_keys (hcollect false c (hplain c mem_append_cons_self))
      hstands.awaits⟩
  split
  · refine ⟨nofun, ?_⟩
    rintro _ ⟨⟩ -
    refine ⟨_, rfl, ⟨h.line.clear, rfl, rfl, h.keys_apd m, fun _ => .inl rfl⟩, hstands.awaits⟩
  split
  · have hesc := hstands.handlerEscapeSequence htext
    cases he : escaped rem with
    | none =>
      rw [he] at hesc
      refine ⟨fun _ => ?_, nofun⟩
      obtain ⟨hfalse, hline⟩ := hesc
      refine ⟨_, congrArg (fun b => (b, _)) hfalse, ?_, h.type, ?_, h.keys_eq, h.calm⟩
      · show (handlerEscapeSequence st.lp).2.linebuf.Holds l.line
        rw [hline]
        exact h.line
      · rw [hstr]
        exact ⟨hyo, rfl, rfl⟩
    | some r =>
      obtain ⟨ch, rem'⟩ := r
      rw [he] at hesc
      refine ⟨nofun, ?_⟩
      rintro _ ⟨⟩ hplain
      obtain ⟨htrue, hleft, hpush⟩ := hesc
      have hch := hplain ch mem_append_cons_self
      refine ⟨_, congrArg (fun b => (b, _)) htrue, .of_no_keys ⟨?_, h.type, ?_, h.keys_eq, ?_⟩ hleft.awaits⟩
      · show (handlerEscapeSequence st.lp).2.linebuf.Holds (l.line ++ [ch])
        rw [hpush]
        exact h.line.push hch
      · show Within _ l.str
        rw [hstr]
        exact ⟨hyo, rfl, rfl⟩
      · exact h.calm
  split
  · refine ⟨nofun, ?_⟩
    rintro _ ⟨⟩ hplain
    exact ⟨_, rfl, .of_no_keys (hcollect true c (hplain c mem_append_cons_self))
      hstands.awaits⟩
  · refine ⟨nofun, ?_⟩
    rintro _ ⟨⟩ hplain
    have hc := hplain c mem_append_cons_self
    refine ⟨_, rfl, .of_no_keys ⟨h.line.push hc, h.type, ?_, h.keys_eq, h.calm⟩ hstands.awaits⟩
    show Within _ l.str
    rw [hstr]
    exact ⟨hyo, hq, hraw⟩

theorem Is.linefeedStep (hcont : m.lineContinuation = false) (h : st.Is l out) (hstr : l.str = none)
    (hstands : st.lp.Stands rem) (htext : ∀ d ∈ rem, TextByte d) :
    (st.linefeedStep m c).Goes (.fresh, dropFeed c rem, l.last m) out := by
  obtain ⟨heaten, hline⟩ := hstands.eatLinefeed htext c
  have hcontinued : (st.lp.eatLinefeed c).continued m = false := by
    unfold LinearParser.continued
    rw [hcont, Bool.false_and]
  have hheld : (st.lp.eatLinefeed c).linebuf.Holds l.line := hline ▸ h.line
  have hyo : st.yoString = false := by
    rw [h.str.yoString, hstr]
    rfl
  unfold Parsing.linefeedStep Local.last
  dsimp only
  rw [hcontinued, if_pos (by rfl)]
  by_cases hempty : l.line = []
  · have hzero := hheld.counts_eq_zero.mpr hempty
    rw [if_pos hempty, if_neg (not_not_intro hzero)]
    refine .of_no_keys ⟨?_, rfl, hyo, h.keys_eq, fun _ => .inl rfl⟩ heaten.awaits
    rw [hempty] at hheld
    exact hheld
  · have hne : (st.lp.eatLinefeed c).linebuf.counts ≠ 0 := fun hzero =>
      hempty (hheld.counts_eq_zero.mp hzero)
    rw [if_neg hempty, if_pos hne]
    refine ⟨⟨hheld.clear, rfl, hyo, ?_, fun _ => .inl rfl⟩, heaten.awaits⟩
    have hlocal : st.yoString = l.str.isSome := h.str.yoString
    rw [← h.keys_eq]
    exact Parsing.keys_apd m hheld h.type hlocal

/-- The number goes to the line that is there, which an `apd` may have emptied. -/
theorem Is.numberScan (hcont : m.lineContinuation = false) {fuel : Nat} (hfuel : (c :: rem).length < fuel)
    (h : st.Is l out) (hstr : l.str = none) (hstands : st.lp.Stands rem) (htext : ∀ d ∈ c :: rem, TextByte d) :
    ∃ st', ((lineParseNumChkDefault m fuel (st.lp.backChar c)).map fun (_, lp) =>
      let st := { st with lp := lp, crtTType := .number }.apd m
      { st with crtlineEnto := st.lp.pos.y, crtcolEnto := st.lp.pos.x, crtTType := .any }) = some st' ∧
    st'.Goes (.fresh, (scanNumber .start (c :: rem)).2,
      Local.flush m { l with line := l.line ++ (scanNumber .start (c :: rem)).1, type := .number }) out := by
  have hback : (st.lp.backChar c).Stands (c :: rem) := hstands.backChar (htext c mem_cons_self).ne_nul
  obtain ⟨n, lp', hrun, hleft, hline⟩ := hback.numChkLoop hcont fuel (s := .start) hfuel h.line htext
  have hyo : st.yoString = l.str.isSome := h.str.yoString
  refine ⟨_, congrArg (Option.map _) hrun, ⟨hline.clear, rfl, ?_, ?_, fun _ => .inl rfl⟩, hleft.awaits⟩
  · show st.yoString = false
    rw [hyo, hstr]
    rfl
  · refine (@Parsing.keys_apd { st with lp := lp', crtTType := .number }
      { l with line := l.line ++ (scanNumber .start (c :: rem)).1, type := .number }
      m hline rfl hyo).trans ?_
    exact congrArg (· ++ _) h.keys_eq

theorem Is.numberStep (hcont : m.lineContinuation = false) {fuel : Nat} (hfuel : (c :: rem).length < fuel)
    (h : st.Is l out) (hstr : l.str = none) (hstands : st.lp.Stands rem)
    (htext : ∀ d ∈ c :: rem, TextByte d) (hident : l.type ≠ .identy) (hdigit : asciiIsdigit c = true)
    (hnum : m.handlerNumchk = true) (hquote : Local.quotes m c = false) :
    ∃ st', st.numberStep m fuel c = some st' ∧ st'.Goes (l.text m c rem) out := by
  have hyo : st.yoString = false := by
    rw [h.str.yoString, hstr]
    rfl
  have htoken : l.text m c rem =
      (.fresh, (scanNumber .start (c :: rem)).2, (if l.type ≠ .any then l.flush m else []) ++
        Local.flush m { (if l.type ≠ .any then .fresh else l : Local) with
          line := (if l.type ≠ .any then .fresh else l : Local).line ++ (scanNumber .start (c :: rem)).1
          type := .number }) := by
    have hcond : (asciiIsdigit c && m.handlerNumchk && decide (l.type ≠ .identy)) = true := by
      rw [hdigit, hnum, decide_eq_true hident]
      rfl
    unfold Local.text
    rw [if_neg (Bool.eq_false_iff.mp hquote), if_pos hcond]
  rw [htoken]
  unfold Parsing.numberStep
  rw [h.type]
  by_cases hany : l.type = .any
  · rw [if_neg (not_not_intro hany), if_neg (not_not_intro hany), if_neg (not_not_intro hany)]
    exact h.numberScan hcont hfuel hstr hstands htext
  · rw [if_pos hany, if_pos hany, if_pos hany]
    have hapd : ((st.apd m).mark).Is { (.fresh : Local) with type := l.type } (out ++ l.flush m) :=
      ⟨h.line.clear, h.type, hyo, h.keys_apd m, fun _ => h.calm hstr⟩
    obtain ⟨st', hrun, hgoes⟩ := hapd.numberScan hcont hfuel rfl hstands htext
    refine ⟨st', hrun, ⟨?_, hgoes.awaits⟩⟩
    rw [← append_assoc]
    exact hgoes.is

/-- A character for the line, or for a new line behind the token that is there. -/
theorem Is.collect (h : st.Is l out) (hstr : l.str = none) (hawaits : st.lp.Awaits rem)
    (hc : c ≠ nul) {t : Toktype} (ht : t.Calm) :
    ({ st.setChar c with crtTType := t } : Parsing).Goes
      ({ l with line := l.line ++ [c], type := t }, rem, []) out ∧
    ({ (st.apd m).mark.setChar c with crtTType := t } : Parsing).Goes
      (⟨[c], t, none⟩, rem, l.flush m) out := by
  have hyo : st.yoString = false := by
    rw [h.str.yoString, hstr]
    rfl
  constructor
  · exact .of_no_keys ⟨h.line.push hc, rfl, h.str, h.keys_eq, fun _ => ht⟩ hawaits
  · exact ⟨⟨h.line.clear.push hc, rfl, hyo, h.keys_apd m, fun _ => ht⟩, hawaits⟩

theorem Is.textStep (hcont : m.lineContinuation = false) {fuel : Nat} (hfuel : (c :: rem).length < fuel)
    (h : st.Is l out) (hstr : l.str = none) (hawaits : st.lp.Awaits rem)
    (hstands : asciiIsdigit c = true → st.lp.Stands rem) (htext : ∀ d ∈ c :: rem, TextByte d) :
    ∃ st', st.textStep m fuel c = some st' ∧ st'.Goes (l.text m c rem) out := by
  have hc := (htext c mem_cons_self).ne_nul
  cases hquote : Local.quotes m c with
  | true =>
    have hcond : (m.stringDoubleQuote && c = '"' || m.stringSingleQuote && c = '\'') = true := hquote
    unfold Parsing.textStep Local.text
    rw [if_pos hcond, if_pos hquote]
    exact ⟨_, rfl, ⟨h.line.clear, rfl, ⟨rfl, rfl, rfl⟩, h.keys_apd m, nofun⟩, hawaits⟩
  | false =>
    have hcond : ¬(m.stringDoubleQuote && c = '"' || m.stringSingleQuote && c = '\'') = true :=
      Bool.eq_false_iff.mp hquote
    by_cases hnumber : (asciiIsdigit c && m.handlerNumchk && decide (l.type ≠ .identy)) = true
    · obtain ⟨hboth, htype⟩ := Bool.and_eq_true_iff.mp hnumber
      obtain ⟨hdigit, hnumchk⟩ := Bool.and_eq_true_iff.mp hboth
      unfold Parsing.textStep
      rw [if_neg hcond, h.type, if_pos hnumber]
      exact h.numberStep hcont hfuel hstr (hstands hdigit) htext (of_decide_eq_true htype) hdigit
        hnumchk hquote
    · unfold Parsing.textStep Local.text
      rw [if_neg hcond, if_neg (Bool.eq_false_iff.mp hquote), h.type, if_neg hnumber, if_neg hnumber]
      have hget := h.collect (m := m) hstr hawaits hc (getctype_calm c)
      split
      · have hidenty : Toktype.identy.Calm := .inr (.inr (.inr (.inl rfl)))
        have hident := h.collect (m := m) hstr hawaits hc hidenty
        split
        · exact ⟨_, rfl, hident.1⟩
        · refine ⟨_, rfl, ?_⟩
          split
          · exact hident.2
          · exact hget.2
      · split
        · exact ⟨_, rfl, hget.1⟩
        · exact ⟨_, rfl, hget.2⟩

end Parsing

end Unisym.Text
