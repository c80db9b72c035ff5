/-
# `LinearParserSpec` — what the parser has left to read

What is left to read is one list: the characters that were put back, the last of them first,
and the rest of the source (`LinearParser.Stands`).  A number takes characters off this list and
may put the last of them back (`NumScan.putBack`); `numbersClosed` says that none of a text does.
-/
import Unisym.Text.LinearParser

namespace Unisym.Text

open List

/-- A 7-bit character that is not zero. -/
def Ascii (c : Char) : Prop := c ≠ nul ∧ c.toNat < 128

instance (c : Char) : Decidable (Ascii c) := inferInstanceAs (Decidable (c ≠ nul ∧ c.toNat < 128))

theorem Ascii.ne_eof {c : Char} (h : Ascii c) : c ≠ charEOF := by
  intro heof
  have := h.2
  rw [heof] at this
  exact absurd this (by decide)

/-- The settings of plain text: no comments, directives, strings or continued lines, and
spaces are tokens. -/
structure Methods.PlainText (m : Methods) : Prop where
  comment : m.handlerComment = none
  directive : m.directive = nul
  single : m.stringSingleQuote = false
  double : m.stringDoubleQuote = false
  continuation : m.lineContinuation = false
  spaces : m.omitSpaces = false

def isBreak (c : Char) : Bool := c = '\n' || c = '\r'

/-- A text without its line breaks. -/
def unbroken (xs : List Char) : List Char := xs.filter (!isBreak ·)

theorem unbroken_append (xs ys : List Char) :
    unbroken (xs ++ ys) = unbroken xs ++ unbroken ys := filter_append ..

theorem unbroken_cons_of_break {c : Char} (h : isBreak c = true) (xs : List Char) :
    unbroken (c :: xs) = unbroken xs := filter_cons_of_neg (by rw [h]; decide)

theorem unbroken_cons {c : Char} (h : isBreak c = false) (xs : List Char) :
    unbroken (c :: xs) = c :: unbroken xs := filter_cons_of_pos (by rw [h]; rfl)

/-! ## What is left to read -/

/-- `rem` is what stands on the stack and in the source. -/
def LinearParser.Stands (lp : LinearParser) (rem : List Char) : Prop :=
  ∃ stack, lp.todobuf.Holds stack ∧ stack.reverse ++ lp.src = rem

/-- The parser has `rem` left to read. -/
structure LinearParser.Left (lp : LinearParser) (rem : List Char) : Prop where
  stack : ∃ stack, lp.todobuf.Holds stack ∧ stack.reverse ++ lp.src = rem
  ascii : ∀ c ∈ rem, Ascii c

/-- The parser has `rem` left to read and `line` collected. -/
structure LinearParser.Reads (lp : LinearParser) (rem line : List Char) : Prop where
  left : ∃ stack, lp.todobuf.Holds stack ∧ stack.reverse ++ lp.src = rem
  collected : lp.linebuf.Holds line
  ascii : ∀ c ∈ rem, Ascii c

namespace LinearParser

variable {lp : LinearParser} {rem line : List Char} {c : Char}

theorem reads_new {input : List Char} (h : ∀ c ∈ input, Ascii c) :
    (new input).Reads input [] :=
  ⟨⟨[], UString.holds_new, rfl⟩, UString.holds_new, h⟩

theorem Reads.toLeft (h : lp.Reads rem line) : lp.Left rem := ⟨h.left, h.ascii⟩

theorem Left.reads (h : lp.Left rem) (hline : lp.linebuf.Holds line) : lp.Reads rem line :=
  ⟨h.stack, hline, h.ascii⟩

theorem Stands.getChar_nil (h : lp.Stands []) :
    ∃ lp', lp.getChar = (none, lp') ∧ lp'.Stands [] ∧ lp'.linebuf = lp.linebuf := by
  obtain ⟨stack, hstack, hrem⟩ := h
  obtain ⟨hrev, hsrc⟩ := append_eq_nil_iff.mp hrem
  cases reverse_eq_nil_iff.mp hrev
  refine ⟨(lp.getChar).2, ?_, ?_⟩
  · unfold getChar
    rw [hstack.inn_nil]
    simp only [true_or, if_true, askChar, hsrc, head?_nil]
  · unfold getChar
    rw [hstack.inn_nil]
    simp only [true_or, if_true, askChar]
    exact ⟨⟨[], hstack, by rw [hsrc]; rfl⟩, trivial⟩

/-- The next character, from the stack or from the source. -/
theorem Stands.getChar_cons (h : lp.Stands (c :: rem)) (hne : c ≠ charEOF) :
    ∃ lp', lp.getChar = (some c, lp') ∧ lp'.Stands rem ∧ lp'.linebuf = lp.linebuf := by
  obtain ⟨stack, hstack, hrem⟩ := h
  rcases eq_nil_or_concat stack with rfl | ⟨below, top, htop⟩
  · have hsrc : lp.src = c :: rem := hrem
    refine ⟨(lp.getChar).2, ?_, ?_⟩
    · unfold getChar
      rw [hstack.inn_nil]
      simp only [true_or, if_true, askChar, hsrc, head?_cons]
    · unfold getChar
      rw [hstack.inn_nil]
      simp only [true_or, if_true, askChar, hsrc, tail_cons]
      exact ⟨⟨[], hstack, rfl⟩, trivial⟩
  · rw [concat_eq_append] at htop
    subst htop
    rw [reverse_concat] at hrem
    obtain ⟨rfl, hrest⟩ := List.cons.inj hrem
    obtain ⟨t, hinn, ht⟩ := hstack.inn_append
    have hstay : ¬ (some top = none ∨ some top = some charEOF) := by
      intro hor
      rcases hor with hnone | heof
      · cases hnone
      · exact hne (Option.some.inj heof)
    refine ⟨(lp.getChar).2, ?_, ?_⟩
    · unfold getChar
      rw [hinn]
      simp only [if_neg hstay]
    · unfold getChar
      rw [hinn]
      simp only [if_neg hstay]
      exact ⟨⟨below, ht, hrest⟩, trivial⟩

theorem Stands.backChar (h : lp.Stands rem) (hc : c ≠ nul) : (lp.backChar c).Stands (c :: rem) := by
  obtain ⟨stack, hstack, hrem⟩ := h
  refine ⟨stack ++ [c], hstack.push hc, ?_⟩
  rw [reverse_concat, cons_append]
  exact congrArg (c :: ·) hrem

theorem Left.getChar_nil (h : lp.Left []) :
    ∃ lp', lp.getChar = (none, lp') ∧ lp'.Left [] ∧ lp'.linebuf = lp.linebuf := by
  obtain ⟨lp', hget, hstands, hline⟩ := Stands.getChar_nil h.stack
  exact ⟨lp', hget, ⟨hstands, h.ascii⟩, hline⟩

theorem Left.getChar_cons (h : lp.Left (c :: rem)) :
    ∃ lp', lp.getChar = (some c, lp') ∧ lp'.Left rem ∧ lp'.linebuf = lp.linebuf := by
  obtain ⟨lp', hget, hstands, hline⟩ :=
    Stands.getChar_cons h.stack (h.ascii c mem_cons_self).ne_eof
  exact ⟨lp', hget, ⟨hstands, fun d hd => h.ascii d (mem_cons_of_mem c hd)⟩, hline⟩

theorem Left.backChar (h : lp.Left rem) (hc : Ascii c) : (lp.backChar c).Left (c :: rem) :=
  ⟨Stands.backChar h.stack hc.1, forall_mem_cons.mpr ⟨hc, h.ascii⟩⟩

theorem Left.setChar (h : lp.Left rem) (c : Char) : (lp.setChar c).Left rem := ⟨h.stack, h.ascii⟩

theorem Reads.clear (h : lp.Reads rem line) :
    { lp with linebuf := lp.linebuf.clear }.Reads rem [] :=
  ⟨h.left, h.collected.clear, h.ascii⟩

end LinearParser

/-! ## Numbers -/

namespace NumScan

variable {s s' : NumScan} {c : Char}

/-- An accepted character is the last one, and no line break. -/
theorem accept_some (h : s.accept c = some s') :
    s'.lastc = c ∧ s'.res = s.res + 1 ∧ isBreak c = false := by
  have hbreak : isBreak c = false := by
    cases hb : isBreak c with
    | false => rfl
    | true =>
      rcases (Bool.or_eq_true_iff.mp hb) with hc | hc
      · cases of_decide_eq_true hc
        cases h
      · cases of_decide_eq_true hc
        cases h
  unfold accept at h
  split at h
  · split at h
    · cases h
    · cases h
      exact ⟨rfl, rfl, hbreak⟩
  · split at h
    · split at h
      · cases h
      · cases h
        exact ⟨rfl, rfl, hbreak⟩
    · split at h
      · split at h
        · cases h
        · cases h
          exact ⟨rfl, rfl, hbreak⟩
      · split at h
        · split at h
          · cases h
          · cases h
            exact ⟨rfl, rfl, hbreak⟩
        · split at h
          · cases h
            exact ⟨rfl, rfl, hbreak⟩
          · cases h

theorem lastc_of_dangling (h : s.dangling = true) :
    1 < s.res ∧ Ascii s.lastc ∧ isBreak s.lastc = false := by
  obtain ⟨hres, hlast⟩ := Bool.and_eq_true_iff.mp h
  refine ⟨of_decide_eq_true hres, ?_⟩
  have hcases : s.lastc = '+' ∨ s.lastc = '-' ∨ s.lastc = '.' := by
    simpa [or_assoc] using hlast
  rcases hcases with hc | hc | hc <;> rw [hc] <;> exact ⟨⟨by decide, by decide⟩, by decide⟩

end NumScan

/-- The scanner `s` reads `taken` off `rem`, becomes `s'` and leaves `rest`. -/
inductive Scans : NumScan → List Char → NumScan → List Char → List Char → Prop
  | done (s : NumScan) : Scans s [] s [] []
  | stop {s : NumScan} {c : Char} (cs : List Char) :
      s.accept c = none → Scans s (c :: cs) s [] (c :: cs)
  | more {s s₁ s' : NumScan} {c : Char} {cs taken rest : List Char} :
      s.accept c = some s₁ → Scans s₁ cs s' taken rest → Scans s (c :: cs) s' (c :: taken) rest

namespace Scans

variable {s s' : NumScan} {rem taken rest : List Char}

theorem append (h : Scans s rem s' taken rest) : rem = taken ++ rest := by
  induction h with
  | done s => rfl
  | stop cs h => rfl
  | more h _ ih => exact congrArg (_ :: ·) ih

theorem res_eq (h : Scans s rem s' taken rest) : s'.res = s.res + taken.length := by
  induction h with
  | done s => rfl
  | stop cs h => rfl
  | more h _ ih =>
    rw [ih, (NumScan.accept_some h).2.1, length_cons]
    omega

theorem unbroken_taken (h : Scans s rem s' taken rest) : unbroken taken = taken := by
  induction h with
  | done s => rfl
  | stop cs h => rfl
  | more h _ ih => rw [unbroken_cons (NumScan.accept_some h).2.2, ih]

end Scans

/-- What is left after the scanner: a dangling character stands behind the one that ended the
number. -/
def NumScan.putBack (s : NumScan) (rest : List Char) : List Char :=
  if s.dangling then rest.take 1 ++ s.lastc :: rest.drop 1 else rest

/-! ## The condition on the input -/

/-- Where a character of the input stands. -/
inductive Mode where
  | other
  | ident
  | number (s : NumScan)

namespace Mode

/-- Behind `c`, which continues neither a number nor an identifier. -/
def enter (m : Methods) (c : Char) : Mode :=
  if asciiIsdigit c && m.handlerNumchk then
    match NumScan.start.accept c with
    | some s => .number s
    | none => .other
  else if Parsing.isIdenty m c then .ident
  else .other

/-- Behind `c`. -/
def next (m : Methods) : Mode → Char → Mode
  | .number s, c =>
      match s.accept c with
      | some s => .number s
      | none => enter m c
  | .ident, c => if Parsing.isIdenty m c then .ident else enter m c
  | .other, c => enter m c

/-- A number ends before `c`, or at the end of the input, in a dot or a sign. -/
def dangles : Mode → Option Char → Bool
  | .number s, none => s.dangling
  | .number s, some c => (s.accept c).isNone && s.dangling
  | _, _ => false

end Mode

/-- No number of the input ends in a dot or a sign. -/
def numbersClosed (m : Methods) : Mode → List Char → Bool
  | mode, [] => !mode.dangles none
  | mode, c :: cs => !mode.dangles (some c) && numbersClosed m (mode.next m c) cs

section Closed

variable {m : Methods} {c : Char}

theorem bytdif_lt {c v : Char} (hc : Ascii c) (hv : v.toNat < 128) {n : Nat} (hn : n ≤ 128) :
    bytdif c v < n ↔ v.toNat ≤ c.toNat ∧ c.toNat < v.toNat + n := by
  have := hc.2
  unfold bytdif
  omega

theorem accept_digit (s : NumScan) (hc : Ascii c) (hdigit : asciiIsdigit c = true) :
    ∃ s', s.accept c = some s' := by
  have hbounds := (bytdif_lt hc (by decide) (by decide)).mp (of_decide_eq_true hdigit)
  have hlow : '0' ≤ c := hbounds.1
  have hhigh : c ≤ '9' := Nat.le_of_lt_succ hbounds.2
  have hne : ∀ d : Char, d.toNat < 48 ∨ 57 < d.toNat → c ≠ d := by
    intro d hd heq
    subst heq
    have := hbounds.1
    have := hbounds.2
    have hzero : '0'.toNat = 48 := rfl
    omega
  have hindex : strIndexChar "bodxij" c = false := by
    unfold strIndexChar
    have hnul := hc.1
    have hb := hne 'b' (by decide)
    have ho := hne 'o' (by decide)
    have hd := hne 'd' (by decide)
    have hx := hne 'x' (by decide)
    have hi := hne 'i' (by decide)
    have hj := hne 'j' (by decide)
    simp [*]
  unfold NumScan.accept
  rw [hindex, if_neg Bool.false_ne_true, if_neg (hne 'e' (by decide)),
    if_neg (hne '.' (by decide)), if_neg ?_, if_pos ⟨hlow, hhigh⟩]
  · exact ⟨_, rfl⟩
  · intro hor
    rcases hor with hc | hc
    · exact hne '+' (by decide) hc
    · exact hne '-' (by decide) hc

theorem Scans.closed {s s' : NumScan} {rem taken rest : List Char}
    (h : Scans s rem s' taken rest) :
    numbersClosed m (.number s) rem = (!s'.dangling && numbersClosed m .other rest) := by
  induction h with
  | done s => exact (Bool.and_true _).symm
  | @stop s c cs h =>
    change (!((s.accept c).isNone && s.dangling) &&
      numbersClosed m (Mode.next m (.number s) c) cs) = _
    have hnext : Mode.next m (.number s) c = .enter m c := by
      simp only [Mode.next, h]
    rw [hnext, h]
    rfl
  | @more s s₁ s' c cs taken rest h _ ih =>
    change (!((s.accept c).isNone && s.dangling) &&
      numbersClosed m (Mode.next m (.number s) c) cs) = _
    have hnext : Mode.next m (.number s) c = .number s₁ := by
      simp only [Mode.next, h]
    rw [hnext, h, ih]
    rfl

end Closed

/-! ## The chain -/

/-- The types of a token that is being collected. -/
def Toktype.Calm (t : Toktype) : Prop :=
  t = .any ∨ t = .symbol ∨ t = .spaces ∨ t = .identy ∨ t = .others

theorem Toktype.Calm.ne_comment {t : Toktype} (h : t.Calm) : t ≠ .comment := by
  rintro rfl
  rcases h with h | h | h | h | h <;> cases h

theorem getctype_calm (c : Char) : (getctype c).Calm := by
  unfold getctype
  split
  · exact Or.inr (Or.inr (Or.inr (Or.inl rfl)))
  · split
    · exact Or.inr (Or.inr (Or.inl rfl))
    · split
      · exact Or.inr (Or.inl rfl)
      · exact Or.inr (Or.inr (Or.inr (Or.inr rfl)))

theorem Parsing.length_putBack (s : NumScan) (rest : List Char) :
    (s.putBack rest).length = rest.length + if s.dangling then 1 else 0 := by
  unfold NumScan.putBack
  cases s.dangling with
  | false => rfl
  | true =>
    rw [if_pos rfl, if_pos rfl, length_append, length_cons, ← Nat.add_assoc,
      ← length_append, take_append_drop]

/-- The concatenated texts of a chain. -/
def texts (dc : List Tnode) : List Char := dc.flatMap (·.text)

/-- The sentinel in front of the tokens. -/
def sentinel (m : Methods) : List Tnode := if m.GHT then [⟨['G'], .any, 0, 0⟩] else []

/-- The default settings for plain text. -/
def plainMethods : Methods :=
  ⟨true, true, none, false, false, false, false, true, nul, false, true, .string⟩

theorem plainMethods_plainText : plainMethods.PlainText := ⟨rfl, rfl, rfl, rfl, rfl, rfl⟩

end Unisym.Text
