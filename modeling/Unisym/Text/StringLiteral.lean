/-
# `StringLiteral` — string literals and what the parser reads in them

A literal is a list of pieces (`Piece`), each the spelling of one byte: the byte itself, a simple escape, an octal
escape of one to three digits, or a hexadecimal escape of two.  An octal escape that is shorter than three digits
must not stand before an octal digit (`Spelling`).

`handler_escape_sequence` has two defects.

* After an octal escape of two digits it adds the digits without a factor 8: `\12` is 3.
* It takes any decimal digit for an octal one, so a shorter octal escape swallows an 8 or a 9 behind it, and a digit
  behind that: `\18` is one byte.

**What holds** (`literal_decodes_iff`): the text of the token is what the literal spells exactly when neither occurs
(`decodes`).  A swallowed piece makes the text shorter: the parser pushes one byte for a piece at most, and no push
makes a `String` longer by more than one (`UString.UpTo`).
-/
import Unisym.Text.CommentSpec

namespace Unisym.Text

open List

/-! ## Spellings -/

/-- The spelling of a byte. -/
inductive Piece where
  | plain (b : Char)
  | simple (e : Char)
  | octal (ds : List Char)
  | hex (h l : Char)
  deriving DecidableEq, Repr

/-- What the simple escapes stand for. -/
def simpleEscapes : List (Char × Char) :=
  [('\'', '\''), ('"', '"'), ('?', '?'), ('\\', '\\'), ('a', Char.ofNat 7), ('b', Char.ofNat 8),
    ('f', Char.ofNat 12), ('n', '\n'), ('r', '\r'), ('t', '\t'), ('v', Char.ofNat 11)]

def isOctalDigit (c : Char) : Bool := decide ('0'.toNat ≤ c.toNat) && decide (c.toNat ≤ '7'.toNat)

def octalValue (ds : List Char) : Nat := ds.foldl (fun v d => v * 8 + (d.toNat - '0'.toNat)) 0

def isHexDigit (c : Char) : Bool :=
  decide ('0'.toNat ≤ c.toNat ∧ c.toNat ≤ '9'.toNat) || decide ('A'.toNat ≤ c.toNat ∧ c.toNat ≤ 'F'.toNat) ||
    decide ('a'.toNat ≤ c.toNat ∧ c.toNat ≤ 'f'.toNat)

def hexValue (c : Char) : Nat :=
  if c.toNat ≤ '9'.toNat then c.toNat - '0'.toNat
  else if c.toNat ≤ 'F'.toNat then c.toNat - 'A'.toNat + 10
  else c.toNat - 'a'.toNat + 10

namespace Piece

/-- The characters of the piece. -/
def text : Piece → List Char
  | plain b => [b]
  | simple e => ['\\', e]
  | octal ds => '\\' :: ds
  | hex h l => ['\\', 'x', h, l]

/-- The byte that the piece stands for. -/
def value : Piece → Nat
  | plain b => b.toNat
  | simple e => ((simpleEscapes.lookup e).getD nul).toNat
  | octal ds => octalValue ds
  | hex h l => hexValue h * 16 + hexValue l

/-- The piece is the spelling of a byte below 128 that is not zero. -/
structure Wf (p : Piece) : Prop where
  byte : 0 < p.value ∧ p.value < 128
  plain : ∀ b, p = .plain b → b ≠ '"' ∧ b ≠ '\\' ∧ isBreak b = false
  simple : ∀ e, p = .simple e → e ∈ simpleEscapes.map Prod.fst
  octal : ∀ ds, p = .octal ds → ds ≠ [] ∧ ds.length ≤ 3 ∧ ∀ d ∈ ds, isOctalDigit d = true
  hex : ∀ h l, p = .hex h l → isHexDigit h = true ∧ isHexDigit l = true

/-- An octal escape of less than three digits. -/
def short : Piece → Bool
  | octal ds => decide (ds.length < 3)
  | _ => false

/-- No octal escape of two digits, unless its first digit is 0. -/
def leads : Piece → Bool
  | octal [d, _] => d = '0'
  | _ => true

end Piece

def spelling (ps : List Piece) : List Char := ps.flatMap Piece.text

def bytes (ps : List Piece) : List Char := ps.map fun p => Char.ofNat p.value

/-- The text is `ps` between double quotes. -/
def literal (ps : List Piece) : List Char := '"' :: (spelling ps ++ ['"'])

/-- A C spelling of `bytes ps`. -/
def Spelling : List Piece → Prop
  | [] => True
  | p :: ps => p.Wf ∧ (p.short = true → ∀ c ∈ (spelling ps).head?, isOctalDigit c = false) ∧ Spelling ps

/-- The parser reads the piece `p` before `ps` together with what is behind it. -/
def swallowed (p : Piece) (ps : List Piece) : Bool :=
  p.short && (spelling ps).head?.any asciiIsdigit

/-- Some piece is read together with what is behind it. -/
def swallows : List Piece → Bool
  | [] => false
  | p :: ps => swallowed p ps || swallows ps

/-- No octal escape of two digits begins with another digit than 0, and behind an octal escape of one or two digits
there is no 8 or 9. -/
def decodes : List Piece → Bool
  | [] => true
  | p :: ps => p.leads && !(p.short && ((spelling ps).head? = some '8' || (spelling ps).head? = some '9')) && decodes ps

/-! ## Pushes of any characters -/

namespace UString

/-- A heap string of at most `n` characters, any of which may be zero; its block ends with a zero byte. -/
structure UpTo (s : UString) (n : Nat) : Prop where
  allocated : s.allocated = true
  room : s.counts < s.limits
  ended : s.addr[s.limits - 1]? = some nul
  counts_le : s.counts ≤ n

variable {s : UString} {xs : List Char} {n : Nat}

theorem Holds.upTo (h : s.Holds xs) : s.UpTo xs.length :=
  ⟨h.allocated, h.counts_eq ▸ h.room, h.ended, Nat.le_of_eq h.counts_eq⟩

theorem strLength_lt (h : nul ∈ xs) : strLength xs < xs.length := by
  induction xs with
  | nil => exact absurd h not_mem_nil
  | cons x xs ih =>
    by_cases hx : x = nul
    · subst hx
      exact Nat.succ_pos _
    · have hmem : nul ∈ xs := (mem_cons.mp h).resolve_left (Ne.symm hx)
      have hlen : strLength (x :: xs) = strLength xs + 1 := by
        rw [strLength, takeWhile_cons_of_pos (p := (· != nul)) (bne_iff_ne.mpr hx)]
        rfl
      have := ih hmem
      rw [hlen, length_cons]
      omega

theorem UpTo.regrow (h : s.UpTo n) (hfull : s.limits ≤ s.counts + 1) :
    s.regrow.UpTo n ∧ s.regrow.counts + 1 < s.regrow.limits := by
  have hroom := h.room
  have hnul : nul ∈ s.addr := mem_of_getElem? h.ended
  have hshort : strLength s.addr < s.limits := strLength_lt hnul
  have hbig : s.limits + 2 ≤ s.enlarge (s.counts + 1) := enlargeFrom_grows
  have haddr : s.regrow.addr = s.addr.takeWhile (· != nul) ++
      nul :: List.replicate (s.enlarge (s.counts + 1) - (strLength s.addr + 1)) nul := by
    show strCopy (List.replicate (s.enlarge (s.counts + 1)) nul) s.addr = _
    rw [strCopy, drop_replicate]
  have hlimits : s.regrow.limits = s.enlarge (s.counts + 1) := by
    rw [limits, haddr, length_append, length_cons, length_replicate]
    rw [strLength] at *
    omega
  have hlen : strLength s.regrow.addr = strLength s.addr := by
    have hplain : ∀ c ∈ s.addr.takeWhile (· != nul), c ≠ nul := fun c hc =>
      bne_iff_ne.mp (mem_takeWhile_imp (p := (· != nul)) hc)
    rw [strLength, haddr, takeWhile_plain hplain]
    rfl
  have hcounts : s.regrow.counts = strLength s.addr := by
    show min (strLength s.regrow.addr) s.regrow.limits = _
    rw [hlen, hlimits]
    omega
  have hle := h.counts_le
  refine ⟨⟨h.allocated, by omega, ?_, by omega⟩, by omega⟩
  rw [hlimits, haddr, getElem?_append_right (by rw [← strLength]; omega), ← strLength, getElem?_cons]
  by_cases hlast : s.enlarge (s.counts + 1) - 1 - strLength s.addr = 0
  · rw [if_pos hlast]
  · rw [if_neg hlast, getElem?_replicate, if_pos (by omega)]

theorem UpTo.place (h : s.UpTo n) (hroom : s.counts + 1 < s.limits) (c : Char) :
    (s.place c).UpTo (n + 1) := by
  have hlimits : (s.place c).limits = s.limits := length_set
  refine ⟨h.allocated, by rw [hlimits]; exact hroom, ?_, Nat.succ_le_succ h.counts_le⟩
  show (s.addr.set s.counts c)[(s.place c).limits - 1]? = some nul
  rw [hlimits, getElem?_set_ne (by omega)]
  exact h.ended

theorem UpTo.push (h : s.UpTo n) (c : Char) : (s.push c).UpTo (n + 1) := by
  rw [UString.push, if_pos h.allocated]
  by_cases hfull : s.limits ≤ s.counts + 1
  · rw [if_pos hfull]
    obtain ⟨hnew, hroom⟩ := h.regrow hfull
    exact hnew.place hroom c
  · rw [if_neg hfull]
    exact h.place (by omega) c

theorem UpTo.pushes (h : s.UpTo n) (vs : List Char) :
    (vs.foldl UString.push s).UpTo (n + vs.length) := by
  induction vs generalizing s n with
  | nil => exact h
  | cons v vs ih =>
    have := ih (h.push v)
    rwa [Nat.add_assoc, Nat.add_comm 1] at this

theorem Holds.pushes (h : s.Holds xs) {vs : List Char} (hvs : ∀ v ∈ vs, v ≠ nul) :
    (vs.foldl UString.push s).Holds (xs ++ vs) := by
  induction vs generalizing s xs with
  | nil => rwa [append_nil]
  | cons v vs ih =>
    have := ih (h.push (hvs v mem_cons_self)) fun w hw => hvs w (mem_cons_of_mem v hw)
    rwa [append_assoc] at this

end UString

/-! ## Escapes -/

namespace LinearParser

/-- The parser has `rem` left, and `v` was pushed. -/
structure Got (lp lp' : LinearParser) (rem : List Char) (v : Char) : Prop where
  left : lp'.Left rem
  pushed : lp'.linebuf = lp.linebuf.push v

variable {lp : LinearParser} {rem : List Char} {c d : Char}

theorem Got.of_left {lp' : LinearParser} (h : lp'.Left rem) (hline : lp'.linebuf = lp.linebuf) (v : Char) :
    Got lp (lp'.setChar v) rem v :=
  ⟨h.setChar v, congrArg (UString.push · v) hline⟩

theorem Got.of_eq {lp₁ lp' : LinearParser} {v : Char} (h : Got lp₁ lp' rem v) (hline : lp₁.linebuf = lp.linebuf) :
    Got lp lp' rem v :=
  ⟨h.left, h.pushed.trans (congrArg (UString.push · v) hline)⟩

theorem isDigit_of_isOctalDigit (h : isOctalDigit d = true) :
    asciiIsdigit d = true ∧ bytdif d '0' = d.toNat - '0'.toNat := by
  obtain ⟨h₁, h₂⟩ := Bool.and_eq_true_iff.mp h
  have h₁ := of_decide_eq_true h₁
  have h₂ := of_decide_eq_true h₂
  have hdif : bytdif d '0' = d.toNat - '0'.toNat := by
    rw [bytdif, show '0'.toNat = 48 from rfl] at *
    rw [show '7'.toNat = 55 from rfl] at h₂
    omega
  refine ⟨?_, hdif⟩
  rw [show '0'.toNat = 48 from rfl] at h₁ hdif
  rw [show '7'.toNat = 55 from rfl] at h₂
  rw [asciiIsdigit, hdif]
  exact decide_eq_true (by omega)

theorem hexOf_of_isHexDigit (h : isHexDigit c = true) : asciiIsxdigit c = true ∧ hexOf c = hexValue c := by
  simp only [isHexDigit, Bool.or_eq_true, decide_eq_true_eq, show '0'.toNat = 48 from rfl, show '9'.toNat = 57 from rfl,
    show 'A'.toNat = 65 from rfl, show 'F'.toNat = 70 from rfl, show 'a'.toNat = 97 from rfl,
    show 'f'.toNat = 102 from rfl] at h
  simp only [asciiIsxdigit, hexOf, hexValue, asciiIsdigit, asciiIsupper, bytdif, Bool.or_eq_true, decide_eq_true_eq,
    show '0'.toNat = 48 from rfl, show '9'.toNat = 57 from rfl, show 'A'.toNat = 65 from rfl,
    show 'F'.toNat = 70 from rfl, show 'a'.toNat = 97 from rfl]
  refine ⟨by omega, ?_⟩
  rcases h with (h | h) | h
  · rw [if_pos (by omega), if_pos h.2]
  · rw [if_neg (by omega), if_pos (by omega), if_neg (by omega), if_pos h.2]
  · rw [if_neg (by omega), if_neg (by omega), if_neg (by omega), if_neg (by omega)]

/-- The escape in front of the text is taken off it, and its character is pushed. -/
theorem handlerEscapeSequence_got {rest : List Char} {v : Char} (h : lp.Left rem)
    (hesc : escaped rem = some (v, rest)) :
    ∃ lp', handlerEscapeSequence lp = (true, lp') ∧ Got lp lp' rest v := by
  have hread := Stands.handlerEscapeSequence h.stack fun d hd => (h.ascii d hd).textByte
  rw [hesc] at hread
  obtain ⟨htrue, hstands, hpushed⟩ := hread
  have hsuffix : rest <:+ rem := escaped_suffix hesc
  exact ⟨_, Prod.ext htrue rfl, ⟨hstands, fun d hd => h.ascii d (hsuffix.subset hd)⟩, hpushed⟩

theorem escSeq_of_simpleEscapes {e : Char} (he : e ∈ simpleEscapes.map Prod.fst) :
    asciiIsdigit e = false ∧ e ≠ 'x' ∧ (escSeq.lookup e).getD e = (simpleEscapes.lookup e).getD nul ∧ Ascii e := by
  have hall : (simpleEscapes.map Prod.fst).all (fun e => asciiIsdigit e = false ∧ e ≠ 'x' ∧
      (escSeq.lookup e).getD e = (simpleEscapes.lookup e).getD nul ∧ Ascii e) = true := by decide
  exact of_decide_eq_true (all_eq_true.mp hall e he)

end LinearParser

namespace Piece

/-- What the parser pushes for the piece alone. -/
def read : Piece → Nat
  | octal [d, x] => octalValue [x] + octalValue [d]
  | p => p.value

theorem read_eq_value {p : Piece} (hp : p.leads = true) : p.read = p.value := by
  cases p with
  | octal ds =>
    match ds with
    | [] => rfl
    | [d] => rfl
    | [d, x] =>
      have hd : d = '0' := of_decide_eq_true hp
      subst hd
      show octalValue [x] + 0 = octalValue ['0', x]
      rfl
    | _ :: _ :: _ :: _ => rfl
  | _ => rfl

end Piece

/-! ## Pieces -/

theorem spelling_cons (p : Piece) (ps : List Piece) : spelling (p :: ps) = p.text ++ spelling ps := rfl

/-- What comes after the pieces, up to the closing quote. -/
theorem next_char (ps : List Piece) : ∃ c rem, spelling ps ++ ['"'] = c :: rem ∧
    asciiIsdigit c = (spelling ps).head?.any asciiIsdigit := by
  cases spelling ps with
  | nil => exact ⟨'"', [], rfl, by decide⟩
  | cons c cs => exact ⟨c, cs ++ ['"'], rfl, rfl⟩

theorem Piece.text_escape {p : Piece} (hp : ∀ b, p ≠ .plain b) : p.text = '\\' :: p.text.tail := by
  cases p with
  | plain b => exact absurd rfl (hp b)
  | _ => rfl

theorem plain_of_digit {ps : List Piece} (hps : Spelling ps) (h : (spelling ps).head?.any asciiIsdigit = true) :
    ∃ b qs, ps = .plain b :: qs ∧ asciiIsdigit b = true ∧ Spelling qs := by
  cases ps with
  | nil => exact absurd h Bool.false_ne_true
  | cons p qs =>
    by_cases hp : ∃ b, p = .plain b
    · obtain ⟨b, rfl⟩ := hp
      exact ⟨b, qs, rfl, h, hps.2.2⟩
    · rw [spelling_cons, Piece.text_escape (not_exists.mp hp), cons_append, head?_cons, Option.any_some] at h
      exact absurd h (by decide)

namespace LinearParser

variable {lp : LinearParser} {rem : List Char} {c d : Char} {p : Piece} {ps : List Piece}

/-- A piece that is no plain byte, with nothing swallowed behind it. -/
theorem escaped_piece (hp : p.Wf) (hesc : ∀ b, p ≠ .plain b) (hc : p.short = true → asciiIsdigit c = false)
    (rem : List Char) : escaped (p.text.tail ++ c :: rem) = some (charOf p.read, c :: rem) := by
  cases p with
  | plain b => exact absurd rfl (hesc b)
  | simple e =>
    obtain ⟨hdigit, hx, hvalue, -⟩ := escSeq_of_simpleEscapes (hp.simple e rfl)
    have hbyte : charOf (Piece.simple e).read = (simpleEscapes.lookup e).getD nul := by
      have hlt : ((simpleEscapes.lookup e).getD nul).toNat < 128 := hp.byte.2
      rw [charOf, Nat.mod_eq_of_lt (by exact Nat.lt_trans hlt (by decide))]
      exact Char.ofNat_toNat _
    show escaped (e :: c :: rem) = _
    simp only [escaped, hdigit, Bool.false_eq_true, if_false, hx, hvalue, hbyte]
  | hex x l =>
    obtain ⟨hx, hl⟩ := hp.hex x l rfl
    obtain ⟨hx₁, hx₂⟩ := hexOf_of_isHexDigit hx
    obtain ⟨hl₁, hl₂⟩ := hexOf_of_isHexDigit hl
    have hdigit : asciiIsdigit 'x' = false := by decide
    show escaped ('x' :: x :: l :: c :: rem) = _
    simp only [escaped, hdigit, Bool.false_eq_true, if_false, if_true, hx₁, hl₁, hx₂, hl₂]
    rfl
  | octal ds =>
    obtain ⟨hne, hlen, hall⟩ := hp.octal ds rfl
    rcases ds with _ | ⟨d, _ | ⟨x, _ | ⟨y, _ | ⟨z, ds⟩⟩⟩⟩
    · exact absurd rfl hne
    · obtain ⟨hd, hvalue⟩ := isDigit_of_isOctalDigit (hall d mem_cons_self)
      have hread : (Piece.octal [d]).read = d.toNat - '0'.toNat := Nat.zero_add _
      show escaped (d :: c :: rem) = _
      simp only [escaped, hd, if_true, hc rfl, Bool.false_eq_true, if_false, hvalue, hread]
    · obtain ⟨hd, hvalue⟩ := isDigit_of_isOctalDigit (hall d mem_cons_self)
      obtain ⟨hx, hvalue₁⟩ := isDigit_of_isOctalDigit (hall x (mem_cons_of_mem _ mem_cons_self))
      have hread : (Piece.octal [d, x]).read = x.toNat - '0'.toNat + (d.toNat - '0'.toNat) := by
        show 0 * 8 + (x.toNat - '0'.toNat) + (0 * 8 + (d.toNat - '0'.toNat)) = _
        omega
      show escaped (d :: x :: c :: rem) = _
      simp only [escaped, hd, hx, if_true, hc rfl, Bool.false_eq_true, if_false, hvalue, hvalue₁, hread]
    · obtain ⟨hd, hvalue⟩ := isDigit_of_isOctalDigit (hall d mem_cons_self)
      obtain ⟨hx, hvalue₁⟩ := isDigit_of_isOctalDigit (hall x (mem_cons_of_mem _ mem_cons_self))
      obtain ⟨hy, hvalue₂⟩ := isDigit_of_isOctalDigit
        (hall y (mem_cons_of_mem _ (mem_cons_of_mem _ mem_cons_self)))
      have hread : (Piece.octal [d, x, y]).read = y.toNat - '0'.toNat + (x.toNat - '0'.toNat) * 8 +
          (d.toNat - '0'.toNat) * 8 * 8 := by
        show ((0 * 8 + (d.toNat - '0'.toNat)) * 8 + (x.toNat - '0'.toNat)) * 8 + (y.toNat - '0'.toNat) = _
        omega
      show escaped (d :: x :: y :: c :: rem) = _
      simp only [escaped, hd, hx, hy, if_true, hvalue, hvalue₁, hvalue₂, hread]
    · exact absurd hlen (by simp only [length_cons]; omega)

theorem escaped_swallows (hp : p.Wf) (hps : Spelling ps) (hsw : swallowed p ps = true) :
    ∃ v qs, escaped (p.text.tail ++ (spelling ps ++ ['"'])) = some (v, spelling qs ++ ['"']) ∧ Spelling qs ∧
      qs.length < ps.length := by
  obtain ⟨hshort, hdigit⟩ := Bool.and_eq_true_iff.mp hsw
  obtain ⟨b, qs, rfl, hb, hqs⟩ := plain_of_digit hps hdigit
  have hlt : qs.length < (Piece.plain b :: qs).length := Nat.lt_succ_self _
  cases p with
  | plain b => exact absurd hshort Bool.false_ne_true
  | simple e => exact absurd hshort Bool.false_ne_true
  | hex x l => exact absurd hshort Bool.false_ne_true
  | octal ds =>
    obtain ⟨hne, -, hall⟩ := hp.octal ds rfl
    have hlen : ds.length < 3 := of_decide_eq_true hshort
    match ds with
    | [] => exact absurd rfl hne
    | [d] =>
      have hd := (isDigit_of_isOctalDigit (hall d mem_cons_self)).1
      obtain ⟨c, rem, hnext, hdig⟩ := next_char qs
      by_cases hc : asciiIsdigit c = true
      · -- a second digit is swallowed too
        obtain ⟨b', rs, rfl, -, hrs⟩ := plain_of_digit hqs (hdig.symm.trans hc)
        obtain ⟨rfl, -⟩ := List.cons.inj hnext
        refine ⟨charOf (bytdif b' '0' + bytdif b '0' * 8 + bytdif d '0' * 8 * 8), rs, ?_, hrs,
          by simp only [length_cons]; omega⟩
        show escaped (d :: b :: b' :: (spelling rs ++ ['"'])) = _
        simp only [escaped, hd, hb, hc, if_true]
      · refine ⟨charOf (bytdif b '0' + bytdif d '0'), qs, ?_, hqs, hlt⟩
        show escaped (d :: b :: (spelling qs ++ ['"'])) = _
        rw [hnext]
        simp only [escaped, hd, hb, if_true, hc, Bool.false_eq_true, if_false]
    | [d, x] =>
      have hd := (isDigit_of_isOctalDigit (hall d mem_cons_self)).1
      have hx := (isDigit_of_isOctalDigit (hall x (mem_cons_of_mem _ mem_cons_self))).1
      refine ⟨charOf (bytdif b '0' + bytdif x '0' * 8 + bytdif d '0' * 8 * 8), qs, ?_, hqs, hlt⟩
      show escaped (d :: x :: b :: (spelling qs ++ ['"'])) = _
      simp only [escaped, hd, hx, hb, if_true]
    | _ :: _ :: _ :: _ => exact absurd hlen (by simp only [length_cons]; omega)

end LinearParser

/-! ## The loop -/

namespace Parsing

variable {m : Methods} {st : Parsing} {c : Char} {rem : List Char}

theorem loop_plain (hesc : m.stringEscapeSequence = true) (hst : st.yoString = true) (fuel : Nat)
    (h : st.lp.Left (c :: rem)) (hquote : st.strtok ≠ c) (hc : c ≠ '\\') :
    ∃ lp', loop m (fuel + 1) st = loop m fuel { st with lp := lp' } ∧ st.lp.Got lp' rem c := by
  obtain ⟨lp₁, hget, hleft, hline⟩ := h.getChar_cons
  refine ⟨lp₁.setChar c, ?_, .of_left hleft hline c⟩
  rw [loop, hget]
  simp only [step, hst, if_true, stringStep, hesc, Bool.not_true, Bool.false_and, Bool.false_eq_true, if_false,
    if_neg hquote, hc, decide_false, Bool.and_false, Option.bind_some]
  rfl

theorem loop_escape (hesc : m.stringEscapeSequence = true) (hst : st.yoString = true) (fuel : Nat)
    (h : st.lp.Left ('\\' :: rem)) (hquote : st.strtok ≠ '\\') :
    ∃ lp₁, lp₁.Left rem ∧ lp₁.linebuf = st.lp.linebuf ∧ ∀ lp', handlerEscapeSequence lp₁ = (true, lp') →
      loop m (fuel + 1) st = loop m fuel { st with lp := lp' } := by
  obtain ⟨lp₁, hget, hleft, hline⟩ := h.getChar_cons
  refine ⟨lp₁, hleft, hline, fun lp' hrun => ?_⟩
  rw [loop, hget]
  simp only [step, hst, if_true, stringStep, hesc, Bool.not_true, Bool.false_and, Bool.false_eq_true, if_false,
    if_neg hquote, decide_true, Bool.and_true, hrun, Option.bind_some]

/-- The pieces of a literal are behind: `vs` was pushed, a byte for each piece unless one was swallowed. -/
structure Read (ps : List Piece) (lp lp' : LinearParser) (vs : List Char) : Prop where
  left : lp'.Left ['"']
  pushed : lp'.linebuf = vs.foldl UString.push lp.linebuf
  length_le : vs.length ≤ ps.length
  shorter : swallows ps = true → vs.length < ps.length
  all : swallows ps = false → vs = ps.map fun p => charOf p.read

/-- One piece, and what it swallows, before the pieces that are left. -/
theorem loop_piece (hesc : m.stringEscapeSequence = true) (hst : st.yoString = true) (hquote : st.strtok = '"')
    {p : Piece} {ps : List Piece} (hp : p.Wf) (hps : Spelling ps) (fuel : Nat)
    (h : st.lp.Left (spelling (p :: ps) ++ ['"'])) :
    ∃ lp' v qs, loop m (fuel + 1) st = loop m fuel { st with lp := lp' } ∧
      st.lp.Got lp' (spelling qs ++ ['"']) v ∧ Spelling qs ∧
      (swallowed p ps = true → qs.length < ps.length) ∧
      (swallowed p ps = false → qs = ps ∧ v = charOf p.read) := by
  rw [spelling_cons, append_assoc] at h
  by_cases hplain : ∃ b, p = .plain b
  · obtain ⟨b, rfl⟩ := hplain
    obtain ⟨hb₁, hb₂, -⟩ := hp.plain b rfl
    obtain ⟨lp', hrun, hgot⟩ := loop_plain hesc hst fuel (c := b) h (by rw [hquote]; exact Ne.symm hb₁) hb₂
    refine ⟨lp', b, ps, hrun, hgot, hps, fun hsw => absurd hsw Bool.false_ne_true, fun _ => ⟨rfl, ?_⟩⟩
    have hlt : b.toNat < 128 := hp.byte.2
    show b = Char.ofNat (b.toNat % 256)
    rw [Nat.mod_eq_of_lt (Nat.lt_trans hlt (by decide)), Char.ofNat_toNat]
  · have htext := Piece.text_escape (not_exists.mp hplain)
    rw [htext, cons_append] at h
    obtain ⟨lp₁, hleft, hline, hrun⟩ := loop_escape hesc hst fuel h (by rw [hquote]; decide)
    cases hsw : swallowed p ps with
    | true =>
      obtain ⟨v, qs, hesc, hqs, hlt⟩ := LinearParser.escaped_swallows hp hps hsw
      obtain ⟨lp', hesc', hgot⟩ := LinearParser.handlerEscapeSequence_got hleft hesc
      exact ⟨lp', v, qs, hrun lp' hesc', hgot.of_eq hline, hqs, fun _ => hlt, fun h => absurd h Bool.noConfusion⟩
    | false =>
      obtain ⟨c, rem, hnext, hdigit⟩ := next_char ps
      rw [hnext] at hleft
      obtain ⟨lp', hesc', hgot⟩ := LinearParser.handlerEscapeSequence_got hleft
        (LinearParser.escaped_piece hp (not_exists.mp hplain) (fun hshort => by
          rw [swallowed, hshort, Bool.true_and] at hsw
          rw [hdigit, hsw]) rem)
      exact ⟨lp', _, ps, hrun lp' hesc', hnext ▸ hgot.of_eq hline, hps, fun h => absurd h Bool.noConfusion,
        fun _ => ⟨rfl, rfl⟩⟩

theorem loop_pieces (hesc : m.stringEscapeSequence = true) :
    ∀ (ps : List Piece) (st : Parsing) (fuel : Nat), Spelling ps → st.yoString = true → st.strtok = '"' →
      st.lp.Left (spelling ps ++ ['"']) →
      ∃ lp' vs more, loop m (fuel + ps.length) st = loop m (fuel + more) { st with lp := lp' } ∧ Read ps st.lp lp' vs
  | [], st, fuel, _, _, _, h =>
    ⟨st.lp, [], 0, rfl, h, rfl, Nat.le_refl 0, fun hsw => absurd hsw Bool.false_ne_true, fun _ => rfl⟩
  | p :: ps, st, fuel, hps, hst, hquote, h => by
    obtain ⟨lp₁, v, qs, hrun, hgot, hqs, hsw, hno⟩ := loop_piece hesc hst hquote hps.1 hps.2.2 (fuel + ps.length) h
    have hle : qs.length ≤ ps.length := by
      cases hs : swallowed p ps with
      | true => exact Nat.le_of_lt (hsw hs)
      | false => exact Nat.le_of_eq (congrArg List.length (hno hs).1)
    have hfuel : fuel + ps.length = fuel + (ps.length - qs.length) + qs.length := by omega
    obtain ⟨lp', vs, more, hloop, hread⟩ := loop_pieces hesc qs { st with lp := lp₁ }
      (fuel + (ps.length - qs.length)) hqs hst hquote hgot.left
    refine ⟨lp', v :: vs, ps.length - qs.length + more, ?_, hread.left, ?_, ?_, fun hs => ?_, fun hs => ?_⟩
    · rw [length_cons, ← Nat.add_assoc, hrun, hfuel, hloop, Nat.add_assoc]
    · rw [hread.pushed, hgot.pushed]
      rfl
    · have := hread.length_le
      rw [length_cons, length_cons]
      omega
    · have hvs := hread.length_le
      rw [length_cons, length_cons]
      rcases Bool.or_eq_true_iff.mp hs with hs | hs
      · have := hsw hs
        omega
      · cases hs' : swallowed p ps with
        | true =>
          have := hsw hs'
          omega
        | false =>
          have := hread.shorter ((hno hs').1.symm ▸ hs)
          rw [(hno hs').1] at this
          omega
    · obtain ⟨hs₁, hs₂⟩ := Bool.or_eq_false_iff.mp hs
      obtain ⟨rfl, rfl⟩ := hno hs₁
      rw [hread.all hs₂]
      rfl
termination_by ps => ps.length
decreasing_by
  rw [length_cons]
  omega

end Parsing

/-! ## The token -/

/-- The settings with which a double quote begins a string.  A comment handler that is asked whether a comment begins
takes the character off, and says no at a double quote. -/
structure Methods.ReadsQuotes (m : Methods) : Prop where
  double : m.stringDoubleQuote = true
  escapes : m.stringEscapeSequence = true
  directive : m.directive ≠ '"'
  comment : ∀ handler, m.handlerComment = some handler → ∀ lp rem, LinearParser.Left lp ('"' :: rem) →
    ∃ lp', handler true lp = some (false, lp') ∧ lp'.Left rem ∧ lp'.linebuf = lp.linebuf

theorem lineParseCommentSharp_quote (fuel : Nat) (lp : LinearParser) (rem : List Char) (h : lp.Left ('"' :: rem)) :
    ∃ lp', lineParseCommentSharp fuel true lp = some (false, lp') ∧ lp'.Left rem ∧ lp'.linebuf = lp.linebuf := by
  obtain ⟨lp', hget, hleft, hline⟩ := h.getChar_cons
  refine ⟨lp', ?_, hleft, hline⟩
  rw [lineParseCommentSharp, hget]
  rfl

/-- The default settings with double quotes. -/
def quoteMethods (fuel : Nat) : Methods := { Methods.defaults fuel with stringDoubleQuote := true }

theorem quoteMethods_readsQuotes (fuel : Nat) : (quoteMethods fuel).ReadsQuotes where
  double := rfl
  escapes := rfl
  directive := show nul ≠ '"' by decide
  comment _ h lp rem hleft := by
    cases h
    exact lineParseCommentSharp_quote fuel lp rem hleft

theorem Piece.Wf.ascii {p : Piece} (hp : p.Wf) : ∀ c ∈ p.text, Ascii c := by
  have hback : Ascii '\\' := by decide
  have hx : Ascii 'x' := by decide
  have hrange : ∀ {c : Char}, 48 ≤ c.toNat → c.toNat ≤ 102 → Ascii c := fun {c} h₁ h₂ =>
    ⟨fun h => by rw [h] at h₁; exact absurd h₁ (by decide), by omega⟩
  cases p with
  | plain b =>
    intro c hc
    obtain rfl := mem_singleton.mp hc
    refine ⟨fun h => ?_, hp.byte.2⟩
    have hpos : 0 < c.toNat := hp.byte.1
    rw [h] at hpos
    exact absurd hpos (by decide)
  | simple e =>
    intro c hc
    rcases mem_cons.mp hc with rfl | hc
    · exact hback
    · rw [mem_singleton.mp hc]
      exact (LinearParser.escSeq_of_simpleEscapes (hp.simple e rfl)).2.2.2
  | octal ds =>
    intro c hc
    rcases mem_cons.mp hc with rfl | hc
    · exact hback
    · obtain ⟨h₁, h₂⟩ := Bool.and_eq_true_iff.mp ((hp.octal ds rfl).2.2 c hc)
      exact hrange (of_decide_eq_true h₁) (Nat.le_trans (of_decide_eq_true h₂) (by decide))
  | hex h l =>
    have hdigit : ∀ {c : Char}, isHexDigit c = true → Ascii c := fun {c} hc => by
      simp only [isHexDigit, Bool.or_eq_true, decide_eq_true_eq, show '0'.toNat = 48 from rfl,
        show '9'.toNat = 57 from rfl, show 'A'.toNat = 65 from rfl, show 'F'.toNat = 70 from rfl,
        show 'a'.toNat = 97 from rfl, show 'f'.toNat = 102 from rfl] at hc
      exact hrange (by omega) (by omega)
    obtain ⟨hh, hl⟩ := hp.hex h l rfl
    intro c hc
    rcases mem_cons.mp hc with rfl | hc
    · exact hback
    rcases mem_cons.mp hc with rfl | hc
    · exact hx
    rcases mem_cons.mp hc with rfl | hc
    · exact hdigit hh
    · rw [mem_singleton.mp hc]
      exact hdigit hl

theorem Spelling.wf {ps : List Piece} (h : Spelling ps) : ∀ p ∈ ps, p.Wf := by
  induction ps with
  | nil => exact fun p hp => absurd hp not_mem_nil
  | cons q ps ih =>
    intro p hp
    rcases mem_cons.mp hp with rfl | hp
    · exact h.1
    · exact ih h.2.2 p hp

theorem Spelling.ascii {ps : List Piece} (h : Spelling ps) : ∀ c ∈ spelling ps, Ascii c := fun c hc => by
  obtain ⟨p, hp, hcp⟩ := mem_flatMap.mp hc
  exact (h.wf p hp).ascii c hcp

theorem ascii_literal {ps : List Piece} (h : Spelling ps) : ∀ c ∈ literal ps, Ascii c := by
  have hquote : Ascii '"' := by decide
  intro c hc
  rcases mem_cons.mp hc with rfl | hc
  · exact hquote
  rcases mem_append.mp hc with hc | hc
  · exact h.ascii c hc
  · rw [mem_singleton.mp hc]
    exact hquote

theorem asciiIsdigit_iff {c : Char} (hc : Ascii c) :
    asciiIsdigit c = true ↔ isOctalDigit c = true ∨ c = '8' ∨ c = '9' := by
  have heq : ∀ {n : Nat} {d : Char}, d.toNat = n → (c = d ↔ c.toNat = n) := fun {n d} hd =>
    ⟨fun h => h ▸ hd, fun h => by rw [← Char.ofNat_toNat c, ← Char.ofNat_toNat d, h, hd]⟩
  have hlt := hc.2
  rw [heq (show '8'.toNat = 56 from rfl), heq (show '9'.toNat = 57 from rfl), isOctalDigit, asciiIsdigit, bytdif,
    Bool.and_eq_true, decide_eq_true_eq, decide_eq_true_eq, decide_eq_true_eq, show '0'.toNat = 48 from rfl,
    show '7'.toNat = 55 from rfl]
  omega

theorem decodes_iff {ps : List Piece} (h : Spelling ps) :
    decodes ps = true ↔ swallows ps = false ∧ ∀ p ∈ ps, p.leads = true := by
  induction ps with
  | nil => exact iff_of_true rfl ⟨rfl, fun p hp => absurd hp not_mem_nil⟩
  | cons p ps ih =>
    have hsw : swallowed p ps =
        (p.short && ((spelling ps).head? = some '8' || (spelling ps).head? = some '9')) := by
      cases hshort : p.short with
      | false => rw [swallowed, hshort, Bool.false_and, Bool.false_and]
      | true =>
        rw [swallowed, hshort, Bool.true_and, Bool.true_and]
        cases hhead : (spelling ps).head? with
        | none => rfl
        | some c =>
          have hno := h.2.1 hshort c (by rw [hhead]; rfl)
          have hc : Ascii c := h.2.2.ascii c (mem_of_mem_head? hhead)
          rw [Option.any_some, Bool.eq_iff_iff, asciiIsdigit_iff hc, hno]
          simp
    rw [decodes, swallows, Bool.and_eq_true, Bool.and_eq_true, ih h.2.2, ← hsw, Bool.not_eq_true', Bool.or_eq_false_iff,
      forall_mem_cons]
    exact ⟨fun ⟨⟨h₁, h₂⟩, h₃, h₄⟩ => ⟨⟨h₂, h₃⟩, h₁, h₄⟩, fun ⟨⟨h₂, h₃⟩, h₁, h₄⟩ => ⟨⟨h₁, h₂⟩, h₃, h₄⟩⟩

namespace Parsing

variable {m : Methods} {st : Parsing}

/-- The parser is in a string that a double quote began, behind the tokens `dc`. -/
structure InString (st : Parsing) (dc : List Tnode) : Prop where
  yoString : st.yoString = true
  strtok : st.strtok = '"'
  crtTType : st.crtTType = .string
  dc : st.dc = dc

theorem loop_open (hm : m.ReadsQuotes) (dc : List Tnode) {rem : List Char} (hrem : ∀ c ∈ '"' :: rem, Ascii c)
    (fuel : Nat) : ∃ st, loop m (fuel + 1) (enter m (.new ('"' :: rem)) dc) = loop m fuel st ∧
      st.InString (dc ++ sentinel m) ∧ st.lp.Reads rem [] := by
  have hdc : (enter m (.new ('"' :: rem)) dc).dc = dc ++ sentinel m := by
    unfold Parsing.enter sentinel
    cases m.GHT with
    | true => rfl
    | false => exact (append_nil dc).symm
  have hreads : (enter m (.new ('"' :: rem)) dc).lp.Reads ('"' :: rem) [] := LinearParser.reads_new hrem
  generalize hst : enter m (.new ('"' :: rem)) dc = st at hdc hreads
  have hno : st.yoString = false := hst ▸ rfl
  have hany : st.crtTType = .any := hst ▸ rfl
  obtain ⟨lp₁, hget, hleft, hline⟩ := hreads.toLeft.getChar_cons
  have hdirect : ¬(m.directive ≠ nul ∧ '"' = m.directive) := fun h => hm.directive h.2.symm
  have hbreak : ¬('"' = '\n' ∨ '"' = '\r') := by decide
  -- the step, with the comment handler behind
  have htext : ∀ lp₂ : LinearParser, lp₂.Left rem → lp₂.linebuf = st.lp.linebuf →
      ∃ st', textStep m (fuel + 1) '"' { st with lp := lp₂ } = some st' ∧ st'.InString (dc ++ sentinel m) ∧
        st'.lp.Reads rem [] := by
    intro lp₂ hleft₂ hline₂
    have hnone : lp₂.linebuf.counts = 0 := by
      rw [hline₂]
      exact hreads.collected.counts_eq
    refine ⟨_, if_pos (by rw [hm.double]; rfl), ⟨rfl, rfl, rfl, ?_⟩,
      (hleft₂.reads (hline₂ ▸ hreads.collected)).clear⟩
    show (if m.omitSpaces && st.crtTType = .spaces || m.omitComment && st.crtTType = .comment then st.dc
      else tokenAppend st.dc lp₂.linebuf.addr lp₂.linebuf.counts st.crtTType _ _ st.yoString) = _
    rw [hany, hno, hnone, ← hdc]
    cases m.omitSpaces <;> cases m.omitComment <;> rfl
  have hstep : ∃ st', step m (fuel + 1) '"' { st with lp := lp₁ } = some (true, st') ∧
      st'.InString (dc ++ sentinel m) ∧ st'.lp.Reads rem [] := by
    have hout : ¬({ st with lp := lp₁ } : Parsing).yoString = true := by
      show ¬st.yoString = true
      rw [hno]
      exact Bool.false_ne_true
    have hnodirect : ¬({ st with lp := lp₁ } : Parsing).crtTType = .direct := by
      show ¬st.crtTType = .direct
      rw [hany]
      decide
    rw [step, if_neg hout, if_neg hbreak, atDirective, if_neg hnodirect, if_neg hdirect, Option.bind_some,
      if_neg Bool.false_ne_true]
    cases hhandler : m.handlerComment with
    | none =>
      obtain ⟨st', hrun, hin, hreads'⟩ := htext lp₁ hleft hline
      exact ⟨st', congrArg (Option.map (true, ·)) hrun, hin, hreads'⟩
    | some handler =>
      obtain ⟨lp₂, hasked, hleft₂, hline₂⟩ := hm.comment handler hhandler (lp₁.backChar '"') rem
        (hleft.backChar (hrem '"' mem_cons_self))
      obtain ⟨st', hrun, hin, hreads'⟩ := htext lp₂ hleft₂ (hline₂.trans hline)
      refine ⟨st', ?_, hin, hreads'⟩
      dsimp only
      rw [hasked, Option.bind_some, if_neg Bool.false_ne_true]
      exact congrArg (Option.map (true, ·)) hrun
  obtain ⟨st', hrun, hin, hreads'⟩ := hstep
  refine ⟨st', ?_, hin, hreads'⟩
  rw [loop, hget]
  simp only [hrun, Option.bind_some, if_true]

theorem loop_close (hm : m.ReadsQuotes) {dc : List Tnode} (hst : st.InString dc) (h : st.lp.Left ['"']) (fuel : Nat) :
    ∃ st' row col, loop m (fuel + 2) st = some st' ∧ st'.lp.linebuf.counts = 0 ∧
      st'.dc = dc ++ [⟨strHeapN st.lp.linebuf.addr st.lp.linebuf.counts, .string, row, col⟩] := by
  obtain ⟨lp₁, hget, hleft, hline⟩ := h.getChar_cons
  have hstep : step m (fuel + 1 + 1) '"' { st with lp := lp₁ } = some (true,
      { ({ st with lp := lp₁ }.apd m).mark with yoString := false, crtTType := .any }) := by
    simp only [step, hst.yoString, if_true, stringStep, hm.escapes, Bool.not_true, Bool.false_and, Bool.false_eq_true,
      if_false, hst.strtok]
  have hclear : ({ ({ st with lp := lp₁ }.apd m).mark with yoString := false, crtTType := .any }).lp.Left [] :=
    ⟨hleft.stack, hleft.ascii⟩
  obtain ⟨lp₂, hget₂, -, hline₂⟩ := hclear.getChar_nil
  refine ⟨{ ({ st with lp := lp₁ }.apd m).mark with yoString := false, crtTType := .any, lp := lp₂ },
    st.crtlineEnto, st.crtcolEnto, ?_, ?_, ?_⟩
  · rw [loop, hget]
    simp only [hstep, Option.bind_some, if_true]
    rw [loop, hget₂]
  · show lp₂.linebuf.counts = 0
    rw [hline₂]
    rfl
  · show (if m.omitSpaces && st.crtTType = .spaces || m.omitComment && st.crtTType = .comment then st.dc
      else tokenAppend st.dc lp₁.linebuf.addr lp₁.linebuf.counts st.crtTType st.crtlineEnto st.crtcolEnto st.yoString) = _
    rw [hst.crtTType, hst.dc, hline, if_neg (by simp), tokenAppend, if_neg (by simp)]

end Parsing

/-- The parser makes one token of the literal, of what was pushed for the pieces. -/
theorem parse_literal {m : Methods} (hm : m.ReadsQuotes) {ps : List Piece} (hps : Spelling ps) (dc : List Tnode)
    {fuel : Nat} (hfuel : (literal ps).length < fuel) :
    ∃ t lp s vs, (LinearParser.new (literal ps)).parse m fuel dc = some (dc ++ sentinel m ++ [t], lp) ∧
      t.type = .string ∧ t.text = strHeapN (vs.foldl UString.push s).addr (vs.foldl UString.push s).counts ∧
      s.Holds [] ∧ vs.length ≤ ps.length ∧ (swallows ps = true → vs.length < ps.length) ∧
      (swallows ps = false → vs = ps.map fun p => charOf p.read) := by
  have hmany : ps.length ≤ (spelling ps).length := by
    induction ps with
    | nil => exact Nat.le_refl 0
    | cons p ps ih =>
      have hlen : 1 ≤ p.text.length := by cases p <;> exact Nat.succ_le_succ (Nat.zero_le _)
      have := ih hps.2.2 (by
        rw [literal, length_cons, length_append, spelling_cons, length_append] at hfuel
        rw [literal, length_cons, length_append]
        omega)
      rw [spelling_cons, length_append, length_cons]
      omega
  obtain ⟨more, hmore⟩ : ∃ more, fuel = more + 2 + ps.length + 1 := by
    refine ⟨fuel - ps.length - 3, ?_⟩
    rw [literal, length_cons, length_append, length_singleton] at hfuel
    omega
  obtain ⟨st, hopen, hin, hreads⟩ := Parsing.loop_open hm dc (ascii_literal hps) (more + 2 + ps.length)
  obtain ⟨lp', vs, spare, hpieces, hread⟩ := Parsing.loop_pieces hm.escapes ps st (more + 2) hps hin.yoString hin.strtok
    hreads.toLeft
  obtain ⟨st', row, col, hclose, hcounts, hdc⟩ := Parsing.loop_close hm
    (show Parsing.InString { st with lp := lp' } (dc ++ sentinel m) from ⟨hin.yoString, hin.strtok, hin.crtTType, hin.dc⟩)
    hread.left (more + spare)
  have hspare : more + 2 + spare = more + spare + 2 := by omega
  have hloop : Parsing.loop m fuel (.enter m (.new (literal ps)) dc) = some st' := by
    rw [hmore, literal, hopen, hpieces, hspare, hclose]
  refine ⟨⟨strHeapN lp'.linebuf.addr lp'.linebuf.counts, .string, row, col⟩, st'.lp, st.lp.linebuf, vs, ?_, rfl, ?_,
    hreads.collected, hread.length_le, hread.shorter, hread.all⟩
  · rw [LinearParser.parse, hloop, Option.map_some]
    simp only [hcounts, ne_eq, not_true_eq_false, if_false, hdc]
  · rw [← hread.pushed]

theorem charOf_eq {n : Nat} (h : n < 128) : charOf n = Char.ofNat n := by
  rw [charOf, Nat.mod_eq_of_lt (Nat.lt_trans h (by decide))]

theorem ofNat_inj {a b : Nat} (ha : a < 128) (hb : b < 128) (h : Char.ofNat a = Char.ofNat b) : a = b := by
  have hback : ∀ n, n < 128 → (Char.ofNat n).toNat = n := fun n hn => by
    rw [Char.ofNat, dif_pos (Or.inl (Nat.lt_trans hn (by decide)))]
    rfl
  rw [← hback a ha, h, hback b hb]

theorem Piece.read_octal {p : Piece} (hp : p.Wf) (h : p.leads = false) :
    p.read ≠ p.value ∧ 0 < p.read ∧ p.read < 128 := by
  cases p with
  | octal ds =>
    match ds with
    | [d, x] =>
      have hall := (hp.octal [d, x] rfl).2.2
      have hd : d ≠ '0' := of_decide_eq_false h
      obtain ⟨hd₁, hd₂⟩ := Bool.and_eq_true_iff.mp (hall d mem_cons_self)
      obtain ⟨hx₁, hx₂⟩ := Bool.and_eq_true_iff.mp (hall x (mem_cons_of_mem _ mem_cons_self))
      have hd₁ : 48 ≤ d.toNat := of_decide_eq_true hd₁
      have hd₂ : d.toNat ≤ 55 := of_decide_eq_true hd₂
      have hx₁ : 48 ≤ x.toNat := of_decide_eq_true hx₁
      have hx₂ : x.toNat ≤ 55 := of_decide_eq_true hx₂
      have hne : d.toNat ≠ 48 := fun h => hd (by rw [← Char.ofNat_toNat d, h])
      have hread : (octal [d, x]).read = x.toNat - 48 + (d.toNat - 48) := by
        show 0 * 8 + (x.toNat - 48) + (0 * 8 + (d.toNat - 48)) = _
        omega
      have hvalue : (octal [d, x]).value = (d.toNat - 48) * 8 + (x.toNat - 48) := by
        show (0 * 8 + (d.toNat - 48)) * 8 + (x.toNat - 48) = _
        omega
      rw [hread, hvalue]
      omega
    | [] => exact absurd h Bool.noConfusion
    | [_] => exact absurd h Bool.noConfusion
    | _ :: _ :: _ :: _ => exact absurd h Bool.noConfusion
  | _ => exact absurd h Bool.noConfusion

theorem Piece.read_byte {p : Piece} (hp : p.Wf) : 0 < p.read ∧ p.read < 128 := by
  cases h : p.leads with
  | true =>
    rw [read_eq_value h]
    exact hp.byte
  | false => exact (read_octal hp h).2

/-- A literal is read as what it spells exactly when no octal escape of two digits begins with another digit than 0,
and behind an octal escape of one or two digits there is no 8 or 9. -/
theorem literal_decodes_iff {m : Methods} (hm : m.ReadsQuotes) {ps : List Piece} (hps : Spelling ps) (dc : List Tnode)
    {fuel : Nat} (hfuel : (literal ps).length < fuel) :
    (∃ t lp, (LinearParser.new (literal ps)).parse m fuel dc = some (dc ++ sentinel m ++ [t], lp) ∧ t.type = .string ∧
      t.text = bytes ps) ↔ decodes ps = true := by
  obtain ⟨t, lp, s, vs, hparse, htype, htext, hs, hle, hshorter, hall⟩ := parse_literal hm hps dc hfuel
  have hiff : (∃ t lp, (LinearParser.new (literal ps)).parse m fuel dc = some (dc ++ sentinel m ++ [t], lp) ∧
      t.type = .string ∧ t.text = bytes ps) ↔ t.text = bytes ps := by
    constructor
    · rintro ⟨t', lp', hparse', -, htext'⟩
      have hsame := (Prod.mk.inj (Option.some.inj (hparse.symm.trans hparse'))).1
      rwa [(List.cons.inj (append_cancel_left hsame)).1]
    · exact fun h => ⟨t, lp, hparse, htype, h⟩
  rw [hiff, htext, decodes_iff hps]
  cases hsw : swallows ps with
  | true =>
      -- fewer characters than bytes
      refine iff_of_false (fun h => ?_) fun h => absurd h.1 Bool.noConfusion
      have hcounts := (hs.upTo.pushes vs).counts_le
      have hlen := congrArg List.length h
      rw [bytes, length_map] at hlen
      have htake : (strHeapN (vs.foldl UString.push s).addr (vs.foldl UString.push s).counts).length ≤
          (vs.foldl UString.push s).counts :=
        Nat.le_trans (takeWhile_sublist _).length_le (length_take_le _ _)
      have := hshorter hsw
      rw [length_nil] at hcounts
      omega
  | false =>
      have hvs := hall hsw
      have hplain : ∀ v ∈ vs, v ≠ nul := fun v hv => by
        rw [hvs] at hv
        obtain ⟨p, hp, rfl⟩ := mem_map.mp hv
        obtain ⟨hpos, hlt⟩ := Piece.read_byte (hps.wf p hp)
        rw [charOf_eq hlt]
        intro h
        exact absurd (ofNat_inj hlt (by decide) h) (Nat.ne_of_gt hpos)
      rw [(hs.pushes hplain).strHeapN, nil_append, hvs, bytes, map_inj_left]
      constructor
      · refine fun h => ⟨rfl, fun p hp => by_contra fun hnot => ?_⟩
        have hleads := Bool.eq_false_iff.mpr hnot
        obtain ⟨hne, -, hlt⟩ := Piece.read_octal (hps.wf p hp) hleads
        have heq := h p hp
        rw [charOf_eq hlt] at heq
        exact hne (ofNat_inj hlt (hps.wf p hp).byte.2 heq)
      · intro h p hp
        rw [Piece.read_eq_value (h.2 p hp), charOf_eq (hps.wf p hp).byte.2]

theorem wf_plain_a : (Piece.plain 'a').Wf :=
  ⟨by decide, fun b h => by cases h; decide, fun _ h => Piece.noConfusion h, fun _ h => Piece.noConfusion h,
    fun _ _ h => Piece.noConfusion h⟩

theorem wf_octal {ds : List Char} (hbyte : 0 < octalValue ds ∧ octalValue ds < 128) (hne : ds ≠ []) (hlen : ds.length ≤ 3)
    (hall : ds.all isOctalDigit = true) : (Piece.octal ds).Wf :=
  ⟨hbyte, fun _ h => Piece.noConfusion h, fun _ h => Piece.noConfusion h,
    fun es h => by cases h; exact ⟨hne, hlen, all_eq_true.mp hall⟩,
    fun _ _ h => Piece.noConfusion h⟩

/-- The letter a and a line feed. -/
theorem literal_decodes_at_line : ∃ t lp, (LinearParser.new (literal [.plain 'a', .octal ['0', '1', '2']])).parse
    (quoteMethods 0) 9 [] = some ([] ++ sentinel (quoteMethods 0) ++ [t], lp) ∧ t.type = .string ∧
      t.text = bytes [.plain 'a', .octal ['0', '1', '2']] := by
  have hps : Spelling [.plain 'a', .octal ['0', '1', '2']] :=
    ⟨wf_plain_a, fun h => absurd h Bool.noConfusion, wf_octal (by decide) (by decide) (by decide) rfl,
      fun h => absurd h Bool.noConfusion, trivial⟩
  exact (literal_decodes_iff (quoteMethods_readsQuotes 0) hps [] (by decide)).mpr rfl

/-- `\12` and `\18`. -/
theorem literal_misread : Spelling [.octal ['1', '2']] ∧ bytes [.octal ['1', '2']] = [Char.ofNat 10] ∧
    ((LinearParser.new (literal [.octal ['1', '2']])).parse (quoteMethods 0) 9 []).map (·.1.map Tnode.text) =
      some [['G'], [Char.ofNat 3]] ∧
    Spelling [.octal ['1'], .plain '8'] ∧ bytes [.octal ['1'], .plain '8'] = [Char.ofNat 1, '8'] ∧
    ((LinearParser.new (literal [.octal ['1'], .plain '8'])).parse (quoteMethods 0) 9 []).map (·.1.map Tnode.text) =
      some [['G'], [Char.ofNat 9]] := by
  have h12 : Spelling [.octal ['1', '2']] :=
    ⟨wf_octal (by decide) (by decide) (by decide) rfl, fun _ c hc => absurd hc (by simp [spelling]), trivial⟩
  have h8 : (Piece.plain '8').Wf :=
    ⟨by decide, fun b h => by cases h; decide, fun _ h => Piece.noConfusion h, fun _ h => Piece.noConfusion h,
      fun _ _ h => Piece.noConfusion h⟩
  have h18 : Spelling [.octal ['1'], .plain '8'] :=
    ⟨wf_octal (by decide) (by decide) (by decide) rfl, fun _ c hc => by cases hc; decide, h8,
      fun h => absurd h Bool.noConfusion, trivial⟩
  exact ⟨h12, by decide, by decide, h18, by decide, by decide⟩

end Unisym.Text
