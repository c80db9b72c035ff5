/-
# `JsonTokens` — the strings and numbers of `ConfigJSON`

What the parser makes of a string up to its closing quote and of a run of digits, and when that
is the value that is written.
-/
import Unisym.Format.JsonGrammar
import Unisym.Lango.Atoins
import Mathlib.Algebra.GroupWithZero.Nat
import Mathlib.Algebra.Order.Group.Nat

namespace Unisym.Format

open List

open Lango (Text atoins)

/-! ## Whitespace -/

theorem ws_nil : Ws [] := forall_mem_nil _

theorem skip_ws {w : Text} (hw : Ws w) (p : Text) :
    skipJsonWhitespace (w ++ p) = skipJsonWhitespace p := dropWhile_append_of_pos hw

theorem skip_token {c : Char} (hc : isJsonWhitespace c = false) (p : Text) :
    skipJsonWhitespace (c :: p) = c :: p :=
  dropWhile_cons_of_neg (Bool.not_eq_true _ ▸ hc)

theorem skip_split (p : Text) : ∃ w, Ws w ∧ p = w ++ skipJsonWhitespace p :=
  ⟨p.takeWhile isJsonWhitespace, fun _ hc => mem_takeWhile_imp hc,
    takeWhile_append_dropWhile.symm⟩

theorem skip_eq_nil {p : Text} : skipJsonWhitespace p = [] ↔ Ws p := dropWhile_eq_nil_iff

/-! ## Strings -/

/-- The characters that the parser stages for a string. -/
def staged : Text → Text
  | [] => []
  | c :: raw =>
      if c = '\\' then
        match raw with
        | [] => []
        | ch :: raw => unescape ch :: staged raw
      else c :: staged raw

theorem staged_char {c : Char} (hc : c ≠ '\\') (raw : Text) :
    staged (c :: raw) = c :: staged raw := by
  rw [staged.eq_def]
  exact if_neg hc

theorem staged_escape (ch : Char) (raw : Text) :
    staged ('\\' :: ch :: raw) = unescape ch :: staged raw := rfl

/-- It does not matter when the buffer goes to the string. -/
theorem stage_append (buf outStr : Text) (ch : Char) :
    (stage buf outStr ch).2 ++ (stage buf outStr ch).1 = outStr ++ buf ++ [ch] := by
  unfold stage
  dsimp only
  split
  · rw [append_nil, append_assoc]
  · rw [append_assoc]

section

variable (p buf outStr : Text)

theorem stringLoop_quote : stringLoop ('"' :: p) buf outStr = some (outStr ++ buf, p) := by
  rw [stringLoop.eq_def]
  exact if_pos rfl

theorem stringLoop_char {c : Char} (hquote : c ≠ '"') (hslash : c ≠ '\\') :
    stringLoop (c :: p) buf outStr =
      stringLoop p (stage buf outStr c).1 (stage buf outStr c).2 := by
  rw [stringLoop.eq_def]
  exact (if_neg hquote).trans (if_neg hslash)

theorem stringLoop_escape (ch : Char) :
    stringLoop ('\\' :: ch :: p) buf outStr =
      stringLoop p (stage buf outStr (unescape ch)).1 (stage buf outStr (unescape ch)).2 := by
  rw [stringLoop.eq_def]
  exact (if_neg (by decide)).trans (if_pos rfl)

end

variable {raw rest bs ds : Text} {c : Char}

theorem stringLoop_delimited (h : Delimited raw) (rest : Text) :
    ∀ buf outStr, stringLoop (raw ++ '"' :: rest) buf outStr =
      some (outStr ++ buf ++ staged raw, rest) := by
  induction h with
  | nil =>
    intro buf outStr
    show stringLoop ('"' :: rest) buf outStr = some (outStr ++ buf ++ [], rest)
    rw [stringLoop_quote, append_nil]
  | @char c raw hquote hslash _ ih =>
    intro buf outStr
    show stringLoop (c :: (raw ++ '"' :: rest)) buf outStr = _
    rw [stringLoop_char _ _ _ hquote hslash, ih, stage_append, staged_char hslash,
      append_assoc _ [c]]
    rfl
  | @escape ch raw _ ih =>
    intro buf outStr
    show stringLoop ('\\' :: ch :: (raw ++ '"' :: rest)) buf outStr = _
    rw [stringLoop_escape, ih, stage_append, staged_escape,
      append_assoc _ [unescape ch]]
    rfl

theorem stringLoop_inv : ∀ {p buf outStr str rest : Text},
    stringLoop p buf outStr = some (str, rest) →
      ∃ raw, Delimited raw ∧ p = raw ++ '"' :: rest ∧ str = outStr ++ buf ++ staged raw := by
  intro p buf outStr
  fun_induction stringLoop p buf outStr with
  | case1 => exact fun h => nomatch h
  | case2 p buf outStr =>
    intro str rest h
    cases h
    exact ⟨[], .nil, rfl, (append_nil _).symm⟩
  | case3 => exact fun h => nomatch h
  | case4 buf outStr ch p s _ =>
    rename_i ih
    intro str rest h
    obtain ⟨raw, hraw, rfl, rfl⟩ := ih h
    refine ⟨'\\' :: ch :: raw, .escape hraw, rfl, ?_⟩
    rw [stage_append, staged_escape, append_assoc _ [unescape ch]]
    rfl
  | case5 c p buf outStr hquote hslash s =>
    rename_i ih
    intro str rest h
    obtain ⟨raw, hraw, rfl, rfl⟩ := ih h
    refine ⟨c :: raw, .char hquote hslash hraw, rfl, ?_⟩
    rw [stage_append, staged_char hslash, append_assoc _ [c]]
    rfl

theorem parseJsonString_quoted (h : Delimited raw) (rest : Text) :
    parseJsonString (quoted raw ++ rest) = some (staged raw, rest) := by
  have hloop := stringLoop_delimited h rest [] []
  show stringLoop (raw ++ ['"'] ++ rest) [] [] = _
  rw [append_assoc]
  exact hloop

theorem parseJsonString_inv {p str : Text} (h : parseJsonString p = some (str, rest)) :
    ∃ raw, Delimited raw ∧ p = quoted raw ++ rest ∧ str = staged raw := by
  unfold parseJsonString at h
  split at h
  · obtain ⟨raw, hraw, rfl, rfl⟩ := stringLoop_inv h
    refine ⟨raw, hraw, ?_, rfl⟩
    show _ = '"' :: (raw ++ ['"'] ++ rest)
    rw [append_assoc]
    rfl
  · cases h

theorem Delimited.unique (h : Delimited raw) :
    ∀ {raw' rest rest' : Text}, Delimited raw' → raw ++ '"' :: rest = raw' ++ '"' :: rest' →
      raw = raw' ∧ rest = rest' := by
  induction h with
  | nil =>
    intro raw' rest rest' h' heq
    cases h' with
    | nil => exact ⟨rfl, (List.cons.inj heq).2⟩
    | char hquote => exact absurd (List.cons.inj heq).1.symm hquote
    | escape => exact absurd (List.cons.inj heq).1 (by decide)
  | char hquote hslash _ ih =>
    intro raw' rest rest' h' heq
    cases h' with
    | nil => exact absurd (List.cons.inj heq).1 hquote
    | char _ _ h' =>
      obtain ⟨rfl, htail⟩ := List.cons.inj heq
      obtain ⟨rfl, hrest⟩ := ih h' htail
      exact ⟨rfl, hrest⟩
    | escape => exact absurd (List.cons.inj heq).1 hslash
  | escape _ ih =>
    intro raw' rest rest' h' heq
    cases h' with
    | nil => exact absurd (List.cons.inj heq).1 (by decide)
    | char _ hslash => exact absurd (List.cons.inj heq).1.symm hslash
    | escape h' =>
      obtain ⟨rfl, htail⟩ := List.cons.inj (List.cons.inj heq).2
      obtain ⟨rfl, hrest⟩ := ih h' htail
      exact ⟨rfl, hrest⟩

/-! ## The value of a string -/

theorem runeBytes_high {cp : Nat} (hlow : 0x7F < cp) (hcp : cp ≤ 0x10FFFF) :
    ∀ b ∈ Utf8.runeBytes cp, 0x80 ≤ b.toNat := by
  have hbyte : ∀ n, 0x80 ≤ n → n < 256 → 0x80 ≤ (UInt8.ofNat n).toNat := by
    intro n hlow hn
    rwa [UInt8.toNat_ofNat', Nat.mod_eq_of_lt hn]
  rw [Utf8.runeBytes_eq hcp, if_neg (Nat.not_le.mpr hlow)]
  intro b hb
  split at hb
  · simp only [mem_cons, not_mem_nil, or_false] at hb
    rcases hb with rfl | rfl <;> exact hbyte _ (by omega) (by omega)
  split at hb
  · simp only [mem_cons, not_mem_nil, or_false] at hb
    rcases hb with rfl | rfl | rfl <;> exact hbyte _ (by omega) (by omega)
  · simp only [mem_cons, not_mem_nil, or_false] at hb
    rcases hb with rfl | rfl | rfl | rfl <;> exact hbyte _ (by omega) (by omega)

theorem char_ofNat_byte {n : Nat} (hn : n < 256) : (Char.ofNat n).toNat = n := by
  rw [Char.ofNat, dif_pos (Or.inl (by omega))]
  rfl

/-- A character of ASCII is its own encoding, and the bytes of another are no ASCII. -/
theorem utf8_cases (c : Char) : utf8 c.toNat = [c] ∨ ∀ x ∈ utf8 c.toNat, 0x80 ≤ x.toNat := by
  by_cases hlow : c.toNat ≤ 0x7F
  · left
    have hbyte : (UInt8.ofNat c.toNat).toNat = c.toNat := by
      rw [UInt8.toNat_ofNat']
      omega
    have hchar : Char.ofNat c.toNat = c := Char.ofNat_toNat c
    rw [utf8, Utf8.runeBytes, if_pos hlow, map_singleton, hbyte, hchar]
  · right
    intro x hx
    obtain ⟨b, hb, rfl⟩ := mem_map.mp hx
    rw [char_ofNat_byte b.toNat_lt]
    exact runeBytes_high (Nat.lt_of_not_le hlow) (Nat.le_of_lt_succ (Utf8.toNat_lt c)) b hb

/-- No byte of another character is a quote or a backslash. -/
theorem utf8_ne {d : Char} (hd : d.toNat < 0x80) (h : c ≠ d) : ∀ x ∈ utf8 c.toNat, x ≠ d := by
  intro x hx
  rcases utf8_cases c with heq | hhigh
  · rw [heq] at hx
    exact mem_singleton.mp hx ▸ h
  · rintro rfl
    exact absurd (hhigh _ hx) (Nat.not_le.mpr hd)

theorem length_utf8_le (cp : Nat) : (utf8 cp).length ≤ 4 := by
  unfold utf8 Utf8.runeBytes
  rw [length_map]
  split
  · exact Nat.le_of_ble_eq_true rfl
  split
  · exact Nat.le_of_ble_eq_true rfl
  split <;> exact Nat.le_of_ble_eq_true rfl

theorem Delimited.append (hquote : ∀ x ∈ bs, x ≠ '"') (hslash : ∀ x ∈ bs, x ≠ '\\')
    (h : Delimited raw) : Delimited (bs ++ raw) := by
  induction bs with
  | nil => exact h
  | cons b bs ih =>
    rw [forall_mem_cons] at hquote hslash
    exact .char hquote.1 hslash.1 (ih hquote.2 hslash.2)

theorem isHexDigit_ne {d : Char} (hc : isHexDigit c = true) (hd : isHexDigit d = false) : c ≠ d := by
  rintro rfl
  exact Bool.false_ne_true (hd.symm.trans hc)

theorem simpleEscapes_ne {ch : Char} (hch : ch ∈ simpleEscapes) : ch ≠ 'u' := by
  rintro rfl
  exact absurd hch (by decide)

theorem JsonChars.delimited (h : JsonChars raw) : Delimited raw := by
  induction h with
  | nil => exact .nil
  | unescaped _ hquote hslash _ ih =>
    exact ih.append (utf8_ne (by decide) hquote) (utf8_ne (by decide) hslash)
  | simple _ _ ih => exact .escape ih
  | unicode ha hb hc hd _ ih =>
    have hchar : ∀ {c : Char} {raw : Text}, isHexDigit c = true → Delimited raw →
        Delimited (c :: raw) := fun hc h => .char (isHexDigit_ne hc rfl) (isHexDigit_ne hc rfl) h
    exact .escape (hchar ha (hchar hb (hchar hc (hchar hd ih))))

theorem pieces_char (hc : c ≠ '\\') (raw : Text) :
    pieces (c :: raw) = .byte c :: pieces raw := by
  rw [pieces.eq_def]
  exact if_pos hc

theorem pieces_simple {ch : Char} (hch : ch ≠ 'u') (raw : Text) :
    pieces ('\\' :: ch :: raw) = .byte (simpleChar ch) :: pieces raw := by
  rw [pieces.eq_def]
  exact (if_neg (not_not_intro rfl)).trans (if_pos hch)

theorem pieces_unicode (a b c d : Char) (raw : Text) :
    pieces ('\\' :: 'u' :: a :: b :: c :: d :: raw) =
      .unit (((hexDigit a * 16 + hexDigit b) * 16 + hexDigit c) * 16 + hexDigit d) :: pieces raw := by
  rw [pieces.eq_def]
  exact (if_neg (not_not_intro rfl)).trans (if_neg (not_not_intro rfl))

theorem pieces_append (hslash : ∀ x ∈ bs, x ≠ '\\') (raw : Text) :
    pieces (bs ++ raw) = bs.map .byte ++ pieces raw := by
  induction bs with
  | nil => rfl
  | cons b bs ih =>
    rw [forall_mem_cons] at hslash
    rw [cons_append, pieces_char hslash.1, ih hslash.2]
    rfl

theorem staged_append (hslash : ∀ x ∈ bs, x ≠ '\\') (raw : Text) :
    staged (bs ++ raw) = bs ++ staged raw := by
  induction bs with
  | nil => rfl
  | cons b bs ih =>
    rw [forall_mem_cons] at hslash
    rw [cons_append, staged_char hslash.1, ih hslash.2]
    rfl

theorem pieceBytes_append (bs : Text) (ps : List Piece) :
    pieceBytes (bs.map .byte ++ ps) = bs ++ pieceBytes ps := by
  induction bs with
  | nil => rfl
  | cons b bs ih =>
    show b :: pieceBytes (bs.map .byte ++ ps) = _
    rw [ih]
    rfl

theorem unescape_eq (ch : Char) : unescape ch = simpleChar ch := by
  by_cases hquote : ch = '"'
  · subst hquote
    rfl
  by_cases hslash : ch = '\\'
  · subst hslash
    rfl
  by_cases hsolidus : ch = '/'
  · subst hsolidus
    rfl
  unfold unescape
  rw [if_neg hquote, if_neg hslash, if_neg hsolidus]
  rfl

/-- The characters of the parser for a piece: it stages the five behind the backslash of a `\u`
escape. -/
def Piece.width : Piece → Nat
  | .byte _ => 1
  | .unit _ => 5

def widths (ps : List Piece) : Nat := (ps.map Piece.width).sum

theorem length_staged (h : JsonChars raw) : (staged raw).length = widths (pieces raw) := by
  induction h with
  | nil => rfl
  | @unescaped c raw _ _ hslash _ ih =>
    have hne := utf8_ne (by decide) hslash
    have hones : ∀ bs : Text, ((bs.map Piece.byte).map Piece.width).sum = bs.length := by
      intro bs
      induction bs with
      | nil => rfl
      | cons b bs ih =>
        show 1 + ((bs.map Piece.byte).map Piece.width).sum = bs.length + 1
        rw [ih, Nat.add_comm]
    rw [staged_append hne, pieces_append hne, length_append, ih, widths, widths, map_append,
      sum_append, hones]
  | simple hch _ ih =>
    rw [staged_escape, pieces_simple (simpleEscapes_ne hch), length_cons, ih, Nat.add_comm]
    rfl
  | unicode ha hb hc hd _ ih =>
    rw [staged_escape, staged_char (isHexDigit_ne ha rfl), staged_char (isHexDigit_ne hb rfl),
      staged_char (isHexDigit_ne hc rfl), staged_char (isHexDigit_ne hd rfl), pieces_unicode]
    simp only [length_cons, ih]
    exact Nat.add_comm _ 5

/-- Every `\u` escape makes the value shorter than what the parser stages. -/
theorem length_pieceBytes (ps : List Piece) :
    (pieceBytes ps).length ≤ widths ps ∧
      ((pieceBytes ps).length = widths ps → ∀ u, .unit u ∉ ps) := by
  have hwidths : ∀ (p : Piece) (ps : List Piece), widths (p :: ps) = p.width + widths ps :=
    fun _ _ => sum_cons
  fun_induction pieceBytes ps with
  | case1 => exact ⟨Nat.le_refl _, fun _ u hu => nomatch hu⟩
  | case2 c ps ih =>
    rw [hwidths, length_cons]
    refine ⟨by show _ ≤ 1 + _; omega, fun heq u hu => ?_⟩
    have hps : (pieceBytes ps).length = widths ps := by
      change _ = 1 + _ at heq
      omega
    cases hu with
    | tail _ hu => exact ih.2 hps u hu
  | case3 u u' ps hpair ih =>
    have hlen := length_utf8_le (0x10000 + (u - 0xD800) * 0x400 + (u' - 0xDC00))
    rw [hwidths, hwidths, length_append]
    refine ⟨by show _ ≤ 5 + (5 + _); omega, fun heq => ?_⟩
    change _ = 5 + (5 + _) at heq
    omega
  | case4 u u' ps hpair ih =>
    have hlen := length_utf8_le u
    rw [hwidths, length_append]
    refine ⟨by show _ ≤ 5 + _; omega, fun heq => ?_⟩
    change _ = 5 + _ at heq
    omega
  | case5 u ps hlast ih =>
    have hlen := length_utf8_le u
    rw [hwidths, length_append]
    refine ⟨by show _ ≤ 5 + _; omega, fun heq => ?_⟩
    change _ = 5 + _ at heq
    omega

/-- The parser has the value of a string exactly if no `\u` escape stands in it. -/
theorem staged_eq_stringValue (h : JsonChars raw) :
    staged raw = stringValue raw ↔ ∀ u, .unit u ∉ pieces raw := by
  constructor
  · intro heq
    refine (length_pieceBytes (pieces raw)).2 ?_
    rw [← length_staged h, heq]
    rfl
  · intro hunits
    unfold stringValue
    induction h with
    | nil => rfl
    | unescaped _ _ hslash _ ih =>
      have hne := utf8_ne (by decide) hslash
      rw [pieces_append hne] at hunits
      rw [staged_append hne, pieces_append hne, pieceBytes_append,
        ih fun u hu => hunits u (mem_append_right _ hu)]
    | simple hch _ ih =>
      rw [pieces_simple (simpleEscapes_ne hch)] at hunits
      rw [staged_escape, unescape_eq, pieces_simple (simpleEscapes_ne hch),
        ih fun u hu => hunits u (mem_cons_of_mem _ hu)]
      rfl
    | unicode =>
      rw [pieces_unicode] at hunits
      exact absurd mem_cons_self (hunits _)

/-! ## Numbers -/

/-- What is left starts with no digit. -/
def DigitFree (rest : Text) : Prop := ∀ c, rest.head? = some c → c.isDigit = false

/-- The number of the parser: `num_buf` and what `atoins` makes of it. -/
def bufferedNumber (raw : Text) : Text × Int := (raw.take 63, atoins (raw.take 63))

theorem dropWhile_digits (hds : ∀ c ∈ ds, c.isDigit = true) (hrest : DigitFree rest) :
    (ds ++ rest).dropWhile Char.isDigit = rest := by
  rw [dropWhile_append_of_pos hds]
  cases rest with
  | nil => rfl
  | cons c rest => exact dropWhile_cons_of_neg (Bool.not_eq_true _ ▸ hrest c rfl)

theorem digitFree_dropWhile (p : Text) : DigitFree (p.dropWhile Char.isDigit) := by
  intro c hc
  have hhead := head?_dropWhile_not Char.isDigit p
  rw [hc] at hhead
  exact hhead

theorem parseJsonNumber_run (h : DigitRun raw) (hrest : DigitFree rest) :
    parseJsonNumber (raw ++ rest) =
      ({ type := .number, numVal := (bufferedNumber raw).2, strVal := (bufferedNumber raw).1 }, rest) := by
  have hend : ((raw ++ rest).drop (if (raw ++ rest).head? = some '-' then 1 else 0)).dropWhile
      Char.isDigit = rest := by
    obtain ⟨hne, ds, hds, rfl | rfl⟩ := h
    · cases raw with
      | nil => exact absurd rfl hne
      | cons c ds =>
        have hc : c ≠ '-' := by
          rintro rfl
          exact absurd (hds _ mem_cons_self) (by decide)
        have hhead : ¬(c :: ds ++ rest).head? = some '-' := fun heq => hc (Option.some.inj heq)
        rw [if_neg hhead]
        exact dropWhile_digits hds hrest
    · exact dropWhile_digits hds hrest
  have hbuf : (raw ++ rest).take (if 64 ≤ raw.length then 63 else raw.length) = raw.take 63 := by
    split
    · rename_i hlong
      exact take_append_of_le_length (by omega)
    · rename_i hshort
      rw [take_left, take_of_length_le (by omega)]
  unfold parseJsonNumber
  dsimp only
  rw [hend, length_append, Nat.add_sub_cancel, hbuf]
  rfl

theorem parseJsonNumber_inv {p : Text} (hc : c = '-' ∨ c.isDigit = true) :
    ∃ raw rest, DigitRun raw ∧ DigitFree rest ∧ c :: p = raw ++ rest := by
  have hsplit : p = p.takeWhile Char.isDigit ++ p.dropWhile Char.isDigit :=
    takeWhile_append_dropWhile.symm
  have hds : ∀ x ∈ p.takeWhile Char.isDigit, x.isDigit = true := fun _ hx => mem_takeWhile_imp hx
  refine ⟨c :: p.takeWhile Char.isDigit, p.dropWhile Char.isDigit, ⟨cons_ne_nil _ _, ?_⟩,
    digitFree_dropWhile p, congrArg (c :: ·) hsplit⟩
  rcases hc with rfl | hc
  · exact ⟨_, hds, .inr rfl⟩
  · exact ⟨_, forall_mem_cons.mpr ⟨hc, hds⟩, .inl rfl⟩

theorem DigitRun.unique {raw' rest' : Text} (h : DigitRun raw) (h' : DigitRun raw')
    (hrest : DigitFree rest) (hrest' : DigitFree rest') (heq : raw ++ rest = raw' ++ rest') :
    raw = raw' ∧ rest = rest' := by
  have hparse := parseJsonNumber_run h hrest
  rw [heq, parseJsonNumber_run h' hrest'] at hparse
  obtain rfl := (Prod.mk.inj hparse).2
  exact ⟨append_cancel_right heq, rfl⟩

theorem JsonInt.digitRun (h : JsonInt raw) : DigitRun raw := by
  obtain ⟨ds, hne, hds, -, hraw⟩ := h
  refine ⟨?_, ds, hds, hraw⟩
  rcases hraw with rfl | rfl
  · exact hne
  · exact cons_ne_nil _ _

/-! ## The value of a number -/

/-- Digits without a zero before them are a number of their length. -/
theorem pow_le_ofDigitChars (hc : c.isDigit = true) (hzero : c ≠ '0') :
    10 ^ ds.length ≤ Nat.ofDigitChars 10 (c :: ds) 0 := by
  have hpos : 1 ≤ c.toNat - '0'.toNat := by
    obtain ⟨hlow, -⟩ := Char.isDigit_iff_toNat.mp hc
    have hne : c.toNat ≠ '0'.toNat := fun h => hzero (Char.toNat_inj.mp h)
    have hnat : '0'.toNat = 48 := rfl
    omega
  rw [Nat.ofDigitChars_cons, Nat.ofDigitChars_eq_ofDigitChars_zero]
  calc
    10 ^ ds.length = 10 ^ ds.length * 1 := (Nat.mul_one _).symm
    _ ≤ 10 ^ ds.length * (10 * 0 + (c.toNat - '0'.toNat)) := Nat.mul_le_mul_left _ (by omega)
    _ ≤ _ := Nat.le_add_right _ _

theorem length_digits_le (hds : ∀ c ∈ ds, c.isDigit = true)
    (hzero : ds.head? = some '0' → ds = ['0']) (hlt : Nat.ofDigitChars 10 ds 0 ≤ 2 ^ 63) :
    ds.length ≤ 20 := by
  cases ds with
  | nil => exact Nat.zero_le _
  | cons c ds =>
    by_cases hc : c = '0'
    · have hone := hzero (congrArg some hc)
      rw [hone]
      exact Nat.le_of_ble_eq_true rfl
    · have hpow : 10 ^ ds.length ≤ Nat.ofDigitChars 10 (c :: ds) 0 :=
        pow_le_ofDigitChars (hds c mem_cons_self) hc
      by_contra hlong
      rw [length_cons] at hlong
      have hbig : 10 ^ 20 ≤ 10 ^ ds.length := Nat.pow_le_pow_right (by decide) (by omega)
      omega

/-- The parser has the value of a number exactly if it is one of 64 bits. -/
theorem bufferedNumber_eq (h : JsonInt raw) :
    bufferedNumber raw = (raw, numberValue raw) ↔
      -2 ^ 63 ≤ numberValue raw ∧ numberValue raw < 2 ^ 63 := by
  constructor
  · intro heq
    rw [← (Prod.mk.inj heq).2]
    exact Lango.atoins_range _
  · intro hrange
    obtain ⟨ds, hne, hds, hzero, hraw⟩ := h
    have hvalue : (raw = ds ∧ numberValue raw = (Nat.ofDigitChars 10 ds 0 : Nat)) ∨
        (raw = '-' :: ds ∧ numberValue raw = -(Nat.ofDigitChars 10 ds 0 : Nat)) := by
      rcases hraw with rfl | rfl
      · left
        refine ⟨rfl, ?_⟩
        unfold numberValue
        split
        · exact absurd (hds '-' mem_cons_self) (by decide)
        · rfl
      · exact .inr ⟨rfl, rfl⟩
    have hlen : ds.length ≤ 20 := length_digits_le hds hzero (by
      rcases hvalue with ⟨-, hv⟩ | ⟨-, hv⟩ <;> rw [hv] at hrange <;> omega)
    have htake : raw.take 63 = raw := by
      refine take_of_length_le ?_
      rcases hraw with rfl | rfl
      · omega
      · rw [length_cons]
        omega
    have hatoins : atoins raw = Lango.toSigned (numberValue raw) := by
      rcases hvalue with ⟨rfl, hv⟩ | ⟨rfl, hv⟩
      · rw [hv]
        exact Lango.atoins_digits hlen hds
      · rw [hv]
        exact Lango.atoins_minus_digits hlen hds
    unfold bufferedNumber
    rw [htake, hatoins, Lango.toSigned_of_range hrange.1 hrange.2]

end Unisym.Format
