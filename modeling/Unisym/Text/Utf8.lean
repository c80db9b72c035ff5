/-
# `Utf8` — the runes of a `String`

`String::Utf8Iterator` reads a byte string rune by rune, and
`String::PushRune` appends a rune to a buffer.  Neither rejects anything: what
is no UTF-8 reads as the replacement character.  On the encoding of a scalar
value they are inverse to each other (`decode_encode`, `runeBytes_toNat`).
-/
import Mathlib.Algebra.BigOperators.Group.List.Basic

namespace Unisym.Utf8

/-- What is read for bytes that are no UTF-8. -/
def replacement : Nat := 0xFFFD

/-! ## Reading -/

/-- The first byte of a sequence: the bits of the rune it carries, and the
length of the sequence. -/
def leadByte (b : Nat) : Nat × Nat :=
  if b ≤ 0x7F then (b, 1)
  else if b &&& 0xE0 = 0xC0 then (b &&& 0x1F, 2)
  else if b &&& 0xF0 = 0xE0 then (b &&& 0x0F, 3)
  else if b &&& 0xF8 = 0xF0 then (b &&& 0x07, 4)
  else (replacement, 1)

/-- The loop over the `n` continuation bytes from byte `i` on: the rune and the
bytes it takes. -/
def continuation : (n i rune : Nat) → List UInt8 → Nat × Nat
  | 0, i, rune, _ => (rune, i)
  | _ + 1, i, _, [] => (replacement, i)
  | n + 1, i, rune, b :: rest =>
      if b.toNat &&& 0xC0 ≠ 0x80 then (replacement, i)
      else continuation n (i + 1) ((rune <<< 6) ||| (b.toNat &&& 0x3F)) rest

/-- `Utf8Iterator::decode`: `current_rune` and `current_bytes` at the front of
what is left. -/
def decode : List UInt8 → Nat × Nat
  | [] => (0, 0)
  | b :: rest =>
      let lead := leadByte b.toNat
      continuation (lead.2 - 1) 1 lead.1 rest

/-- The runes an iterator goes through that still has to step over `skip`
bytes of the last rune. -/
def runesFrom : (skip : Nat) → List UInt8 → List Nat
  | _, [] => []
  | 0, b :: rest =>
      let r := decode (b :: rest)
      r.1 :: runesFrom (r.2 - 1) rest
  | skip + 1, _ :: rest => runesFrom skip rest

def chars (name : List UInt8) : List Nat := runesFrom 0 name

/-! ## Writing -/

/-- The bytes `PushRune` appends for a rune up to 0x10FFFF. -/
def runeBytes (cp : Nat) : List UInt8 :=
  if cp ≤ 0x7F then [.ofNat cp]
  else if cp ≤ 0x7FF then [.ofNat (0xC0 ||| (cp >>> 6)), .ofNat (0x80 ||| (cp &&& 0x3F))]
  else if cp ≤ 0xFFFF then
    [.ofNat (0xE0 ||| (cp >>> 12)), .ofNat (0x80 ||| ((cp >>> 6) &&& 0x3F)),
      .ofNat (0x80 ||| (cp &&& 0x3F))]
  else
    [.ofNat (0xF0 ||| (cp >>> 18)), .ofNat (0x80 ||| ((cp >>> 12) &&& 0x3F)),
      .ofNat (0x80 ||| ((cp >>> 6) &&& 0x3F)), .ofNat (0x80 ||| (cp &&& 0x3F))]

/-- `String::PushRune` on a string in a buffer of `limits` bytes that holds
`out`; `none` when the buffer has no room. -/
def pushRune (limits : Nat) (out : List UInt8) (cp : Nat) : Option (List UInt8) :=
  let cp := if cp > 0x10FFFF then replacement else cp
  if out.length + (runeBytes cp).length + 1 > limits then none else some (out ++ runeBytes cp)

/-! ## Round trip -/

theorem toNat_lt (c : Char) : c.toNat < 0x110000 := by
  rcases c.valid with h | ⟨-, h⟩
  · exact Nat.lt_trans h (by decide)
  · exact h

/-- The UTF-8 encoding of a text. -/
def encode (cs : List Char) : List UInt8 := cs.flatMap String.utf8EncodeChar

theorem encode_cons (c : Char) (cs : List Char) :
    encode (c :: cs) = String.utf8EncodeChar c ++ encode cs := List.flatMap_cons ..

theorem leadByte_one {b : Nat} (h : b ≤ 0x7F) : leadByte b = (b, 1) := if_pos h

theorem leadByte_two : ∀ {b : Nat}, b < 0xE0 → 0xC0 ≤ b → leadByte b = (b - 0xC0, 2) := by
  decide +kernel

theorem leadByte_three : ∀ {b : Nat}, b < 0xF0 → 0xE0 ≤ b → leadByte b = (b - 0xE0, 3) := by
  decide +kernel

theorem leadByte_four : ∀ {b : Nat}, b < 0xF8 → 0xF0 ≤ b → leadByte b = (b - 0xF0, 4) := by
  decide +kernel

theorem tail_mask : ∀ {b : Nat}, b < 0xC0 → 0x80 ≤ b → b &&& 0xC0 = 0x80 := by
  decide +kernel

theorem shift_or_six (r : Nat) {b : Nat} (hb : b < 64) : (r <<< 6) ||| b = r * 64 + b := by
  rw [Nat.shiftLeft_eq, Nat.mul_comm, ← Nat.two_pow_add_eq_or_of_lt hb]

theorem continuation_tail {n i rune t : Nat} {rest : List UInt8} (ht : t < 64) :
    continuation (n + 1) i rune (.ofNat (t + 0x80) :: rest) =
      continuation n (i + 1) (rune * 64 + t) rest := by
  have hb : (UInt8.ofNat (t + 0x80)).toNat = t + 0x80 := by
    rw [UInt8.toNat_ofNat']; omega
  have hand : (t + 0x80) &&& 0x3F = t := by
    rw [show (0x3F : Nat) = 2 ^ 6 - 1 from rfl, Nat.and_two_pow_sub_one_eq_mod]; omega
  rw [continuation, hb, if_neg (by rw [tail_mask (by omega) (by omega)]; simp), hand,
    shift_or_six _ ht]

theorem or_marker {b : Nat} (m i k : Nat) (hm : m = 2 ^ i * k) (hb : b < 2 ^ i) :
    m ||| b = b + m := by
  rw [hm, ← Nat.two_pow_add_eq_or_of_lt hb, Nat.add_comm]

theorem runeBytes_eq {cp : Nat} (hcp : cp ≤ 0x10FFFF) :
    runeBytes cp =
      if cp ≤ 0x7F then [.ofNat cp]
      else if cp ≤ 0x7FF then [.ofNat (cp / 64 + 0xC0), .ofNat (cp % 64 + 0x80)]
      else if cp ≤ 0xFFFF then
        [.ofNat (cp / 4096 + 0xE0), .ofNat (cp / 64 % 64 + 0x80), .ofNat (cp % 64 + 0x80)]
      else
        [.ofNat (cp / 262144 + 0xF0), .ofNat (cp / 4096 % 64 + 0x80), .ofNat (cp / 64 % 64 + 0x80),
          .ofNat (cp % 64 + 0x80)] := by
  have hand : ∀ x : Nat, x &&& 0x3F = x % 64 := fun x => Nat.and_two_pow_sub_one_eq_mod x 6
  have h80 : ∀ x : Nat, 0x80 ||| x % 64 = x % 64 + 0x80 := fun x =>
    or_marker 0x80 6 2 rfl (by omega)
  unfold runeBytes
  simp only [hand, h80, Nat.shiftRight_eq_div_pow, Nat.reducePow]
  split
  · rfl
  split
  · rw [or_marker 0xC0 5 6 rfl (by omega)]
  split
  · rw [or_marker 0xE0 4 14 rfl (by omega)]
  · rw [or_marker 0xF0 3 30 rfl (by omega)]

theorem decode_runeBytes {cp : Nat} (hcp : cp ≤ 0x10FFFF) (rest : List UInt8) :
    decode (runeBytes cp ++ rest) = (cp, (runeBytes cp).length) := by
  rw [runeBytes_eq hcp]
  split
  · rename_i h1
    show continuation _ 1 _ _ = _
    have hb : (UInt8.ofNat cp).toNat = cp := by rw [UInt8.toNat_ofNat']; omega
    rw [hb, leadByte_one h1]
    rfl
  · rename_i h1
    split
    · rename_i h2
      show continuation _ 1 _ _ = _
      have hb : (UInt8.ofNat (cp / 64 + 0xC0)).toNat = cp / 64 + 0xC0 := by
        rw [UInt8.toNat_ofNat']; omega
      rw [hb, leadByte_two (by omega) (by omega)]
      show continuation 1 1 _ (_ :: rest) = _
      rw [continuation_tail (by omega), continuation]
      refine Prod.ext ?_ rfl
      show (cp / 64 + 0xC0 - 0xC0) * 64 + cp % 64 = cp
      omega
    · rename_i h2
      split
      · rename_i h3
        show continuation _ 1 _ _ = _
        have hb : (UInt8.ofNat (cp / 4096 + 0xE0)).toNat = cp / 4096 + 0xE0 := by
          rw [UInt8.toNat_ofNat']; omega
        rw [hb, leadByte_three (by omega) (by omega)]
        show continuation 2 1 _ (_ :: _ :: rest) = _
        rw [continuation_tail (by omega), continuation_tail (by omega), continuation]
        refine Prod.ext ?_ rfl
        show ((cp / 4096 + 0xE0 - 0xE0) * 64 + cp / 64 % 64) * 64 + cp % 64 = cp
        omega
      · rename_i h3
        show continuation _ 1 _ _ = _
        have hb : (UInt8.ofNat (cp / 262144 + 0xF0)).toNat = cp / 262144 + 0xF0 := by
          rw [UInt8.toNat_ofNat']; omega
        rw [hb, leadByte_four (by omega) (by omega)]
        show continuation 3 1 _ (_ :: _ :: _ :: rest) = _
        rw [continuation_tail (by omega), continuation_tail (by omega),
          continuation_tail (by omega), continuation]
        refine Prod.ext ?_ rfl
        show (((cp / 262144 + 0xF0 - 0xF0) * 64 + cp / 4096 % 64) * 64 + cp / 64 % 64) * 64 + cp % 64 = cp
        omega

theorem runeBytes_toNat (c : Char) : runeBytes c.toNat = String.utf8EncodeChar c := by
  have hc : c.val.toNat < 0x110000 := toNat_lt c
  have hval : c.toNat = c.val.toNat := rfl
  rw [hval, runeBytes_eq (by omega)]
  unfold String.utf8EncodeChar
  dsimp only
  generalize c.val.toNat = v at hc
  split
  · rfl
  split
  · rw [show v / 64 % 32 = v / 64 by omega]
  split
  · rw [show v / 4096 % 16 = v / 4096 by omega]
  · rw [show v / 262144 % 8 = v / 262144 by omega]

theorem decode_encode (c : Char) (rest : List UInt8) :
    decode (String.utf8EncodeChar c ++ rest) = (c.toNat, (String.utf8EncodeChar c).length) := by
  rw [← runeBytes_toNat]
  exact decode_runeBytes (Nat.le_of_lt_succ (toNat_lt c)) rest

theorem runesFrom_append : ∀ (l rest : List UInt8), runesFrom l.length (l ++ rest) = runesFrom 0 rest
  | [], _ => rfl
  | _ :: l, rest => runesFrom_append l rest

theorem chars_encode : ∀ cs : List Char, chars (encode cs) = cs.map Char.toNat
  | [] => rfl
  | c :: cs => by
    have ih := chars_encode cs
    have hd := decode_encode c (encode cs)
    rw [encode_cons]
    cases he : String.utf8EncodeChar c with
    | nil => exact absurd he String.utf8EncodeChar_ne_nil
    | cons b l =>
      rw [he] at hd
      show (decode (b :: l ++ encode cs)).1 ::
        runesFrom ((decode (b :: l ++ encode cs)).2 - 1) (l ++ encode cs) = _
      rw [hd, List.map_cons, List.length_cons, Nat.add_sub_cancel, runesFrom_append]
      exact congrArg (c.toNat :: ·) ih

theorem pushRune_char {limits : Nat} {out : List UInt8} {c : Char}
    (h : out.length + (String.utf8EncodeChar c).length + 1 ≤ limits) :
    pushRune limits out c.toNat = some (out ++ String.utf8EncodeChar c) := by
  have hc := toNat_lt c
  unfold pushRune
  dsimp only
  have hle : ¬c.toNat > 0x10FFFF := by omega
  rw [if_neg hle, runeBytes_toNat, if_neg (by omega)]

end Unisym.Utf8
