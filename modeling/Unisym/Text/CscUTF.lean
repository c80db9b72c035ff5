/-
# `CscUTF` — UTF-8 to UTF-16 and UTF-32

`CscUTF` runs over the bytes twice: without a destination, for the size, and then with the buffer of that size.  The
form of five and six bytes is decoded, too, and only the version for UTF-16 checks what comes of it.

`cscUTF_iff`: the conversion is that of the standard, unless the target is UTF-32 and some code is above 0x10FFFF.
-/
import Unisym.Text.Utf8
import Mathlib.Tactic.IntervalCases

namespace Unisym.Utf8

open List

/-! ## The code -/

/-- The values of `to` -/
inductive Target where
  | utf16
  | utf32
  deriving DecidableEq

/-- `byteof` of a unit -/
def Target.byteof : Target → Nat
  | utf16 => 2
  | utf32 => 4

/-- The variables of `CscFromUTF8`; `des` is the null pointer, or the units written so far. -/
structure Decoding where
  dlen : Nat
  expected : Nat
  v : Nat
  vmin : Nat
  des : Option (List Nat)

/-- `asrtinc(des) = u` -/
def asrtinc (u : Nat) : Option (List Nat) → Option (List Nat) := Option.map (· ++ [u])

def hand8to16 (s : Decoding) : Option Decoding :=
  if s.v < s.vmin ∨ s.v > 0x10FFFF ∨ s.v ≥ 0xD800 ∧ s.v ≤ 0xDFFF then none
  else if s.v > 0xFFFF then
    let v := s.v - 0x10000
    let des := asrtinc ((v >>> 10 ||| 0xD800) % 2 ^ 16) s.des
    let des := asrtinc ((v &&& 0x3FF ||| 0xDC00) % 2 ^ 16) des
    some { s with v, des, dlen := s.dlen + 2 * Target.utf16.byteof }
  else some { s with des := asrtinc (s.v % 2 ^ 16) s.des, dlen := s.dlen + Target.utf16.byteof }

def hand8to32 (s : Decoding) : Option Decoding :=
  if s.v < s.vmin ∨ s.v ≥ 0xD800 ∧ s.v ≤ 0xDFFF then none
  else some { s with des := asrtinc s.v s.des, dlen := s.dlen + Target.utf32.byteof }

/-- `fn` -/
def hand : Target → Decoding → Option Decoding
  | .utf16 => hand8to16
  | .utf32 => hand8to32

/-- `CscFromUTF8`: `dlen`, and what was written; nothing for `NONE` -/
def cscFromUTF8 (target : Target) : List UInt8 → Decoding → Option (Nat × List Nat)
  | [], s => if s.expected ≠ 0 then none else some (s.dlen, s.des.getD [])
  | c :: src, s =>
    let ch := c.toNat
    if s.expected ≠ 0 then
      if ch &&& 0xC0 = 0x80 then
        let s := { s with v := (s.v <<< 6) % 2 ^ 32 ||| (ch &&& 0x3F), expected := s.expected - 1 }
        if s.expected = 0 then (hand target s).bind (cscFromUTF8 target src) else cscFromUTF8 target src s
      else none
    else if ch < 0x80 then
      cscFromUTF8 target src { s with des := asrtinc ch s.des, dlen := s.dlen + target.byteof }
    else if ch < 0xC0 ∨ ch ≥ 0xFE then none
    else if ch < 0xE0 then cscFromUTF8 target src { s with v := ch &&& 0x1F, expected := 1, vmin := 0x80 }
    else if ch < 0xF0 then cscFromUTF8 target src { s with v := ch &&& 0x0F, expected := 2, vmin := 0x800 }
    else if ch < 0xF8 then cscFromUTF8 target src { s with v := ch &&& 0x07, expected := 3, vmin := 0x10000 }
    else if ch < 0xFC then cscFromUTF8 target src { s with v := ch &&& 0x03, expected := 4, vmin := 0x200000 }
    else cscFromUTF8 target src { s with v := ch &&& 0x01, expected := 5, vmin := 0x4000000 }

/-- The pass for the size, and the one with the buffer -/
def sizing : Decoding := ⟨0, 0, 0, 0, none⟩
def writing : Decoding := ⟨0, 0, 0, 0, some []⟩

/-- `CscUTF(8, to, …)` with a null destination, where the allocation of `res + UNICHAR_LEN_CRTMAX` bytes succeeds -/
def cscUTF (target : Target) (src : List UInt8) : Option (Nat × List Nat) := do
  let _ ← cscFromUTF8 target src sizing
  cscFromUTF8 target src writing

/-! ## The forms -/

/-- `k` continuation bytes -/
def tails : (k v : Nat) → List UInt8
  | 0, _ => []
  | k + 1, v => .ofNat (v / 64 ^ k % 64 + 0x80) :: tails k v

/-- The least code with `k` continuation bytes -/
def least : (k : Nat) → Nat
  | 0 => 0
  | 1 => 0x80
  | 2 => 0x800
  | 3 => 0x10000
  | 4 => 0x200000
  | _ => 0x4000000

/-- The first byte of a form with `k` continuation bytes, before the bits of the code -/
def mark (k : Nat) : Nat := if k = 0 then 0 else 0x100 - 2 ^ (7 - k)

def width (v : Nat) : Nat :=
  if v < 0x80 then 0 else if v < 0x800 then 1 else if v < 0x10000 then 2 else if v < 0x200000 then 3
  else if v < 0x4000000 then 4 else 5

/-- The bytes of a code of up to 31 bits -/
def form (v : Nat) : List UInt8 := .ofNat (v / 64 ^ width v + mark (width v)) :: tails (width v) v

/-- The units of a code -/
def units : Target → Nat → List Nat
  | .utf16, v => if v < 0x10000 then [v] else [(v - 0x10000) / 0x400 + 0xD800, v % 0x400 + 0xDC00]
  | .utf32, v => [v]

/-- A code that is accepted -/
def Allowed (target : Target) (v : Nat) : Prop :=
  v < 2 ^ 31 ∧ ¬(0xD800 ≤ v ∧ v ≤ 0xDFFF) ∧ (target = .utf16 → v ≤ 0x10FFFF)

/-- What the conversion is for: just the encodings are accepted, with the size of the first pass all that is written is
in the buffer, and it is the units of the text. -/
structure Converts (target : Target) (src : List UInt8) : Prop where
  accepts : (∃ r, cscUTF target src = some r) ↔ ∃ cs, src = encode cs
  inside : ∀ res w, cscFromUTF8 target src sizing = some (res, w) →
    ∃ us, cscFromUTF8 target src writing = some (res, us) ∧ target.byteof * us.length ≤ res + 4
  result : ∀ cs, src = encode cs → cscUTF target src =
    some (target.byteof * (cs.flatMap fun c => units target c.toNat).length, cs.flatMap fun c => units target c.toNat)

variable {target : Target} {k v w : Nat} {src rest : List UInt8} {s : Decoding} {r : Nat × List Nat}

/-! ## One code -/

theorem hand_eq (dlen vmin : Nat) (des : Option (List Nat)) (hv : Allowed target v) (hmin : vmin ≤ v) : ∃ v' : Nat,
    hand target ⟨dlen, 0, v, vmin, des⟩ =
      some ⟨dlen + target.byteof * (units target v).length, 0, v', vmin, des.map (· ++ units target v)⟩ := by
  obtain ⟨hlt, hsurrogate, hmax⟩ := hv
  cases target with
  | utf32 =>
    refine ⟨v, ?_⟩
    rw [hand, hand8to32, if_neg (by dsimp only; omega)]
    rfl
  | utf16 =>
    have hmax := hmax rfl
    rw [hand, hand8to16, if_neg (by dsimp only; omega), units]
    by_cases hlow : v < 0x10000
    · refine ⟨v, ?_⟩
      rw [if_neg (by dsimp only; omega), if_pos hlow]
      dsimp only
      rw [Nat.mod_eq_of_lt (by omega)]
      rfl
    · refine ⟨v - 0x10000, ?_⟩
      have hhigh : ((v - 0x10000) >>> 10 ||| 0xD800) % 2 ^ 16 = (v - 0x10000) / 0x400 + 0xD800 := by
        rw [Nat.or_comm, Nat.shiftRight_eq_div_pow, or_marker 0xD800 11 27 rfl (by omega)]
        omega
      have hlow' : ((v - 0x10000) &&& 0x3FF ||| 0xDC00) % 2 ^ 16 = v % 0x400 + 0xDC00 := by
        rw [Nat.or_comm, show (0x3FF : Nat) = 2 ^ 10 - 1 from rfl, Nat.and_two_pow_sub_one_eq_mod,
          or_marker 0xDC00 10 55 rfl (by omega)]
        omega
      rw [if_pos (by dsimp only; omega), if_neg hlow]
      dsimp only
      rw [hhigh, hlow', asrtinc, asrtinc, Option.map_map]
      congr 3
      funext us
      exact append_assoc us _ _

theorem hand_some {s' : Decoding} (h : hand target s = some s') (hv : s.v < 2 ^ 31) :
    Allowed target s.v ∧ s.vmin ≤ s.v := by
  cases target with
  | utf16 =>
    rw [hand, hand8to16] at h
    split at h
    · cases h
    · exact ⟨⟨hv, by omega, fun _ => by omega⟩, by omega⟩
  | utf32 =>
    rw [hand, hand8to32] at h
    split at h
    · cases h
    · exact ⟨⟨hv, by omega, nofun⟩, by omega⟩

/-- A continuation byte -/
theorem cscFromUTF8_tail {t : Nat} (ht : t < 64) (hk : s.expected = k + 1) (hv : s.v * 64 < 2 ^ 32) :
    cscFromUTF8 target (.ofNat (t + 0x80) :: src) s =
      let s := { s with v := s.v * 64 + t, expected := k }
      if k = 0 then (hand target s).bind (cscFromUTF8 target src) else cscFromUTF8 target src s := by
  have hb : (UInt8.ofNat (t + 0x80)).toNat = t + 0x80 := by
    rw [UInt8.toNat_ofNat']; omega
  have hand : (t + 0x80) &&& 0x3F = t := by
    rw [show (0x3F : Nat) = 2 ^ 6 - 1 from rfl, Nat.and_two_pow_sub_one_eq_mod]; omega
  have hshift : (s.v <<< 6) % 2 ^ 32 ||| t = s.v * 64 + t := by
    rw [Nat.mod_eq_of_lt (by rw [Nat.shiftLeft_eq]; exact hv), shift_or_six _ ht]
  rw [cscFromUTF8]
  dsimp only
  rw [hb, if_pos (by omega), tail_mask (by omega) (by omega), if_pos rfl, hand, hshift, hk, Nat.add_sub_cancel]

/-- The continuation bytes of a code -/
theorem cscFromUTF8_tails (hw : w < 2 ^ 31) : ∀ {k : Nat} {s : Decoding}, s.expected = k + 1 → s.v = w / 64 ^ (k + 1) →
    cscFromUTF8 target (tails (k + 1) w ++ rest) s =
      (hand target { s with v := w, expected := 0 }).bind (cscFromUTF8 target rest)
  | k, s, hk, hv => by
    have hstep : s.v * 64 + w / 64 ^ k % 64 = w / 64 ^ k := by
      rw [hv, Nat.pow_succ, ← Nat.div_div_eq_div_mul]
      omega
    have hle := Nat.div_le_self w (64 ^ k)
    rw [tails, cons_append, cscFromUTF8_tail (Nat.mod_lt _ (by decide)) hk (by omega), hstep]
    cases k with
    | zero => rw [if_pos rfl, Nat.pow_zero, Nat.div_one]; rfl
    | succ k =>
      rw [if_neg (Nat.succ_ne_zero k)]
      exact cscFromUTF8_tails hw rfl rfl

theorem mask_tail : ∀ b < 256, b &&& 0xC0 = 0x80 → 0x80 ≤ b ∧ b < 0xC0 := by
  decide +kernel

/-- What is accepted after a first byte begins with the continuation bytes of a code. -/
theorem exists_tails : ∀ {k : Nat} {src : List UInt8} {s : Decoding}, cscFromUTF8 target src s = some r →
    s.expected = k + 1 → (s.v + 1) * 64 ^ (k + 1) ≤ 2 ^ 31 →
    ∃ w rest, src = tails (k + 1) w ++ rest ∧ w / 64 ^ (k + 1) = s.v ∧ w < 2 ^ 31
  | k, [], s, hrun, hk, _ => by
    rw [cscFromUTF8, if_pos (by omega)] at hrun
    cases hrun
  | k, c :: src, s, hrun, hk, hv => by
    by_cases hc : c.toNat &&& 0xC0 = 0x80
    · obtain ⟨hlow, hhigh⟩ := mask_tail _ c.toNat_lt hc
      obtain ⟨t, ht⟩ := Nat.exists_eq_add_of_le' hlow
      obtain rfl : c = .ofNat (t + 0x80) := by rw [← ht, UInt8.ofNat_toNat]
      have hpos : 1 ≤ 64 ^ k := Nat.pow_pos (by decide)
      have hnext : (s.v * 64 + t + 1) * 64 ^ k ≤ 2 ^ 31 := by
        refine (Nat.mul_le_mul_right _ (show s.v * 64 + t + 1 ≤ (s.v + 1) * 64 by omega)).trans ?_
        rwa [Nat.mul_assoc, ← Nat.pow_succ']
      have hle := (Nat.mul_le_mul_left (s.v * 64 + t + 1) hpos).trans hnext
      rw [cscFromUTF8_tail (by omega) hk (by omega)] at hrun
      cases k with
      | zero =>
        refine ⟨s.v * 64 + t, src, ?_, ?_, by omega⟩
        · rw [tails, tails, Nat.pow_zero, Nat.div_one, show (s.v * 64 + t) % 64 = t by omega]
          rfl
        · omega
      | succ k =>
        rw [if_neg (Nat.succ_ne_zero k)] at hrun
        obtain ⟨w, rest, rfl, hw, hlt⟩ := exists_tails hrun rfl hnext
        dsimp only at hw
        refine ⟨w, rest, ?_, ?_, hlt⟩
        · rw [tails.eq_2 w (k + 1), hw, show (s.v * 64 + t) % 64 = t by omega]
          rfl
        · rw [Nat.pow_succ, ← Nat.div_div_eq_div_mul, hw]
          omega
    · rw [cscFromUTF8] at hrun
      dsimp only at hrun
      rw [if_pos (by omega), if_neg hc] at hrun
      cases hrun

/-- What a first byte says: the bits of the code, and the continuation bytes -/
def lead (b : Nat) : Nat × Nat :=
  if b < 0xE0 then (b &&& 0x1F, 1) else if b < 0xF0 then (b &&& 0x0F, 2) else if b < 0xF8 then (b &&& 0x07, 3)
  else if b < 0xFC then (b &&& 0x03, 4) else (b &&& 0x01, 5)

theorem lead_mark : ∀ k < 5, ∀ v < 2 ^ (5 - k), lead (v + mark (k + 1)) = (v, k + 1) ∧ 0xC0 ≤ v + mark (k + 1) ∧
    v + mark (k + 1) < 0xFE := by
  decide

theorem exists_lead : ∀ b < 0xFE, 0xC0 ≤ b → ∃ k < 5, ∃ v < 2 ^ (5 - k), b = v + mark (k + 1) := by
  decide +kernel

theorem cscFromUTF8_lead (hk : k < 5) (hv : v < 2 ^ (5 - k)) (hs : s.expected = 0) :
    cscFromUTF8 target (.ofNat (v + mark (k + 1)) :: src) s =
      cscFromUTF8 target src { s with v, expected := k + 1, vmin := least (k + 1) } := by
  obtain ⟨hlead, hlow, hhigh⟩ := lead_mark k hk v hv
  have hb : (UInt8.ofNat (v + mark (k + 1))).toNat = v + mark (k + 1) := by
    rw [UInt8.toNat_ofNat']; omega
  rw [cscFromUTF8]
  dsimp only
  rw [hb, if_neg (by omega), if_neg (by omega), if_neg (by omega)]
  generalize v + mark (k + 1) = b at hlead ⊢
  unfold lead at hlead
  split_ifs at hlead ⊢ <;> cases hlead <;> rfl

theorem width_eq (hw : w < 2 ^ 31) (hk : k < 5) : width w = k + 1 ↔ least (k + 1) ≤ w ∧ w / 64 ^ (k + 1) < 2 ^ (5 - k) := by
  unfold width
  interval_cases k <;> simp only [least, Nat.reduceAdd, Nat.reducePow, Nat.reduceSub] <;> split_ifs <;>
    refine ⟨fun h => ?_, fun h => ?_⟩ <;> first | omega | exact h.elim

/-- A form is taken as a whole. -/
theorem cscFromUTF8_form (rest : List UInt8) (hv : Allowed target v) (hs : s.expected = 0) : ∃ v' vmin,
    cscFromUTF8 target (form v ++ rest) s = cscFromUTF8 target rest
      ⟨s.dlen + target.byteof * (units target v).length, 0, v', vmin, s.des.map (· ++ units target v)⟩ := by
  by_cases hlow : v < 0x80
  · have hwidth : width v = 0 := if_pos hlow
    have hb : (UInt8.ofNat v).toNat = v := by rw [UInt8.toNat_ofNat']; omega
    have hunits : units target v = [v] := by
      cases target
      · exact if_pos (by omega)
      · rfl
    refine ⟨s.v, s.vmin, ?_⟩
    rw [form, hwidth, tails, Nat.pow_zero, Nat.div_one, mark, if_pos rfl, Nat.add_zero, singleton_append,
      cscFromUTF8, hunits]
    dsimp only
    rw [hb, if_neg (by omega), if_pos hlow, hs, length_singleton, Nat.mul_one, asrtinc]
  · obtain ⟨k, hwidth⟩ : ∃ k, width v = k + 1 := Nat.exists_eq_succ_of_ne_zero (by unfold width; split_ifs <;> simp)
    have hk : k < 5 := by unfold width at hwidth; split_ifs at hwidth <;> omega
    obtain ⟨hmin, hlead⟩ := (width_eq hv.1 hk).mp hwidth
    obtain ⟨v', heq⟩ := hand_eq s.dlen (least (k + 1)) s.des hv hmin
    refine ⟨v', least (k + 1), ?_⟩
    rw [form, hwidth, cons_append, cscFromUTF8_lead hk hlead hs, cscFromUTF8_tails hv.1 rfl rfl, heq]
    rfl

/-- What is accepted begins with a form. -/
theorem exists_form {c : UInt8} (hrun : cscFromUTF8 target (c :: src) s = some r) (hs : s.expected = 0) :
    ∃ v rest, c :: src = form v ++ rest ∧ Allowed target v := by
  by_cases hlow : c.toNat < 0x80
  · refine ⟨c.toNat, src, ?_, by omega, by omega, fun _ => by omega⟩
    have hwidth : width c.toNat = 0 := if_pos hlow
    rw [form, hwidth, tails, Nat.pow_zero, Nat.div_one, mark, if_pos rfl, Nat.add_zero, UInt8.ofNat_toNat]
    rfl
  · by_cases hrange : 0xC0 ≤ c.toNat ∧ c.toNat < 0xFE
    · obtain ⟨k, hk, v, hv, hc⟩ := exists_lead _ hrange.2 hrange.1
      obtain rfl : c = .ofNat (v + mark (k + 1)) := by rw [← hc, UInt8.ofNat_toNat]
      rw [cscFromUTF8_lead hk hv hs] at hrun
      obtain ⟨w, rest, rfl, hw, hlt⟩ := exists_tails hrun rfl (by
        show (v + 1) * 64 ^ (k + 1) ≤ 2 ^ 31
        interval_cases k <;> simp at hv ⊢ <;> omega)
      dsimp only at hw
      rw [cscFromUTF8_tails hlt rfl hw.symm] at hrun
      cases hhand : hand target ⟨s.dlen, 0, w, least (k + 1), s.des⟩ with
      | none => rw [hhand] at hrun; cases hrun
      | some s' =>
        obtain ⟨hallowed, hmin⟩ := hand_some hhand hlt
        refine ⟨w, rest, ?_, hallowed⟩
        rw [form, (width_eq hlt hk).mpr ⟨hmin, hw ▸ hv⟩, hw]
        rfl
    · rw [cscFromUTF8] at hrun
      dsimp only at hrun
      rw [if_neg (by omega), if_neg hlow, if_pos (by omega)] at hrun
      cases hrun

/-! ## All codes -/

/-- Forms in a row -/
theorem cscFromUTF8_forms : ∀ {vs : List Nat} {s : Decoding}, (∀ v ∈ vs, Allowed target v) → s.expected = 0 →
    cscFromUTF8 target (vs.flatMap form) s = some (s.dlen + target.byteof * (vs.flatMap (units target)).length,
      (s.des.map (· ++ vs.flatMap (units target))).getD [])
  | [], ⟨_, _, _, _, des⟩, _, hs => by
    rw [flatMap_nil, cscFromUTF8, if_neg (by omega)]
    cases des with
    | none => rfl
    | some us => exact congrArg (fun us => some (_, us)) (append_nil us).symm
  | v :: vs, s, hall, hs => by
    obtain ⟨hv, hvs⟩ := forall_mem_cons.mp hall
    obtain ⟨v', vmin, heq⟩ := cscFromUTF8_form (vs.flatMap form) hv hs
    rw [flatMap_cons, flatMap_cons, heq, cscFromUTF8_forms hvs rfl, length_append, Nat.mul_add,
      ← Nat.add_assoc, Option.map_map]
    congr 4
    funext us
    exact append_assoc us _ _

theorem exists_forms : ∀ {src : List UInt8} {s : Decoding}, cscFromUTF8 target src s = some r → s.expected = 0 →
    ∃ vs : List Nat, (∀ v ∈ vs, Allowed target v) ∧ src = vs.flatMap form
  | [], s, _, _ => ⟨[], fun _ h => absurd h not_mem_nil, rfl⟩
  | c :: src, s, hrun, hs => by
    obtain ⟨v, rest, heq, hv⟩ := exists_form hrun hs
    obtain ⟨v', vmin, hform⟩ := cscFromUTF8_form rest hv hs
    have hlen : rest.length ≤ src.length := by
      have := congrArg List.length heq
      rw [form, length_append, length_cons, length_cons] at this
      omega
    rw [heq, hform] at hrun
    obtain ⟨vs, hvs, rfl⟩ := exists_forms hrun rfl
    exact ⟨v :: vs, forall_mem_cons.mpr ⟨hv, hvs⟩, heq⟩
termination_by src => src.length

/-- The two passes over forms of codes that are allowed -/
theorem passes_forms {vs : List Nat} (hvs : ∀ v ∈ vs, Allowed target v) :
    cscFromUTF8 target (vs.flatMap form) sizing = some (target.byteof * (vs.flatMap (units target)).length, []) ∧
    cscFromUTF8 target (vs.flatMap form) writing =
      some (target.byteof * (vs.flatMap (units target)).length, vs.flatMap (units target)) := by
  rw [cscFromUTF8_forms hvs rfl, cscFromUTF8_forms hvs rfl, sizing, writing, Nat.zero_add]
  exact ⟨rfl, rfl⟩

theorem cscUTF_forms {vs : List Nat} (hvs : ∀ v ∈ vs, Allowed target v) : cscUTF target (vs.flatMap form) =
    some (target.byteof * (vs.flatMap (units target)).length, vs.flatMap (units target)) := by
  rw [cscUTF, (passes_forms hvs).1]
  exact (passes_forms hvs).2

/-! ## The standard -/

theorem form_char (c : Char) : form c.toNat = String.utf8EncodeChar c := by
  rw [← runeBytes_toNat, runeBytes_eq (Nat.le_of_lt_succ (toNat_lt c))]
  have hlt := toNat_lt c
  generalize c.toNat = v at hlt
  rw [form, width]
  split_ifs <;> first | omega | simp [tails, mark]

theorem encode_eq (cs : List Char) : encode cs = (cs.map Char.toNat).flatMap form := by
  rw [flatMap_map, encode]
  exact congrArg (cs.flatMap ·) (funext fun c => (form_char c).symm)

theorem allowed_char (c : Char) : Allowed target c.toNat := by
  have hvalid : c.toNat < 0xD800 ∨ 0xDFFF < c.toNat ∧ c.toNat < 0x110000 := c.valid
  exact ⟨by omega, by omega, fun _ => by omega⟩

theorem cscUTF_encode (cs : List Char) : cscUTF target (encode cs) =
    some (target.byteof * (cs.flatMap fun c => units target c.toNat).length, cs.flatMap fun c => units target c.toNat) := by
  rw [encode_eq, cscUTF_forms (fun v hv => ?_), flatMap_map]
  obtain ⟨c, -, rfl⟩ := mem_map.mp hv
  exact allowed_char c

/-- The conversion is that of the standard, if the target is UTF-16, or the bytes are no forms of codes with one above
0x10FFFF among them. -/
theorem cscUTF_iff (target : Target) (src : List UInt8) : Converts target src ↔
    (target = .utf32 → ¬∃ vs : List Nat, src = vs.flatMap form ∧ (∀ v ∈ vs, v < 2 ^ 31 ∧ ¬(0xD800 ≤ v ∧ v ≤ 0xDFFF)) ∧
      ∃ v ∈ vs, 0x10FFFF < v) := by
  constructor
  · rintro h rfl ⟨vs, rfl, hvs, v, hv, hlarge⟩
    have hall : ∀ v ∈ vs, Allowed .utf32 v := fun v hv => ⟨(hvs v hv).1, (hvs v hv).2, nofun⟩
    obtain ⟨cs, hcs⟩ := h.accepts.mp ⟨_, cscUTF_forms hall⟩
    have hunits := (cscUTF_forms hall).symm.trans (h.result cs hcs)
    have hmem : v ∈ cs.flatMap fun c => units .utf32 c.toNat := by
      rw [← (Prod.mk.inj (Option.some.inj hunits)).2]
      exact mem_flatMap.mpr ⟨v, hv, mem_singleton_self v⟩
    obtain ⟨c, -, hc⟩ := mem_flatMap.mp hmem
    have hlt := toNat_lt c
    rw [mem_singleton.mp hc] at hlarge
    omega
  · intro h
    refine ⟨⟨?_, ?_⟩, ?_, ?_⟩
    · rintro ⟨r, hr⟩
      rw [cscUTF, Option.bind_eq_bind, Option.bind_eq_some_iff] at hr
      obtain ⟨vs, hvs, rfl⟩ := exists_forms hr.choose_spec.1 rfl
      refine ⟨vs.map Char.ofNat, ?_⟩
      rw [encode_eq, map_map, map_congr_left (g := id), map_id]
      intro v hv
      have hle : v ≤ 0x10FFFF := by
        cases target with
        | utf16 => exact (hvs v hv).2.2 rfl
        | utf32 =>
            by_contra hlarge
            exact h rfl ⟨vs, rfl, fun v hv => ⟨(hvs v hv).1, (hvs v hv).2.1⟩, v, hv, by omega⟩
      have hsurrogate := (hvs v hv).2.1
      have hvalid : v.isValidChar := by unfold Nat.isValidChar; omega
      show (Char.ofNat v).toNat = v
      rw [Char.ofNat, dif_pos hvalid]
      rfl
    · rintro ⟨cs, rfl⟩
      exact ⟨_, cscUTF_encode cs⟩
    · intro res w hrun
      obtain ⟨vs, hvs, rfl⟩ := exists_forms hrun rfl
      obtain ⟨hsize, hwrite⟩ := passes_forms hvs
      cases hrun.symm.trans hsize
      exact ⟨_, hwrite, Nat.le_add_right _ _⟩
    · rintro cs rfl
      exact cscUTF_encode cs

/-- The code 0x110000 -/
theorem cscUTF_beyond : ¬∀ target src, Converts target src := by
  intro h
  obtain ⟨cs, hcs⟩ := (h .utf32 [0xF4, 0x90, 0x80, 0x80]).accepts.mp ⟨(4, [0x110000]), by decide⟩
  have hchars := (congrArg chars hcs).trans (chars_encode cs)
  rw [show chars [0xF4, 0x90, 0x80, 0x80] = [0x110000] by decide] at hchars
  obtain ⟨c, -, hc⟩ := mem_map.mp (hchars ▸ mem_singleton_self 0x110000)
  exact absurd (toNat_lt c) (by omega)

end Unisym.Utf8
