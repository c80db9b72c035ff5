/-
# `StringSearch` — the two substring searches

`StrIndexString` tries each place of `dest`.  `StrIndexString_KMP` builds a failure table and goes through
`dest` once.  The storage of the table is a `String` that is constructed from a number, which is the
constructor for one code point: five bytes, of which the first have the encoding of the number, and an entry is a
`char`.

A string is its bytes, with a terminator behind them.  A read behind the terminator, a read of a byte of the table
that was not written and an access outside the table have no result, and neither have the loops if they exceed
the bound on their iterations.

The searches agree on few inputs (`kmp_agrees_iff`): the entry for 0 is no position, so that the first character
must not mismatch while nothing is matched, and the table has no room for the entries of five characters.
-/
import Mathlib.Data.Nat.Find
import Unisym.Text.Utf8

namespace Unisym.StringSearch

open List Option

/-! ## The plain search -/

/-- The inner loop of `StrIndexString`: whether it gets to the end of `sub`. -/
def begins : (sub dest : List UInt8) → Bool
  | [], _ => true
  | _ :: _, [] => false
  | a :: sub, b :: dest => a = b && begins sub dest

/-- `StrIndexString`: the first place of `sub`. -/
def StrIndexString : (dest sub : List UInt8) → Option Nat
  | [], _ => none
  | b :: dest, sub => if begins sub (b :: dest) then some 0 else (StrIndexString dest sub).map (· + 1)

/-! ## The search with a table -/

/-- The byte `i` of a string. -/
def byteAt (s : List UInt8) (i : Nat) : Option UInt8 := if i = s.length then some 0 else s[i]?

/-- A block; `none` is a byte that was not written. -/
abbrev Block := List (Option UInt8)

/-- `String(Rune)`: a block of five bytes. -/
def stringOfRune (cp : Nat) : Block :=
  let bytes := Utf8.runeBytes (if cp ≤ 0x10FFFF then cp else Utf8.replacement)
  (bytes ++ [0]).map some ++ List.replicate (5 - (bytes.length + 1)) none

/-- `char` to `stduint` -/
def ofChar (b : UInt8) : Nat := if b.toNat < 128 then b.toNat else 2 ^ 64 - 256 + b.toNat

def load (pnext : Block) (i : Nat) : Option Nat :=
  match pnext[i]? with
  | some (some b) => some (ofChar b)
  | _ => none

def store (pnext : Block) (i v : Nat) : Option Block :=
  if i < pnext.length then some (pnext.set i (some (UInt8.ofNat v))) else none

/-- `good ? p + 1 : pnext[p]`, where `good` is `a == b` -/
def nextOf (pnext : Block) (a b : UInt8) (p : Nat) : Option Nat := if a = b then some (p + 1) else load pnext p

/-- The loop that fills the table. -/
def buildLoop (sub : List UInt8) : (fuel : Nat) → (pnext : Block) → (crt_pref i : Nat) → Option Block
  | 0, _, _, _ => none
  | fuel + 1, pnext, crt_pref, i =>
      if sub.length ≤ i then some pnext
      else do
        let a ← byteAt sub crt_pref
        let b ← byteAt sub i
        let las_preflen := crt_pref
        let crt_pref ← nextOf pnext a b crt_pref
        if a = b ∨ las_preflen = 0 then buildLoop sub fuel (← store pnext (1 + i) crt_pref) crt_pref (i + 1)
        else buildLoop sub fuel pnext crt_pref i

/-- The loop through `dest`, of which `pos` bytes are behind: the place of the match, or nothing. -/
def scanLoop (sub : List UInt8) (pnext : Block) : (fuel : Nat) → (dest : List UInt8) → (pos p : Nat) →
    Option (Option Nat)
  | 0, _, _, _ => none
  | fuel + 1, dest, pos, p => do
      let a ← byteAt dest 0
      let b ← byteAt sub p
      let (dest, pos) := if a = b ∨ p = 0 then (dest.tail, pos + 1) else (dest, pos)
      let p ← nextOf pnext a b p
      let b ← byteAt sub p
      let a ← byteAt dest 0
      if b ≠ 0 ∧ a ≠ 0 then scanLoop sub pnext fuel dest pos p
      else some (if b ≠ 0 then none else some (pos - sub.length))

def StrIndexString_KMP (fuel : Nat) (dest sub : List UInt8) : Option (Option Nat) :=
  if dest = [] ∨ sub = [] then some none
  else do
    let pnext ← buildLoop sub fuel (stringOfRune ((sub.length + 1) * 8 % 2 ^ 32)) 0 1
    scanLoop sub pnext fuel dest 0 0

/-! ## The table -/

section Table

variable {sub : List UInt8}

/-- The table has no room for the entries of five characters. -/
theorem buildLoop_full (hsub : 5 ≤ sub.length) :
    ∀ (fuel : Nat) {pnext : Block} {crt_pref i : Nat}, pnext.length = 5 → i ≤ 4 →
      buildLoop sub fuel pnext crt_pref i = none
  | 0, _, _, _, _, _ => rfl
  | fuel + 1, pnext, crt_pref, i, hlen, hi => by
    rw [buildLoop, if_neg (by omega)]
    refine bind_eq_none_iff.mpr fun a _ => bind_eq_none_iff.mpr fun b _ =>
      bind_eq_none_iff.mpr fun next _ => ?_
    split
    · refine bind_eq_none_iff.mpr fun pnext' hstore => ?_
      rw [store] at hstore
      split at hstore
      · obtain rfl := Option.some.inj hstore
        exact buildLoop_full hsub fuel (by rw [length_set, hlen]) (by omega)
      · exact absurd hstore (some_ne_none _).symm
    · exact buildLoop_full hsub fuel hlen hi

variable {pnext : Block} {i big : Nat} {b c : UInt8}

theorem store_of_lt (h : i < pnext.length) (v : Nat) :
    store pnext i v = some (pnext.set i (some (UInt8.ofNat v))) := if_pos h

theorem load_set_self {v : Nat} (h : i < pnext.length) (hv : v < 128) :
    load (pnext.set i (some (UInt8.ofNat v))) i = some v := by
  have hbyte : (UInt8.ofNat v).toNat = v := UInt8.toNat_ofNat_of_lt' (Nat.lt_trans hv (by decide))
  rw [load, getElem?_set_self h]
  show some (ofChar _) = _
  rw [ofChar, hbyte, if_pos hv]

theorem load_set_ne {j : Nat} (h : i ≠ j) (b : Option UInt8) :
    load (pnext.set i b) j = load pnext j := by
  rw [load, load, getElem?_set_ne h]

theorem buildLoop_fall {fuel q next : Nat} {a : UInt8} (hi : i < sub.length)
    (ha : byteAt sub (q + 1) = some a) (hb : byteAt sub i = some b) (hab : a ≠ b)
    (hload : load pnext (q + 1) = some next) :
    buildLoop sub (fuel + 1) pnext (q + 1) i = buildLoop sub fuel pnext next i := by
  have hnot : ¬(a = b ∨ q + 1 = 0) := by simp [hab]
  rw [buildLoop, if_neg (Nat.not_le.mpr hi), ha, hb]
  simp only [bind_eq_bind, bind_some, nextOf, if_neg hab, hload, if_neg hnot]

theorem buildLoop_write (fuel q : Nat) {next : Nat} {a : UInt8} (hi : i < sub.length)
    (ha : byteAt sub q = some a) (hb : byteAt sub i = some b) (hab : a = b ∨ q = 0)
    (hnext : nextOf pnext a b q = some next) (hroom : 1 + i < pnext.length) :
    buildLoop sub (fuel + 1) pnext q i =
      buildLoop sub fuel (pnext.set (1 + i) (some (UInt8.ofNat next))) next (i + 1) := by
  rw [buildLoop, if_neg (Nat.not_le.mpr hi), ha, hb]
  simp only [bind_eq_bind, bind_some, hnext, if_pos hab, store_of_lt hroom]

/-- The table while the first `i` bytes, which are all the same, are behind: the entry for 0 is no position, and the
others lead back by one. -/
structure Falls (big i : Nat) (pnext : Block) : Prop where
  length : pnext.length = 5
  zero : load pnext 0 = some big
  succ : ∀ p, p + 1 ≤ i → load pnext (p + 1) = some p

theorem Falls.set {j : Nat} (h : Falls big i pnext) (hj : i < j) (b : Option UInt8) :
    Falls big i (pnext.set j b) where
  length := by rw [length_set, h.length]
  zero := by rw [load_set_ne (by omega), h.zero]
  succ := fun p hp => by rw [load_set_ne (by omega), h.succ p hp]

theorem Falls.grow (h : Falls big (i + 1) pnext) (hi : i ≤ 2) :
    Falls big (i + 2) (pnext.set (1 + (i + 1)) (some (UInt8.ofNat (i + 1)))) where
  length := by rw [length_set, h.length]
  zero := by rw [load_set_ne (by omega), h.zero]
  succ := fun p hp => by
    by_cases hlast : p = i + 1
    · rw [hlast, Nat.add_comm 1, load_set_self (by rw [h.length]; omega) (by omega)]
    · rw [load_set_ne (by omega), h.succ p (by omega)]

/-- The byte after the same ones is another: what is matched falls back to 0, and is then no position. -/
theorem buildLoop_other (hsame : ∀ j, j < i → byteAt sub j = some c)
    (hb : byteAt sub i = some b) (hcb : c ≠ b) (hi : i < sub.length) (hroom : i ≤ 3)
    (ht : Falls big i pnext) :
    ∀ (q fuel : Nat), q < i →
      buildLoop sub (fuel + (q + 1)) pnext q i =
        buildLoop sub fuel (pnext.set (1 + i) (some (UInt8.ofNat big))) big (i + 1)
  | 0, fuel, hq => by
    refine buildLoop_write fuel 0 hi (hsame 0 hq) hb (.inr rfl) ?_ (by rw [ht.length]; omega)
    rw [nextOf, if_neg hcb, ht.zero]
  | q + 1, fuel, hq => by
    rw [← Nat.add_assoc, buildLoop_fall hi (hsame _ hq) hb hcb (ht.succ q (Nat.le_of_lt hq))]
    exact buildLoop_other hsame hb hcb hi hroom ht q fuel (by omega)

theorem buildLoop_same :
    ∀ (n i fuel : Nat) {pnext : Block}, (∀ j, j < i + 1 + n → byteAt sub j = some c) → i + 1 + n ≤ sub.length →
      i + n ≤ 3 → Falls big (i + 1) pnext →
      ∃ pnext', buildLoop sub (fuel + n) pnext i (i + 1) = buildLoop sub fuel pnext' (i + n) (i + n + 1) ∧
        Falls big (i + n + 1) pnext'
  | 0, _, _, pnext, _, _, _, ht => ⟨pnext, rfl, ht⟩
  | n + 1, i, fuel, pnext, hsame, hlen, hroom, ht => by
    have hwrite := buildLoop_write (fuel + n) i (by omega) (hsame i (by omega))
      (hsame (i + 1) (by omega)) (.inl rfl) (if_pos rfl) (by rw [ht.length]; omega)
    have hsucc : i + 1 + n = i + (n + 1) := by omega
    obtain ⟨pnext', hrun, ht'⟩ := buildLoop_same n (i + 1) fuel (fun j hj => hsame j (by omega)) (by omega)
      (by omega) (ht.grow (by omega))
    rw [hsucc] at hrun ht'
    exact ⟨pnext', hwrite.trans hrun, ht'⟩

theorem buildLoop_mono :
    ∀ {fuel : Nat} {pnext : Block} {q i : Nat} {r : Block} (n : Nat), buildLoop sub fuel pnext q i = some r →
      buildLoop sub (fuel + n) pnext q i = some r
  | 0, _, _, _, _, _, h => absurd h (some_ne_none _).symm
  | fuel + 1, pnext, q, i, r, n, h => by
    rw [Nat.add_right_comm, buildLoop]
    rw [buildLoop] at h
    split
    · rename_i hi
      rwa [if_pos hi] at h
    · rename_i hi
      rw [if_neg hi] at h
      obtain ⟨a, ha, h⟩ := bind_eq_some_iff.mp h
      obtain ⟨b, hb, h⟩ := bind_eq_some_iff.mp h
      obtain ⟨next, hnext, h⟩ := bind_eq_some_iff.mp h
      refine bind_eq_some_iff.mpr ⟨a, ha, bind_eq_some_iff.mpr ⟨b, hb,
        bind_eq_some_iff.mpr ⟨next, hnext, ?_⟩⟩⟩
      split
      · rename_i hwrite
        rw [if_pos hwrite] at h
        obtain ⟨pnext', hstore, h⟩ := bind_eq_some_iff.mp h
        exact bind_eq_some_iff.mpr ⟨pnext', hstore, buildLoop_mono n h⟩
      · rename_i hwrite
        rw [if_neg hwrite] at h
        exact buildLoop_mono n h

/-- The storage of the table as it comes from its constructor. -/
theorem falls_stringOfRune {n : Nat} (hn : n ≤ 4) : Falls ((n + 1) * 8) 1 (stringOfRune ((n + 1) * 8 % 2 ^ 32)) := by
  have hbytes : stringOfRune ((n + 1) * 8 % 2 ^ 32) =
      [some (UInt8.ofNat ((n + 1) * 8)), some 0, none, none, none] := by
    rw [Nat.mod_eq_of_lt (by omega), stringOfRune, if_pos (by omega), Utf8.runeBytes, if_pos (by omega)]
    rfl
  have hbyte : (UInt8.ofNat ((n + 1) * 8)).toNat = (n + 1) * 8 :=
    UInt8.toNat_ofNat_of_lt' (show (n + 1) * 8 < 256 by omega)
  rw [hbytes]
  refine ⟨rfl, ?_, fun p hp => ?_⟩
  · show some (ofChar _) = _
    rw [ofChar, hbyte, if_pos (by omega)]
  · obtain rfl : p = 0 := by omega
    rfl

theorem byteAt_of_lt (h : i < sub.length) : ∃ b, byteAt sub i = some b := by
  rw [byteAt, if_neg (Nat.ne_of_lt h)]
  exact ⟨sub[i], getElem?_eq_getElem h⟩

theorem byteAt_gt (h : sub.length < i) : byteAt sub i = none := by
  rw [byteAt, if_neg (Nat.ne_of_gt h), getElem?_eq_none (Nat.le_of_lt h)]

/-- All bytes but the last are the same. -/
def AllButLast (sub : List UInt8) (c : UInt8) : Prop := ∀ j, j + 1 < sub.length → byteAt sub j = some c

/-- With one to four bytes, all the same but for the last, the table gets its entries. -/
theorem buildLoop_allButLast {k : Nat} (hlen : sub.length = k + 1) (hk : k ≤ 3)
    (hsame : AllButLast sub c) :
    ∃ fuel pnext, buildLoop sub fuel (stringOfRune ((sub.length + 1) * 8 % 2 ^ 32)) 0 1 = some pnext ∧
      Falls ((sub.length + 1) * 8) k pnext := by
  have hstart := falls_stringOfRune (n := sub.length) (by omega)
  cases k with
  | zero =>
    refine ⟨1, _, ?_, hstart.length, hstart.zero, fun p hp => absurd hp (by omega)⟩
    rw [buildLoop, if_pos (Nat.le_of_eq hlen)]
  | succ k =>
    have hother : ∀ j, j < k + 1 → byteAt sub j = some c := fun j hj => hsame j (by omega)
    obtain ⟨d, hd⟩ := byteAt_of_lt (show k + 1 < sub.length by omega)
    obtain ⟨pnext, hrun, ht⟩ := buildLoop_same k 0 (k + 2) (fun j hj => hother j (by omega)) (by omega)
      (by omega) hstart
    simp only [Nat.zero_add] at hrun ht
    have hend : ∀ pnext' q, buildLoop sub 1 pnext' q (k + 2) = some pnext' := fun pnext' q => by
      rw [buildLoop, if_pos (Nat.le_of_eq hlen)]
    by_cases hcd : c = d
    · have hwrite := buildLoop_write (k + 1) k (by omega) (hother k (by omega)) hd (.inl hcd)
        (if_pos hcd) (show 1 + (k + 1) < pnext.length by rw [ht.length]; omega)
      have hmore := buildLoop_mono k (hend (pnext.set (1 + (k + 1)) (some (UInt8.ofNat (k + 1)))) (k + 1))
      rw [Nat.add_comm 1] at hmore
      exact ⟨_, _, hrun.trans (hwrite.trans hmore), ht.set (by omega) _⟩
    · have hfall := buildLoop_other hother hd hcd (by omega) (by omega) ht k 1 (by omega)
      have hfuel : 1 + (k + 1) = k + 2 := by omega
      rw [hfuel] at hfall
      exact ⟨_, _, hrun.trans (hfall.trans (hend _ _)), ht.set (by omega) _⟩

/-- Otherwise the loop gets to an entry that is no position. -/
theorem buildLoop_stuck (hlen : sub.length ≤ 4) (hc : byteAt sub 0 = some c)
    (hnot : ¬AllButLast sub c) (fuel : Nat) :
    buildLoop sub fuel (stringOfRune ((sub.length + 1) * 8 % 2 ^ 32)) 0 1 = none := by
  have hex : ∃ i, i + 1 < sub.length ∧ byteAt sub i ≠ some c := by
    rw [AllButLast, not_forall] at hnot
    obtain ⟨i, hi⟩ := hnot
    exact ⟨i, Classical.not_imp.mp hi⟩
  classical
  -- the first byte that is another one
  obtain ⟨hi, hother⟩ := Nat.find_spec hex
  have hbefore : ∀ j, j < Nat.find hex → byteAt sub j = some c := fun j hj =>
    Classical.not_not.mp fun hne => Nat.find_min hex hj ⟨by omega, hne⟩
  generalize Nat.find hex = i at hi hother hbefore
  cases i with
  | zero => exact absurd hc hother
  | succ i =>
    obtain ⟨b, hb⟩ := byteAt_of_lt (show i + 1 < sub.length by omega)
    have hcb : c ≠ b := fun h => hother (by rw [hb, h])
    obtain ⟨pnext, hrun, ht⟩ := buildLoop_same i 0 (fuel + 1 + (i + 1)) (fun j hj => hbefore j (by omega))
      (by omega) (by omega) (falls_stringOfRune hlen)
    simp only [Nat.zero_add] at hrun ht
    rw [buildLoop_other hbefore hb hcb (by omega) (by omega) ht i _ (by omega), buildLoop,
      if_neg (Nat.not_le.mpr hi), byteAt_gt (by omega)] at hrun
    refine eq_none_iff_forall_ne_some.mpr fun r hr => ?_
    have hmore := buildLoop_mono (1 + (i + 1) + i) hr
    rw [← Nat.add_assoc, ← Nat.add_assoc, hrun] at hmore
    exact some_ne_none _ hmore.symm

end Table

/-! ## The scan -/

/-- `k` times the byte `c`, and `d`. -/
def run (k : Nat) (c d : UInt8) : List UInt8 := List.replicate k c ++ [d]

theorem length_run (k : Nat) (c d : UInt8) : (run k c d).length = k + 1 := by
  rw [run, length_append, length_replicate, length_singleton]

theorem byteAt_run_lt {k p : Nat} (c d : UInt8) (h : p < k) : byteAt (run k c d) p = some c := by
  rw [byteAt, length_run, if_neg (by omega), run, getElem?_append_left (by rwa [length_replicate]),
    getElem?_replicate, if_pos h]

theorem byteAt_run_eq (k : Nat) (c d : UInt8) : byteAt (run k c d) k = some d := by
  rw [byteAt, length_run, if_neg (by omega), run,
    getElem?_append_right (Nat.le_of_eq length_replicate), length_replicate,
    Nat.sub_self]
  rfl

theorem byteAt_run_end (k : Nat) (c d : UInt8) : byteAt (run k c d) (k + 1) = some 0 := by
  rw [byteAt, length_run, if_pos rfl]

theorem run_of_allButLast {sub : List UInt8} {k : Nat} {c : UInt8} (hlen : sub.length = k + 1)
    (hsame : AllButLast sub c) : ∃ d, sub = run k c d := by
  obtain ⟨d, hd⟩ := byteAt_of_lt (show k < sub.length by omega)
  refine ⟨d, ext_getElem? fun i => ?_⟩
  have hbyte : ∀ {s : List UInt8} {j}, j < s.length → byteAt s j = s[j]? := fun hj => if_neg (Nat.ne_of_lt hj)
  rcases Nat.lt_trichotomy i k with hi | rfl | hi
  · rw [← hbyte (by omega), ← hbyte (by rw [length_run]; omega), byteAt_run_lt c d hi, hsame i (by omega)]
  · rw [← hbyte (by omega), ← hbyte (by rw [length_run]; omega), byteAt_run_eq, hd]
  · rw [getElem?_eq_none (by omega), getElem?_eq_none (by rw [length_run]; omega)]

/-- What the scan for `run k c d` finds, with `p` bytes `c` matched: nothing at the end of `dest`, and no result at a
byte that is neither `c` nor the `d` after `k` times `c`. -/
def scanned (k : Nat) (c d : UInt8) : (dest : List UInt8) → (pos p : Nat) → Option (Option Nat)
  | [], _, _ => some none
  | x :: dest, pos, p =>
      if p = k ∧ x = d then some (some (pos - k))
      else if x = c then scanned k c d dest (pos + 1) (min (p + 1) k)
      else none

section Scan

variable {k big : Nat} {c d : UInt8} {pnext : Block}

/-- The byte of `run k c d` that the scan expects. -/
def expected (k : Nat) (c d : UInt8) (p : Nat) : UInt8 := if p = k then d else c

variable {p fuel pos : Nat} {x : UInt8} {dest : List UInt8}

theorem byteAt_expected (hp : p ≤ k) : byteAt (run k c d) p = some (expected k c d p) := by
  rw [expected]
  split
  · rename_i h
    rw [h, byteAt_run_eq]
  · exact byteAt_run_lt c d (by omega)

theorem byteAt_zero (dest : List UInt8) : byteAt dest 0 = some (dest.headD 0) := by
  cases dest with
  | nil => rfl
  | cons x dest => rfl

theorem scanLoop_match (hp : p ≤ k) (hx : x = expected k c d p)
    (hc : c ≠ 0) (hd : d ≠ 0) (hdest : ∀ b ∈ dest, b ≠ 0) :
    scanLoop (run k c d) pnext (fuel + 1) (x :: dest) pos p =
      if p = k then some (some (pos - k))
      else if dest = [] then some none else scanLoop (run k c d) pnext fuel dest (pos + 1) (p + 1) := by
  rw [scanLoop, byteAt_expected hp, show byteAt (x :: dest) 0 = some x from rfl]
  simp only [bind_eq_bind, bind_some, if_pos (Or.inl hx), nextOf, if_pos hx, tail_cons]
  by_cases hlast : p = k
  · simp only [hlast, byteAt_run_end, byteAt_zero, bind_some]
    simp only [ne_eq, not_true_eq_false, false_and, if_false, length_run, if_true]
    rw [Nat.add_sub_add_right]
  · have hne : expected k c d (p + 1) ≠ 0 := by
      rw [expected]
      split
      · exact hd
      · exact hc
    simp only [byteAt_expected (show p + 1 ≤ k by omega), byteAt_zero, bind_some, if_neg hlast, ne_eq, hne,
      not_false_eq_true, true_and, if_true]
    cases dest with
    | nil => rfl
    | cons y dest =>
      have hy : y ≠ 0 := hdest y mem_cons_self
      simp only [headD_cons, hy, not_false_eq_true, if_true, if_neg (cons_ne_nil y dest)]

theorem scanLoop_fall (ht : Falls big k pnext) (hp : p + 1 ≤ k)
    (hx : x ≠ expected k c d (p + 1)) (hx0 : x ≠ 0) (hc : c ≠ 0) :
    scanLoop (run k c d) pnext (fuel + 1) (x :: dest) pos (p + 1) =
      scanLoop (run k c d) pnext fuel (x :: dest) pos p := by
  have hnot : ¬(x = expected k c d (p + 1) ∨ p + 1 = 0) := by simp [hx]
  have hprev : byteAt (run k c d) p = some c := byteAt_run_lt c d hp
  rw [scanLoop, byteAt_expected hp, show byteAt (x :: dest) 0 = some x from rfl]
  simp only [bind_eq_bind, bind_some, if_neg hnot, nextOf, if_neg hx, ht.succ p hp, hprev,
    byteAt_zero, headD_cons, ne_eq, hc, hx0, not_false_eq_true, and_self, if_true]

theorem scanLoop_stuck (ht : Falls big k pnext) (hbig : k + 1 < big)
    (hx : x ≠ expected k c d 0) : scanLoop (run k c d) pnext fuel (x :: dest) pos 0 = none := by
  cases fuel with
  | zero => rfl
  | succ fuel =>
    rw [scanLoop, byteAt_expected (Nat.zero_le k), show byteAt (x :: dest) 0 = some x from rfl]
    simp only [bind_eq_bind, bind_some, nextOf, if_neg hx, ht.zero,
      byteAt_gt (show (run k c d).length < big by rwa [length_run]), bind_none]

/-- Another byte than `c` and the expected one: what is matched falls back to 0. -/
theorem scanLoop_other (ht : Falls big k pnext) (hbig : k + 1 < big) (hc : c ≠ 0) (hx0 : x ≠ 0) (hxc : x ≠ c) :
    ∀ (p : Nat) {fuel : Nat}, p ≤ k → ¬(p = k ∧ x = d) → scanLoop (run k c d) pnext fuel (x :: dest) pos p = none
  | p, 0, _, _ => rfl
  | 0, fuel + 1, hp, hnot => by
    refine scanLoop_stuck ht hbig ?_
    rw [expected]
    split
    · rename_i hk
      exact fun h => hnot ⟨hk, h⟩
    · exact hxc
  | p + 1, fuel + 1, hp, hnot => by
    rw [scanLoop_fall ht hp ?_ hx0 hc]
    · exact scanLoop_other ht hbig hc hx0 hxc p (by omega) (by omega)
    · rw [expected]
      split
      · rename_i hk
        exact fun h => hnot ⟨hk, h⟩
      · exact hxc

/-- The scan finds what `scanned` says, in at most two steps for each byte. -/
theorem scanLoop_eq (ht : Falls big k pnext) (hbig : k + 1 < big) (hc : c ≠ 0) (hd : d ≠ 0) (hk : k = 0 → d = c) :
    ∀ (dest : List UInt8) (fuel pos p : Nat), dest ≠ [] → (∀ b ∈ dest, b ≠ 0) → p ≤ k → 2 * dest.length ≤ fuel →
      scanLoop (run k c d) pnext fuel dest pos p = scanned k c d dest pos p
  | [], _, _, _, hne, _, _, _ => absurd rfl hne
  | x :: dest, fuel, pos, p, _, hbytes, hp, hfuel => by
    have hx0 : x ≠ 0 := hbytes x mem_cons_self
    have hrest : ∀ b ∈ dest, b ≠ 0 := fun b hb => hbytes b (mem_cons_of_mem _ hb)
    rw [length_cons] at hfuel
    rw [scanned]
    by_cases hfound : p = k ∧ x = d
    · obtain ⟨fuel, rfl⟩ : ∃ n, fuel = n + 1 := ⟨fuel - 1, by omega⟩
      rw [if_pos hfound, scanLoop_match hp (by rw [expected, if_pos hfound.1, hfound.2]) hc hd hrest,
        if_pos hfound.1]
    rw [if_neg hfound]
    by_cases hxc : x = c
    · rw [if_pos hxc]
      have hgo : ∀ q fuel, q < k → 2 * dest.length ≤ fuel →
          (if q = k then some (some (pos - k))
            else if dest = [] then some none else scanLoop (run k c d) pnext fuel dest (pos + 1) (q + 1)) =
            scanned k c d dest (pos + 1) (q + 1) := by
        intro q fuel hq hfuel
        rw [if_neg (Nat.ne_of_lt hq)]
        split
        · rename_i hnil
          rw [hnil, scanned]
        · rename_i hnil
          exact scanLoop_eq ht hbig hc hd hk dest fuel (pos + 1) (q + 1) hnil hrest (by omega) hfuel
      by_cases hlast : p = k
      · -- the byte is no `d`: one step back, and then it matches
        have hxd : x ≠ d := fun h => hfound ⟨hlast, h⟩
        obtain ⟨k', rfl⟩ : ∃ k', k = k' + 1 := by
          cases k with
          | zero => exact absurd (hxc.trans (hk rfl).symm) hxd
          | succ k' => exact ⟨k', rfl⟩
        obtain ⟨fuel, rfl⟩ : ∃ n, fuel = n + 2 := ⟨fuel - 2, by omega⟩
        subst hlast
        rw [scanLoop_fall ht (Nat.le_refl _) (by rwa [expected, if_pos rfl]) hx0 hc,
          scanLoop_match (Nat.le_succ k') (by rw [expected, if_neg (by omega), hxc]) hc hd hrest,
          hgo k' fuel (by omega) (by omega), Nat.min_eq_right (by omega)]
      · obtain ⟨fuel, rfl⟩ : ∃ n, fuel = n + 1 := ⟨fuel - 1, by omega⟩
        rw [scanLoop_match hp (by rw [expected, if_neg hlast, hxc]) hc hd hrest, hgo p fuel (by omega) (by omega),
          Nat.min_eq_left (by omega)]
    · rw [if_neg hxc]
      exact scanLoop_other ht hbig hc hx0 hxc p hp hfound

theorem scanLoop_mono {sub : List UInt8} :
    ∀ {fuel : Nat} {dest : List UInt8} {pos p : Nat} {r : Option Nat} (n : Nat),
      scanLoop sub pnext fuel dest pos p = some r → scanLoop sub pnext (fuel + n) dest pos p = some r
  | 0, _, _, _, _, _, h => absurd h (some_ne_none _).symm
  | fuel + 1, dest, pos, p, r, n, h => by
    rw [Nat.add_right_comm, scanLoop]
    rw [scanLoop] at h
    obtain ⟨a, ha, h⟩ := bind_eq_some_iff.mp h
    obtain ⟨b, hb, h⟩ := bind_eq_some_iff.mp h
    obtain ⟨next, hnext, h⟩ := bind_eq_some_iff.mp h
    obtain ⟨b', hb', h⟩ := bind_eq_some_iff.mp h
    obtain ⟨a', ha', h⟩ := bind_eq_some_iff.mp h
    refine bind_eq_some_iff.mpr ⟨a, ha, bind_eq_some_iff.mpr ⟨b, hb,
      bind_eq_some_iff.mpr ⟨next, hnext, bind_eq_some_iff.mpr ⟨b', hb',
      bind_eq_some_iff.mpr ⟨a', ha', ?_⟩⟩⟩⟩⟩
    split
    · rename_i hgo
      rw [if_pos hgo] at h
      exact scanLoop_mono n h
    · rename_i hgo
      rwa [if_neg hgo] at h

end Scan

/-! ## Where the searches agree -/

theorem begins_run (k : Nat) (c d : UInt8) (dest : List UInt8) :
    begins (run k c d) (List.replicate k c ++ d :: dest) = true := by
  induction k with
  | zero => simp [run, begins]
  | succ k ih =>
    rw [run] at ih ⊢
    simp only [replicate_succ, cons_append, begins, decide_true, Bool.true_and]
    exact ih

theorem not_begins_run {k n : Nat} {c d x : UInt8} (dest : List UInt8) (hx : ¬(n = k ∧ x = d)) (hxc : n < k → x ≠ c)
    (hn : n ≤ k) : begins (run k c d) (List.replicate n c ++ x :: dest) = false := by
  induction n generalizing k with
  | zero =>
    cases k with
    | zero =>
      have hxd : ¬d = x := fun h => hx ⟨rfl, h.symm⟩
      simp [run, begins, hxd]
    | succ k =>
      have hcx : ¬c = x := fun h => hxc (Nat.succ_pos k) h.symm
      simp [run, begins, replicate_succ, hcx]
  | succ n ih =>
    obtain ⟨k, rfl⟩ : ∃ k', k = k' + 1 := ⟨k - 1, by omega⟩
    have hrest := ih (k := k) (fun h => hx ⟨by omega, h.2⟩) (fun h => hxc (by omega)) (by omega)
    rw [run] at hrest ⊢
    simp only [replicate_succ, cons_append, begins, decide_true, Bool.true_and]
    exact hrest

theorem not_begins_short {k n : Nat} (c d : UInt8) (hn : n ≤ k) :
    begins (run k c d) (List.replicate n c) = false := by
  induction n generalizing k with
  | zero => cases k <;> rfl
  | succ n ih =>
    obtain ⟨k, rfl⟩ : ∃ k', k = k' + 1 := ⟨k - 1, by omega⟩
    have hrest := ih (k := k) (by omega)
    rw [run] at hrest ⊢
    simp only [replicate_succ, cons_append, begins, decide_true, Bool.true_and]
    exact hrest

theorem StrIndexString_short {k : Nat} (c d : UInt8) :
    ∀ {n : Nat}, n ≤ k → StrIndexString (List.replicate n c) (run k c d) = none
  | 0, _ => rfl
  | n + 1, hn => by
    have hnot := not_begins_short c d hn
    rw [replicate_succ] at hnot ⊢
    rw [StrIndexString, hnot, StrIndexString_short c d (Nat.le_of_lt hn)]
    rfl

/-- What `scanned` finds is the first place in `dest` behind the matched bytes. -/
theorem scanned_eq {k : Nat} {c d : UInt8} :
    ∀ (dest : List UInt8) (pos p : Nat) {r : Option Nat}, p ≤ k → p ≤ pos → scanned k c d dest pos p = some r →
      r = (StrIndexString (List.replicate p c ++ dest) (run k c d)).map (· + (pos - p))
  | [], pos, p, r, hp, _, h => by
    rw [scanned] at h
    rw [append_nil, StrIndexString_short c d hp, ← Option.some.inj h]
    rfl
  | x :: dest, pos, p, r, hp, hpos, h => by
    rw [scanned] at h
    split at h
    · rename_i hfound
      obtain ⟨rfl, rfl⟩ := hfound
      have hbegins := begins_run p c x dest
      rw [← Option.some.inj h]
      cases p with
      | zero =>
        rw [replicate_zero, nil_append] at hbegins ⊢
        rw [StrIndexString, if_pos hbegins]
        exact congrArg some (Nat.zero_add _).symm
      | succ p =>
        rw [replicate_succ, cons_append] at hbegins ⊢
        rw [StrIndexString, if_pos hbegins]
        exact congrArg some (Nat.zero_add _).symm
    · rename_i hnot
      split at h
      · rename_i hxc
        subst hxc
        by_cases hlast : p = k
        · subst hlast
          have hbegins := not_begins_run (c := x) dest hnot (fun h => absurd h (Nat.lt_irrefl _)) hp
          rw [Nat.min_eq_right (Nat.le_succ p)] at h
          have ih := scanned_eq dest (pos + 1) p hp (by omega) h
          have hshift : List.replicate p x ++ x :: dest = x :: (List.replicate p x ++ dest) := by
            rw [← singleton_append, ← append_assoc, ← replicate_succ', replicate_succ,
              cons_append]
          rw [hshift] at hbegins ⊢
          rw [StrIndexString, if_neg (by rw [hbegins]; exact Bool.false_ne_true), ih, Option.map_map]
          refine congrArg (Option.map · _) (funext fun i => ?_)
          show i + (pos + 1 - p) = i + 1 + (pos - p)
          omega
        · rw [Nat.min_eq_left (by omega)] at h
          have ih := scanned_eq dest (pos + 1) (p + 1) (by omega) (by omega) h
          have hshift : List.replicate (p + 1) x ++ dest = List.replicate p x ++ x :: dest := by
            rw [replicate_succ', append_assoc, singleton_append]
          rw [hshift, Nat.add_sub_add_right] at ih
          exact ih
      · exact absurd h (some_ne_none _).symm

/-- `dest` is all `c`, or has `d` behind the first ones, which with the matched ones are `k` or more. -/
def Steady (k : Nat) (c d : UInt8) (dest : List UInt8) (p : Nat) : Prop :=
  ∃ m, dest = List.replicate m c ∨ ∃ rest, k ≤ p + m ∧ dest = List.replicate m c ++ d :: rest

theorem scanned_isSome_iff {k : Nat} {c d : UInt8} (hk : k = 0 → d = c) :
    ∀ (dest : List UInt8) (pos p : Nat), p ≤ k →
      ((∃ r, scanned k c d dest pos p = some r) ↔ Steady k c d dest p)
  | [], _, _, _ => ⟨fun _ => ⟨0, .inl rfl⟩, fun _ => ⟨none, rfl⟩⟩
  | x :: dest, pos, p, hp => by
    rw [scanned]
    by_cases hfound : p = k ∧ x = d
    · rw [if_pos hfound]
      obtain ⟨rfl, rfl⟩ := hfound
      exact ⟨fun _ => ⟨0, .inr ⟨dest, Nat.le_refl _, rfl⟩⟩, fun _ => ⟨_, rfl⟩⟩
    rw [if_neg hfound]
    by_cases hxc : x = c
    · subst hxc
      rw [if_pos rfl, scanned_isSome_iff hk dest (pos + 1) (min (p + 1) k) (Nat.min_le_right _ _)]
      constructor
      · rintro ⟨m, rfl | ⟨rest, hle, rfl⟩⟩
        · exact ⟨m + 1, .inl rfl⟩
        · exact ⟨m + 1, .inr ⟨rest, by omega, rfl⟩⟩
      · rintro ⟨m, hall | ⟨rest, hle, hrest⟩⟩
        · cases m with
          | zero => exact absurd hall (cons_ne_nil _ _)
          | succ m => exact ⟨m, .inl (List.cons.inj hall).2⟩
        · cases m with
          | zero => exact absurd ⟨by omega, (List.cons.inj hrest).1⟩ hfound
          | succ m => exact ⟨m, .inr ⟨rest, by omega, (List.cons.inj hrest).2⟩⟩
    · rw [if_neg hxc]
      refine ⟨fun ⟨r, hr⟩ => absurd hr (some_ne_none r).symm, ?_⟩
      rintro ⟨m, hall | ⟨rest, hle, hrest⟩⟩
      · cases m with
        | zero => exact absurd hall (cons_ne_nil _ _)
        | succ m => exact absurd (List.cons.inj hall).1 hxc
      · cases m with
        | zero => exact absurd ⟨by omega, (List.cons.inj hrest).1⟩ hfound
        | succ m => exact absurd (List.cons.inj hrest).1 hxc

/-- `sub` has at most four bytes, all but the last the same as its first one, `c`.  And `dest` has only `c`, up to its
end or to the last byte of `sub` behind enough of them. -/
def Agreeing (dest sub : List UInt8) : Prop :=
  ∃ k c d, k ≤ 3 ∧ sub = run k c d ∧ sub.head? = some c ∧ Steady k c d dest 0

theorem length_stringOfRune (cp : Nat) : (stringOfRune cp).length = 5 := by
  have hbytes : ∀ cp, (Utf8.runeBytes cp).length ≤ 4 := fun cp => by
    unfold Utf8.runeBytes
    split
    · exact (by decide : 1 ≤ 4)
    · split
      · exact (by decide : 2 ≤ 4)
      · split
        · exact (by decide : 3 ≤ 4)
        · exact Nat.le_refl 4
  rw [stringOfRune]
  simp only [length_append, length_map, length_replicate, length_singleton]
  have := hbytes (if cp ≤ 0x10FFFF then cp else Utf8.replacement)
  omega

/-- The search with the table gives what the plain search gives, without an access outside the table or the strings,
on these inputs and no others. -/
theorem kmp_agrees_iff {dest sub : List UInt8} (hdest : dest ≠ []) (hsub : sub ≠ []) (hdest0 : ∀ b ∈ dest, b ≠ 0)
    (hsub0 : ∀ b ∈ sub, b ≠ 0) :
    (∃ fuel, StrIndexString_KMP fuel dest sub = some (StrIndexString dest sub)) ↔ Agreeing dest sub := by
  have hne : ¬(dest = [] ∨ sub = []) := not_or.mpr ⟨hdest, hsub⟩
  -- the search on a `sub` of the right form
  have hrun : ∀ {k c d}, k ≤ 3 → sub = run k c d → sub.head? = some c → ∃ fuel pnext,
      buildLoop sub fuel (stringOfRune ((sub.length + 1) * 8 % 2 ^ 32)) 0 1 = some pnext ∧
      (∀ n, 2 * dest.length ≤ n → scanLoop sub pnext n dest 0 0 = scanned k c d dest 0 0) ∧
      ∀ pos p, p ≤ k → ((∃ r, scanned k c d dest pos p = some r) ↔ Steady k c d dest p) := by
    intro k c d hk hform hhead
    have hlen : sub.length = k + 1 := by rw [hform, length_run]
    have hkd : k = 0 → d = c := by
      rintro rfl
      rw [hform] at hhead
      exact Option.some.inj hhead
    have hsame : AllButLast sub c := fun j hj => hform ▸ byteAt_run_lt c d (by omega)
    obtain ⟨fuel, pnext, hbuild, ht⟩ := buildLoop_allButLast hlen hk hsame
    have hc : c ≠ 0 := hsub0 c (mem_of_head? hhead)
    have hd : d ≠ 0 := hsub0 d (hform ▸ mem_append_cons_self)
    refine ⟨fuel, pnext, hbuild, fun n hn => ?_, scanned_isSome_iff hkd dest⟩
    have heq := scanLoop_eq ht (by omega) hc hd hkd dest n 0 0 hdest hdest0 (Nat.zero_le k) hn
    rwa [← hform] at heq
  constructor
  · rintro ⟨fuel, h⟩
    rw [StrIndexString_KMP, if_neg hne] at h
    obtain ⟨pnext, hbuild, hscan⟩ := bind_eq_some_iff.mp h
    have hlen : sub.length ≤ 4 := by
      by_contra hlong
      rw [buildLoop_full (by omega) fuel (length_stringOfRune _) (by omega)] at hbuild
      exact some_ne_none _ hbuild.symm
    obtain ⟨c, hc⟩ : ∃ c, sub.head? = some c := by
      cases hs : sub with
      | nil => exact absurd hs hsub
      | cons c sub => exact ⟨c, rfl⟩
    have hc0 : byteAt sub 0 = some c := by
      rw [byteAt, if_neg (Ne.symm (mt length_eq_zero_iff.mp hsub)), ← head?_eq_getElem?, hc]
    have hsame : AllButLast sub c := by
      by_contra hnot
      rw [buildLoop_stuck hlen hc0 hnot] at hbuild
      exact some_ne_none _ hbuild.symm
    have hpos : 0 < sub.length := length_pos_of_ne_nil hsub
    obtain ⟨d, hform⟩ := run_of_allButLast (k := sub.length - 1) (by omega) hsame
    obtain ⟨fuel', pnext', hbuild', hscanned, hiff⟩ := hrun (k := sub.length - 1) (by omega) hform hc
    obtain rfl : pnext = pnext' := by
      have h₁ := buildLoop_mono fuel' hbuild
      have h₂ := buildLoop_mono fuel hbuild'
      rw [Nat.add_comm, h₁] at h₂
      exact Option.some.inj h₂
    have hmore := scanLoop_mono (2 * dest.length) hscan
    rw [hscanned _ (Nat.le_add_left _ _)] at hmore
    exact ⟨_, c, d, by omega, hform, hc, (hiff 0 0 (Nat.zero_le _)).mp ⟨_, hmore⟩⟩
  · rintro ⟨k, c, d, hk, hform, hhead, hsteady⟩
    obtain ⟨fuel, pnext, hbuild, hscanned, hiff⟩ := hrun hk hform hhead
    obtain ⟨r, hr⟩ := (hiff 0 0 (Nat.zero_le k)).mpr hsteady
    have hfound := scanned_eq dest 0 0 (Nat.zero_le k) (Nat.le_refl 0) hr
    rw [replicate_zero, nil_append, ← hform] at hfound
    have hplace : r = StrIndexString dest sub := by
      rw [hfound]
      exact map_id'
    refine ⟨fuel + 2 * dest.length, ?_⟩
    rw [StrIndexString_KMP, if_neg hne, buildLoop_mono _ hbuild]
    show scanLoop sub pnext (fuel + 2 * dest.length) dest 0 0 = _
    rw [hscanned _ (Nat.le_add_left _ _), hr, hplace]

/-- Searching `aab` in `aaab`. -/
theorem kmp_agrees_at_aab :
    [97, 97, 97, 98] ≠ ([] : List UInt8) ∧
      ((∃ fuel, StrIndexString_KMP fuel [97, 97, 97, 98] [97, 97, 98] =
          some (StrIndexString [97, 97, 97, 98] [97, 97, 98])) ↔
        Agreeing [97, 97, 97, 98] [97, 97, 98]) :=
  ⟨by decide, kmp_agrees_iff (by decide) (by decide) (by decide +kernel) (by decide +kernel)⟩

/-- Searching `lo` in `hello`: the first byte does not match, and the next one that is read is byte 24 of `lo`. -/
theorem kmp_fails_at_hello :
    ¬∃ fuel, StrIndexString_KMP fuel [104, 101, 108, 108, 111] [108, 111] =
      some (StrIndexString [104, 101, 108, 108, 111] [108, 111]) := by
  rintro ⟨fuel, h⟩
  rcases fuel with _ | _ | fuel
  · exact absurd h (by decide)
  · exact absurd h (by decide)
  · exact absurd h (some_ne_none _).symm

end Unisym.StringSearch
