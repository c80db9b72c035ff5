/-
# `UTF32` — between `String` and `String32`

`String::toUTF32` allocates one element for each byte that is no continuation byte (`getCharCount`), and one more
for the terminator; then it writes what the iterator goes through.  A write outside of the block has no result.

The iterator also stops at each continuation byte that no sequence takes in (`strays`), so the block is large enough
if and only if there is none, or nothing is written.  `String(const String32&)` writes sequences only.
-/
import Unisym.Text.Utf8

namespace Unisym.Utf8

open List

/-! ## The conversions -/

/-- `(byte_val & 0xC0) == 0x80` -/
def isContinuation (b : UInt8) : Bool := b.toNat &&& 0xC0 = 0x80

/-- `getCharCount`, of a string in UTF-8 -/
def getCharCount (s : List UInt8) : Nat := s.countP (!isContinuation ·)

/-- A `String32`: the block that it has allocated, and `counts`. -/
structure String32 where
  addr : List Nat
  counts : Nat

namespace String32

def limits (s : String32) : Nat := s.addr.length

/-- `StringFixed(buflen)`: zeroes. -/
def new (buflen : Nat) : String32 := { addr := List.replicate buflen 0, counts := 0 }

/-- `fixed_str.addr[index] = v` -/
def store (s : String32) (index v : Nat) : Option String32 :=
  if index < s.limits then some { s with addr := s.addr.set index v } else none

/-- The elements. -/
def elements (s : String32) : List Nat := s.addr.take s.counts

/-- The loop of `toUTF32`, from `index` on. -/
def storeAll : List Nat → (index : Nat) → String32 → Option (Nat × String32)
  | [], index, s => some (index, s)
  | rune :: runes, index, s => (s.store index rune).bind (storeAll runes (index + 1))

end String32

def toUTF32 (s : List UInt8) : Option String32 := do
  let char_count := getCharCount s
  if char_count = 0 then some (.new 1)
  else
    let (index, fixed_str) ← String32.storeAll (chars s) 0 (.new (char_count + 1))
    let fixed_str ← fixed_str.store index 0
    some { fixed_str with counts := index }

/-- `String(const String32&)`; `none` of `str32` is a null `reference()`. -/
def ofString32 (str32 : Option String32) : List UInt8 :=
  match str32 with
  | none => []
  | some str32 =>
      str32.elements.flatMap fun cp => runeBytes (if cp ≤ 0x10FFFF then cp else replacement)

/-! ## What is written -/

namespace String32

theorem storeAll_spec :
    ∀ (runes : List Nat) (done : List Nat) (s : String32), s.addr.take done.length = done →
      done.length + runes.length ≤ s.limits →
      ∃ s', storeAll runes done.length s = some (done.length + runes.length, s') ∧ s'.limits = s.limits ∧
        s'.addr.take (done.length + runes.length) = done ++ runes
  | [], done, s, hdone, _ => ⟨s, rfl, rfl, by rwa [length_nil, Nat.add_zero, append_nil]⟩
  | rune :: runes, done, s, hdone, hroom => by
    rw [length_cons] at hroom ⊢
    have hlt : done.length < s.addr.length := Nat.lt_of_lt_of_le (by omega) hroom
    have hstore : s.store done.length rune = some { s with addr := s.addr.set done.length rune } :=
      if_pos hlt
    have htake : (s.addr.set done.length rune).take (done ++ [rune]).length = done ++ [rune] := by
      rw [length_append, length_singleton, take_add_one, take_set_of_le (Nat.le_refl _), hdone,
        getElem?_set_self hlt]
      rfl
    obtain ⟨s', hrun, hlimits, htaken⟩ := storeAll_spec runes (done ++ [rune])
      { s with addr := s.addr.set done.length rune } htake
      (by rw [length_append, length_singleton, limits, length_set]; rw [limits] at hroom; omega)
    have hlen : (done ++ [rune]).length + runes.length = done.length + (runes.length + 1) := by
      rw [length_append, length_singleton]
      omega
    rw [hlen] at hrun htaken
    rw [length_append, length_singleton] at hrun
    refine ⟨s', ?_, ?_, ?_⟩
    · rw [storeAll, hstore]
      exact hrun
    · rw [hlimits, limits, length_set, limits]
    · rw [htaken, append_assoc, singleton_append]

theorem storeAll_none :
    ∀ (runes : List Nat) (index : Nat) (s : String32), index ≤ s.limits → s.limits < index + runes.length →
      storeAll runes index s = none
  | [], index, s, hle, hlt => absurd hlt (Nat.not_lt.mpr hle)
  | rune :: runes, index, s, _, hlt => by
    rw [length_cons] at hlt
    rw [storeAll, store]
    split
    · refine storeAll_none runes (index + 1) _ ?_ ?_ <;> rw [limits, length_set] <;> rw [limits] at * <;> omega
    · rfl

end String32

/-- `toUTF32` has a result if there are no more runes than `getCharCount` counts. -/
theorem toUTF32_of_le {s : List UInt8} (hle : (chars s).length ≤ getCharCount s) :
    ∃ t, toUTF32 s = some t ∧ t.elements = chars s ∧ t.counts = (chars s).length := by
  unfold toUTF32
  by_cases hzero : getCharCount s = 0
  · have hnil : chars s = [] := length_eq_zero_iff.mp (by omega)
    refine ⟨_, if_pos hzero, ?_, ?_⟩
    · rw [hnil]
      rfl
    · rw [hnil]
      rfl
  · have hlimits : (String32.new (getCharCount s + 1)).limits = getCharCount s + 1 := length_replicate
    obtain ⟨t, hrun, ht, htaken⟩ := String32.storeAll_spec (chars s) [] (.new (getCharCount s + 1)) rfl
      (by rw [hlimits, length_nil]; omega)
    rw [length_nil, Nat.zero_add] at hrun htaken
    have hroom : (chars s).length < t.limits := by rw [ht, hlimits]; omega
    simp only [if_neg hzero, Option.bind_eq_bind, hrun, Option.bind_some, String32.store, if_pos hroom]
    refine ⟨_, rfl, ?_, rfl⟩
    rw [String32.elements, take_set_of_le (Nat.le_refl _), htaken, nil_append]

theorem toUTF32_of_lt {s : List UInt8} (hpos : getCharCount s ≠ 0) (hlt : getCharCount s < (chars s).length) :
    toUTF32 s = none := by
  have hlimits : (String32.new (getCharCount s + 1)).limits = getCharCount s + 1 := length_replicate
  unfold toUTF32
  simp only [if_neg hpos, Option.bind_eq_bind]
  by_cases hone : (chars s).length = getCharCount s + 1
  · -- the runes fill the block, and the terminator lies behind it
    obtain ⟨t, hrun, ht, -⟩ := String32.storeAll_spec (chars s) [] (.new (getCharCount s + 1)) rfl
      (by rw [hlimits, length_nil]; omega)
    rw [length_nil, Nat.zero_add] at hrun
    have hroom : ¬(chars s).length < t.limits := by rw [ht, hlimits]; omega
    simp only [hrun, Option.bind_some, String32.store, if_neg hroom, Option.bind_none]
  · rw [String32.storeAll_none (chars s) 0 _ (Nat.zero_le _) (by rw [hlimits]; omega)]
    rfl

/-! ## Runes and lead bytes -/

/-- The continuation bytes that no sequence takes in, if the last lead byte expects `left` more. -/
def strays : (left : Nat) → List UInt8 → Nat
  | _, [] => 0
  | left, b :: rest =>
      if isContinuation b then (if left = 0 then 1 else 0) + strays (left - 1) rest
      else strays ((leadByte b.toNat).2 - 1) rest

theorem strays_of_lead {b : UInt8} (hb : isContinuation b = false) (left : Nat) (rest : List UInt8) :
    strays left (b :: rest) = strays ((leadByte b.toNat).2 - 1) rest := by
  rw [strays, hb]
  exact if_neg Bool.false_ne_true

/-- A sequence takes in continuation bytes only, as many as its lead byte expects or all there are. -/
theorem continuation_taken :
    ∀ (n i rune : Nat) (rest : List UInt8), ∃ m, (continuation n i rune rest).2 = i + m ∧
      getCharCount (rest.drop m) = getCharCount rest ∧ strays 0 (rest.drop m) = strays n rest
  | 0, i, rune, rest => ⟨0, rfl, rfl, rfl⟩
  | _ + 1, i, rune, [] => ⟨0, rfl, rfl, rfl⟩
  | n + 1, i, rune, b :: rest => by
    rw [continuation]
    by_cases hb : isContinuation b = true
    · have hmask : ¬(b.toNat &&& 0xC0 ≠ 0x80) := not_not.mpr (of_decide_eq_true hb)
      rw [if_neg hmask]
      obtain ⟨m, hm, hcount, hstrays⟩ := continuation_taken n (i + 1)
        ((rune <<< 6) ||| (b.toNat &&& 0x3F)) rest
      refine ⟨m + 1, by omega, ?_, ?_⟩
      · rw [drop_succ_cons, hcount, getCharCount, getCharCount, countP_cons_of_neg (by simp [hb])]
      · rw [drop_succ_cons, hstrays, strays, if_pos hb, if_neg (Nat.succ_ne_zero n), Nat.zero_add,
          Nat.add_sub_cancel]
    · have hmask : b.toNat &&& 0xC0 ≠ 0x80 := fun h => hb (decide_eq_true h)
      rw [if_pos hmask]
      have hfalse : isContinuation b = false := Bool.eq_false_iff.mpr hb
      exact ⟨0, rfl, rfl, by rw [drop_zero, strays_of_lead hfalse, strays_of_lead hfalse]⟩

theorem runesFrom_drop : ∀ (skip : Nat) (l : List UInt8), runesFrom skip l = runesFrom 0 (l.drop skip)
  | 0, _ => rfl
  | _ + 1, [] => rfl
  | skip + 1, _ :: rest => runesFrom_drop skip rest

theorem leadByte_continuation {b : UInt8} (hb : isContinuation b = true) : (leadByte b.toNat).2 = 1 := by
  have hall : ∀ n : Nat, n < 256 → n &&& 0xC0 = 0x80 → (leadByte n).2 = 1 := by decide +kernel
  exact hall _ b.toNat_lt (of_decide_eq_true hb)

/-- The iterator stops at each byte that is counted, and at each stray one. -/
theorem length_runes :
    ∀ (n : Nat) (s : List UInt8), s.length ≤ n → (runesFrom 0 s).length = getCharCount s + strays 0 s
  | _, [], _ => rfl
  | 0, _ :: _, hn => absurd hn (Nat.not_succ_le_zero _)
  | n + 1, b :: rest, hn => by
    rw [length_cons] at hn
    obtain ⟨m, hm, hcount, hstrays⟩ := continuation_taken ((leadByte b.toNat).2 - 1) 1 (leadByte b.toNat).1 rest
    have hdecode : (decode (b :: rest)).2 - 1 = m := by
      rw [decode, hm, Nat.add_sub_cancel_left]
    have ih := length_runes n (rest.drop m) (by rw [length_drop]; omega)
    rw [runesFrom, length_cons, hdecode, runesFrom_drop, ih, hcount, hstrays]
    by_cases hb : isContinuation b = true
    · rw [leadByte_continuation hb, strays, if_pos hb, if_pos rfl, getCharCount, getCharCount,
        countP_cons_of_neg (by simp [hb]), Nat.sub_self]
      omega
    · have hfalse : isContinuation b = false := Bool.eq_false_iff.mpr hb
      rw [strays_of_lead hfalse, getCharCount, getCharCount, countP_cons_of_pos (by simp [hfalse])]
      omega

/-! ## The round trip -/

theorem runeBytes_ne_nil (cp : Nat) : runeBytes cp ≠ [] := by
  unfold runeBytes
  split
  · exact cons_ne_nil _ _
  · split
    · exact cons_ne_nil _ _
    · split <;> exact cons_ne_nil _ _

/-- The iterator goes through the code points that were encoded. -/
theorem chars_runeBytes :
    ∀ {cps : List Nat}, (∀ cp ∈ cps, cp ≤ 0x10FFFF) → chars (cps.flatMap runeBytes) = cps
  | [], _ => rfl
  | cp :: cps, h => by
    have ih := chars_runeBytes fun cp hcp => h cp (mem_cons_of_mem _ hcp)
    have hd := decode_runeBytes (h cp mem_cons_self) (cps.flatMap runeBytes)
    rw [flatMap_cons]
    cases he : runeBytes cp with
    | nil => exact absurd he (runeBytes_ne_nil cp)
    | cons b l =>
      rw [he] at hd
      show (decode (b :: l ++ cps.flatMap runeBytes)).1 ::
        runesFrom ((decode (b :: l ++ cps.flatMap runeBytes)).2 - 1) (l ++ cps.flatMap runeBytes) = _
      rw [hd, length_cons, Nat.add_sub_cancel, runesFrom_append]
      exact congrArg (cp :: ·) ih

theorem getCharCount_runeBytes {cp : Nat} (hcp : cp ≤ 0x10FFFF) : getCharCount (runeBytes cp) = 1 := by
  have htail : ∀ n : Nat, n < 64 → isContinuation (.ofNat (n + 0x80)) = true := by decide
  have hlead : ∀ n : Nat, n < 256 → ¬(0x80 ≤ n ∧ n < 0xC0) → isContinuation (.ofNat n) = false := by decide +kernel
  rw [runeBytes_eq hcp, getCharCount]
  split
  · simp only [countP_cons, countP_nil, hlead cp (by omega) (by omega)]
    rfl
  · split
    · simp only [countP_cons, countP_nil, hlead (cp / 64 + 0xC0) (by omega) (by omega), htail (cp % 64) (by omega)]
      rfl
    · split
      · simp only [countP_cons, countP_nil, hlead (cp / 4096 + 0xE0) (by omega) (by omega), htail (cp % 64) (by omega),
          htail (cp / 64 % 64) (by omega)]
        rfl
      · simp only [countP_cons, countP_nil, hlead (cp / 262144 + 0xF0) (by omega) (by omega), htail (cp % 64) (by omega),
          htail (cp / 64 % 64) (by omega), htail (cp / 4096 % 64) (by omega)]
        rfl

theorem getCharCount_flatMap :
    ∀ {cps : List Nat}, (∀ cp ∈ cps, cp ≤ 0x10FFFF) → getCharCount (cps.flatMap runeBytes) = cps.length
  | [], _ => rfl
  | cp :: cps, h => by
    have ih := getCharCount_flatMap fun cp hcp => h cp (mem_cons_of_mem _ hcp)
    have hone := getCharCount_runeBytes (h cp mem_cons_self)
    rw [getCharCount] at ih hone ⊢
    rw [flatMap_cons, countP_append, hone, ih, length_cons, Nat.add_comm]

/-- `toUTF32` stays in its block for the strings in which every continuation byte belongs to a sequence, and for those
with nothing else; and it gives back every `String32` of code points that was made a `String`. -/
theorem toUTF32_correct_iff (s : List UInt8) (str32 : String32) :
    ((∃ t, toUTF32 s = some t) ↔ strays 0 s = 0 ∨ ∀ b ∈ s, isContinuation b = true) ∧
      (str32.counts ≤ str32.limits → (∀ cp ∈ str32.elements, cp ≤ 0x10FFFF) →
        ∃ t, toUTF32 (ofString32 (some str32)) = some t ∧ t.counts = str32.counts ∧ t.elements = str32.elements) := by
  refine ⟨?_, fun hcounts hcps => ?_⟩
  · have hlen := length_runes s.length s (Nat.le_refl _)
    have hnone : getCharCount s = 0 ↔ ∀ b ∈ s, isContinuation b = true := by
      rw [getCharCount, countP_eq_zero]
      simp
    rw [← hnone]
    constructor
    · rintro ⟨t, ht⟩
      by_contra hnot
      rw [not_or] at hnot
      rw [toUTF32_of_lt hnot.2 (by rw [chars, hlen]; omega)] at ht
      exact Option.some_ne_none t ht.symm
    · rintro (hstray | hzero)
      · obtain ⟨t, ht, -⟩ := toUTF32_of_le (s := s) (by rw [chars, hlen]; omega)
        exact ⟨t, ht⟩
      · exact ⟨.new 1, if_pos hzero⟩
  · have hbytes : ofString32 (some str32) = str32.elements.flatMap runeBytes := by
      rw [ofString32]
      exact flatMap_congr fun cp hcp => by rw [if_pos (hcps cp hcp)]
    have hchars := chars_runeBytes hcps
    obtain ⟨t, ht, helements, hcount⟩ := toUTF32_of_le (s := str32.elements.flatMap runeBytes)
      (Nat.le_of_eq (by rw [hchars, getCharCount_flatMap hcps]))
    rw [hchars] at helements hcount
    refine ⟨t, by rw [hbytes, ht], ?_, helements⟩
    rw [hcount, String32.elements, length_take]
    exact Nat.min_eq_left hcounts

/-- Two code points in a block of three. -/
theorem toUTF32_correct_at_euro :
    ∃ t, toUTF32 (ofString32 (some { addr := [0x20AC, 0x1F600, 0], counts := 2 })) = some t ∧ t.counts = 2 ∧
      t.elements = [0x20AC, 0x1F600] :=
  (toUTF32_correct_iff [] { addr := [0x20AC, 0x1F600, 0], counts := 2 }).2 (by decide) (by decide)

/-- The letter `a` and a stray continuation byte: three elements are written, and there is room for two. -/
theorem toUTF32_stray : toUTF32 [0x61, 0x80] = none := by decide

end Unisym.Utf8
