/-
# `GIFSpec` — the decoder has the strings of the encoder

The tables of `DecodeGIF_LZW` hold the strings of the dictionary as chains; one turn of the loop takes the
string of a code and learns the next one (`Represents.takeCode`).
-/
import Unisym.Picture.GIFStream
import Unisym.Library.LZW
import Mathlib.Data.Nat.Size

namespace Unisym.Picture

open BitCodes LZW Function List

/-! ## The tables as a dictionary -/

/-- The codes of a picture: the clear code is `2 ^ minCodeSize`, and the end code the next one. -/
def gifCoding (minCodeSize : Nat) : Coding UInt8 where
  roots := 2 ^ minCodeSize
  symbol := UInt8.ofNat
  first := 2 ^ minCodeSize + 1 + 1
  capacity := tableSize
  roots_le := Nat.le_add_right _ 2

/-- The width of the codes when `n` strings are known: that of the largest code. -/
def gifWidth (minCodeSize n : Nat) : Nat := Nat.size (2 ^ minCodeSize + 1 + n)

variable {m : Nat}

/-- The strings that the tables of the decoder hold. -/
structure Represents (m : Nat) (st : GIFLZWState) (d : Dict UInt8) : Prop where
  next : st.nextCode = (gifCoding m).first + d.entries.length
  next_le : st.nextCode ≤ tableSize
  size : st.codeSize = gifWidth m ((gifCoding m).size d)
  max : st.maxCode = 2 ^ st.codeSize
  root : ∀ i < 2 ^ m, st.ctx.suffix i = UInt8.ofNat i
  entry : ∀ (j : Nat) (e : List UInt8), d.entries[j]? = some e →
    e.length ≤ j + 2 ∧ ∃ (p : Nat) (w : List UInt8),
      st.ctx.prefixCode ((gifCoding m).first + j) = p ∧
      (gifCoding m).lookup d.entries p = some w ∧
      e = w ++ [st.ctx.suffix ((gifCoding m).first + j)]
  fresh : d.last = none → st.prevCode = -1 ∧ d.entries = []
  last : ∀ w, d.last = some w → ∃ p : Nat, st.prevCode = p ∧
    (gifCoding m).lookup d.entries p = some w ∧ w.head? = some st.firstChar

/-- The range of `minCodeSize`. -/
structure SizeOk (m : Nat) : Prop where
  ge : 2 ≤ m
  le : m ≤ 11

theorem SizeOk.pow (hm : SizeOk m) : 4 ≤ 2 ^ m ∧ 2 ^ m ≤ 2048 :=
  ⟨show 2 ^ 2 ≤ 2 ^ m from Nat.pow_le_pow_right (Nat.succ_pos 1) hm.ge,
    show 2 ^ m ≤ 2 ^ 11 from Nat.pow_le_pow_right (Nat.succ_pos 1) hm.le⟩

variable {st : GIFLZWState} {d : Dict UInt8}

variable {p code : Nat} {w s : List UInt8}

/-- A string is not longer than there are strings before it. -/
theorem Represents.lookup_short (h : Represents m st d)
    (hw : (gifCoding m).lookup d.entries p = some w) : w.length ≤ d.entries.length + 1 := by
  rcases (gifCoding m).lookup_cases hw with hroot | ⟨hfirst, hentry⟩
  · rw [Coding.lookup_root hroot, Option.some.injEq] at hw
    subst hw
    exact Nat.le_add_left 1 _
  · have hlt := (List.getElem?_eq_some_iff.mp hentry).1
    have hshort := (h.entry _ _ hentry).1
    omega

/-- A string has a symbol, and fits onto the stack with one more. -/
theorem Represents.lookup_length (h : Represents m st d) (hm : SizeOk m)
    (hw : (gifCoding m).lookup d.entries p = some w) : w ≠ [] ∧ w.length < tableSize := by
  have hpow := hm.pow
  have hnext := h.next
  have hle := h.next_le
  rcases (gifCoding m).lookup_cases hw with hroot | ⟨hfirst, hentry⟩
  · rw [Coding.lookup_root hroot, Option.some.injEq] at hw
    subst hw
    exact ⟨cons_ne_nil _ _, show 1 < tableSize by decide⟩
  · obtain ⟨hshort, _, w', _, _, rfl⟩ := h.entry _ _ hentry
    have hlt := (gifCoding m).lookup_lt hw
    refine ⟨append_ne_nil_of_right_ne_nil _ (cons_ne_nil _ _), ?_⟩
    simp only [gifCoding, tableSize] at *
    omega

/-- The chain of a code puts its string on the stack, but for the first symbol. -/
theorem Represents.unwind (h : Represents m st d) (hm : SizeOk m) : (fuel p : Nat) →
    (w stack : List UInt8) → (gifCoding m).lookup d.entries p = some w → w.length ≤ fuel →
    w.length + stack.length ≤ tableSize →
    ∃ r : Nat, unwind st.ctx (2 ^ m) fuel p stack = some ((r : Int), w.tail ++ stack) ∧
      r < 2 ^ m ∧ w.head? = some (UInt8.ofNat r)
  | 0, p, w, stack, hw, hfuel, _ =>
    absurd (eq_nil_of_length_eq_zero (Nat.le_zero.mp hfuel)) (h.lookup_length hm hw).1
  | fuel + 1, p, w, stack, hw, hfuel, hroom => by
    have hpow := hm.pow
    rcases (gifCoding m).lookup_cases hw with hroot | ⟨hfirst, hentry⟩
    · have hroot' : p < 2 ^ m := hroot
      rw [Coding.lookup_root hroot, Option.some.injEq] at hw
      subst hw
      refine ⟨p, ?_, hroot, rfl⟩
      rw [Picture.unwind, if_neg (by omega)]
      rfl
    · obtain ⟨_, q, w', hprefix, hw', rfl⟩ := h.entry _ _ hentry
      have hlt := (gifCoding m).lookup_lt hw
      rw [← h.next] at hlt
      have hle := h.next_le
      have hne := (h.lookup_length hm hw').1
      have hfirst' : 2 ^ m + 2 ≤ p := hfirst
      have hp : (gifCoding m).first + (p - (gifCoding m).first) = p := Nat.add_sub_cancel' hfirst
      have hload : ∀ {α : Type} (table : Nat → α), load table (p : Int) = some (table p) :=
        fun table => if_pos ⟨Int.natCast_nonneg p, by omega⟩
      rw [hp] at hprefix hroom hfuel ⊢
      rw [length_append, length_singleton] at hroom hfuel
      obtain ⟨r, hr, hrlt, hhead⟩ := h.unwind hm fuel q w' (st.ctx.suffix p :: stack) hw' (by omega)
        (by rw [length_cons]; omega)
      refine ⟨r, ?_, hrlt, ?_⟩
      · have hpush : pushByte stack (st.ctx.suffix p) = some (st.ctx.suffix p :: stack) :=
          if_pos (by have := length_pos_iff.mpr hne; omega)
        rw [Picture.unwind, if_pos ⟨by omega, by omega⟩]
        simp only [hload, Option.bind_eq_bind, Option.bind_some, hpush, hprefix, hr]
        rw [tail_append_of_ne_nil hne, append_assoc, singleton_append]
      · rw [head?_append_of_ne_nil _ hne, hhead]

/-! ## Learning a string -/

theorem size_succ {n w : Nat} (hw : w = Nat.size n) (hn : n < tableSize) :
    w ≤ 12 ∧ (if n + 1 ≥ 2 ^ w ∧ w < 12 then w + 1 else w) =
      Nat.size (if n + 1 < tableSize then n + 1 else n) := by
  have hlt : n < 2 ^ w := hw ▸ Nat.lt_size_self n
  have hw12 : w ≤ 12 := hw ▸ Nat.size_le.mpr hn
  refine ⟨hw12, ?_⟩
  rcases Nat.lt_or_ge (n + 1) (2 ^ w) with hfits | hfull
  · have hpow : 2 ^ w ≤ tableSize := Nat.pow_le_pow_right (Nat.succ_pos 1) hw12
    rw [if_neg fun h => absurd h.1 (Nat.not_le.mpr hfits), if_pos (Nat.lt_of_lt_of_le hfits hpow)]
    refine Nat.le_antisymm ?_ (Nat.size_le.mpr hfits)
    rw [hw]
    exact Nat.size_le_size (Nat.le_succ n)
  · have heq : n + 1 = 2 ^ w := Nat.le_antisymm hlt hfull
    rcases Nat.lt_or_ge w 12 with hlow | hhigh
    · have hpow : 2 ^ w ≤ 2 ^ 11 := Nat.pow_le_pow_right (Nat.succ_pos 1) (Nat.le_of_lt_succ hlow)
      rw [if_pos ⟨hfull, hlow⟩, if_pos (by rw [heq]; exact Nat.lt_of_le_of_lt hpow (by decide)), heq,
        Nat.size_pow]
    · have h12 : w = 12 := Nat.le_antisymm hw12 hhigh
      rw [if_neg fun h => absurd h.2 (Nat.not_lt.mpr hhigh), if_neg (by
        rw [heq, h12]; decide), ← hw]

theorem size_pow_add {m k : Nat} (hk : k < 2 ^ m) : Nat.size (2 ^ m + k) = m + 1 := by
  refine Nat.le_antisymm (Nat.size_le.mpr ?_) (Nat.lt_size.mpr (Nat.le_add_right _ _))
  rw [Nat.pow_succ]
  omega

theorem Represents.last_ne (h : Represents m st d) (hm : SizeOk m) : ∀ w ∈ d.last, w ≠ [] :=
  fun w hw => by
    obtain ⟨p, _, hlookup, _⟩ := h.last w hw
    exact (h.lookup_length hm hlookup).1

theorem addEntry_room (hprev : 0 ≤ st.prevCode) (hnext : st.nextCode < tableSize)
    (hmax : st.maxCode = 2 ^ st.codeSize) :
    st.addEntry.nextCode = st.nextCode + 1 ∧
    st.addEntry.codeSize =
      (if st.nextCode + 1 ≥ 2 ^ st.codeSize ∧ st.codeSize < 12 then st.codeSize + 1
        else st.codeSize) ∧
    st.addEntry.maxCode = 2 ^ st.addEntry.codeSize ∧
    st.addEntry.ctx = ⟨update st.ctx.prefixCode st.nextCode st.prevCode,
      update st.ctx.suffix st.nextCode st.firstChar⟩ ∧
    st.addEntry.firstChar = st.firstChar := by
  rw [GIFLZWState.addEntry, if_pos ⟨hprev, hnext⟩]
  dsimp only
  rw [hmax]
  split
  · exact ⟨rfl, rfl, rfl, rfl, rfl⟩
  · exact ⟨rfl, rfl, rfl, rfl, rfl⟩

theorem addEntry_same (h : ¬ (st.prevCode ≥ 0 ∧ st.nextCode < tableSize)) : st.addEntry = st :=
  if_neg h

theorem addEntry_frame (st : GIFLZWState) : st.addEntry.bs = st.bs ∧ st.addEntry.stack = st.stack ∧
    st.addEntry.outPixels = st.outPixels := by
  unfold GIFLZWState.addEntry
  split
  · dsimp only
    split <;> exact ⟨rfl, rfl, rfl⟩
  · exact ⟨rfl, rfl, rfl⟩

theorem size_push (d : Dict UInt8) (s : List UInt8) :
    (gifCoding m).size ((gifCoding m).push d s) =
      if (gifCoding m).first + (gifCoding m).size d < tableSize then (gifCoding m).size d + 1
      else (gifCoding m).size d := by
  rw [← Coding.length_extend _ d s, Coding.size, Coding.push]
  show (if (gifCoding m).first + _ < tableSize then _ else _ : List (List UInt8)).length = _
  split
  · rw [length_append, length_singleton]
  · rfl

/-- The tables after a string: what `addEntry` and `prevCode = inCode` make. -/
theorem Represents.learn (h : Represents m st d) (hm : SizeOk m) (stack : List UInt8) {c : UInt8} (hs : (gifCoding m).lookup ((gifCoding m).extend d s) code = some s)
    (hc : s.head? = some c) :
    Represents m
      { ({ st with stack := stack, firstChar := c } : GIFLZWState).addEntry with prevCode := code }
      ((gifCoding m).push d s) := by
  have hpow := hm.pow
  have hnext := h.next
  have hle := h.next_le
  have hsize := size_push (m := m) d s
  have hlast' : ∀ w, (some s : Option (List UInt8)) = some w → ∃ p : Nat, (code : Int) = p ∧
      (gifCoding m).lookup ((gifCoding m).extend d s) p = some w ∧ w.head? = some c := by
    rintro w ⟨⟩
    exact ⟨code, rfl, hs, hc⟩
  cases hlast : d.last with
  | none =>
    obtain ⟨hprev, hnil⟩ := h.fresh hlast
    have hextend : (gifCoding m).extend d s = d.entries := by rw [Coding.extend, hlast]
    have hsize0 : (gifCoding m).size d = 0 := by
      rw [← Coding.length_extend _ d s, hextend, hnil, length_nil]
    rw [addEntry_same fun hroom => absurd hroom.1 (by
      show ¬ st.prevCode ≥ 0
      rw [hprev]
      decide)]
    refine ⟨?_, hle, ?_, h.max, h.root, ?_, nofun, hlast'⟩
    · exact hnext.trans (by rw [Coding.push, hextend])
    · have hroom : (gifCoding m).first + 0 < tableSize := by
        show 2 ^ m + 1 + 1 + 0 < 4096
        omega
      show st.codeSize = _
      rw [h.size, hsize, hsize0, if_pos hroom, gifWidth, gifWidth, Nat.add_assoc, Nat.add_assoc,
        size_pow_add (by omega), size_pow_add (by omega)]
    · rw [Coding.push, hextend]
      exact h.entry
  | some w =>
    obtain ⟨p, hprev, hp, hhead⟩ := h.last w hlast
    have hne := h.last_ne hm w hlast
    by_cases hroom : st.nextCode < tableSize
    -- the string before is learnt, with the first symbol of this one
    · have hfirst : s.take 1 = [c] := by
        obtain ⟨x, s, rfl⟩ := exists_cons_of_ne_nil fun hnil : s = [] => by simp [hnil] at hc
        cases hc
        rfl
      have hextend : (gifCoding m).extend d s = d.entries ++ [w ++ [c]] := by
        rw [Coding.extend, hlast]
        dsimp only
        rw [if_pos (hnext ▸ hroom), hfirst]
      have hsize' : (gifCoding m).size d = d.entries.length + 1 := by
        rw [← Coding.length_extend _ d s, hextend, length_append, length_singleton]
      let stFirst : GIFLZWState := { st with stack := stack, firstChar := c }
      obtain ⟨hadd, hcodeSize, hmax, hctx, hchar⟩ := addEntry_room
        (show 0 ≤ stFirst.prevCode from hprev ▸ Int.natCast_nonneg p) hroom h.max
      have hcs : st.codeSize = Nat.size st.nextCode := by
        rw [h.size, hsize', gifWidth, hnext]
        exact congrArg Nat.size (show 2 ^ m + 1 + (d.entries.length + 1) =
          2 ^ m + 1 + 1 + d.entries.length by omega)
      show Represents m { stFirst.addEntry with prevCode := code } _
      refine ⟨?_, ?_, ?_, hmax, ?_, ?_, nofun, ?_⟩
      · show stFirst.addEntry.nextCode = _ + ((gifCoding m).extend d s).length
        rw [hadd, hextend, length_append, length_singleton, ← Nat.add_assoc, ← hnext]
      · show stFirst.addEntry.nextCode ≤ _
        rw [hadd]
        exact hroom
      · show stFirst.addEntry.codeSize = _
        rw [hcodeSize, hsize, hsize', ← Nat.add_assoc, ← hnext]
        refine (size_succ hcs hroom).2.trans ?_
        rw [gifWidth, hnext]
        split
        · exact congrArg Nat.size (show 2 ^ m + 1 + 1 + d.entries.length + 1 =
            2 ^ m + 1 + (d.entries.length + 1 + 1) by omega)
        · exact congrArg Nat.size (show 2 ^ m + 1 + 1 + d.entries.length =
            2 ^ m + 1 + (d.entries.length + 1) by omega)
      · intro i hi
        have hi' : i ≠ st.nextCode := by
          rw [hnext]
          show i ≠ 2 ^ m + 1 + 1 + d.entries.length
          omega
        show stFirst.addEntry.ctx.suffix i = _
        rw [hctx]
        exact (update_of_ne hi' _ _).trans (h.root i hi)
      · intro j e he
        have he : (d.entries ++ [w ++ [c]])[j]? = some e := hextend ▸ he
        show e.length ≤ j + 2 ∧ ∃ (q : Nat) (w' : List UInt8),
          stFirst.addEntry.ctx.prefixCode ((gifCoding m).first + j) = q ∧
          (gifCoding m).lookup ((gifCoding m).extend d s) q = some w' ∧
          e = w' ++ [stFirst.addEntry.ctx.suffix ((gifCoding m).first + j)]
        rw [hctx, hextend]
        rcases Nat.lt_or_ge j d.entries.length with hj | hj
        · rw [getElem?_append_left hj] at he
          obtain ⟨hshort, q, w', hq, hw', rfl⟩ := h.entry j e he
          have hj' : (gifCoding m).first + j ≠ st.nextCode := by omega
          refine ⟨hshort, q, w', (update_of_ne hj' _ _).trans hq, ?_, ?_⟩
          · rwa [(gifCoding m).lookup_append ((gifCoding m).lookup_lt hw')]
          · show _ = w' ++ [update st.ctx.suffix st.nextCode c _]
            rw [update_of_ne hj']
        · have hjlt := (List.getElem?_eq_some_iff.mp he).1
          rw [length_append, length_singleton] at hjlt
          obtain rfl : j = d.entries.length := by omega
          rw [getElem?_concat_length, Option.some.injEq] at he
          subst he
          have hshort := h.lookup_short hp
          refine ⟨?_, p, w, ?_, ?_, ?_⟩
          · rw [length_append, length_singleton]
            omega
          · rw [← hnext]
            exact (update_self _ _ _).trans hprev
          · rwa [(gifCoding m).lookup_append ((gifCoding m).lookup_lt hp)]
          · rw [← hnext]
            exact congrArg (fun x => w ++ [x]) (update_self st.nextCode c st.ctx.suffix).symm
      · rintro w' ⟨⟩
        exact ⟨code, rfl, hs, hc.trans (congrArg some hchar.symm)⟩
    -- the table is full
    · have hextend : (gifCoding m).extend d s = d.entries := by
        rw [Coding.extend, hlast]
        dsimp only
        rw [if_neg (hnext ▸ hroom)]
      have hsize' : (gifCoding m).size d = d.entries.length := by
        rw [← Coding.length_extend _ d s, hextend]
      have hsame : ({ st with stack := stack, firstChar := c } : GIFLZWState).addEntry =
          { st with stack := stack, firstChar := c } := addEntry_same fun h => hroom h.2
      rw [hsame]
      refine ⟨?_, hle, ?_, h.max, h.root, ?_, nofun, hlast'⟩
      · exact hnext.trans (by rw [Coding.push, hextend])
      · show st.codeSize = _
        rw [h.size, hsize, hsize', if_neg (hnext ▸ hroom)]
      · rw [Coding.push, hextend]
        exact h.entry

/-! ## One turn of the loop -/

variable {n : Nat}

theorem Represents.takeCode_none (h : Represents m st d) (hclear : code ≠ 2 ^ m)
    (hend : code ≠ 2 ^ m + 1) (hread : (gifCoding m).read d code = none) :
    st.takeCode m n code = some none := by
  have hnext := h.next
  rw [GIFLZWState.takeCode]
  unfold Coding.read at hread
  split at hread
  case isTrue hcode =>
    rw [Option.map_eq_none_iff] at hread
    obtain ⟨hprev, _⟩ := h.fresh hread
    rw [if_pos (by omega), if_pos (.inr (by omega))]
  case isFalse hcode =>
    have hge : st.nextCode < code := by
      by_contra hlt
      rcases Nat.lt_or_ge code (2 ^ m) with hroot | hroot
      · rw [Coding.lookup_root hroot] at hread
        cases hread
      · have hfirst : (gifCoding m).first ≤ code := show 2 ^ m + 1 + 1 ≤ code by omega
        rw [Coding.lookup_entry hfirst, getElem?_eq_none_iff] at hread
        omega
    rw [if_pos (Nat.le_of_lt hge), if_pos (.inl hge)]

theorem Represents.popAll (h : Represents m st d) (n : Nat) : Represents m (st.popAll n) d :=
  ⟨h.next, h.next_le, h.size, h.max, h.root, h.entry, h.fresh, h.last⟩

/-- The body from a chain on, which gives the string and learns one more. -/
theorem Represents.takeChain (h : Represents m st d) (hm : SizeOk m)
    {stack : List UInt8}
    (hs : (gifCoding m).lookup ((gifCoding m).extend d s) code = some s)
    (hp : (gifCoding m).lookup d.entries p = some w) (happend : w ++ stack = s)
    (hroom : s.length ≤ tableSize) :
    ∃ st', st.takeChain m n code (p, stack) = some st' ∧
      Represents m st' ((gifCoding m).push d s) ∧ st'.bs = st.bs ∧
      st'.outPixels = st.outPixels ++ s.take (n - st.outPixels.length) ∧
      st'.stack = s.drop (n - st.outPixels.length) := by
  have hpow := hm.pow
  obtain ⟨hne, hshort⟩ := h.lookup_length hm hp
  have hlength : w.length + stack.length ≤ tableSize := by
    rw [← length_append, happend]
    exact hroom
  obtain ⟨r, hunwind, hr, hroot⟩ := h.unwind hm (tableSize + 1) p w stack hp (by omega) hlength
  obtain ⟨x, w, rfl⟩ := exists_cons_of_ne_nil hne
  have hx : x = UInt8.ofNat r := Option.some.inj hroot
  have hsuffix : st.ctx.suffix r = x := (h.root r hr).trans hx.symm
  have hr' : r < tableSize := by
    simp only [tableSize]
    omega
  have hload : load st.ctx.suffix (r : Int) = some x := by
    rw [load, if_pos ⟨Int.natCast_nonneg r, Int.ofNat_lt.mpr hr'⟩, Int.toNat_natCast, hsuffix]
  have hpush : pushByte (w ++ stack) x = some s := by
    rw [length_cons] at hlength
    rw [pushByte, if_pos (by rw [length_append]; omega), ← happend]
    rfl
  have hlearn := h.learn hm s hs (show s.head? = some x by rw [← happend]; rfl)
  obtain ⟨hbs, hstack, hout⟩ := addEntry_frame { st with stack := s, firstChar := x }
  refine ⟨_, ?_, hlearn.popAll n, hbs, ?_, ?_⟩
  · exact Option.bind_eq_some_iff.mpr ⟨_, hunwind, Option.bind_eq_some_iff.mpr
      ⟨_, hload, Option.bind_eq_some_iff.mpr ⟨_, hpush, rfl⟩⟩⟩
  · simp only [GIFLZWState.popAll, hstack, hout]
  · simp only [GIFLZWState.popAll, hstack, hout]

/-- Any other code gives its string, and one more is known. -/
theorem Represents.takeCode_some (h : Represents m st d) (hm : SizeOk m)
    (hcode : code < tableSize) (hstack : st.stack = [])
    (hread : (gifCoding m).read d code = some s) :
    ∃ st', st.takeCode m n code = some (some st') ∧ Represents m st' ((gifCoding m).push d s) ∧
      st'.bs = st.bs ∧ st'.outPixels = st.outPixels ++ s.take (n - st.outPixels.length) ∧
      st'.stack = s.drop (n - st.outPixels.length) := by
  have hnext := h.next
  have hs := (gifCoding m).written_of_read (h.last_ne hm) hcode hread
  unfold Coding.read at hread
  split at hread
  -- the code that is being learnt
  case isTrue hnew =>
    obtain ⟨w, hw, rfl⟩ := Option.map_eq_some_iff.mp hread
    obtain ⟨p, hprev, hp, hhead⟩ := h.last w hw
    obtain ⟨hne, hshort⟩ := h.lookup_length hm hp
    have hfirst : w.take 1 = [st.firstChar] := by
      obtain ⟨x, w, rfl⟩ := exists_cons_of_ne_nil hne
      rw [Option.some.inj hhead]
      rfl
    obtain ⟨st', hst', hrest⟩ := h.takeChain (n := n) hm hs hp (by rw [hfirst])
      (by rw [length_append, hfirst]; exact hshort)
    refine ⟨st', ?_, hrest⟩
    rw [GIFLZWState.takeCode, if_pos (by omega), if_neg (by omega), hstack, hprev]
    rw [show pushByte [] st.firstChar = some [st.firstChar] from if_pos (by decide)]
    simp only [Option.bind_eq_bind, Option.bind_some, hst', Option.map_some]
  case isFalse hold =>
    have hlt := (gifCoding m).lookup_lt hread
    obtain ⟨hne, hshort⟩ := h.lookup_length hm hread
    obtain ⟨st', hst', hrest⟩ := h.takeChain (n := n) hm hs hread (append_nil s)
      (Nat.le_of_lt hshort)
    refine ⟨st', ?_, hrest⟩
    rw [GIFLZWState.takeCode, if_neg (by omega), hstack, hst', Option.map_some]

end Unisym.Picture
