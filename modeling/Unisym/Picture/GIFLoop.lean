/-
# `GIFLoop` — `DecodeGIF_LZW` undoes every encoder

On any input the decoder returns, and it returns true with all pixels written if the codes give them
before an end code and before the input ends (`Supplies`).  On an encoding it writes the encoded
indices; it leaves `pos` behind the zero block unless the byte with the last bit that it needs is the
last one of a sub-block (`decodeGIFLZW_correct_iff`).
-/
import Unisym.Picture.GIFSpec
import Unisym.Library.Steps

namespace Unisym.Picture

open BitCodes Chunks LZW GIFBitStream List

variable {m n : Nat} {st : GIFLZWState} {d : Dict UInt8} (undefinedShift : UndefinedShift)

/-! ## The invariant of the loop -/

/-- A clear code makes the dictionary that of the beginning. -/
theorem Represents.clear (h : Represents m st d) (hm : SizeOk m) :
    Represents m (st.clear m) Coding.cleared := by
  have hpow := hm.pow
  refine ⟨rfl, ?_, ?_, rfl, h.root, nofun, fun _ => ⟨rfl, rfl⟩, nofun⟩
  · show 2 ^ m + 1 + 1 ≤ 4096
    omega
  · exact (size_pow_add (show 1 + 0 < 2 ^ m by omega)).symm

theorem initialState_represents (hm : SizeOk m) (ctx : GIFLZWContext) (data : List UInt8) (pos : Nat) :
    Represents m (initialState ctx data pos m) Coding.cleared := by
  have hpow := hm.pow
  refine ⟨rfl, ?_, ?_, rfl, fun i hi => if_pos hi, nofun, fun _ => ⟨rfl, rfl⟩, nofun⟩
  · show 2 ^ m + 1 + 1 ≤ 4096
    omega
  · exact (size_pow_add (show 1 + 0 < 2 ^ m by omega)).symm

/-- The loop is in the middle of its `n` pixels. -/
structure Decoding (m n : Nat) (st : GIFLZWState) (d : Dict UInt8) : Prop where
  tables : Represents m st d
  stack : st.outPixels.length < n → st.stack = []
  written : st.outPixels.length ≤ n

theorem Decoding.reader (h : Decoding m n st d) (bs : GIFBitStream) :
    Decoding m n { st with bs := bs } d :=
  ⟨⟨h.tables.next, h.tables.next_le, h.tables.size, h.tables.max, h.tables.root, h.tables.entry,
    h.tables.fresh, h.tables.last⟩, h.stack, h.written⟩

theorem Decoding.clear (h : Decoding m n st d) (hm : SizeOk m) :
    Decoding m n (st.clear m) Coding.cleared :=
  ⟨h.tables.clear hm, h.stack, h.written⟩

variable {code : Nat} {codes : List (Nat × Nat)} {text : List UInt8}

/-- A string goes to the pixels, as much of it as is wanted. -/
theorem Decoding.takeCode (h : Decoding m n st d) (hm : SizeOk m) (hmore : st.outPixels.length < n) (hcode : code < tableSize) {s : List UInt8}
    (hread : (gifCoding m).read d code = some s) :
    ∃ st', st.takeCode m n code = some (some st') ∧ Decoding m n st' ((gifCoding m).push d s) ∧
      st'.bs = st.bs ∧ st'.outPixels = st.outPixels ++ s.take (n - st.outPixels.length) ∧
      n - st'.outPixels.length = n - st.outPixels.length - s.length := by
  obtain ⟨st', hst', hrep, hbs, hout, hstack⟩ :=
    h.tables.takeCode_some (n := n) hm hcode (h.stack hmore) hread
  have hlength := congrArg List.length hout
  rw [length_append, length_take] at hlength
  refine ⟨st', hst', ⟨hrep, fun hlt => ?_, by omega⟩, hbs, hout, by omega⟩
  rw [hstack, drop_eq_nil_iff]
  omega

/-! ## Any input -/

/-- The codes of the stream give `n` more pixels, or one of them has no string, before an end code and
before the input ends. -/
inductive Supplies (undefinedShift : UndefinedShift) (m : Nat) : GIFBitStream → Dict UInt8 → Nat → Prop
  | done {bs : GIFBitStream} {d : Dict UInt8} : Supplies undefinedShift m bs d 0
  | clear {bs bs' : GIFBitStream} {d : Dict UInt8} {n : Nat} :
      bs.readBits undefinedShift (gifWidth m ((gifCoding m).size d)) = some (some (2 ^ m), bs') →
      Supplies undefinedShift m bs' Coding.cleared n → Supplies undefinedShift m bs d n
  | stray {bs bs' : GIFBitStream} {d : Dict UInt8} {n code : Nat} :
      bs.readBits undefinedShift (gifWidth m ((gifCoding m).size d)) = some (some code, bs') →
      code ≠ 2 ^ m → code ≠ 2 ^ m + 1 → (gifCoding m).read d code = none →
      Supplies undefinedShift m bs d n
  | string {bs bs' : GIFBitStream} {d : Dict UInt8} {n code : Nat} {s : List UInt8} :
      bs.readBits undefinedShift (gifWidth m ((gifCoding m).size d)) = some (some code, bs') →
      code ≠ 2 ^ m → code ≠ 2 ^ m + 1 → (gifCoding m).read d code = some s →
      Supplies undefinedShift m bs' ((gifCoding m).push d s) (n - s.length) →
      Supplies undefinedShift m bs d n

theorem supplies_iff {undefinedShift : UndefinedShift} {bs bs' : GIFBitStream} {code : Option Nat}
    (hn : 0 < n)
    (hread : bs.readBits undefinedShift (gifWidth m ((gifCoding m).size d)) = some (code, bs')) :
    Supplies undefinedShift m bs d n ↔ ∃ k, code = some k ∧ k ≠ 2 ^ m + 1 ∧
      (k = 2 ^ m ∧ Supplies undefinedShift m bs' Coding.cleared n ∨
        k ≠ 2 ^ m ∧ ∀ s, (gifCoding m).read d k = some s →
          Supplies undefinedShift m bs' ((gifCoding m).push d s) (n - s.length)) := by
  constructor
  · intro h
    cases h with
    | done => exact absurd hn (Nat.lt_irrefl 0)
    | clear hread' hrest =>
      rw [hread', Option.some.injEq, Prod.mk.injEq] at hread
      obtain ⟨rfl, rfl⟩ := hread
      exact ⟨_, rfl, Nat.ne_of_lt (Nat.lt_succ_self _), .inl ⟨rfl, hrest⟩⟩
    | stray hread' hclear hend hnone =>
      rw [hread', Option.some.injEq, Prod.mk.injEq] at hread
      obtain ⟨rfl, rfl⟩ := hread
      exact ⟨_, rfl, hend, .inr ⟨hclear, fun s hs => by rw [hnone] at hs; cases hs⟩⟩
    | string hread' hclear hend hs hrest =>
      rw [hread', Option.some.injEq, Prod.mk.injEq] at hread
      obtain ⟨rfl, rfl⟩ := hread
      refine ⟨_, rfl, hend, .inr ⟨hclear, fun s' hs' => ?_⟩⟩
      rw [hs, Option.some.injEq] at hs'
      exact hs' ▸ hrest
  · rintro ⟨k, rfl, hend, ⟨rfl, hrest⟩ | ⟨hclear, hrest⟩⟩
    · exact .clear hread hrest
    · cases hs : (gifCoding m).read d k with
      | none => exact .stray hread hclear hend hs
      | some s => exact .string hread hclear hend hs (hrest s hs)

theorem finish_total (st : GIFLZWState) (returned : Bool) :
    ∃ pos, st.finish returned = some ⟨returned, pos, st.outPixels⟩ := by
  obtain ⟨bs, hskip⟩ := skip_total st.bs
  exact ⟨bs.pos, by rw [GIFLZWState.finish, hskip]; rfl⟩

theorem Represents.size_pos (h : Represents m st d) (hm : SizeOk m) :
    0 < st.codeSize ∧ st.codeSize ≤ 12 := by
  have hpow := hm.pow
  have hnext := h.next
  have hle := h.next_le
  have hfirst : (gifCoding m).first = 2 ^ m + 1 + 1 := rfl
  have hlt : 2 ^ m + 1 + (gifCoding m).size d < 2 ^ 12 := by
    rw [Coding.size, Coding.extend]
    simp only [tableSize] at hle
    cases hlast : d.last with
    | none =>
      rw [(h.fresh hlast).2, length_nil]
      omega
    | some w =>
      dsimp only
      split
      case isTrue hroom =>
        simp only [gifCoding, tableSize] at hroom
        rw [length_append, length_singleton]
        omega
      case isFalse => omega
  rw [h.size, gifWidth]
  exact ⟨Nat.size_pos.mpr (by omega), Nat.size_le.mpr hlt⟩

/-- The loop ends, and it returns true with all pixels written just when the codes supply them. -/
theorem Decoding.lzwLoop (hm : SizeOk m) : (fuel : Nat) → {st : GIFLZWState} → {d : Dict UInt8} →
    Decoding m n st d → st.bs.weight < fuel →
    ∃ r, lzwLoop undefinedShift m n fuel st = some r ∧
      ((r.returned = true → r.outPixels.length = n) ↔
        Supplies undefinedShift m st.bs d (n - st.outPixels.length))
  | fuel + 1, st, d, h, hfuel => by
    rw [Picture.lzwLoop]
    by_cases hmore : st.outPixels.length < n
    · obtain ⟨hpos, hle⟩ := h.tables.size_pos hm
      obtain ⟨code, bs', hread, hcode⟩ := readBits_total undefinedShift st.bs hpos
      have hstep := supplies_iff (Nat.sub_pos_of_lt hmore) (h.tables.size ▸ hread)
      have hbs := h.reader bs'
      -- the loop breaks early, and returns true
      have hearly : ¬ Supplies undefinedShift m st.bs d (n - st.outPixels.length) →
          ∃ r, ({ st with bs := bs' } : GIFLZWState).finish true = some r ∧
            ((r.returned = true → r.outPixels.length = n) ↔
              Supplies undefinedShift m st.bs d (n - st.outPixels.length)) := by
        intro hnot
        obtain ⟨pos, hfinish⟩ := finish_total { st with bs := bs' } true
        exact ⟨_, hfinish, iff_of_false (fun hall => Nat.ne_of_lt hmore (hall rfl)) hnot⟩
      rw [if_pos hmore, hread]
      simp only [some_bind]
      cases code with
      | none =>
        refine hearly fun hsupplies => ?_
        obtain ⟨k, hk, _⟩ := hstep.mp hsupplies
        cases hk
      | some k =>
        obtain ⟨hk, hweight⟩ := hcode k rfl
        have hk12 : k < tableSize :=
          Nat.lt_of_lt_of_le hk (Nat.pow_le_pow_right (Nat.succ_pos 1) hle)
        dsimp only
        by_cases hend : k = 2 ^ m + 1
        · rw [if_pos hend]
          refine hearly fun hsupplies => ?_
          obtain ⟨_, ⟨⟩, hnot, _⟩ := hstep.mp hsupplies
          exact hnot hend
        rw [if_neg hend]
        by_cases hclear : k = 2 ^ m
        · rw [if_pos hclear]
          obtain ⟨r, hr, hiff⟩ := (hbs.clear hm).lzwLoop hm fuel (Nat.lt_of_lt_of_le hweight
            (Nat.le_of_lt_succ hfuel))
          refine ⟨r, hr, hiff.trans (Iff.trans ⟨fun hrest => ?_, fun hrest => ?_⟩ hstep.symm)⟩
          · exact ⟨k, rfl, hend, .inl ⟨hclear, hrest⟩⟩
          · obtain ⟨_, ⟨⟩, _, ⟨_, hrest⟩ | ⟨hnot, _⟩⟩ := hrest
            · exact hrest
            · exact absurd hclear hnot
        · rw [if_neg hclear]
          cases hs : (gifCoding m).read d k with
          | none =>
            obtain ⟨pos, hfinish⟩ := finish_total { st with bs := bs' } false
            rw [hbs.tables.takeCode_none hclear hend hs]
            refine ⟨_, hfinish, iff_of_true nofun (hstep.mpr ⟨k, rfl, hend, .inr ⟨hclear, ?_⟩⟩)⟩
            intro s hs'
            rw [hs] at hs'
            cases hs'
          | some s =>
            obtain ⟨st', hst', hnext, hbs', _, hleft⟩ := hbs.takeCode hm hmore hk12 hs
            obtain ⟨r, hr, hiff⟩ := hnext.lzwLoop hm fuel (hbs' ▸ Nat.lt_of_lt_of_le hweight
              (Nat.le_of_lt_succ hfuel))
            rw [hst']
            refine ⟨r, hr, hiff.trans (Iff.trans ?_ hstep.symm)⟩
            rw [hbs', hleft]
            constructor
            · intro hrest
              refine ⟨k, rfl, hend, .inr ⟨hclear, fun s' hs' => ?_⟩⟩
              rw [hs, Option.some.injEq] at hs'
              exact hs' ▸ hrest
            · rintro ⟨_, ⟨⟩, _, ⟨hnot, _⟩ | ⟨_, hrest⟩⟩
              · exact absurd hnot hclear
              · exact hrest s hs
    · obtain ⟨pos, hfinish⟩ := finish_total st true
      have hwritten : st.outPixels.length = n := Nat.le_antisymm h.written (Nat.le_of_not_lt hmore)
      rw [if_neg hmore, hfinish, hwritten, Nat.sub_self]
      exact ⟨_, rfl, iff_of_true (fun _ => hwritten) .done⟩

/-! ## Encodings -/

def isControl (m : Nat) (code : Nat × Nat) : Bool := code.1 == 2 ^ m || code.1 == 2 ^ m + 1

/-- The bits up to the last code that stands for indices. -/
def neededBits (m : Nat) : List (Nat × Nat) → Nat
  | [] => 0
  | code :: codes => if (code :: codes).all (isControl m) then 0 else code.2 + neededBits m codes

/-- The codes of a text, as a picture writes them. -/
abbrev GIFWrites (m : Nat) : Dict UInt8 → List (Nat × Nat) → List UInt8 → Prop :=
  (gifCoding m).Writes (2 ^ m) (2 ^ m + 1) (gifWidth m)

/-- A code that has a string is no clear and no end code. -/
theorem lookup_ne {entries : List (List UInt8)} {s : List UInt8}
    (h : (gifCoding m).lookup entries code = some s) : code ≠ 2 ^ m ∧ code ≠ 2 ^ m + 1 := by
  have hfirst : (gifCoding m).first = 2 ^ m + 1 + 1 := rfl
  have hroots : (gifCoding m).roots = 2 ^ m := rfl
  rcases (gifCoding m).lookup_cases h with hroot | ⟨hentry, _⟩ <;> omega

theorem all_control_iff
    (h : GIFWrites m d codes text) : codes.all (isControl m) = true ↔ text = [] := by
  induction h with
  | nil => simp
  | stop => simp [isControl]
  | clear _ ih => simp [isControl, ih]
  | code hs hlookup _ ih =>
    obtain ⟨hclear, hend⟩ := lookup_ne hlookup
    simp [isControl, hclear, hend, hs]

theorem neededBits_nil (h : GIFWrites m d codes []) :
    neededBits m codes = 0 := by
  have hall := (all_control_iff h).mpr rfl
  cases codes with
  | nil => rfl
  | cons code codes => rw [neededBits, if_pos hall]

theorem neededBits_cons {code : Nat × Nat}
    (h : GIFWrites m d (code :: codes) text) (htext : text ≠ []) :
    neededBits m (code :: codes) = code.2 + neededBits m codes := by
  rw [neededBits, if_neg fun hall => htext ((all_control_iff h).mp hall)]

variable {data : List UInt8} {blocks : List (List UInt8)} {behind : List UInt8}

/-- The decoder is where the rest of a stream has these codes. -/
structure AtCodes (blocks : List (List UInt8)) (codes : List (Nat × Nat)) (used : Nat) : Prop where
  value : ∃ pad, bytesValue blocks.flatten / 2 ^ used =
    packValue codes + 2 ^ packWidth codes * pad
  fits : used + packWidth codes ≤ 8 * blocks.flatten.length

theorem AtCodes.read {width used : Nat}
    (h : AtCodes blocks ((code, width) :: codes) used) (hblocks : BlocksOk blocks) {bs : GIFBitStream}
    (hreads : Reads data blocks behind ((used + 7) / 8) used bs) (hpos : 0 < width) (hle : width ≤ 12)
    (hcode : code < 2 ^ width) :
    ∃ bs', bs.readBits undefinedShift width = some (some code, bs') ∧
      Reads data blocks behind ((used + width + 7) / 8) (used + width) bs' ∧
      AtCodes blocks codes (used + width) := by
  obtain ⟨pad, hvalue⟩ := h.value
  have hfits := h.fits
  rw [packWidth] at hfits
  obtain ⟨hmod, hdiv⟩ := read_pack hcode hvalue
  obtain ⟨bs', hread, hreads'⟩ := hreads.readBits undefinedShift hblocks hpos hle (by omega)
  refine ⟨bs', by rw [hread, hmod], hreads', ⟨pad, ?_⟩, by omega⟩
  rw [Nat.pow_add, ← Nat.div_div_eq_div_mul, hdiv]

theorem lt_gifWidth {m k j : Nat} (h : k < 2 ^ m + 1 + 1 + j) : k < 2 ^ gifWidth m j :=
  Nat.lt_of_le_of_lt (Nat.le_of_lt_succ (by omega)) (Nat.lt_size_self (2 ^ m + 1 + j))

/-- The loop returns true, with these pixels and with the reader behind the first `used` bits. -/
def EndsWith (m n : Nat) (data : List UInt8) (blocks : List (List UInt8)) (behind : List UInt8)
    (fuel : Nat) (st : GIFLZWState) (pixels : List UInt8) (used : Nat) : Prop :=
  ∃ st' : GIFLZWState, lzwLoop undefinedShift m n fuel st = st'.finish true ∧
    st'.outPixels = pixels ∧ Reads data blocks behind ((used + 7) / 8) used st'.bs

theorem endsWith_done (hneeded : neededBits m codes = 0) {fuel used : Nat}
    (hreads : Reads data blocks behind ((used + 7) / 8) used st.bs) (hwritten : st.outPixels.length = n)
    (hfuel : codes.length < fuel) :
    EndsWith undefinedShift m n data blocks behind fuel st (st.outPixels ++ [])
      (used + neededBits m codes) := by
  obtain ⟨fuel, rfl⟩ : ∃ k, fuel = k + 1 := ⟨fuel - 1, by omega⟩
  rw [hneeded]
  exact ⟨st, by rw [lzwLoop, if_neg (by omega)], (append_nil _).symm, hreads⟩

/-- On the codes of a text the loop writes the text, and stops behind the last code that it needs. -/
theorem Decoding.encoded (hm : SizeOk m) (hblocks : BlocksOk blocks) (hwrites : GIFWrites m d codes text) :
    ∀ {fuel used : Nat} {st : GIFLZWState}, Decoding m n st d →
    Reads data blocks behind ((used + 7) / 8) used st.bs → AtCodes blocks codes used →
    st.outPixels.length + text.length = n → codes.length < fuel →
    EndsWith undefinedShift m n data blocks behind fuel st (st.outPixels ++ text)
      (used + neededBits m codes) := by
  induction hwrites with
  | nil => exact fun _ hreads _ hlength hfuel => endsWith_done _ rfl hreads hlength hfuel
  | @stop d =>
    exact fun _ hreads _ hlength hfuel =>
      endsWith_done _ (neededBits_nil (.stop (d := d))) hreads hlength hfuel
  | @clear d codes text hrest ih =>
    intro fuel used st h hreads hat hlength hfuel
    by_cases htext : text = []
    · subst htext
      exact endsWith_done _ (neededBits_nil (.clear hrest)) hreads hlength hfuel
    have hmore := length_pos_iff.mpr htext
    obtain ⟨fuel, rfl⟩ : ∃ k, fuel = k + 1 := ⟨fuel - 1, by omega⟩
    have hsize := h.tables.size
    obtain ⟨hpos, hle⟩ := h.tables.size_pos hm
    obtain ⟨bs', hread, hreads', hat'⟩ := hat.read undefinedShift hblocks hreads (hsize ▸ hpos)
      (hsize ▸ hle) (lt_gifWidth (by omega))
    obtain ⟨st', hloop, hout, hend⟩ := ih ((h.reader bs').clear hm) hreads' hat' hlength
      (Nat.lt_of_succ_lt_succ hfuel)
    rw [neededBits_cons (.clear hrest) htext, ← Nat.add_assoc]
    refine ⟨st', ?_, hout, hend⟩
    rw [← hsize] at hread
    rw [Picture.lzwLoop, if_pos (by omega), hread]
    simp only [some_bind]
    rw [if_neg (Nat.ne_of_lt (Nat.lt_succ_self _)), if_pos trivial]
    exact hloop
  | @code d code s codes text hs hlookup hrest ih =>
    intro fuel used st h hreads hat hlength hfuel
    have hspos := length_pos_iff.mpr hs
    rw [length_append] at hlength
    have htext : s ++ text ≠ [] := append_ne_nil_of_left_ne_nil hs _
    obtain ⟨fuel, rfl⟩ : ∃ k, fuel = k + 1 := ⟨fuel - 1, by omega⟩
    have hsize := h.tables.size
    obtain ⟨hpos, hle⟩ := h.tables.size_pos hm
    obtain ⟨hclear, hstop⟩ := lookup_ne hlookup
    have hlt : code < 2 ^ gifWidth m ((gifCoding m).size d) := by
      have := (gifCoding m).lookup_lt hlookup
      rw [Coding.length_extend] at this
      exact lt_gifWidth this
    obtain ⟨bs', hread, hreads', hat'⟩ := hat.read undefinedShift hblocks hreads (hsize ▸ hpos)
      (hsize ▸ hle) hlt
    have hcode : code < tableSize :=
      Nat.lt_of_lt_of_le hlt (Nat.pow_le_pow_right (Nat.succ_pos 1) (hsize ▸ hle))
    have hcodeRead := (gifCoding m).read_of_written (h.tables.last_ne hm) hlookup
    obtain ⟨st₁, htake, hnext, hbs, hout₁, hleft⟩ :=
      (h.reader bs').takeCode hm (show st.outPixels.length < n by omega) hcode hcodeRead
    have hout₁' : st₁.outPixels = st.outPixels ++ s := by
      rw [hout₁]
      exact congrArg (st.outPixels ++ ·) (take_of_length_le (by
        show s.length ≤ n - st.outPixels.length
        omega))
    obtain ⟨st', hloop, hout, hend⟩ := ih hnext (hbs ▸ hreads') hat'
      (by rw [hout₁', length_append]; omega) (Nat.lt_of_succ_lt_succ hfuel)
    rw [neededBits_cons (.code hs hlookup hrest) htext, ← Nat.add_assoc]
    refine ⟨st', ?_, ?_, hend⟩
    · rw [← hsize] at hread
      rw [Picture.lzwLoop, if_pos (by omega), hread]
      simp only [some_bind]
      rw [if_neg hstop, if_neg hclear, htake]
      exact hloop
    · rw [hout, hout₁', append_assoc]

theorem length_le_packWidth
    (h : GIFWrites m d codes text) : codes.length ≤ packWidth codes := by
  have hpos : ∀ j, 0 < gifWidth m j := fun j =>
    Nat.size_pos.mpr (Nat.lt_of_lt_of_le (Nat.succ_pos _) (Nat.le_add_right (2 ^ m + 1) j))
  induction h with
  | nil => exact Nat.le_refl _
  | @stop d =>
    have := hpos ((gifCoding m).size d)
    simp only [packWidth, length_cons, length_nil]
    omega
  | @clear d _ _ _ ih =>
    have := hpos ((gifCoding m).size d)
    simp only [packWidth, length_cons]
    omega
  | @code d _ _ _ _ _ _ _ ih =>
    have := hpos ((gifCoding m).size d)
    simp only [packWidth, length_cons]
    omega

/-- An encoding of indices: a clear code and the codes behind it, written into bytes, and these cut into
sub-blocks. -/
structure GIFEncoding where
  minCodeSize : Nat
  codes : List (Nat × Nat)
  indices : List UInt8
  blocks : List (List UInt8)
  size_ge : 2 ≤ minCodeSize
  size_le : minCodeSize ≤ 8
  clears : ∃ rest, codes = (2 ^ minCodeSize, minCodeSize + 1) :: rest ∧
    GIFWrites minCodeSize Coding.cleared rest indices
  blocksOk : BlocksOk blocks
  packed : ∃ pad, bytesValue blocks.flatten = packValue codes + 2 ^ packWidth codes * pad
  fits : packWidth codes ≤ 8 * blocks.flatten.length

namespace GIFEncoding

/-- The bytes from the minimum code size to the zero block. -/
def bytes (e : GIFEncoding) : List UInt8 :=
  UInt8.ofNat e.minCodeSize :: (e.blocks.flatMap subBlock ++ [0])

/-- The byte with the last bit that is needed is the last one of a sub-block, or no bit is needed. -/
def EndsBlock (e : GIFEncoding) : Prop :=
  ∃ k, (neededBits e.minCodeSize e.codes + 7) / 8 = ((e.blocks.take k).map List.length).sum

theorem sizeOk (e : GIFEncoding) : SizeOk e.minCodeSize := ⟨e.size_ge, Nat.le_trans e.size_le (by decide)⟩

theorem writes (e : GIFEncoding) : GIFWrites e.minCodeSize Coding.cleared e.codes e.indices := by
  have hpow := e.sizeOk.pow
  obtain ⟨rest, hcodes, hrest⟩ := e.clears
  have hwidth : gifWidth e.minCodeSize ((gifCoding e.minCodeSize).size Coding.cleared) =
      e.minCodeSize + 1 := size_pow_add (show 1 + 0 < 2 ^ e.minCodeSize by omega)
  rw [hcodes, ← hwidth]
  exact .clear hrest

/-- On an encoding the decoder writes the indices, and goes behind the zero block unless a sub-block ends
where no more bits are needed. -/
theorem decodes (e : GIFEncoding) (ctx : GIFLZWContext) {data behind : List UInt8} {pos : Nat}
    (hdata : data.drop pos = e.bytes ++ behind) :
    ∃ endPos, decodeGIFLZW undefinedShift ctx data pos e.indices.length =
        some ⟨true, endPos, e.indices⟩ ∧
      (endPos = pos + e.bytes.length ↔ ¬ e.EndsBlock) := by
  have hm := e.sizeOk
  obtain ⟨hget, hrest⟩ := getElem?_of_drop hdata
  have htoNat : (UInt8.ofNat e.minCodeSize).toNat = e.minCodeSize :=
    UInt8.toNat_ofNat_of_lt' (Nat.lt_of_le_of_lt e.size_le (by decide))
  have hreads : Reads data e.blocks behind ((0 + 7) / 8) 0
      (initialState ctx data (pos + 1) e.minCodeSize).bs := by
    refine ⟨rfl, Nat.zero_le _, Nat.zero_le _, rfl, ?_, ?_, rfl⟩
    · simp [initialState, GIFBitStream.init, buffered, bytesValue]
    · exact hrest.trans (append_assoc _ _ _)
  have hat : AtCodes e.blocks e.codes 0 := by
    obtain ⟨pad, hpad⟩ := e.packed
    exact ⟨⟨pad, by rw [Nat.pow_zero, Nat.div_one, hpad]⟩, by rw [Nat.zero_add]; exact e.fits⟩
  have hlong := hreads.length_lt e.blocksOk
  have hfuel : e.codes.length < 20 * data.length + 20 := by
    have := length_le_packWidth e.writes
    have := e.fits
    omega
  have hdecoding : Decoding e.minCodeSize e.indices.length
      (initialState ctx data (pos + 1) e.minCodeSize) Coding.cleared :=
    ⟨initialState_represents hm ctx data (pos + 1), fun _ => rfl, Nat.zero_le _⟩
  obtain ⟨st', hloop, hout, hend⟩ := hdecoding.encoded undefinedShift hm e.blocksOk e.writes hreads hat
    (Nat.zero_add _) hfuel
  obtain ⟨bs', hskip, hiff⟩ := hend.skip e.blocksOk
  have hlength := congrArg List.length hdata
  rw [length_drop, length_append] at hlength
  have hnonempty : 0 < e.bytes.length := Nat.succ_pos _
  refine ⟨bs'.pos, ?_, ?_⟩
  · rw [decodeGIFLZW, hget]
    dsimp only
    rw [htoNat, if_neg (by have := hm.ge; have := hm.le; omega), hloop, GIFLZWState.finish, hskip,
      hout]
    rfl
  · have hpos : bs'.pos = pos + e.bytes.length ↔ bs'.pos + behind.length = data.length := by omega
    rw [hpos, hiff, Ne, leftAfter_nil_iff _ _ _ e.blocksOk.ne_nil (by
      rw [nil_append]
      exact hend.bytes_le)]
    simp only [EndsBlock, Nat.zero_add, length_nil]

end GIFEncoding

/-! ## The claim -/

/-- The decoder returns, within its input and its tables, and true only with all pixels written; and it
undoes every encoding of `n` indices. -/
structure DecodesRight (undefinedShift : UndefinedShift) (ctx : GIFLZWContext) (data : List UInt8)
    (pos n : Nat) : Prop where
  returns : ∃ r, decodeGIFLZW undefinedShift ctx data pos n = some r ∧
    (r.returned = true → r.outPixels.length = n)
  undoes : ∀ (e : GIFEncoding) (behind : List UInt8), data.drop pos = e.bytes ++ behind →
    e.indices.length = n →
    decodeGIFLZW undefinedShift ctx data pos n = some ⟨true, pos + e.bytes.length, e.indices⟩

/-- The decoder returns on any input, and true with all pixels written just when the codes supply them. -/
theorem decodeGIFLZW_returns (ctx : GIFLZWContext) (data : List UInt8) (pos n : Nat) :
    ∃ r, decodeGIFLZW undefinedShift ctx data pos n = some r ∧
      ((r.returned = true → r.outPixels.length = n) ↔
        ∀ size, data[pos]? = some size → 2 ≤ size.toNat → size.toNat ≤ 11 →
          Supplies undefinedShift size.toNat (GIFBitStream.init data (pos + 1)) Coding.cleared n) := by
  rw [decodeGIFLZW]
  cases hget : data[pos]? with
  | none => exact ⟨_, rfl, iff_of_true nofun nofun⟩
  | some size =>
    dsimp only
    split
    case isTrue hrange =>
      refine ⟨_, rfl, iff_of_true nofun ?_⟩
      rintro size' ⟨⟩ hge hle
      omega
    case isFalse hrange =>
      have hm : SizeOk size.toNat := ⟨by omega, by omega⟩
      have hdecoding : Decoding size.toNat n (initialState ctx data (pos + 1) size.toNat)
          Coding.cleared :=
        ⟨initialState_represents hm ctx data (pos + 1), fun _ => rfl, Nat.zero_le _⟩
      have hfuel : (initialState ctx data (pos + 1) size.toNat).bs.weight <
          20 * data.length + 20 := by
        show 20 * (data.length - (pos + 1)) + 0 < _
        omega
      obtain ⟨r, hr, hiff⟩ := hdecoding.lzwLoop undefinedShift hm _ hfuel
      refine ⟨r, hr, hiff.trans ⟨?_, fun h => h size rfl hm.ge hm.le⟩⟩
      rintro h size' ⟨⟩ _ _
      exact h

/-- The decoder does what it should just when the codes supply all pixels (before an end code and before
the input ends) or one of them is wrong, and no encoding has a sub-block end where no more bits are
needed. -/
theorem decodeGIFLZW_correct_iff (ctx : GIFLZWContext) (data : List UInt8) (pos n : Nat) :
    DecodesRight undefinedShift ctx data pos n ↔
      (∀ size, data[pos]? = some size → 2 ≤ size.toNat → size.toNat ≤ 11 →
        Supplies undefinedShift size.toNat (GIFBitStream.init data (pos + 1)) Coding.cleared n) ∧
      ∀ (e : GIFEncoding) (behind : List UInt8), data.drop pos = e.bytes ++ behind →
        e.indices.length = n → ¬ e.EndsBlock := by
  obtain ⟨r, hr, hiff⟩ := decodeGIFLZW_returns undefinedShift ctx data pos n
  constructor
  · intro h
    obtain ⟨r', hr', hall⟩ := h.returns
    rw [hr, Option.some.injEq] at hr'
    subst hr'
    refine ⟨hiff.mp hall, ?_⟩
    rintro e behind hdata rfl
    obtain ⟨endPos, hdecode, hpos⟩ := e.decodes undefinedShift ctx hdata
    rw [h.undoes e behind hdata rfl, Option.some.injEq, GIFDecoded.mk.injEq] at hdecode
    exact hpos.mp hdecode.2.1.symm
  · rintro ⟨hsupplies, hblocks⟩
    refine ⟨⟨r, hr, hiff.mpr hsupplies⟩, ?_⟩
    rintro e behind hdata rfl
    obtain ⟨endPos, hdecode, hpos⟩ := e.decodes undefinedShift ctx hdata
    rw [hdecode, hpos.mpr (hblocks e behind hdata rfl)]

/-- One index, in one code behind the clear code. -/
def oneIndex : GIFEncoding where
  minCodeSize := 2
  codes := [(4, 3), (0, 3)]
  indices := [0]
  blocks := [[4]]
  size_ge := by decide
  size_le := by decide
  clears := ⟨[(0, 3)], rfl, show GIFWrites 2 Coding.cleared [(0, 3)] ([0] ++ []) from
    .code (by decide) (by decide) .nil⟩
  blocksOk := by
    unfold BlocksOk
    decide
  packed := ⟨0, by decide⟩
  fits := by decide

/-- Both codes are in the only byte, and `pos` stays on the zero block; and an end code at the beginning
leaves the pixel unwritten. -/
theorem oneIndex_wrong :
    ¬ DecodesRight (fun _ _ => 0) ⟨fun _ => 0, fun _ => 0⟩ [2, 1, 4, 0] 0 1 ∧
      ¬ DecodesRight (fun _ _ => 0) ⟨fun _ => 0, fun _ => 0⟩ [2, 1, 44, 0] 0 1 := by
  constructor
  · intro h
    have hright := h.undoes oneIndex [] (by decide) rfl
    have hwrong : decodeGIFLZW (fun _ _ => 0) ⟨fun _ => 0, fun _ => 0⟩ [2, 1, 4, 0] 0 1 =
        some ⟨true, 3, [0]⟩ := by decide
    rw [hwrong, Option.some.injEq, GIFDecoded.mk.injEq] at hright
    exact absurd hright.2.1 (by decide)
  · intro h
    obtain ⟨r, hr, hall⟩ := h.returns
    have hwrong : decodeGIFLZW (fun _ _ => 0) ⟨fun _ => 0, fun _ => 0⟩ [2, 1, 44, 0] 0 1 =
        some ⟨true, 3, []⟩ := by decide
    rw [hwrong, Option.some.injEq] at hr
    subst hr
    exact absurd (hall rfl) (by decide)

end Unisym.Picture
