/-
# `BmMemoman` — the bitmap memory manager

One bit a page, set when the page is available, and `avail_pointer`, the lowest
available page.  `add_range` gives a range of pages a state in three loops, bits
up to a byte, whole bytes, bits again, and then adapts the pointer.

`writeRange_bit` is what the loops do together; `addRange_tracks` keeps the
pointer, and `bookkeeping_of_served` carries both over a sequence of calls.
-/
import Unisym.Library.BitField

namespace Unisym.Datype

open Function

/-! ## The code -/

def pageCnt : Nat := 0x100000

/-- `BmMemoman`: a `Bitmap` of `size` bytes and the pointer. -/
structure BmMemoman where
  offs : Mem
  size : Nat
  availPointer : Nat

def bitof (offs : Mem) (idx : Nat) : Bool :=
  (offs (idx / 8)).toNat.testBit (idx % 8)

/-- `Bitmap::setof`: the value before, and the bytes after. -/
def setof (offs : Mem) (idx : Nat) (src : Bool) : Bool × Mem :=
  let byt := offs (idx / 8)
  let val := byt.toNat.testBit (idx % 8)
  (val, if xor val src then update offs (idx / 8) (byt ^^^ UInt8.ofNat (1 <<< (idx % 8))) else offs)

/-- First loop of `add_range`: bits up to a multiple of eight. -/
def setToByte (what : Bool) : Nat → Nat → Mem → Nat × Nat × Mem
  | 0, currPos, offs => (0, currPos, offs)
  | times + 1, currPos, offs =>
      if currPos % 8 = 0 then (times + 1, currPos, offs)
      else setToByte what times (currPos + 1) (setof offs currPos what).2

/-- Second loop of `add_range`: whole bytes. -/
def setBytes (what : Bool) : Nat → Nat → Mem → Nat × Nat × Mem
  | times + 8, currPos, offs =>
      setBytes what times (currPos + 8) (update offs (currPos / 8) (if what then 0xFF else 0x00))
  | times, currPos, offs => (times, currPos, offs)

/-- Third loop of `add_range`: the bits that are left. -/
def setBits (what : Bool) : Nat → Nat → Mem → Mem
  | 0, _, offs => offs
  | times + 1, currPos, offs => setBits what times (currPos + 1) (setof offs currPos what).2

/-- The three loops of `add_range`. -/
def writeRange (offs : Mem) (headPos lastPos : Nat) (what : Bool) : Mem :=
  let (times, currPos, offs) := setToByte what (lastPos - headPos) headPos offs
  let (times, currPos, offs) := setBytes what times currPos offs
  setBits what times currPos offs

/-- The loop of `update_avail_pointer`: the next available page, or the number
of bits.  The first argument bounds the rounds. -/
def nextAvail (offs : Mem) (bits : Nat) : Nat → Nat → Nat
  | 0, avail => avail
  | fuel + 1, avail =>
      if bitof offs avail then avail
      else if avail + 1 ≥ bits then avail + 1
      else nextAvail offs bits fuel (avail + 1)

def updateAvailPointer (bm : BmMemoman) (headPos lastPos : Nat) (what : Bool) : BmMemoman :=
  if what then { bm with availPointer := min bm.availPointer headPos }
  else if bm.availPointer = headPos then
    { bm with availPointer := nextAvail bm.offs (bm.size * 8) (bm.size * 8) lastPos }
  else bm

def BmMemoman.addRange (bm : BmMemoman) (headPos lastPos : Nat) (what : Bool) : BmMemoman :=
  if headPos ≥ lastPos ∨ headPos ≥ pageCnt ∨ lastPos ≥ pageCnt then bm
  else updateAvailPointer { bm with offs := writeRange bm.offs headPos lastPos what }
    headPos lastPos what

/-- A manager of a zeroed bitmap over the pages; `w` is the width of a word. -/
def BmMemoman.zeroed (w : Nat) : BmMemoman := ⟨fun _ => 0, pageCnt / 8, 2 ^ w - 1⟩

/-! ## The bits -/

theorem bitof_update (offs : Mem) (a : Nat) (b : UInt8) (i : Nat) :
    bitof (update offs a b) i = if i / 8 = a then b.toNat.testBit (i % 8) else bitof offs i := by
  unfold bitof
  by_cases h : i / 8 = a
  · rw [if_pos h, h, update_self]
  · rw [if_neg h, update_of_ne h]

theorem testBit_xor_bit (b : UInt8) {k : Nat} (hk : k < 8) (j : Nat) :
    (b ^^^ UInt8.ofNat (1 <<< k)).toNat.testBit j = xor (b.toNat.testBit j) (decide (k = j)) := by
  have hlt : 2 ^ k < 2 ^ 8 := Nat.pow_lt_pow_right (by decide) hk
  rw [UInt8.toNat_xor, UInt8.toNat_ofNat', Nat.one_shiftLeft, Nat.mod_eq_of_lt hlt,
    Nat.testBit_xor, Nat.testBit_two_pow]

theorem bitof_setof (offs : Mem) (idx : Nat) (src : Bool) (i : Nat) :
    bitof (setof offs idx src).2 i = if i = idx then src else bitof offs i := by
  have hval : (offs (idx / 8)).toNat.testBit (idx % 8) = bitof offs idx := rfl
  unfold setof
  dsimp only
  rw [hval]
  cases hx : xor (bitof offs idx) src with
  | false =>
    rw [if_neg (by decide)]
    have hsrc : bitof offs idx = src := by simpa using hx
    by_cases hi : i = idx
    · rw [if_pos hi, hi, hsrc]
    · rw [if_neg hi]
  | true =>
    rw [if_pos rfl, bitof_update]
    by_cases hbyte : i / 8 = idx / 8
    · rw [if_pos hbyte, testBit_xor_bit _ (Nat.mod_lt _ (by decide)), ← hbyte]
      change xor (bitof offs i) _ = _
      by_cases hi : i = idx
      · subst hi
        rw [if_pos rfl, decide_eq_true rfl]
        revert hx
        cases bitof offs i <;> cases src <;> decide
      · have hbit : ¬idx % 8 = i % 8 := by omega
        rw [if_neg hi, decide_eq_false hbit, Bool.xor_false]
    · have hi : ¬i = idx := fun h => hbyte (by rw [h])
      rw [if_neg hbyte, if_neg hi]

/-- The bits `pos .. pos + n` are `what`, the others as before. -/
def BitsSet (offs offs' : Mem) (pos n : Nat) (what : Bool) : Prop :=
  ∀ i, bitof offs' i = if pos ≤ i ∧ i < pos + n then what else bitof offs i

theorem BitsSet.zero (offs : Mem) (pos : Nat) (what : Bool) : BitsSet offs offs pos 0 what :=
  fun i => by rw [if_neg (by omega)]

theorem BitsSet.append {offs₁ offs₂ offs₃ : Mem} {pos n k : Nat} {what : Bool}
    (h₁ : BitsSet offs₁ offs₂ pos n what) (h₂ : BitsSet offs₂ offs₃ (pos + n) k what) :
    BitsSet offs₁ offs₃ pos (n + k) what := by
  intro i
  rw [h₂ i, h₁ i]
  by_cases hlo : pos ≤ i ∧ i < pos + n
  · rw [if_pos hlo, if_pos (by omega : pos ≤ i ∧ i < pos + (n + k)), ite_self]
  · rw [if_neg hlo]
    by_cases hhi : pos + n ≤ i ∧ i < pos + n + k
    · rw [if_pos hhi, if_pos (by omega)]
    · rw [if_neg hhi, if_neg (by omega)]

theorem bitsSet_setof (offs : Mem) (pos : Nat) (what : Bool) :
    BitsSet offs (setof offs pos what).2 pos 1 what := by
  intro i
  rw [bitof_setof]
  by_cases hi : i = pos
  · rw [if_pos hi, if_pos (by omega)]
  · rw [if_neg hi, if_neg (by omega)]

theorem bitsSet_byte (offs : Mem) {pos : Nat} (hpos : pos % 8 = 0) (what : Bool) :
    BitsSet offs (update offs (pos / 8) (if what then 0xFF else 0x00)) pos 8 what := by
  intro i
  rw [bitof_update]
  by_cases hi : i / 8 = pos / 8
  · have hin : pos ≤ i ∧ i < pos + 8 := by omega
    have hbyte : ∀ b : Bool, ∀ k < 8,
        (if b then 0xFF else 0x00 : UInt8).toNat.testBit k = b := by decide
    rw [if_pos hi, if_pos hin, hbyte what _ (Nat.mod_lt _ (by decide))]
  · rw [if_neg hi, if_neg (by omega)]

theorem setToByte_spec (what : Bool) : ∀ (times pos : Nat) (offs : Mem) {t p : Nat} {offs' : Mem},
    setToByte what times pos offs = (t, p, offs') →
      p + t = pos + times ∧ (t = 0 ∨ p % 8 = 0) ∧ BitsSet offs offs' pos (p - pos) what ∧ pos ≤ p
  | 0, pos, offs, _, _, _, h => by
    cases h
    rw [Nat.sub_self]
    exact ⟨rfl, Or.inl rfl, BitsSet.zero _ _ _, le_rfl⟩
  | times + 1, pos, offs, t, p, offs', h => by
    unfold setToByte at h
    by_cases hpos : pos % 8 = 0
    · rw [if_pos hpos] at h
      cases h
      rw [Nat.sub_self]
      exact ⟨rfl, Or.inr hpos, BitsSet.zero _ _ _, le_rfl⟩
    · rw [if_neg hpos] at h
      obtain ⟨hsum, halign, hbits, hle⟩ := setToByte_spec what times (pos + 1) _ h
      refine ⟨by omega, halign, ?_, by omega⟩
      rw [show p - pos = 1 + (p - (pos + 1)) by omega]
      exact (bitsSet_setof offs pos what).append hbits

theorem setBytes_spec (what : Bool) (times pos : Nat) (offs : Mem) {t p : Nat} {offs' : Mem}
    (halign : times = 0 ∨ pos % 8 = 0) (h : setBytes what times pos offs = (t, p, offs')) :
    p + t = pos + times ∧ BitsSet offs offs' pos (p - pos) what ∧ pos ≤ p := by
  fun_induction setBytes what times pos offs with
  | case1 times pos offs ih =>
    have hpos : pos % 8 = 0 := by omega
    obtain ⟨hsum, hbits, hle⟩ := ih (Or.inr (by omega)) h
    refine ⟨by omega, ?_, by omega⟩
    rw [show p - pos = 8 + (p - (pos + 8)) by omega]
    exact (bitsSet_byte offs hpos what).append hbits
  | case2 times pos offs =>
    cases h
    rw [Nat.sub_self]
    exact ⟨rfl, BitsSet.zero _ _ _, le_rfl⟩

theorem setBits_spec (what : Bool) : ∀ (times pos : Nat) (offs : Mem),
    BitsSet offs (setBits what times pos offs) pos times what
  | 0, pos, offs => BitsSet.zero _ _ _
  | times + 1, pos, offs => by
    rw [setBits, Nat.add_comm times 1]
    exact (bitsSet_setof offs pos what).append (setBits_spec what times (pos + 1) _)

/-- The three loops together: the bits of the range are set and no others. -/
theorem writeRange_bit (offs : Mem) (headPos lastPos : Nat) (what : Bool) :
    BitsSet offs (writeRange offs headPos lastPos what) headPos (lastPos - headPos) what := by
  rcases h₁ : setToByte what (lastPos - headPos) headPos offs with ⟨t₁, p₁, offs₁⟩
  rcases h₂ : setBytes what t₁ p₁ offs₁ with ⟨t₂, p₂, offs₂⟩
  obtain ⟨hsum₁, halign, hbits₁, hle₁⟩ := setToByte_spec what _ _ _ h₁
  obtain ⟨hsum₂, hbits₂, hle₂⟩ := setBytes_spec what _ _ _ halign h₂
  unfold writeRange
  rw [h₁]
  dsimp only
  rw [h₂]
  dsimp only
  rw [show lastPos - headPos = p₁ - headPos + (p₂ - p₁ + t₂) by omega]
  refine hbits₁.append ?_
  rw [show headPos + (p₁ - headPos) = p₁ by omega]
  refine hbits₂.append ?_
  rw [show p₁ + (p₂ - p₁) = p₂ by omega]
  exact setBits_spec what t₂ p₂ offs₂

/-! ## The pointer -/

theorem nextAvail_spec (offs : Mem) (bits : Nat) : ∀ (fuel avail : Nat),
    avail < bits → bits ≤ avail + fuel →
      avail ≤ nextAvail offs bits fuel avail ∧
      (∀ i, avail ≤ i → i < nextAvail offs bits fuel avail → bitof offs i = false) ∧
      (nextAvail offs bits fuel avail < bits →
        bitof offs (nextAvail offs bits fuel avail) = true)
  | 0, avail, hlt, hfuel => by omega
  | fuel + 1, avail, hlt, hfuel => by
    unfold nextAvail
    cases hbit : bitof offs avail with
    | true =>
      rw [if_pos rfl]
      exact ⟨le_rfl, fun i h₁ h₂ => by omega, fun _ => hbit⟩
    | false =>
      rw [if_neg (by decide)]
      have hstep : ∀ i, avail ≤ i → i < avail + 1 → bitof offs i = false := fun i h₁ h₂ => by
        rw [show i = avail by omega, hbit]
      by_cases hend : avail + 1 ≥ bits
      · rw [if_pos hend]
        exact ⟨by omega, hstep, fun h => by omega⟩
      · rw [if_neg hend]
        obtain ⟨hle, hfree, hfound⟩ := nextAvail_spec offs bits fuel (avail + 1) (by omega)
          (by omega)
        refine ⟨by omega, fun i h₁ h₂ => ?_, hfound⟩
        by_cases hi : i < avail + 1
        · exact hstep i h₁ hi
        · exact hfree i (by omega) h₂

/-- The available pages. -/
def BmMemoman.available (bm : BmMemoman) : Set Nat := {i | i < pageCnt ∧ bitof bm.offs i = true}

/-- What `add_range` keeps: no available page is below the pointer, and the
pointer is at one unless it is past the pages. -/
structure BmMemoman.Tracks (bm : BmMemoman) : Prop where
  covers : pageCnt ≤ bm.size * 8
  below : ∀ i ∈ bm.available, bm.availPointer ≤ i
  attained : bm.availPointer < pageCnt → bitof bm.offs bm.availPointer = true

/-- Where some page is available, the pointer is at the lowest. -/
def BmMemoman.PointsToLowest (bm : BmMemoman) : Prop :=
  bm.available.Nonempty → IsLeast bm.available bm.availPointer

variable {bm : BmMemoman} {r : AddRange}

theorem BmMemoman.Tracks.pointsToLowest (h : bm.Tracks) : bm.PointsToLowest := by
  rintro ⟨i, hi⟩
  have hlt : bm.availPointer < pageCnt := lt_of_le_of_lt (h.below i hi) hi.1
  exact ⟨⟨hlt, h.attained hlt⟩, h.below⟩

theorem bitof_zeroed (w i : Nat) : bitof (BmMemoman.zeroed w).offs i = false :=
  Nat.zero_testBit (i % 8)

theorem tracks_zeroed {w : Nat} (hw : 32 ≤ w) : (BmMemoman.zeroed w).Tracks where
  covers := by
    change (0x100000 : Nat) ≤ 0x100000 / 8 * 8
    decide
  below := fun i hi => by
    have hbit := hi.2
    rw [bitof_zeroed] at hbit
    cases hbit
  attained := fun h => by
    have hpow : 2 ^ 32 ≤ 2 ^ w := Nat.pow_le_pow_right (by decide) hw
    have hlt : 2 ^ w - 1 < pageCnt := h
    unfold pageCnt at hlt
    omega

/-! ## Calls -/

/-- A call of `add_range`. -/
structure AddRange where
  headPos : Nat
  lastPos : Nat
  what : Bool

/-- The call is for a non-empty range of the pages. -/
def AddRange.Valid (r : AddRange) : Prop := r.headPos < r.lastPos ∧ r.lastPos ≤ pageCnt

def BmMemoman.call (bm : BmMemoman) (r : AddRange) : BmMemoman :=
  bm.addRange r.headPos r.lastPos r.what

/-- The call sets the bits of its range to `what`, and no other bit. -/
def AddRange.Sets (r : AddRange) (bm bm' : BmMemoman) : Prop :=
  ∀ i, bitof bm'.offs i =
    if r.headPos ≤ i ∧ i < r.lastPos then r.what else bitof bm.offs i

/-- The bookkeeping of a sequence of calls: what each does to the bits, and the
pointer in every state. -/
def Bookkeeping : BmMemoman → List AddRange → Prop
  | bm, [] => bm.PointsToLowest
  | bm, r :: calls => bm.PointsToLowest ∧ r.Sets bm (bm.call r) ∧ Bookkeeping (bm.call r) calls

/-- The call is not turned away, or has nothing to set; and it does not take
the page at the pointer from inside its range. -/
def AddRange.Served (bm : BmMemoman) (r : AddRange) : Prop :=
  (r.lastPos < pageCnt ∨ ∀ i, r.headPos ≤ i → i < r.lastPos → bitof bm.offs i = r.what) ∧
  (r.what = false → ¬(r.headPos < bm.availPointer ∧ bm.availPointer < r.lastPos))

/-- Every call of the sequence is served. -/
def AllServed : BmMemoman → List AddRange → Prop
  | _, [] => True
  | bm, r :: calls => r.Served bm ∧ AllServed (bm.call r) calls

theorem updateAvailPointer_offs (bm : BmMemoman) (headPos lastPos : Nat) (what : Bool) :
    (updateAvailPointer bm headPos lastPos what).offs = bm.offs ∧
      (updateAvailPointer bm headPos lastPos what).size = bm.size := by
  unfold updateAvailPointer
  split
  · exact ⟨rfl, rfl⟩
  · split
    · exact ⟨rfl, rfl⟩
    · exact ⟨rfl, rfl⟩

theorem BmMemoman.call_of_lt (hv : r.Valid)
    (hlast : r.lastPos < pageCnt) :
    bm.call r = updateAvailPointer
      { bm with offs := writeRange bm.offs r.headPos r.lastPos r.what }
      r.headPos r.lastPos r.what := by
  have hlt := hv.1
  unfold BmMemoman.call BmMemoman.addRange
  rw [if_neg (by omega)]

theorem BmMemoman.call_of_end (hlast : pageCnt ≤ r.lastPos) :
    bm.call r = bm := by
  unfold BmMemoman.call BmMemoman.addRange
  rw [if_pos (Or.inr (Or.inr hlast))]

theorem AddRange.Served.sets (hs : r.Served bm) (hv : r.Valid) :
    r.Sets bm (bm.call r) := by
  intro i
  by_cases hlast : r.lastPos < pageCnt
  · have hlt := hv.1
    rw [BmMemoman.call_of_lt hv hlast, (updateAvailPointer_offs _ _ _ _).1]
    dsimp only
    rw [writeRange_bit bm.offs _ _ r.what i, Nat.add_sub_cancel' hlt.le]
  · rw [BmMemoman.call_of_end (Nat.le_of_not_lt hlast)]
    split
    · rename_i hi
      exact (hs.1.resolve_left hlast) i hi.1 hi.2
    · rfl

/-- `update_avail_pointer` after a range was made available. -/
theorem tracks_give {offs : Mem} {headPos lastPos : Nat} (h : bm.Tracks)
    (hr : headPos < lastPos)
    (hbits : ∀ i, bitof offs i =
      if headPos ≤ i ∧ i < lastPos then true else bitof bm.offs i) :
    (updateAvailPointer { bm with offs := offs } headPos lastPos true).Tracks where
  covers := h.covers
  below := by
    rintro i ⟨hi, hbit⟩
    have hbit' : bitof offs i = true := hbit
    change min bm.availPointer headPos ≤ i
    rw [hbits] at hbit'
    split at hbit'
    · rename_i hin
      exact le_trans (min_le_right _ _) hin.1
    · exact le_trans (min_le_left _ _) (h.below i ⟨hi, hbit'⟩)
  attained := by
    intro hlt
    change min bm.availPointer headPos < pageCnt at hlt
    change bitof offs (min bm.availPointer headPos) = true
    rw [hbits]
    split
    · rfl
    · rename_i hout
      have hold : min bm.availPointer headPos = bm.availPointer :=
        min_eq_left (by by_contra hgt; exact hout ⟨by omega, by omega⟩)
      rw [hold] at hlt ⊢
      exact h.attained hlt

theorem tracks_take {offs : Mem} {headPos lastPos : Nat} (h : bm.Tracks)
    (hlast : lastPos < pageCnt)
    (hout : ¬(headPos < bm.availPointer ∧ bm.availPointer < lastPos))
    (hbits : ∀ i, bitof offs i =
      if headPos ≤ i ∧ i < lastPos then false else bitof bm.offs i) :
    (updateAvailPointer { bm with offs := offs } headPos lastPos false).Tracks := by
  have hleft : ∀ i, bitof offs i = true →
      bitof bm.offs i = true ∧ ¬(headPos ≤ i ∧ i < lastPos) := fun i hi => by
    rw [hbits] at hi
    split at hi
    · cases hi
    · rename_i hin
      exact ⟨hi, hin⟩
  have hcovers := h.covers
  unfold updateAvailPointer
  rw [if_neg (by decide)]
  dsimp only
  by_cases hat : bm.availPointer = headPos
  · -- the range starts at the pointer, which moves behind it
    rw [if_pos hat]
    obtain ⟨hle, hfree, hfound⟩ := nextAvail_spec offs (bm.size * 8) (bm.size * 8) lastPos
      (by omega) (by omega)
    refine ⟨hcovers, ?_, fun hlt => hfound (lt_of_lt_of_le hlt hcovers)⟩
    rintro i ⟨hi, hbit⟩
    have hbit' : bitof offs i = true := hbit
    obtain ⟨hold, hnot⟩ := hleft i hbit'
    have hge := h.below i ⟨hi, hold⟩
    by_contra hlt
    have hlt' : i < nextAvail offs (bm.size * 8) (bm.size * 8) lastPos := Nat.lt_of_not_le hlt
    rw [hfree i (by omega) hlt'] at hbit'
    cases hbit'
  · rw [if_neg hat]
    refine ⟨hcovers, ?_, fun hlt => ?_⟩
    · rintro i ⟨hi, hbit⟩
      exact h.below i ⟨hi, (hleft i hbit).1⟩
    · change bitof offs bm.availPointer = true
      rw [hbits, if_neg (by omega)]
      exact h.attained hlt

theorem addRange_tracks (h : bm.Tracks) (hv : r.Valid)
    (hs : r.Served bm) : (bm.call r).Tracks := by
  by_cases hlast : r.lastPos < pageCnt
  · have hbits : ∀ i, bitof (writeRange bm.offs r.headPos r.lastPos r.what) i =
        if r.headPos ≤ i ∧ i < r.lastPos then r.what else bitof bm.offs i := fun i => by
      rw [writeRange_bit bm.offs _ _ r.what i, Nat.add_sub_cancel' hv.1.le]
    rw [BmMemoman.call_of_lt hv hlast]
    obtain ⟨headPos, lastPos, what⟩ := r
    cases what with
    | true => exact tracks_give h hv.1 hbits
    | false => exact tracks_take h hlast (hs.2 rfl) hbits
  · rw [BmMemoman.call_of_end (Nat.le_of_not_lt hlast)]
    exact h

theorem bookkeeping_of_tracks : ∀ {calls : List AddRange} {bm : BmMemoman}, bm.Tracks →
    (∀ r ∈ calls, r.Valid) → AllServed bm calls → Bookkeeping bm calls
  | [], _, h, _, _ => h.pointsToLowest
  | r :: _, _, h, hv, hs => by
    have hr := hv r List.mem_cons_self
    refine ⟨h.pointsToLowest, hs.1.sets hr, ?_⟩
    exact bookkeeping_of_tracks (addRange_tracks h hr hs.1)
      (fun r hr => hv r (List.mem_cons_of_mem _ hr)) hs.2

/-- In a sequence of calls that are all served, on a zeroed bitmap, each call
sets its range and nothing else, and the pointer is at the lowest available
page throughout. -/
theorem bookkeeping_of_served {w : Nat} (hw : 32 ≤ w) (calls : List AddRange)
    (hv : ∀ r ∈ calls, r.Valid) (hs : AllServed (BmMemoman.zeroed w) calls) :
    Bookkeeping (BmMemoman.zeroed w) calls :=
  bookkeeping_of_tracks (tracks_zeroed hw) hv hs

/-- A range given and a part of it taken from the middle. -/
theorem bookkeeping_of_served_example :
    Bookkeeping (BmMemoman.zeroed 32) [⟨5, 20, true⟩, ⟨8, 10, false⟩] := by
  refine bookkeeping_of_served (le_refl 32) _ ?_ ?_
  · intro r hr
    simp only [List.mem_cons, List.not_mem_nil, or_false] at hr
    rcases hr with rfl | rfl
    · exact ⟨by decide, by decide⟩
    · exact ⟨by decide, by decide⟩
  · refine ⟨⟨Or.inl (by decide), fun h => by cases h⟩, ⟨Or.inl (by decide), fun _ h => ?_⟩, trivial⟩
    exact absurd h.1 (by decide)

/-- A range taken around the pointer leaves the pointer at a page that is gone,
and a range up to the last page is not given. -/
theorem bookkeeping_fails :
    ¬Bookkeeping (BmMemoman.zeroed 32) [⟨5, 20, true⟩, ⟨3, 10, false⟩] ∧
    ¬Bookkeeping (BmMemoman.zeroed 32) [⟨0, 0x100000, true⟩] := by
  constructor
  · rintro ⟨-, -, -, -, hlow⟩
    have hmem := (hlow ⟨10, by decide, by decide +kernel⟩).1
    exact absurd hmem.2 (by decide +kernel)
  · rintro ⟨-, hsets, -⟩
    exact absurd (hsets 0) (by decide)

end Unisym.Datype
