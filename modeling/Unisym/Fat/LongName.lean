/-
# `LongName` — long file names

A long name is stored as UTF-16 in pieces of 13 units, one directory entry a
piece, last piece first, in front of the short entry.  `buildLfnEntries` writes
the pieces, `fatAppendLfnPiece` collects them again, and `fatPickDisplayName`
turns what was collected into the name that is shown.

The two sides do not state the same limit: `buildLfnEntries` takes up to 255
units, that is 20 pieces, and `fatAppendLfnPiece` drops piece 20, because its
13 units would end beyond the 256 of the buffer.  So the round trip holds for
names of up to 247 units, and for no longer ones (`display_build_iff`).
-/
import Unisym.Text.Utf8
import Mathlib.Data.List.GetD

namespace Unisym.Fat

open Function Utf8

/-! ## Directory entries -/

/-- The name of a `FAT_DirEntry`. -/
structure DirEntry where
  name : Vector UInt8 8
  ext : Vector UInt8 3

structure LongDirEntry where
  order : Nat
  name1 : Vector Nat 5
  attr : Nat
  type : Nat
  checksum : Nat
  name2 : Vector Nat 6
  cluster : Nat
  name3 : Vector Nat 2

def fatShortNameChecksum (entry : DirEntry) : Nat :=
  (entry.name.toList ++ entry.ext.toList).foldl
    (fun sum c => ((if sum &&& 1 = 1 then 0x80 else 0) + (sum >>> 1) + c.toNat) % 256) 0

def fatDecodeShortName (entry : DirEntry) : List UInt8 :=
  let base := (entry.name.toList.takeWhile (· ≠ 0x20)).map fun ch => if ch = 0x05 then 0xE5 else ch
  if entry.ext[0] ≠ 0x20 then base ++ 0x2E :: entry.ext.toList.takeWhile (· ≠ 0x20) else base

/-! ## Writing -/

def fatUtf16UnitsOf (rune : Nat) : List Nat :=
  if rune ≥ 0x10000 ∧ rune ≤ 0x10FFFF then
    let offset := rune - 0x10000
    [0xD800 ||| (offset >>> 10), 0xDC00 ||| (offset &&& 0x3FF)]
  else [if rune > 0xFFFF then 0xFFFD else rune]

/-- The inner loop over the units of one rune. -/
def pieceUnits (firstUnit lastUnit : Nat) : List Nat → Nat → List Nat → Nat × List Nat
  | [], position, units => (position, units)
  | u :: us, position, units =>
      if position < lastUnit then
        pieceUnits firstUnit lastUnit us (position + 1)
          (if position < firstUnit then units else units ++ [u])
      else (position, units)

/-- The loop that collects the units `[firstUnit, lastUnit)` of a name. -/
def pieceRunes (firstUnit lastUnit : Nat) : List Nat → Nat → List Nat → List Nat
  | [], _, units => units
  | r :: rs, position, units =>
      if position < lastUnit then
        let st := pieceUnits firstUnit lastUnit (fatUtf16UnitsOf r) position units
        pieceRunes firstUnit lastUnit rs st.1 st.2
      else units

/-- The entry written for piece `order`. -/
def lfnEntry (runes : List Nat) (checksum order : Nat) (last : Bool) : LongDirEntry :=
  let firstUnit := (order - 1) * 13
  let units := pieceRunes firstUnit (firstUnit + 13) runes 0 []
  let unit := fun i => units.getD i 0xFFFF
  { order := (order ||| if last then 0x40 else 0x00) % 256
    name1 := .ofFn fun i => unit i
    attr := 0x0F
    type := 0
    checksum
    name2 := .ofFn fun i => unit (i + 5)
    cluster := 0
    name3 := .ofFn fun i => unit (i + 11) }

/-- `build_lfn_entries(name, short_entry, out_entries, capacity)`; `none` when
it fails. -/
def buildLfnEntries (name : List UInt8) (shortEntry : DirEntry) (capacity : Nat) :
    Option (List LongDirEntry) :=
  let runes := chars name
  let unitCount := runes.foldl (fun n rune => n + if rune ≥ 0x10000 then 2 else 1) 0
  if unitCount = 0 ∨ unitCount > 255 then none
  else
    let pieceCount := (unitCount + 12) / 13
    if pieceCount > capacity then none
    else some ((List.range pieceCount).map fun slot =>
      lfnEntry runes (fatShortNameChecksum shortEntry) (pieceCount - slot) (slot == 0))

/-! ## Reading -/

/-- `FAT_LfnState`; of `name_utf16` the first 256 units are used, and
`utf8_name` holds what stands before its first zero. -/
structure LfnState where
  nameUtf16 : Nat → Nat
  utf8Name : List UInt8
  checksum : Nat
  expectedOrder : Nat
  active : Bool

def fatClearLfnSequence (state : LfnState) : LfnState :=
  { state with nameUtf16 := fun _ => 0, checksum := 0, expectedOrder := 0, active := false }

def fatResetLfnState (state : LfnState) : LfnState :=
  { fatClearLfnSequence state with utf8Name := [] }

/-- `append_unit` for a run of units from `offset` on. -/
def appendUnits : Nat → List Nat → (Nat → Nat) → Nat → Nat
  | _, [], name => name
  | offset, c :: cs, name =>
      appendUnits (offset + 1) cs (update name offset (if c = 0xFFFF then 0 else c))

/-- The part of `fat_append_lfn_piece` that follows the order of the pieces. -/
def acceptOrder (state : LfnState) (lfn : LongDirEntry) (order : Nat) : Option LfnState :=
  if lfn.order &&& 0x40 ≠ 0 then
    some { fatClearLfnSequence state with
      active := true, checksum := lfn.checksum, expectedOrder := order }
  else if !state.active ∨ lfn.checksum ≠ state.checksum ∨ order + 1 ≠ state.expectedOrder then none
  else some { state with expectedOrder := order }

def fatAppendLfnPiece (state : LfnState) (lfn : LongDirEntry) : Bool × LfnState :=
  if lfn.type ≠ 0 ∨ lfn.cluster ≠ 0 then (false, fatResetLfnState state)
  else
    let order := lfn.order &&& 0x1F
    if order = 0 then (false, fatResetLfnState state)
    else match acceptOrder state lfn order with
      | none => (false, fatResetLfnState state)
      | some state =>
          let pieceOffset := (order - 1) * 13
          if pieceOffset + 13 > 256 then (false, fatResetLfnState state)
          else
            let units := lfn.name1.toList ++ lfn.name2.toList ++ lfn.name3.toList
            (true, { state with nameUtf16 := appendUnits pieceOffset units state.nameUtf16 })

/-- The rune at unit `i`, and how many units it takes. -/
def runeAt (name : Nat → Nat) (i : Nat) : Nat × Nat :=
  let code := name i
  if code ≥ 0xD800 ∧ code ≤ 0xDBFF then
    let low := if i + 1 < 255 then name (i + 1) else 0
    if low ≥ 0xDC00 ∧ low ≤ 0xDFFF then
      (0x10000 + ((code - 0xD800) <<< 10) + (low - 0xDC00), 2)
    else (0xFFFD, 1)
  else if code ≥ 0xDC00 ∧ code ≤ 0xDFFF then (0xFFFD, 1)
  else (code, 1)

/-- The loop of `fat_finalize_lfn_name`; 255 rounds are enough, since each takes
a unit. -/
def finalizeFrom (name : Nat → Nat) : (fuel i : Nat) → List UInt8 → List UInt8
  | 0, _, out => out
  | fuel + 1, i, out =>
      if i < 255 then
        if name i = 0 then out
        else match pushRune 768 out (runeAt name i).1 with
          | none => out
          | some out => finalizeFrom name fuel (i + (runeAt name i).2) out
      else out

def fatFinalizeLfnName (state : LfnState) : LfnState :=
  { state with utf8Name := finalizeFrom state.nameUtf16 255 0 [] }

def fatPickDisplayName (state : LfnState) (entry : DirEntry) : List UInt8 × LfnState :=
  let shortName := fatDecodeShortName entry
  if state.active ∧ state.expectedOrder = 1 ∧ state.checksum = fatShortNameChecksum entry then
    let state := fatFinalizeLfnName state
    (if state.utf8Name ≠ [] then state.utf8Name else shortName, fatClearLfnSequence state)
  else (shortName, fatClearLfnSequence state)

/-- A state nothing was collected in. -/
def LfnState.start : LfnState := ⟨fun _ => 0, [], 0, 0, false⟩

/-- What `entries` leave in a fresh state. -/
def collect (entries : List LongDirEntry) : LfnState :=
  entries.foldl (fun state lfn => (fatAppendLfnPiece state lfn).2) .start

/-- What is shown for a short entry behind `entries`. -/
def display (entries : List LongDirEntry) (entry : DirEntry) : List UInt8 :=
  (fatPickDisplayName (collect entries) entry).1

/-! ## The units of a name -/

/-- The UTF-16 units of a text. -/
def utf16 (cs : List Char) : List Nat := cs.flatMap fun c => fatUtf16UnitsOf c.toNat

theorem utf16_cons (c : Char) (cs : List Char) :
    utf16 (c :: cs) = fatUtf16UnitsOf c.toNat ++ utf16 cs := List.flatMap_cons ..

/-- A text no unit of which means something else in a long name: no U+0000, and
no U+FFFF. -/
def Plain (cs : List Char) : Prop := ∀ c ∈ cs, c.toNat ≠ 0 ∧ c.toNat ≠ 0xFFFF

theorem fatUtf16UnitsOf_high {r : Nat} (h : 0x10000 ≤ r) (hr : r ≤ 0x10FFFF) :
    fatUtf16UnitsOf r = [0xD800 + (r - 0x10000) / 1024, 0xDC00 + r % 1024] := by
  have hor : 0xD800 ||| ((r - 0x10000) / 1024) = (r - 0x10000) / 1024 + 0xD800 :=
    or_marker 0xD800 10 54 rfl (by omega)
  have hor' : 0xDC00 ||| ((r - 0x10000) % 1024) = (r - 0x10000) % 1024 + 0xDC00 :=
    or_marker 0xDC00 10 55 rfl (by omega)
  have hand : (r - 0x10000) &&& 0x3FF = (r - 0x10000) % 1024 :=
    Nat.and_two_pow_sub_one_eq_mod (r - 0x10000) 10
  unfold fatUtf16UnitsOf
  rw [if_pos ⟨h, hr⟩]
  dsimp only
  rw [hand, hor', Nat.shiftRight_eq_div_pow, show 2 ^ 10 = 1024 from rfl, hor, Nat.add_comm,
    Nat.add_comm ((r - 0x10000) % 1024), show (r - 0x10000) % 1024 = r % 1024 by omega]

theorem fatUtf16UnitsOf_low {r : Nat} (h : r < 0x10000) : fatUtf16UnitsOf r = [r] := by
  unfold fatUtf16UnitsOf
  rw [if_neg (by omega), if_neg (by omega)]

theorem unit_plain {cs : List Char} (h : Plain cs) {u : Nat} (hu : u ∈ utf16 cs) :
    u ≠ 0 ∧ u ≠ 0xFFFF := by
  obtain ⟨c, hc, hu⟩ := List.mem_flatMap.mp hu
  have hlt := toNat_lt c
  obtain ⟨h0, h1⟩ := h c hc
  rcases Nat.lt_or_ge c.toNat 0x10000 with hlow | hhigh
  · rw [fatUtf16UnitsOf_low hlow, List.mem_singleton] at hu
    exact hu ▸ ⟨h0, h1⟩
  · rw [fatUtf16UnitsOf_high hhigh (by omega)] at hu
    simp only [List.mem_cons, List.not_mem_nil, or_false] at hu
    omega

theorem unitCount_eq : ∀ (cs : List Char) (n : Nat),
    (cs.map Char.toNat).foldl (fun n rune => n + if rune ≥ 0x10000 then 2 else 1) n =
      n + (utf16 cs).length
  | [], _ => rfl
  | c :: cs, n => by
    have hlt := toNat_lt c
    have hc : (if c.toNat ≥ 0x10000 then 2 else 1) = (fatUtf16UnitsOf c.toNat).length := by
      split
      · rw [fatUtf16UnitsOf_high ‹_› (by omega)]; rfl
      · rw [fatUtf16UnitsOf_low (by omega)]; rfl
    rw [List.map_cons, List.foldl_cons, unitCount_eq cs, hc, utf16_cons, List.length_append,
      Nat.add_assoc]

/-- A character has at least a byte, and at most three bytes, for each of its units. -/
theorem unit_bytes (c : Char) :
    (fatUtf16UnitsOf c.toNat).length ≤ (String.utf8EncodeChar c).length ∧
      (String.utf8EncodeChar c).length ≤ 3 * (fatUtf16UnitsOf c.toNat).length := by
  have hlt := toNat_lt c
  rw [← runeBytes_toNat]
  rcases Nat.lt_or_ge c.toNat 0x10000 with hlow | hhigh
  · rw [fatUtf16UnitsOf_low hlow]
    unfold runeBytes
    split_ifs
    · simp
    · simp
    · simp
    · omega
  · rw [fatUtf16UnitsOf_high hhigh (by omega)]
    unfold runeBytes
    rw [if_neg (by omega), if_neg (by omega), if_neg (by omega)]
    simp

theorem utf16_bytes : ∀ cs : List Char,
    (utf16 cs).length ≤ (encode cs).length ∧ (encode cs).length ≤ 3 * (utf16 cs).length
  | [] => ⟨Nat.zero_le _, Nat.zero_le _⟩
  | c :: cs => by
    have ih := utf16_bytes cs
    have hc := unit_bytes c
    rw [encode_cons, utf16_cons, List.length_append, List.length_append]
    omega

/-! ## What is written -/

theorem pieceUnits_eq (firstUnit lastUnit : Nat) : ∀ (us : List Nat) (position : Nat) (units : List Nat),
    position ≤ lastUnit →
    pieceUnits firstUnit lastUnit us position units =
      (min (position + us.length) lastUnit,
        units ++ (us.take (lastUnit - position)).drop (firstUnit - position))
  | [], position, units, h => by
    rw [pieceUnits, List.take_nil, List.drop_nil, List.append_nil]
    exact congrArg (·, units) (Nat.min_eq_left h).symm
  | u :: us, position, units, h => by
    unfold pieceUnits
    split
    · rename_i hlt
      rw [pieceUnits_eq firstUnit lastUnit us (position + 1) _ hlt]
      have hsub : lastUnit - position = lastUnit - (position + 1) + 1 := by omega
      refine Prod.ext ?_ ?_
      · show min (position + 1 + us.length) lastUnit = min (position + (us.length + 1)) lastUnit
        rw [Nat.add_assoc, Nat.add_comm 1]
      · show _ = units ++ ((u :: us).take (lastUnit - position)).drop (firstUnit - position)
        rw [hsub, List.take_succ_cons]
        split
        · rename_i hf
          rw [show firstUnit - position = firstUnit - (position + 1) + 1 by omega,
            List.drop_succ_cons]
        · rename_i hf
          rw [show firstUnit - position = 0 by omega, show firstUnit - (position + 1) = 0 by omega,
            List.drop_zero, List.drop_zero, List.append_assoc]
          rfl
    · rename_i hlt
      rw [Nat.min_eq_right (by omega), show lastUnit - position = 0 by omega, List.take_zero,
        List.drop_nil, List.append_nil]
      exact congrArg (·, units) (by omega)

theorem pieceRunes_eq (firstUnit lastUnit : Nat) : ∀ (rs : List Nat) (position : Nat) (units : List Nat),
    position ≤ lastUnit →
    pieceRunes firstUnit lastUnit rs position units =
      units ++ ((rs.flatMap fatUtf16UnitsOf).take (lastUnit - position)).drop (firstUnit - position)
  | [], _, units, _ => by
    rw [pieceRunes, List.flatMap_nil, List.take_nil, List.drop_nil, List.append_nil]
  | r :: rs, position, units, h => by
    unfold pieceRunes
    split
    · dsimp only
      have htake : lastUnit - min (position + (fatUtf16UnitsOf r).length) lastUnit =
          lastUnit - position - (fatUtf16UnitsOf r).length := by omega
      have hdrop : firstUnit - min (position + (fatUtf16UnitsOf r).length) lastUnit =
          firstUnit - position - min (lastUnit - position) (fatUtf16UnitsOf r).length := by omega
      rw [pieceUnits_eq _ _ _ _ _ h, pieceRunes_eq firstUnit lastUnit rs _ _ (Nat.min_le_right ..),
        List.flatMap_cons, List.take_append, List.drop_append, List.append_assoc,
        List.length_take, htake, hdrop]
    · rw [show lastUnit - position = 0 by omega, List.take_zero, List.drop_nil, List.append_nil]

theorem lfnEntry_units (cs : List Char) (checksum order : Nat) (last : Bool) :
    (lfnEntry (cs.map Char.toNat) checksum order last).name1.toList ++
      (lfnEntry (cs.map Char.toNat) checksum order last).name2.toList ++
      (lfnEntry (cs.map Char.toNat) checksum order last).name3.toList =
      (List.range 13).map fun i => (utf16 cs).getD ((order - 1) * 13 + i) 0xFFFF := by
  have hunits : ∀ i, i < 13 → (pieceRunes ((order - 1) * 13) ((order - 1) * 13 + 13)
      (cs.map Char.toNat) 0 []).getD i 0xFFFF = (utf16 cs).getD ((order - 1) * 13 + i) 0xFFFF := by
    intro i hi
    rw [pieceRunes_eq _ _ _ _ _ (Nat.zero_le _), List.flatMap_map, List.nil_append, Nat.sub_zero,
      Nat.sub_zero, List.getD_eq_getElem?_getD, List.getElem?_drop,
      List.getElem?_take_of_lt (by omega), ← List.getD_eq_getElem?_getD]
    rfl
  unfold lfnEntry
  simp only [Vector.toList_ofFn, List.ofFn_succ, List.ofFn_zero]
  exact List.map_congr_left (l := List.range 13) fun i hi => hunits i (List.mem_range.mp hi)

/-! ## What is collected -/

theorem appendUnits_eq : ∀ (us : List Nat) (offset : Nat) (name : Nat → Nat) (j : Nat),
    appendUnits offset us name j =
      if offset ≤ j ∧ j < offset + us.length then
        if us.getD (j - offset) 0xFFFF = 0xFFFF then 0 else us.getD (j - offset) 0xFFFF
      else name j
  | [], offset, name, j => by
    rw [appendUnits, List.length_nil, if_neg (by omega)]
  | u :: us, offset, name, j => by
    rw [appendUnits, appendUnits_eq us, List.length_cons]
    rcases Nat.lt_trichotomy j offset with hlt | rfl | hgt
    · have h1 : ¬(offset + 1 ≤ j ∧ j < offset + 1 + us.length) := by omega
      have h2 : ¬(offset ≤ j ∧ j < offset + (us.length + 1)) := by omega
      rw [if_neg h1, if_neg h2, update_of_ne (by omega)]
    · have h1 : ¬(j + 1 ≤ j ∧ j < j + 1 + us.length) := by omega
      have h2 : j ≤ j ∧ j < j + (us.length + 1) := by omega
      rw [if_neg h1, if_pos h2, Nat.sub_self, update_self]
      rfl
    · rw [show j - offset = j - (offset + 1) + 1 by omega, List.getD_cons_succ]
      by_cases hin : j < offset + 1 + us.length
      · have h1 : offset + 1 ≤ j ∧ j < offset + 1 + us.length := by omega
        have h2 : offset ≤ j ∧ j < offset + (us.length + 1) := by omega
        rw [if_pos h1, if_pos h2]
      · have h1 : ¬(offset + 1 ≤ j ∧ j < offset + 1 + us.length) := by omega
        have h2 : ¬(offset ≤ j ∧ j < offset + (us.length + 1)) := by omega
        rw [if_neg h1, if_neg h2, update_of_ne (by omega)]

theorem order_bits : ∀ o, o < 21 → 0 < o →
    (o ||| 0x40) % 256 &&& 0x1F = o ∧ (o ||| 0x40) % 256 &&& 0x40 ≠ 0 ∧
      (o ||| 0x00) % 256 &&& 0x1F = o ∧ (o ||| 0x00) % 256 &&& 0x40 = 0 := by
  decide

/-- The state after the pieces from `k` on of a name of `n` pieces. -/
structure Collected (units : List Nat) (checksum n k : Nat) (state : LfnState) : Prop where
  active : state.active = true
  sum : state.checksum = checksum
  order : state.expectedOrder = k
  units : ∀ j, state.nameUtf16 j = if (k - 1) * 13 ≤ j ∧ j < n * 13 then units.getD j 0 else 0

theorem clean_getD {cs : List Char} (hcs : Plain cs) (j : Nat) :
    (if (utf16 cs).getD j 0xFFFF = 0xFFFF then 0 else (utf16 cs).getD j 0xFFFF) =
      (utf16 cs).getD j 0 := by
  rw [List.getD_eq_getElem?_getD, List.getD_eq_getElem?_getD]
  cases hj : (utf16 cs)[j]? with
  | none => rfl
  | some u => exact if_neg (unit_plain hcs (List.mem_of_getElem? hj)).2

theorem Collected.next {cs : List Char} (hcs : Plain cs) {checksum n k : Nat} {state : LfnState}
    (hn : n ≤ 19) (hk : 0 < k) (hkn : k ≤ n)
    (hprev : k = n ∨ Collected (utf16 cs) checksum n (k + 1) state) :
    Collected (utf16 cs) checksum n k
      (fatAppendLfnPiece state (lfnEntry (cs.map Char.toNat) checksum k (k == n))).2 := by
  obtain ⟨h1, h2, h3, h4⟩ := order_bits k (by omega) hk
  have hunits := lfnEntry_units cs checksum k (k == n)
  -- the state whose units are extended
  obtain ⟨state', hacc, hact, hsum, hord, hname⟩ : ∃ state',
      acceptOrder state (lfnEntry (cs.map Char.toNat) checksum k (k == n)) k = some state' ∧
      state'.active = true ∧ state'.checksum = checksum ∧ state'.expectedOrder = k ∧
      ∀ j, state'.nameUtf16 j = if k * 13 ≤ j ∧ j < n * 13 then (utf16 cs).getD j 0 else 0 := by
    unfold acceptOrder
    by_cases hlast : k = n
    · refine ⟨_, if_pos ?_, rfl, rfl, rfl, fun j => ?_⟩
      · show (k ||| if (k == n) = true then 0x40 else 0x00) % 256 &&& 0x40 ≠ 0
        rw [if_pos (by simpa using hlast)]
        exact h2
      · rw [if_neg (by omega)]; rfl
    · have hprev := hprev.resolve_left hlast
      refine ⟨{ state with expectedOrder := k }, ?_, hprev.active, hprev.sum, rfl, fun j => ?_⟩
      · rw [if_neg, if_neg]
        · rw [hprev.active, hprev.sum, hprev.order]
          simp [lfnEntry]
        · show ¬((k ||| if (k == n) = true then 0x40 else 0x00) % 256 &&& 0x40 ≠ 0)
          rw [if_neg (by simpa using hlast)]
          exact not_not_intro h4
      · rw [show LfnState.nameUtf16 { state with expectedOrder := k } j = _ from hprev.units j,
          Nat.add_sub_cancel]
  have hbits : (lfnEntry (cs.map Char.toNat) checksum k (k == n)).order &&& 0x1F = k := by
    show (k ||| if (k == n) = true then 0x40 else 0x00) % 256 &&& 0x1F = k
    split
    · exact h1
    · exact h3
  unfold fatAppendLfnPiece
  rw [if_neg (by simp [lfnEntry])]
  simp only [hbits, hacc, hunits]
  rw [if_neg (by omega), if_neg (by omega)]
  refine ⟨hact, hsum, hord, fun j => ?_⟩
  show appendUnits _ _ _ j = _
  rw [appendUnits_eq, hname, List.length_map, List.length_range]
  by_cases hin : (k - 1) * 13 ≤ j ∧ j < (k - 1) * 13 + 13
  · have hget : ((List.range 13).map fun i => (utf16 cs).getD ((k - 1) * 13 + i) 0xFFFF).getD
        (j - (k - 1) * 13) 0xFFFF = (utf16 cs).getD j 0xFFFF := by
      rw [List.getD_eq_getElem?_getD, List.getElem?_map, List.getElem?_range (by omega)]
      show (utf16 cs).getD ((k - 1) * 13 + (j - (k - 1) * 13)) 0xFFFF = _
      rw [Nat.add_sub_cancel' hin.1]
    rw [if_pos hin, hget, clean_getD hcs, if_pos (by omega)]
  · rw [if_neg hin]
    by_cases hlater : k * 13 ≤ j ∧ j < n * 13
    · rw [if_pos hlater, if_pos (by omega)]
    · rw [if_neg hlater, if_neg (by omega)]

/-- The first `m` entries of a name of `n` pieces. -/
def pieces (cs : List Char) (checksum n m : Nat) : List LongDirEntry :=
  (List.range m).map fun slot => lfnEntry (cs.map Char.toNat) checksum (n - slot) (slot == 0)

theorem collect_succ (cs : List Char) (checksum n m : Nat) :
    collect (pieces cs checksum n (m + 1)) =
      (fatAppendLfnPiece (collect (pieces cs checksum n m))
        (lfnEntry (cs.map Char.toNat) checksum (n - m) (m == 0))).2 := by
  unfold collect pieces
  rw [List.range_succ, List.map_append, List.foldl_append, List.map_singleton, List.foldl_cons,
    List.foldl_nil]

/-- Reading the first `m` entries, from the last piece down. -/
theorem collected_pieces {cs : List Char} (hcs : Plain cs) {checksum n : Nat} (hn : n ≤ 19) :
    ∀ m, 0 < m → m ≤ n →
      Collected (utf16 cs) checksum n (n - m + 1) (collect (pieces cs checksum n m))
  | 0, h, _ => absurd h (Nat.lt_irrefl 0)
  | m + 1, _, hm => by
    have hfirst : (m == 0) = (n - m == n) := by
      rw [Bool.eq_iff_iff, beq_iff_eq, beq_iff_eq]
      omega
    rw [collect_succ, hfirst, show n - (m + 1) + 1 = n - m by omega]
    refine Collected.next hcs hn (by omega) (by omega) ?_
    rcases Nat.eq_zero_or_pos m with rfl | hpos
    · exact Or.inl (Nat.sub_zero n)
    · exact Or.inr (collected_pieces hcs hn m hpos (by omega))

/-- A piece that is not the first is dropped where none was collected. -/
theorem append_inactive {state : LfnState} (h : state.active = false) {lfn : LongDirEntry}
    (hlfn : lfn.order &&& 0x40 = 0) : (fatAppendLfnPiece state lfn).2.active = false := by
  have hnone : acceptOrder state lfn (lfn.order &&& 0x1F) = none := by
    unfold acceptOrder
    rw [if_neg (not_not_intro hlfn), if_pos (Or.inl (by rw [h]; rfl))]
  unfold fatAppendLfnPiece
  simp only [hnone]
  split
  · rfl
  · split <;> rfl

theorem append_beyond (state : LfnState) {lfn : LongDirEntry} (hlfn : 19 < lfn.order &&& 0x1F) :
    (fatAppendLfnPiece state lfn).2.active = false := by
  unfold fatAppendLfnPiece
  dsimp only
  split
  · rfl
  · rw [if_neg (by omega)]
    split
    · rfl
    · rw [if_pos (by omega)]
      rfl

theorem dropped_pieces {cs : List Char} {checksum : Nat} : ∀ m, 0 < m → m ≤ 20 →
    (collect (pieces cs checksum 20 m)).active = false
  | 0, h, _ => absurd h (Nat.lt_irrefl 0)
  | m + 1, _, hm => by
    rw [collect_succ]
    rcases Nat.eq_zero_or_pos m with rfl | hpos
    · refine append_beyond _ ?_
      show 19 < (20 ||| 0x40) % 256 &&& 0x1F
      decide
    · refine append_inactive (dropped_pieces m hpos (by omega)) ?_
      have hlast : (m == 0) = false := beq_eq_false_iff_ne.mpr (by omega)
      show (20 - m ||| if (m == 0) = true then 0x40 else 0x00) % 256 &&& 0x40 = 0
      rw [hlast, if_neg (by simp)]
      exact (order_bits (20 - m) (by omega) (by omega)).2.2.2

/-! ## What is shown -/

theorem not_surrogate (c : Char) : c.toNat < 0xD800 ∨ 0xDFFF < c.toNat :=
  c.valid.imp id And.left

theorem runeAt_char {name : Nat → Nat} {i : Nat} {c : Char}
    (hname : ∀ j, j < (fatUtf16UnitsOf c.toNat).length →
      name (i + j) = (fatUtf16UnitsOf c.toNat).getD j 0)
    (hi : i + (fatUtf16UnitsOf c.toNat).length < 255) :
    runeAt name i = (c.toNat, (fatUtf16UnitsOf c.toNat).length) := by
  have hlt := toNat_lt c
  rcases Nat.lt_or_ge c.toNat 0x10000 with hlow | hhigh
  · rw [fatUtf16UnitsOf_low hlow] at *
    have h0 : name i = c.toNat := hname 0 Nat.one_pos
    have hs := not_surrogate c
    unfold runeAt
    dsimp only
    rw [h0, if_neg (by omega), if_neg (by omega)]
    rfl
  · rw [fatUtf16UnitsOf_high hhigh (by omega)] at *
    simp only [List.length_cons, List.length_nil, Nat.zero_add, Nat.reduceAdd] at hname hi ⊢
    have h0 := hname 0 Nat.two_pos
    have h1 := hname 1 Nat.one_lt_two
    rw [Nat.add_zero, List.getD_cons_zero] at h0
    rw [List.getD_cons_succ, List.getD_cons_zero] at h1
    generalize hu : name i = u at h0
    generalize hv : name (i + 1) = v at h1
    have hval : 0x10000 + (u - 0xD800) * 2 ^ 10 + (v - 0xDC00) = c.toNat := by omega
    unfold runeAt
    dsimp only
    rw [hu, hv, if_pos (show u ≥ 0xD800 ∧ u ≤ 0xDBFF by omega), if_pos (show i + 1 < 255 by omega),
      if_pos (show v ≥ 0xDC00 ∧ v ≤ 0xDFFF by omega), Nat.shiftLeft_eq, hval]

theorem unit_pos (c : Char) : 0 < (fatUtf16UnitsOf c.toNat).length := by
  have hlt := toNat_lt c
  rcases Nat.lt_or_ge c.toNat 0x10000 with hlow | hhigh
  · rw [fatUtf16UnitsOf_low hlow]; exact Nat.one_pos
  · rw [fatUtf16UnitsOf_high hhigh (by omega)]; exact Nat.two_pos

theorem finalizeFrom_eq (name : Nat → Nat) : ∀ (cs : List Char) (fuel i : Nat) (out : List UInt8),
    Plain cs → (∀ j, name (i + j) = (utf16 cs).getD j 0) → i + (utf16 cs).length < 255 →
    (utf16 cs).length < fuel → out.length + (encode cs).length + 1 ≤ 768 →
    finalizeFrom name fuel i out = out ++ encode cs
  | _, 0, _, _, _, _, _, h, _ => absurd h (Nat.not_lt_zero _)
  | [], fuel + 1, i, out, _, hname, _, _, _ => by
    have h0 : name i = 0 := hname 0
    unfold finalizeFrom
    rw [h0, if_pos rfl, ite_self]
    exact (List.append_nil out).symm
  | c :: cs, fuel + 1, i, out, hcs, hname, hi, hfuel, hout => by
    rw [utf16_cons, List.length_append] at hi hfuel
    rw [encode_cons, List.length_append] at hout
    have hpos := unit_pos c
    have hget : ∀ j, j < (fatUtf16UnitsOf c.toNat).length →
        name (i + j) = (fatUtf16UnitsOf c.toNat).getD j 0 := by
      intro j hj
      rw [hname, utf16_cons, List.getD_append _ _ _ _ hj]
    have hrest : ∀ j, name (i + (fatUtf16UnitsOf c.toNat).length + j) = (utf16 cs).getD j 0 := by
      intro j
      rw [Nat.add_assoc, hname, utf16_cons, List.getD_append_right _ _ _ _ (Nat.le_add_right ..),
        Nat.add_sub_cancel_left]
    have h0 : name i ≠ 0 := by
      have hmem : (fatUtf16UnitsOf c.toNat).getD 0 0 ∈ utf16 (c :: cs) := by
        rw [utf16_cons, List.getD_eq_getElem _ _ hpos]
        exact List.mem_append_left _ (List.getElem_mem hpos)
      rw [← Nat.add_zero i, hget 0 hpos]
      exact (unit_plain hcs hmem).1
    unfold finalizeFrom
    rw [if_pos (by omega), if_neg h0, runeAt_char hget (by omega), pushRune_char (by omega)]
    dsimp only
    rw [finalizeFrom_eq name cs fuel _ _ (fun d hd => hcs d (List.mem_cons_of_mem _ hd)) hrest
      (by omega) (by omega) (by rw [List.length_append]; omega), encode_cons, List.append_assoc]

theorem length_takeWhile_le (p : UInt8 → Bool) (l : List UInt8) :
    (l.takeWhile p).length ≤ l.length := (List.takeWhile_sublist p).length_le

theorem length_fatDecodeShortName (entry : DirEntry) : (fatDecodeShortName entry).length ≤ 12 := by
  have h1 := length_takeWhile_le (· ≠ 0x20) entry.name.toList
  have h2 := length_takeWhile_le (· ≠ 0x20) entry.ext.toList
  rw [Vector.length_toList] at h1 h2
  unfold fatDecodeShortName
  dsimp only
  split
  · rw [List.length_append, List.length_map, List.length_cons]; omega
  · rw [List.length_map]; omega

theorem buildLfnEntries_encode (cs : List Char) (entry : DirEntry) (capacity : Nat) :
    buildLfnEntries (encode cs) entry capacity =
      if (utf16 cs).length = 0 ∨ (utf16 cs).length > 255 then none
      else if ((utf16 cs).length + 12) / 13 > capacity then none
      else some (pieces cs (fatShortNameChecksum entry) (((utf16 cs).length + 12) / 13)
        (((utf16 cs).length + 12) / 13)) := by
  unfold buildLfnEntries
  dsimp only
  rw [chars_encode, unitCount_eq, Nat.zero_add]
  rfl

theorem display_twenty (cs : List Char) (entry : DirEntry) :
    display (pieces cs (fatShortNameChecksum entry) 20 20) entry = fatDecodeShortName entry := by
  have hact : (collect (pieces cs (fatShortNameChecksum entry) 20 20)).active = false :=
    dropped_pieces 20 (by decide) (Nat.le_refl 20)
  unfold display fatPickDisplayName
  dsimp only
  rw [if_neg]
  rw [hact]
  simp

theorem display_pieces {cs : List Char} (hcs : Plain cs) (entry : DirEntry) {n : Nat} (hn : n ≤ 19)
    (hpos : 0 < (utf16 cs).length) (hlen : (utf16 cs).length ≤ n * 13) (hn0 : 0 < n) :
    display (pieces cs (fatShortNameChecksum entry) n n) entry = encode cs := by
  have hbytes := utf16_bytes cs
  have hfold := @collected_pieces cs hcs (fatShortNameChecksum entry) n hn n hn0 (Nat.le_refl n)
  rw [Nat.sub_self, Nat.zero_add] at hfold
  have hunits : ∀ j, (collect (pieces cs (fatShortNameChecksum entry) n n)).nameUtf16 (0 + j) =
      (utf16 cs).getD j 0 := by
    intro j
    rw [Nat.zero_add, hfold.units j]
    by_cases hj : j < (utf16 cs).length
    · rw [if_pos (by omega)]
    · rw [List.getD_eq_default _ _ (by omega), ite_self]
  have hname := finalizeFrom_eq _ cs 255 0 [] hcs hunits (by omega) (by omega)
    (by rw [List.length_nil]; omega)
  unfold display fatPickDisplayName fatFinalizeLfnName
  dsimp only
  rw [if_pos ⟨hfold.active, hfold.order, hfold.sum⟩, hname, List.nil_append]
  refine if_pos ?_
  intro hnil
  rw [hnil, List.length_nil] at hbytes
  omega

/-- A name comes back from its entries exactly when it has at most 247 UTF-16
units. -/
theorem display_build_iff {cs : List Char} (hcs : Plain cs) {entry : DirEntry} {capacity : Nat}
    {entries : List LongDirEntry} (hb : buildLfnEntries (encode cs) entry capacity = some entries) :
    display entries entry = encode cs ↔ (utf16 cs).length ≤ 247 := by
  rw [buildLfnEntries_encode] at hb
  split at hb
  · exact absurd hb (by simp)
  split at hb
  · exact absurd hb (by simp)
  rename_i hlen _
  obtain rfl := Option.some.inj hb
  generalize hn : ((utf16 cs).length + 12) / 13 = n
  constructor
  · intro hd
    by_contra hlong
    obtain rfl : n = 20 := by omega
    rw [display_twenty] at hd
    have hshort := length_fatDecodeShortName entry
    have hbytes := utf16_bytes cs
    rw [hd] at hshort
    omega
  · intro hshort
    exact display_pieces hcs entry (by omega) (by omega) (by omega) (by omega)

/-- The short entry `A~1`. -/
def shortA : DirEntry where
  name := #v[0x41, 0x7E, 0x31, 0x20, 0x20, 0x20, 0x20, 0x20]
  ext := #v[0x20, 0x20, 0x20]

/-- A surrogate pair that straddles two pieces. -/
theorem display_build_iff_pair :
    display (pieces (List.replicate 12 'a' ++ ['😀']) (fatShortNameChecksum shortA) 2 2) shortA =
      encode (List.replicate 12 'a' ++ ['😀']) :=
  have hplain : Plain (List.replicate 12 'a' ++ ['😀']) := fun c hc => by
    rcases List.mem_append.mp hc with h | h
    · rw [List.eq_of_mem_replicate h]
      decide
    · rw [List.mem_singleton.mp h]
      decide
  have hb : buildLfnEntries (encode (List.replicate 12 'a' ++ ['😀'])) shortA 20 =
      some (pieces (List.replicate 12 'a' ++ ['😀']) (fatShortNameChecksum shortA) 2 2) :=
    buildLfnEntries_encode ..
  (display_build_iff hplain hb).mpr (by decide)

/-- A name of 248 characters is written, and the short name is read. -/
theorem long_name_lost :
    Plain (List.replicate 248 'a') ∧
    ∃ entries, buildLfnEntries (encode (List.replicate 248 'a')) shortA 20 = some entries ∧
      display entries shortA ≠ encode (List.replicate 248 'a') := by
  have hlen : (utf16 (List.replicate 248 'a')).length = 248 := by decide +kernel
  refine ⟨fun c hc => ?_, pieces (List.replicate 248 'a') (fatShortNameChecksum shortA) 20 20, ?_,
    fun hd => ?_⟩
  · rw [List.eq_of_mem_replicate hc]
    decide
  · rw [buildLfnEntries_encode, hlen]
    rfl
  · have hshort := length_fatDecodeShortName shortA
    have hbytes := (utf16_bytes (List.replicate 248 'a')).1
    rw [display_twenty] at hd
    rw [hlen, ← hd] at hbytes
    omega

end Unisym.Fat
