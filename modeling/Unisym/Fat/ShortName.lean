/-
# `ShortName` — making an 8.3 pair for a name

`buildShortEntry` makes the short entry of a new file: the letters of the name
before and behind its last dot, in upper case and with `_` for what is not
allowed, cut to 8 and 3, and a serial number when the directory has the pair
already.  It also says whether the entry needs a long name in front of it.

The pair is always one that no entry of the directory has
(`shortNameExists_eq_false`).  When it says that no long name is needed, the
entry shows the name (`decode_shortPair_iff`) and is found under it
(`findEntryInDir_new`), if the name does not begin with a dot: the dots at the
front are skipped before the name is compared with what the entry shows
(`build_short_entry_sound_iff`).
-/
import Unisym.Fat.FindEntry
import Mathlib.Data.List.TakeWhile

namespace Unisym.Fat

open Function Mem Filesys

/-! ## The code -/

def fatShortNameChar (c : UInt8) : UInt8 :=
  if c < 0x20 ∨ c ≥ 0x7F then 0x5F
  else
    let c := if c ≥ 0x61 ∧ c ≤ 0x7A then c - 0x61 + 0x41 else c
    if c ∈ ([0x20, 0x22, 0x2A, 0x2B, 0x2C, 0x2F, 0x3A, 0x3B, 0x3C, 0x3D, 0x3E, 0x3F, 0x5B, 0x5C, 0x5D, 0x7C] :
      List UInt8) then 0x5F else c

/-- The loops that fill `stem` and `ext`. -/
def shortField (capacity : Nat) : List UInt8 → List UInt8 → List UInt8
  | [], field => field
  | p :: ps, field =>
      if field.length < capacity then
        let ch := fatShortNameChar p
        shortField capacity ps (if ch ≠ 0 then field ++ [ch] else field)
      else field

/-- The loop that looks for the last dot; `p` is the place of the first byte of the list. -/
def lastDot : List UInt8 → (p : Nat) → Option Nat → Option Nat
  | [], _, dot => dot
  | c :: cs, p, dot => lastDot cs (p + 1) (if c = 0x2E then some p else dot)

/-- `base`: the name without the dots it begins with. -/
def baseName (name : List UInt8) : List UInt8 := name.dropWhile (· = 0x2E)

/-- `stem` and `ext` of a `base`. -/
def shortFields (base : List UInt8) : List UInt8 × List UInt8 :=
  match lastDot base 0 none with
  | some dot => (shortField 8 (base.take dot) [], shortField 3 (base.drop (dot + 1)) [])
  | none => (shortField 8 base [], [])

/-- `compose` -/
def composeEntry (stem ext tail : List UInt8) : DirEntry :=
  let usable := min (8 - tail.length) stem.length
  let name : Vector UInt8 8 := .ofFn fun i => (stem.take usable ++ tail).getD i 0x20
  { name := if name[0]? = some 0xE5 then name.setIfInBounds 0 0x05 else name
    ext := .ofFn fun i => ext.getD i 0x20 }

/-- The digits of a serial number, last digit first. -/
def serialDigits : (room value : Nat) → List UInt8
  | 0, _ => []
  | room + 1, value =>
      .ofNat (0x30 + value % 10) :: if value / 10 = 0 then [] else serialDigits room (value / 10)

/-- `tail` -/
def serialTail (serial : Nat) : List UInt8 := 0x7E :: (serialDigits 7 serial).reverse

namespace Filesys

variable (fs : Filesys)

/-- The loop over the serial numbers. -/
def serialEntry (d : Disk) (dirCluster : Nat) (stem ext : List UInt8) :
    (left serial : Nat) → Cache → Option (DirEntry × Bool) × Cache
  | 0, _, c => (none, c)
  | left + 1, serial, c =>
      let candidate := composeEntry stem ext (serialTail serial)
      let r := fs.shortNameExists d c dirCluster candidate
      if r.1 then serialEntry d dirCluster stem ext left (serial + 1) r.2 else (some (candidate, true), r.2)

/-- `build_short_entry(name, dir_cluster, …)`: the entry and `out_needs_lfn` if it succeeds, and the table cache. -/
def buildShortEntry (d : Disk) (c : Cache) (name : List UInt8) (dirCluster : Nat) :
    Option (DirEntry × Bool) × Cache :=
  if name = [] then (none, c)
  else
    let base := baseName name
    if base = [] then (none, c)
    else
      let fields := shortFields base
      if fields.1 = [] then (none, c)
      else
        let candidate := composeEntry fields.1 fields.2 []
        let r := fs.shortNameExists d c dirCluster candidate
        if r.1 then fs.serialEntry d dirCluster fields.1 fields.2 999999 1 r.2
        else
          let rebuilt := (fatDecodeShortName candidate).takeWhile (· ≠ 0)
          (some (candidate, decide (rebuilt ≠ base)), r.2)

end Filesys

/-! ## The fields -/

/-- What `fatShortNameChar` makes can stand in an 8.3 name, and is no filler. -/
theorem fatShortNameChar_range (c : UInt8) : 0x20 < fatShortNameChar c ∧ fatShortNameChar c < 0x7F := by
  have hall : ∀ n, n < 256 → 0x20 < fatShortNameChar (.ofNat n) ∧ fatShortNameChar (.ofNat n) < 0x7F := by
    decide +kernel
  have hc := hall c.toNat c.toNat_lt
  rwa [UInt8.ofNat_toNat] at hc

theorem shortField_eq (capacity : Nat) : ∀ ps field : List UInt8,
    shortField capacity ps field = field ++ (ps.map fatShortNameChar).take (capacity - field.length)
  | [], field => by rw [shortField, List.map_nil, List.take_nil, List.append_nil]
  | p :: ps, field => by
    have hne : fatShortNameChar p ≠ 0 := fun h => by
      have := (fatShortNameChar_range p).1
      rw [h] at this
      exact absurd this (by decide)
    rw [shortField]
    dsimp only
    split
    · rename_i hlt
      have hroom : capacity - field.length = capacity - (field ++ [fatShortNameChar p]).length + 1 := by
        rw [List.length_append, List.length_singleton]
        omega
      rw [shortField_eq capacity ps, List.map_cons, hroom, List.take_succ_cons, List.append_assoc]
      rfl
    · rename_i hfull
      rw [Nat.sub_eq_zero_of_le (by omega), List.take_zero, List.append_nil]

theorem lastDot_none : ∀ (cs : List UInt8) (p : Nat) (dot : Option Nat), 0x2E ∉ cs → lastDot cs p dot = dot
  | [], _, _, _ => rfl
  | c :: cs, p, dot, h => by
    have hc : c ≠ 0x2E := fun hc => h (hc ▸ List.mem_cons_self)
    rw [lastDot, if_neg hc]
    exact lastDot_none cs (p + 1) dot fun hmem => h (List.mem_cons_of_mem c hmem)

variable {ext base stem field : List UInt8} {n : Nat}

theorem lastDot_split (hext : 0x2E ∉ ext) : ∀ (stem : List UInt8) (p : Nat) (dot : Option Nat),
    lastDot (stem ++ 0x2E :: ext) p dot = some (p + stem.length)
  | [], p, dot => by
    rw [List.nil_append, lastDot, if_pos rfl, lastDot_none ext _ _ hext]
    rfl
  | c :: stem, p, dot => by
    rw [List.cons_append, lastDot, lastDot_split hext stem, List.length_cons, Nat.add_assoc, Nat.add_comm 1]

theorem exists_split (h : 0x2E ∈ base) : ∃ stem ext, base = stem ++ 0x2E :: ext ∧ 0x2E ∉ ext := by
  obtain ⟨ext, stem, hrev, hext⟩ := List.eq_append_cons_of_mem (List.mem_reverse.mpr h)
  refine ⟨stem.reverse, ext.reverse, ?_, fun hmem => hext (List.mem_reverse.mp hmem)⟩
  rw [← List.reverse_reverse base, hrev, List.reverse_append, List.reverse_cons, List.append_assoc]
  rfl

theorem shortFields_split (hext : 0x2E ∉ ext) :
    shortFields (stem ++ 0x2E :: ext) =
      ((stem.map fatShortNameChar).take 8, (ext.map fatShortNameChar).take 3) := by
  have hdrop : (stem ++ 0x2E :: ext).drop (0 + stem.length + 1) = ext := by
    rw [Nat.zero_add, ← List.drop_drop, List.drop_left]
    rfl
  rw [shortFields, lastDot_split hext]
  dsimp only
  rw [hdrop, Nat.zero_add, List.take_left, shortField_eq, shortField_eq]
  rfl

theorem shortFields_plain (h : 0x2E ∉ base) :
    shortFields base = ((base.map fatShortNameChar).take 8, []) := by
  rw [shortFields, lastDot_none base 0 none h]
  dsimp only
  rw [shortField_eq]
  rfl

/-! ## The pair -/

/-- Bytes that can stand in an 8.3 name. -/
def Plain83 (field : List UInt8) : Prop := ∀ c ∈ field, 0x20 < c ∧ c < 0x7F

theorem plain83_take (field : List UInt8) (n : Nat) : Plain83 ((field.map fatShortNameChar).take n) := by
  intro c hc
  obtain ⟨p, -, rfl⟩ := List.mem_map.mp (List.mem_of_mem_take hc)
  exact fatShortNameChar_range p

/-- A pair without a serial number: both parts are filled with blanks. -/
def shortPair (stem ext : List UInt8) : DirEntry where
  name := .ofFn fun i => stem.getD i 0x20
  ext := .ofFn fun i => ext.getD i 0x20

theorem composeEntry_nil (hstem : Plain83 stem) (hlen : stem.length ≤ 8) :
    composeEntry stem ext [] = shortPair stem ext := by
  have husable : stem.take (min (8 - ([] : List UInt8).length) stem.length) ++ [] = stem := by
    rw [List.append_nil, List.length_nil, Nat.sub_zero, Nat.min_eq_right hlen, List.take_length]
  have hfirst : stem.getD 0 0x20 ≠ 0xE5 := by
    cases stem with
    | nil => decide
    | cons c rest =>
      intro h
      have hlt := (hstem c List.mem_cons_self).2
      rw [show c = 0xE5 from h] at hlt
      exact absurd hlt (by decide)
  have hne : ¬(Vector.ofFn fun i : Fin 8 => stem.getD i 0x20)[0]? = some 0xE5 := by
    rw [Vector.getElem?_eq_getElem (by decide), Vector.getElem_ofFn]
    exact fun h => hfirst (Option.some.inj h)
  rw [composeEntry, husable, if_neg hne]
  rfl

theorem toList_pad (hlen : field.length ≤ n) :
    (Vector.ofFn fun i : Fin n => field.getD i 0x20).toList = field ++ List.replicate (n - field.length) 0x20 := by
  refine List.ext_getElem ?_ fun i h1 h2 => ?_
  · rw [Vector.length_toList, List.length_append, List.length_replicate]
    omega
  · rw [Vector.getElem_toList, Vector.getElem_ofFn, List.getElem_append]
    split
    · rename_i hlt
      exact List.getD_eq_getElem field 0x20 hlt
    · rename_i hge
      rw [List.getElem_replicate]
      exact List.getD_eq_default field 0x20 (Nat.le_of_not_lt hge)

theorem takeWhile_pad (h : Plain83 field) (hlen : field.length ≤ n) :
    (Vector.ofFn fun i : Fin n => field.getD i 0x20).toList.takeWhile (· ≠ 0x20) = field := by
  have hnone : (List.replicate (n - field.length) (0x20 : UInt8)).takeWhile (· ≠ 0x20) = [] := by
    rw [List.takeWhile_replicate]
    rfl
  rw [toList_pad hlen, List.takeWhile_append_of_pos, hnone, List.append_nil]
  intro c hc
  have hlt := (h c hc).1
  exact decide_eq_true fun heq => absurd (heq ▸ hlt) (by decide)

theorem decode_shortPair (hstem : Plain83 stem) (hext : Plain83 ext) (hstem8 : stem.length ≤ 8)
    (hext3 : ext.length ≤ 3) :
    fatDecodeShortName (shortPair stem ext) = stem ++ if ext = [] then [] else 0x2E :: ext := by
  have hsame : ∀ c ∈ stem, (if c = 0x05 then 0xE5 else c) = c := fun c hc => by
    have hlt := (hstem c hc).1
    exact if_neg fun heq => absurd (heq ▸ hlt) (by decide)
  rw [fatDecodeShortName, shortPair]
  dsimp only
  rw [takeWhile_pad hstem hstem8, takeWhile_pad hext hext3, List.map_congr_left hsame, List.map_id']
  cases ext with
  | nil => rw [if_neg (by rw [Vector.getElem_ofFn]; decide), if_pos rfl, List.append_nil]
  | cons c rest =>
    have hlt := (hext c List.mem_cons_self).1
    have hne : c ≠ 0x20 := fun heq => absurd (heq ▸ hlt) (by decide)
    rw [if_pos (by rw [Vector.getElem_ofFn]; exact hne), if_neg (List.cons_ne_nil c rest)]

/-- A name that is an 8.3 name as it stands, and its two parts. -/
inductive Fits83 : List UInt8 → List UInt8 → List UInt8 → Prop
  | plain {stem : List UInt8} (hdot : 0x2E ∉ stem) (hlen : 1 ≤ stem.length ∧ stem.length ≤ 8)
      (hchars : ∀ c ∈ stem, fatShortNameChar c = c) : Fits83 stem stem []
  | dotted {stem ext : List UInt8} (hdot : 0x2E ∉ ext) (hlen : 1 ≤ stem.length ∧ stem.length ≤ 8)
      (hlen3 : 1 ≤ ext.length ∧ ext.length ≤ 3) (hchars : ∀ c ∈ stem ++ ext, fatShortNameChar c = c) :
      Fits83 (stem ++ 0x2E :: ext) stem ext

theorem shortFields_plain83 (base : List UInt8) :
    (Plain83 (shortFields base).1 ∧ (shortFields base).1.length ≤ 8) ∧
      (Plain83 (shortFields base).2 ∧ (shortFields base).2.length ≤ 3) := by
  by_cases hdot : 0x2E ∈ base
  · obtain ⟨stem, ext, rfl, hext⟩ := exists_split hdot
    rw [shortFields_split hext]
    exact ⟨⟨plain83_take stem 8, List.length_take_le _ _⟩, plain83_take ext 3, List.length_take_le _ _⟩
  · rw [shortFields_plain hdot]
    exact ⟨⟨plain83_take base 8, List.length_take_le _ _⟩, fun c hc => absurd hc List.not_mem_nil, Nat.zero_le 3⟩

/-- A part that comes back as it was is short enough, and has no other characters. -/
theorem take_map_eq (h : (field.map fatShortNameChar).take n = field) :
    field.length ≤ n ∧ ∀ c ∈ field, fatShortNameChar c = c := by
  have hlen : field.length ≤ n := by
    have := congrArg List.length h
    rw [List.length_take, List.length_map] at this
    omega
  rw [List.take_of_length_le (by rw [List.length_map]; exact hlen)] at h
  exact ⟨hlen, List.map_inj_left.mp (h.trans (List.map_id field).symm)⟩

theorem take_map_fixed (hlen : field.length ≤ n)
    (hchars : ∀ c ∈ field, fatShortNameChar c = c) : (field.map fatShortNameChar).take n = field := by
  rw [List.map_congr_left hchars, List.map_id', List.take_of_length_le hlen]

theorem Fits83.fields (h : Fits83 base stem ext) : shortFields base = (stem, ext) := by
  cases h with
  | plain hdot hlen hchars => rw [shortFields_plain hdot, take_map_fixed hlen.2 hchars]
  | dotted hdot hlen hlen3 hchars =>
    rw [shortFields_split hdot, take_map_fixed hlen.2 fun c hc => hchars c (List.mem_append_left ext hc),
      take_map_fixed hlen3.2 fun c hc => hchars c (List.mem_append_right stem hc)]

/-- The pair of a name shows the name exactly when it is an 8.3 name. -/
theorem decode_shortFields_iff (hne : base ≠ []) (hfirst : base.head? ≠ some 0x2E) :
    fatDecodeShortName (shortPair (shortFields base).1 (shortFields base).2) = base ↔ ∃ stem ext, Fits83 base stem ext := by
  obtain ⟨⟨hstem, hstem8⟩, hext, hext3⟩ := shortFields_plain83 base
  rw [decode_shortPair hstem hext hstem8 hext3]
  constructor
  · intro hdecode
    by_cases hdot : 0x2E ∈ base
    · obtain ⟨stem, ext, rfl, hnodot⟩ := exists_split hdot
      rw [shortFields_split hnodot] at hdecode
      dsimp only at hdecode
      have hlength := congrArg List.length hdecode
      have hle : ((stem.map fatShortNameChar).take 8).length ≤ stem.length := by
        rw [List.length_take, List.length_map]
        exact Nat.min_le_right _ _
      have hle3 : ((ext.map fatShortNameChar).take 3).length ≤ ext.length := by
        rw [List.length_take, List.length_map]
        exact Nat.min_le_right _ _
      rw [List.length_append, List.length_append, List.length_cons] at hlength
      split at hdecode
      · rename_i hnil
        rw [if_pos hnil, List.length_nil] at hlength
        omega
      · rename_i hsome
        rw [if_neg hsome, List.length_cons] at hlength
        obtain ⟨hstems, hexts⟩ := List.append_inj hdecode (by omega)
        have hexts := (List.cons.inj hexts).2
        obtain ⟨hshort, hchars⟩ := take_map_eq hstems
        obtain ⟨hshort3, hchars3⟩ := take_map_eq hexts
        rw [hexts] at hsome
        refine ⟨stem, ext, .dotted hnodot ⟨?_, hshort⟩ ⟨List.length_pos_iff.mpr hsome, hshort3⟩ fun c hc => ?_⟩
        · refine List.length_pos_iff.mpr fun hnil => hfirst ?_
          rw [hnil]
          rfl
        · exact (List.mem_append.mp hc).elim (hchars c) (hchars3 c)
    · rw [shortFields_plain hdot] at hdecode
      dsimp only at hdecode
      rw [if_pos rfl, List.append_nil] at hdecode
      obtain ⟨hshort, hchars⟩ := take_map_eq hdecode
      exact ⟨base, [], .plain hdot ⟨List.length_pos_iff.mpr hne, hshort⟩ hchars⟩
  · rintro ⟨stem, ext, h⟩
    rw [h.fields]
    cases h with
    | plain hdot hlen hchars => rw [if_pos rfl, List.append_nil]
    | dotted hdot hlen hlen3 hchars => rw [if_neg (List.length_pos_iff.mp hlen3.1)]

/-! ## The entries of the directory -/

/-- The entry of a file or a directory: not deleted, no piece of a long name, no volume label. -/
def isUsed (m : Mem) : Bool := m 0 != 0xE5 && !isLongName m && !isVolume m

/-- The entries of a sector. -/
def sectorSlots (d : Disk) (sec : Nat) : List Mem := (List.range (d.blockSize / 32)).map (slot (d.data sec))

/-- The entries of a directory that are in use. -/
def liveEntries (d : Disk) (secs : List Nat) : List Mem :=
  ((secs.flatMap (sectorSlots d)).takeWhile (· 0 ≠ 0)).filter isUsed

/-- An entry of the directory has the pair, or a sector of it cannot be read.  The end of the directory does not count,
only the end of a sector. -/
def Taken (d : Disk) (secs : List Nat) (e : DirEntry) : Prop :=
  ∃ sec ∈ secs, d.bad sec = true ∨ ∃ m ∈ (sectorSlots d sec).takeWhile (· 0 ≠ 0), isUsed m = true ∧ dirEntry m = e

variable {d : Disk} {e : DirEntry}

theorem matchesEntries_cons {buf : Mem} {i : Nat} (h0 : slot buf i 0 ≠ 0) (is : List Nat) :
    matchesEntries e buf (i :: is) = true ↔
      (isUsed (slot buf i) = true ∧ dirEntry (slot buf i) = e) ∨ matchesEntries e buf is = true := by
  have hpair : dirEntry (slot buf i) = e ↔
      (dirEntry (slot buf i)).name = e.name ∧ (dirEntry (slot buf i)).ext = e.ext := by
    cases e
    exact DirEntry.mk.injEq .. ▸ Iff.rfl
  rw [matchesEntries, if_neg h0, hpair, isUsed]
  split
  · rename_i hdeleted
    simp [hdeleted]
  · rename_i hdeleted
    split
    · rename_i hlong
      simp [hlong]
    · rename_i hlong
      split
      · rename_i hvolume
        simp [hvolume]
      · rename_i hvolume
        split
        · rename_i hsame
          simp [hdeleted, hlong, hvolume, hsame]
        · rename_i hother
          simp only [hother, and_false, false_or]

theorem matchesEntries_iff {buf : Mem} : ∀ is : List Nat, matchesEntries e buf is = true ↔
    ∃ m ∈ (is.map (slot buf)).takeWhile (· 0 ≠ 0), isUsed m = true ∧ dirEntry m = e
  | [] => ⟨fun h => absurd h Bool.false_ne_true, fun ⟨_, hm, _⟩ => absurd hm List.not_mem_nil⟩
  | i :: is => by
    rw [List.map_cons]
    by_cases h0 : slot buf i 0 = 0
    · rw [matchesEntries, if_pos h0, List.takeWhile_cons_of_neg (by simpa using h0)]
      exact ⟨fun h => absurd h Bool.false_ne_true, fun ⟨_, hm, _⟩ => absurd hm List.not_mem_nil⟩
    · rw [matchesEntries_cons h0, List.takeWhile_cons_of_pos (by simpa using h0), matchesEntries_iff is]
      simp only [List.mem_cons, exists_eq_or_imp]

theorem matchesSector_iff {sec : Nat} : matchesSector d e sec = true ↔
    d.bad sec = true ∨ ∃ m ∈ (sectorSlots d sec).takeWhile (· 0 ≠ 0), isUsed m = true ∧ dirEntry m = e := by
  rw [matchesSector]
  split
  · rename_i hbad
    exact iff_of_true rfl (.inl hbad)
  · rename_i hgood
    rw [matchesEntries_iff, or_iff_right hgood]
    exact Iff.rfl

theorem walkList_matches : ∀ secs : List Nat, (walkList (matchesStep d e) secs ()).1 = .walkFound ↔
    ∃ sec ∈ secs, matchesSector d e sec = true
  | [] => ⟨fun h => absurd h (show DirWalkResult.walkContinue ≠ .walkFound by decide),
      fun ⟨_, hm, _⟩ => absurd hm List.not_mem_nil⟩
  | sec :: secs => by
    simp only [List.mem_cons, exists_eq_or_imp]
    rw [walkList, matchesStep]
    by_cases hmatch : matchesSector d e sec = true
    · rw [if_pos hmatch]
      exact iff_of_true rfl (.inl hmatch)
    · rw [if_neg hmatch, if_pos rfl, or_iff_right hmatch]
      exact walkList_matches secs

section
variable {fs : Filesys} (hsound : fs.Sound d) {c : Cache} (hc : c.Holds fs.toVolume d) {dirCluster : Nat}
  {secs : List Nat} (hsecs : fs.Sectors d dirCluster secs)
include hsound hc hsecs

theorem shortNameExists_iff : (fs.shortNameExists d c dirCluster e).1 = true ↔ Taken d secs e := by
  rw [shortNameExists]
  dsimp only
  rw [decide_eq_true_iff, (walkDirectory_eq hsound hc hsecs _ _).1, walkList_matches]
  simp only [matchesSector_iff, Taken]

theorem shortNameExists_holds : (fs.shortNameExists d c dirCluster e).2.Holds fs.toVolume d :=
  (walkDirectory_eq hsound hc hsecs _ _).2

end

/-- What stands before the end of a directory stands before the end of its sector. -/
theorem mem_takeWhile_flatMap {p : Mem → Bool} {m : Mem} : ∀ {secs : List Nat},
    m ∈ (secs.flatMap (sectorSlots d)).takeWhile p → ∃ sec ∈ secs, m ∈ (sectorSlots d sec).takeWhile p
  | [], h => absurd h List.not_mem_nil
  | sec :: secs, h => by
    rw [List.flatMap_cons, List.takeWhile_append] at h
    split at h
    · rename_i hall
      rcases List.mem_append.mp h with h | h
      · refine ⟨sec, List.mem_cons_self, ?_⟩
        rwa [(List.takeWhile_sublist p).eq_of_length hall]
      · obtain ⟨sec', hsec', hm⟩ := mem_takeWhile_flatMap h
        exact ⟨sec', List.mem_cons_of_mem sec hsec', hm⟩
    · exact ⟨sec, List.mem_cons_self, h⟩

theorem not_taken {secs : List Nat} (h : ¬Taken d secs e) : ∀ m ∈ liveEntries d secs, dirEntry m ≠ e := by
  intro m hm hsame
  obtain ⟨hm, hused⟩ := List.mem_filter.mp hm
  obtain ⟨sec, hsec, hm⟩ := mem_takeWhile_flatMap hm
  exact h ⟨sec, hsec, .inr ⟨m, hm, hused, hsame⟩⟩

/-! ## What `buildShortEntry` makes -/

theorem head_baseName (name : List UInt8) : (baseName name).head? ≠ some 0x2E := by
  intro h
  have := List.head?_dropWhile_not (· = (0x2E : UInt8)) name
  rw [show name.dropWhile (· = (0x2E : UInt8)) = baseName name from rfl, h] at this
  exact absurd this (by decide)

theorem baseName_of_head {name : List UInt8} (h : name.head? ≠ some 0x2E) : baseName name = name := by
  cases name with
  | nil => rfl
  | cons c rest =>
    refine List.dropWhile_cons_of_neg fun hc => h ?_
    exact congrArg some (of_decide_eq_true hc)

/-- The pair of a name, without a serial number. -/
def pairOf (base : List UInt8) : DirEntry := shortPair (shortFields base).1 (shortFields base).2

theorem composeEntry_fields (base : List UInt8) :
    composeEntry (shortFields base).1 (shortFields base).2 [] = pairOf base :=
  composeEntry_nil (shortFields_plain83 base).1.1 (shortFields_plain83 base).1.2

theorem shortFields_ne_nil {base : List UInt8} (hne : base ≠ []) (hfirst : base.head? ≠ some 0x2E) :
    (shortFields base).1 ≠ [] := by
  intro hnil
  by_cases hdot : 0x2E ∈ base
  · obtain ⟨stem, ext, rfl, hext⟩ := exists_split hdot
    rw [shortFields_split hext] at hnil
    cases stem with
    | nil => exact hfirst rfl
    | cons c stem => exact List.cons_ne_nil _ _ hnil
  · rw [shortFields_plain hdot] at hnil
    cases base with
    | nil => exact hne rfl
    | cons c base => exact List.cons_ne_nil _ _ hnil

/-- A pair shows no zero and nothing else that is not valid in a name. -/
theorem plain83_decode_pairOf (base : List UInt8) : Plain83 (fatDecodeShortName (pairOf base)) := by
  obtain ⟨⟨hstem, hstem8⟩, hext, hext3⟩ := shortFields_plain83 base
  rw [pairOf, decode_shortPair hstem hext hstem8 hext3]
  intro c hc
  rcases List.mem_append.mp hc with hc | hc
  · exact hstem c hc
  · split at hc
    · exact absurd hc List.not_mem_nil
    · rcases List.mem_cons.mp hc with rfl | hc
      · decide
      · exact hext c hc

theorem Plain83.takeWhile {field : List UInt8} (h : Plain83 field) : field.takeWhile (· ≠ 0) = field :=
  List.takeWhile_eq_self_iff.mpr fun c hc => decide_eq_true fun hzero => by
    have hlt := (h c hc).1
    rw [hzero] at hlt
    exact absurd hlt (by decide)

theorem Plain83.valid {field : List UInt8} (h : Plain83 field) : isValidName field = true := by
  rw [isValidName, List.all_eq_true]
  intro c hc
  obtain ⟨hlow, hhigh⟩ := h c hc
  have hle : ¬c < 0x20 := UInt8.lt_asymm hlow
  have hne : c ≠ 0x7F := UInt8.ne_of_lt hhigh
  simp [hle, hne]

section
variable {fs : Filesys} (hsound : fs.Sound d) {dirCluster : Nat} {secs : List Nat}
  (hsecs : fs.Sectors d dirCluster secs)
include hsound hsecs

/-- A pair with a serial number is not taken, and needs a long name. -/
theorem serialEntry_spec {stem ext : List UInt8} {needsLfn : Bool} : ∀ (left serial : Nat) {c : Cache},
    c.Holds fs.toVolume d → (fs.serialEntry d dirCluster stem ext left serial c).1 = some (e, needsLfn) →
      ¬Taken d secs e ∧ needsLfn = true
  | 0, _, _, _, h => absurd h (Option.some_ne_none _).symm
  | left + 1, serial, c, hc, h => by
    rw [serialEntry] at h
    split at h
    · exact serialEntry_spec left (serial + 1) (shortNameExists_holds hsound hc hsecs) h
    · rename_i hfree
      obtain ⟨rfl, rfl⟩ := Prod.mk.inj (Option.some.inj h)
      exact ⟨fun htaken => hfree ((shortNameExists_iff hsound hc hsecs).mpr htaken), rfl⟩

variable {c : Cache} (hc : c.Holds fs.toVolume d) {name : List UInt8}
include hc

theorem buildShortEntry_free (hne : baseName name ≠ []) (hfree : ¬Taken d secs (pairOf (baseName name))) :
    (fs.buildShortEntry d c name dirCluster).1 =
      some (pairOf (baseName name), decide (fatDecodeShortName (pairOf (baseName name)) ≠ baseName name)) := by
  have hname : name ≠ [] := fun h => hne (congrArg baseName h)
  rw [buildShortEntry, if_neg hname]
  dsimp only
  rw [if_neg hne, if_neg (shortFields_ne_nil hne (head_baseName name)), composeEntry_fields,
    if_neg fun h => hfree ((shortNameExists_iff hsound hc hsecs).mp h), (plain83_decode_pairOf _).takeWhile]

/-- Whatever is made is not taken, and without a long name it is the pair of the name. -/
theorem buildShortEntry_cases {needsLfn : Bool}
    (h : (fs.buildShortEntry d c name dirCluster).1 = some (e, needsLfn)) :
    baseName name ≠ [] ∧ ¬Taken d secs e ∧
      (needsLfn = false → e = pairOf (baseName name) ∧ fatDecodeShortName e = baseName name) := by
  have hne : baseName name ≠ [] := by
    intro hnil
    rw [buildShortEntry] at h
    split at h
    · exact absurd h (Option.some_ne_none _).symm
    · dsimp only at h
      rw [if_pos hnil] at h
      exact absurd h (Option.some_ne_none _).symm
  refine ⟨hne, ?_⟩
  by_cases htaken : Taken d secs (pairOf (baseName name))
  · have hname : name ≠ [] := fun h => hne (congrArg baseName h)
    rw [buildShortEntry, if_neg hname] at h
    dsimp only at h
    rw [if_neg hne, if_neg (shortFields_ne_nil hne (head_baseName name)), composeEntry_fields,
      if_pos ((shortNameExists_iff hsound hc hsecs).mpr htaken)] at h
    obtain ⟨hfree, hneeds⟩ := serialEntry_spec hsound hsecs 999999 1 (shortNameExists_holds hsound hc hsecs) h
    exact ⟨hfree, fun hfalse => absurd (hneeds.symm.trans hfalse) (by decide)⟩
  · rw [buildShortEntry_free hsound hsecs hc hne htaken] at h
    obtain ⟨rfl, rfl⟩ := Prod.mk.inj (Option.some.inj h)
    exact ⟨htaken, fun hfalse => ⟨rfl, not_not.mp (of_decide_eq_false hfalse)⟩⟩

end

/-! ## Soundness -/

/-- A directory, maybe a later one, in which an entry with the pair `e` stands at `p`, and the walk comes there without
a stop and without a piece of a long name. -/
structure NewEntry (fs : Filesys) (dirCluster : Nat) (name : List UInt8) (e : DirEntry) (d : Disk) (c : Cache)
    (p : Nat × Nat) : Prop where
  sound : fs.Sound d
  size : 32 ≤ d.blockSize
  cache : c.Holds fs.toVolume d
  reached : ∃ secs before after lfn, fs.Sectors d dirCluster secs ∧ places d secs = before ++ p :: after ∧
    scan d name .start before = .passed lfn ∧ lfn.active = false
  readable : d.bad p.1 = false
  pair : dirEntry (entryAt d p) = e
  notLong : isLongName (entryAt d p) = false
  notVolume : isVolume (entryAt d p) = false

/-- What is expected of the pair for a name. -/
def ShortNameSound (fs : Filesys) (d : Disk) (c : Cache) (dirCluster : Nat) (secs : List Nat) (name : List UInt8) :
    Prop :=
  ∀ e needsLfn, (fs.buildShortEntry d c name dirCluster).1 = some (e, needsLfn) →
    (∀ m ∈ liveEntries d secs, dirEntry m ≠ e) ∧
      (needsLfn = false → fatDecodeShortName e = name ∧
        ∀ d' c' p, NewEntry fs dirCluster name e d' c' p →
          ∃ f, (fs.findEntryInDir d' c' dirCluster name).1 = some f ∧ (f.sector, f.index) = p ∧
            f.entry = entryAt d' p)

/-- An entry that shows a name of an 8.3 pair is found under it. -/
theorem NewEntry.found {fs : Filesys} {dirCluster : Nat} {name : List UInt8} {d : Disk} {c : Cache} {p : Nat × Nat}
    (hdecode : fatDecodeShortName (pairOf (baseName name)) = name) (hne : baseName name ≠ [])
    (h : NewEntry fs dirCluster name (pairOf (baseName name)) d c p) :
    ∃ f, (fs.findEntryInDir d c dirCluster name).1 = some f ∧ (f.sector, f.index) = p ∧ f.entry = entryAt d p := by
  obtain ⟨secs, before, after, lfn, hsecs, hplaces, hbefore, hlfn⟩ := h.reached
  have hplain := plain83_decode_pairOf (baseName name)
  have hfirst : 0x20 < entryAt d p 0 ∧ entryAt d p 0 < 0x7F := by
    obtain ⟨⟨hstem, -⟩, -⟩ := shortFields_plain83 (baseName name)
    have hbyte : (dirEntry (entryAt d p)).name[0] = entryAt d p 0 := Vector.getElem_ofFn ..
    have hpair : (pairOf (baseName name)).name[0] = (shortFields (baseName name)).1.getD 0 0x20 := Vector.getElem_ofFn ..
    rw [← hbyte, h.pair, hpair]
    cases hfields : (shortFields (baseName name)).1 with
    | nil => exact absurd hfields (shortFields_ne_nil hne (head_baseName name))
    | cons c rest => exact hstem c (hfields ▸ List.mem_cons_self)
  have hzero : entryAt d p 0 ≠ 0 := fun heq => absurd (heq ▸ hfirst.1) (by decide)
  have hdeleted : entryAt d p 0 ≠ 0xE5 := fun heq => absurd (heq ▸ hfirst.2) (by decide)
  have hshown : (slotName lfn (entryAt d p)).1 = some name := by
    rw [slotName_inactive hlfn hdeleted h.notLong h.notVolume (by rw [h.pair, hplain.takeWhile]; exact hplain.valid),
      h.pair, hplain.takeWhile, hdecode]
  exact findEntryInDir_new h.sound h.size h.cache hsecs hplaces hbefore h.readable hzero hshown

/-- The pair for a name is sound unless the name is an 8.3 name with dots in front of it. -/
theorem build_short_entry_sound_iff {fs : Filesys} {d : Disk} (hsound : fs.Sound d) {c : Cache}
    (hc : c.Holds fs.toVolume d) {dirCluster : Nat} {secs : List Nat} (hsecs : fs.Sectors d dirCluster secs)
    (name : List UInt8) :
    ShortNameSound fs d c dirCluster secs name ↔
      (name.head? = some 0x2E → ∀ stem ext, Fits83 (baseName name) stem ext → Taken d secs (shortPair stem ext)) := by
  constructor
  · intro hsound' hdot stem ext hfits
    by_contra hfree
    have hpair : pairOf (baseName name) = shortPair stem ext := by rw [pairOf, hfits.fields]
    have hne : baseName name ≠ [] := by
      intro hnil
      rw [hnil] at hfits
      generalize hbase : ([] : List UInt8) = base at hfits
      cases hfits with
      | plain hdot hlen hchars =>
          rw [← hbase] at hlen
          exact absurd hlen.1 (by decide)
      | dotted hdot hlen hlen3 hchars => exact absurd hbase.symm (List.append_ne_nil_of_right_ne_nil _ (List.cons_ne_nil _ _))
    have hdecode : fatDecodeShortName (pairOf (baseName name)) = baseName name :=
      (decode_shortFields_iff hne (head_baseName name)).mpr ⟨stem, ext, hfits⟩
    have hbuilt := buildShortEntry_free hsound hsecs hc hne (hpair ▸ hfree)
    obtain ⟨-, hshown⟩ := hsound' _ _ hbuilt
    have hsame := (hshown (decide_eq_false (not_not.mpr hdecode))).1
    rw [hdecode] at hsame
    exact head_baseName name (hsame.symm ▸ hdot)
  · intro hdots e needsLfn hbuilt
    obtain ⟨hne, hfree, hshort⟩ := buildShortEntry_cases hsound hsecs hc hbuilt
    refine ⟨not_taken hfree, fun hneeds => ?_⟩
    obtain ⟨rfl, hdecode⟩ := hshort hneeds
    have hname : baseName name = name := by
      refine baseName_of_head fun hdot => ?_
      obtain ⟨stem, ext, hfits⟩ := (decode_shortFields_iff hne (head_baseName name)).mp hdecode
      refine hfree ?_
      rw [pairOf, hfits.fields]
      exact hdots hdot stem ext hfits
    have hshown : fatDecodeShortName (pairOf (baseName name)) = name := hdecode.trans hname
    exact ⟨hshown, fun d' c' p hnew => hnew.found hshown hne⟩

theorem smallVolume_sectors : smallVolume.Sectors smallDisk 0 [3, 4] :=
  ⟨fun _ => by decide, fun h => absurd ⟨rfl, by decide⟩ h⟩

/-- The name `AB`. -/
theorem build_short_entry_sound_at_ab :
    ShortNameSound smallVolume smallDisk ⟨fun _ => 0, 0xFFFFFFFF⟩ 0 [3, 4] [0x41, 0x42] :=
  (build_short_entry_sound_iff smallVolume_sound (.fresh smallVolume_sound _) smallVolume_sectors _).mpr
    fun h => absurd h (by decide)

/-- `.TXT` gets the entry `TXT`, and no long name. -/
theorem short_name_without_dot :
    ((smallVolume.buildShortEntry smallDisk ⟨fun _ => 0, 0xFFFFFFFF⟩ [0x2E, 0x54, 0x58, 0x54] 0).1.map
      fun r => (fatDecodeShortName r.1, r.2)) = some ([0x54, 0x58, 0x54], false) := by
  decide

end Unisym.Fat
