/-
# `FindEntry` — what `findEntryInDir` finds

The places of a directory, sector and entry, in the order of the walk are a
list; looking a name up is a scan of this list, which carries the state of the
long names (`scan`).  `findEntryInDir_eq` says that the walk is this scan, and
`findEntryInDir_new` what it means for an entry that was just written.
-/
import Unisym.Fat.DirectorySpec

namespace Unisym.Fat

open Function Mem Filesys

/-- The bytes of the entry at a place. -/
def entryAt (d : Disk) (p : Nat × Nat) : Mem := slot (d.data p.1) p.2

/-- The places of some sectors. -/
def places (d : Disk) (secs : List Nat) : List (Nat × Nat) :=
  secs.flatMap fun sec => (List.range (d.blockSize / 32)).map (sec, ·)

/-- How a scan ends. -/
inductive Scan where
  /-- Every entry was passed. -/
  | passed (lfn : LfnState)
  /-- The end of the directory, or a sector that cannot be read. -/
  | stopped
  | found (p : Nat × Nat)

/-- What follows a scan that passed. -/
def Scan.next (next : LfnState → Scan) : Scan → Scan
  | .passed lfn => next lfn
  | .stopped => .stopped
  | .found p => .found p

/-- The place that was found. -/
def Scan.place : Scan → Option (Nat × Nat)
  | .found p => some p
  | _ => none

def scanEntry (d : Disk) (name : List UInt8) (lfn : LfnState) (p : Nat × Nat) : Scan :=
  if d.bad p.1 = true ∨ entryAt d p 0 = 0 then .stopped
  else if (slotName lfn (entryAt d p)).1.any fun shown => strCompareInsensitive shown name = 0 then .found p
  else .passed (slotName lfn (entryAt d p)).2

/-- Entry by entry. -/
def scan (d : Disk) (name : List UInt8) (lfn : LfnState) : List (Nat × Nat) → Scan
  | [] => .passed lfn
  | p :: ps => (scanEntry d name lfn p).next fun lfn => scan d name lfn ps

variable {d : Disk} {name : List UInt8}

theorem scan_append (more : List (Nat × Nat)) : ∀ (ps : List (Nat × Nat)) (lfn : LfnState),
    scan d name lfn (ps ++ more) = (scan d name lfn ps).next fun lfn => scan d name lfn more
  | [], _ => rfl
  | p :: ps, lfn => by
    rw [List.cons_append, scan, scan]
    cases scanEntry d name lfn p with
    | passed lfn => exact scan_append more ps lfn
    | stopped => rfl
    | found p => rfl

/-- The walk stands where a scan ends. -/
inductive Finds (d : Disk) : Scan → DirWalkResult × FindState → Prop
  | passed {st : FindState} (hfound : st.found = none) : Finds d (.passed st.lfn) (.walkContinue, st)
  | stopped {st : FindState} (hfound : st.found = none) : Finds d .stopped (.walkEnd, st)
  | found {st : FindState} {p : Nat × Nat} {f : Found} (hfound : st.found = some f)
      (hplace : (f.sector, f.index) = p ∧ f.entry = entryAt d p) : Finds d (.found p) (.walkFound, st)

theorem findEntries_finds {sector : Nat} (hgood : d.bad sector = false) : ∀ (is : List Nat) (st : FindState),
    st.found = none → Finds d (scan d name st.lfn (is.map (sector, ·))) (findEntries name sector (d.data sector) is st)
  | [], st, hst => .passed hst
  | i :: is, st, hst => by
    have hread : ¬d.bad sector = true := Bool.eq_false_iff.mp hgood
    rw [List.map_cons, scan, scanEntry, findEntries]
    dsimp only
    rw [show entryAt d (sector, i) = slot (d.data sector) i from rfl]
    have hrest : ∀ st' : FindState, st'.lfn = (slotName st.lfn (slot (d.data sector) i)).2 → st'.found = none →
        Finds d (scan d name (slotName st.lfn (slot (d.data sector) i)).2 (is.map (sector, ·)))
          (findEntries name sector (d.data sector) is st') :=
      fun st' hlfn hst' => hlfn ▸ findEntries_finds hgood is st' hst'
    by_cases h0 : slot (d.data sector) i 0 = 0
    · rw [if_pos (Or.inr h0), if_pos h0]
      exact .stopped hst
    rw [if_neg (not_or.mpr ⟨hread, h0⟩), if_neg h0]
    by_cases hlong : slot (d.data sector) i 0 ≠ 0xE5 ∧ isLongName (slot (d.data sector) i) = true
    · have hname : (slotName st.lfn (slot (d.data sector) i)).1 = none := by
        rw [slotName, if_neg hlong.1, if_pos hlong.2]
      rw [if_pos hlong, hname]
      exact hrest _ rfl hst
    rw [if_neg hlong]
    cases hname : (slotName st.lfn (slot (d.data sector) i)).1 with
    | none => exact hrest _ rfl hst
    | some shown =>
      dsimp only [Option.any]
      by_cases hsame : strCompareInsensitive shown name = 0
      · rw [if_pos hsame, if_pos (decide_eq_true hsame)]
        exact .found rfl ⟨rfl, rfl⟩
      · rw [if_neg hsame, if_neg (by simpa using hsame)]
        exact hrest _ rfl hst

theorem walkList_finds (hsize : 32 ≤ d.blockSize) : ∀ (secs : List Nat) (st : FindState), st.found = none →
    Finds d (scan d name st.lfn (places d secs)) (walkList (findSector d name) secs st)
  | [], st, hst => .passed hst
  | sec :: secs, st, hst => by
    rw [places, List.flatMap_cons, scan_append, walkList, findSector]
    split
    · rename_i hbad
      obtain ⟨n, hn⟩ : ∃ n, d.blockSize / 32 = n + 1 := Nat.exists_eq_succ_of_ne_zero (by omega)
      have hstop : scan d name st.lfn ((List.range (d.blockSize / 32)).map (sec, ·)) = .stopped := by
        rw [hn, List.range_succ_eq_map, List.map_cons, scan, scanEntry, if_pos (Or.inl hbad)]
        rfl
      rw [hstop, if_neg (show DirWalkResult.walkEnd ≠ .walkContinue by decide)]
      exact .stopped hst
    · rename_i hgood
      have hsector : Finds d (scan d name st.lfn ((List.range (d.blockSize / 32)).map (sec, ·))) _ :=
        findEntries_finds (Bool.eq_false_iff.mpr hgood) (List.range (d.blockSize / 32)) st hst
      generalize scan d name st.lfn ((List.range (d.blockSize / 32)).map (sec, ·)) = r at hsector ⊢
      generalize findEntries name sec (d.data sec) (List.range (d.blockSize / 32)) st = w at hsector ⊢
      cases hsector with
      | passed hfound => exact walkList_finds hsize secs _ hfound
      | stopped hfound => exact .stopped hfound
      | found hfound hplace => exact .found hfound hplace

theorem findEntryInDir_eq {fs : Filesys} (hsound : fs.Sound d) (hsize : 32 ≤ d.blockSize) {c : Cache}
    (hc : c.Holds fs.toVolume d) {dirCluster : Nat} {secs : List Nat} (hsecs : fs.Sectors d dirCluster secs) :
    ((fs.findEntryInDir d c dirCluster name).1.map fun f => ((f.sector, f.index), f.entry)) =
      (scan d name .start (places d secs)).place.map fun p => (p, entryAt d p) := by
  have hfinds : Finds d (scan d name .start (places d secs)) _ := walkList_finds hsize secs ⟨.start, 0, 0, 0, none⟩ rfl
  rw [findEntryInDir]
  dsimp only
  rw [(walkDirectory_eq hsound hc hsecs _ _).1]
  generalize walkList (findSector d name) secs ⟨.start, 0, 0, 0, none⟩ = w at hfinds ⊢
  generalize scan d name .start (places d secs) = r at hfinds ⊢
  cases hfinds with
  | passed hfound => rw [hfound]; rfl
  | stopped hfound => rw [hfound]; rfl
  | found hfound hplace =>
    rw [hfound]
    dsimp only [Option.map, Scan.place]
    rw [hplace.1, hplace.2]

theorem slotName_inactive {lfn : LfnState} (hlfn : lfn.active = false) {m : Mem} (hused : m 0 ≠ 0xE5)
    (hlong : isLongName m = false) (hvolume : isVolume m = false)
    (hvalid : isValidName ((fatDecodeShortName (dirEntry m)).takeWhile (· ≠ 0)) = true) :
    (slotName lfn m).1 = some ((fatDecodeShortName (dirEntry m)).takeWhile (· ≠ 0)) := by
  have hactive : ¬(lfn.active = true ∧ lfn.expectedOrder = 1 ∧ lfn.checksum = fatShortNameChecksum (dirEntry m)) :=
    fun h => Bool.eq_false_iff.mp hlfn h.1
  rw [slotName, if_neg hused, if_neg (Bool.eq_false_iff.mp hlong), if_neg (Bool.eq_false_iff.mp hvolume),
    fatPickDisplayName]
  dsimp only
  rw [if_neg hactive, if_pos hvalid]

theorem strCompareInsensitive_self : ∀ name : List UInt8, strCompareInsensitive name name = 0
  | [] => rfl
  | c :: cs => by
    rw [strCompareInsensitive, Int.sub_self, if_pos rfl]
    exact strCompareInsensitive_self cs

/-- An entry that shows the name, if nothing in front of it stops the walk, is what is found. -/
theorem findEntryInDir_new {fs : Filesys} (hsound : fs.Sound d) (hsize : 32 ≤ d.blockSize) {c : Cache}
    (hc : c.Holds fs.toVolume d) {dirCluster : Nat} {secs : List Nat} (hsecs : fs.Sectors d dirCluster secs)
    {before after : List (Nat × Nat)} {p : Nat × Nat} (hplaces : places d secs = before ++ p :: after)
    {lfn : LfnState} (hbefore : scan d name .start before = .passed lfn)
    (hread : d.bad p.1 = false) (hentry : entryAt d p 0 ≠ 0)
    (hshown : (slotName lfn (entryAt d p)).1 = some name) :
    ∃ f, (fs.findEntryInDir d c dirCluster name).1 = some f ∧ (f.sector, f.index) = p ∧ f.entry = entryAt d p := by
  have hscan : scan d name .start (places d secs) = .found p := by
    have hsame : (slotName lfn (entryAt d p)).1.any (fun shown => strCompareInsensitive shown name = 0) = true := by
      rw [hshown]
      exact decide_eq_true (strCompareInsensitive_self name)
    rw [hplaces, scan_append, hbefore, Scan.next, scan, scanEntry,
      if_neg (not_or.mpr ⟨Bool.eq_false_iff.mp hread, hentry⟩), if_pos hsame]
    rfl
  have hfound : _ = (scan d name .start (places d secs)).place.map _ := findEntryInDir_eq hsound hsize hc hsecs
  rw [hscan] at hfound
  cases hf : (fs.findEntryInDir d c dirCluster name).1 with
  | none =>
    rw [hf] at hfound
    exact absurd hfound (Option.some_ne_none _).symm
  | some f =>
    rw [hf] at hfound
    obtain ⟨hplace, hmem⟩ := Prod.mk.inj (Option.some.inj hfound)
    exact ⟨f, rfl, hplace, hmem⟩

end Unisym.Fat
