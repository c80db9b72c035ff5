/-
# `Enumer` — interrupted enumerations

`enumer` can stop after a name and go on in a later call.  What is left between
the calls is the cursor: a cluster, a sector of it and an entry.  The state of
the long names is not kept; every call begins with an empty one.

The meaning of a cursor is the list of entries behind it (`Place`), and the
meaning of that list is the names that are shown for it (`upcoming`).  A call
takes names from the front of `upcoming` and leaves a cursor at the rest
(`enumer_stands`), since after a name is reported nothing is left of its long
name but the text (`slotName_start`), which is never read.  So a list of calls
reports what one call without a limit does (`enumer_resumes`).
-/
import Unisym.Fat.DirectorySpec

namespace Unisym.Fat

open Function Mem Filesys List Option

/-! ## What is left of a long name -/

/-- The same pieces collected; the text that was last made of pieces can differ. -/
structure LfnState.Same (a b : LfnState) : Prop where
  nameUtf16 : a.nameUtf16 = b.nameUtf16
  checksum : a.checksum = b.checksum
  expectedOrder : a.expectedOrder = b.expectedOrder
  active : a.active = b.active

namespace LfnState

theorem Same.clear (a b : LfnState) : Same (fatClearLfnSequence a) (fatClearLfnSequence b) := ⟨rfl, rfl, rfl, rfl⟩

theorem Same.reset (a b : LfnState) : Same (fatResetLfnState a) (fatResetLfnState b) := ⟨rfl, rfl, rfl, rfl⟩

theorem acceptOrder_text (a : LfnState) (lfn : LongDirEntry) (order : Nat) (text : List UInt8) :
    acceptOrder { a with utf8Name := text } lfn order =
      (acceptOrder a lfn order).map fun state => { state with utf8Name := text } := by
  rw [acceptOrder, acceptOrder]
  split
  · rfl
  · split <;> rfl

theorem Same.append {a b : LfnState} (h : Same a b) (lfn : LongDirEntry) :
    Same (fatAppendLfnPiece a lfn).2 (fatAppendLfnPiece b lfn).2 := by
  obtain ⟨name, text, sum, order, active⟩ := a
  obtain ⟨name', text', sum', order', active'⟩ := b
  obtain ⟨rfl, rfl, rfl, rfl⟩ := h
  have htext := acceptOrder_text ⟨name, text, sum, order, active⟩ lfn (lfn.order &&& 0x1F) text'
  rw [fatAppendLfnPiece, fatAppendLfnPiece]
  split
  · exact .reset _ _
  · dsimp only at htext ⊢
    rw [htext]
    split
    · exact .reset _ _
    · cases acceptOrder ⟨name, text, sum, order, active⟩ lfn (lfn.order &&& 0x1F) with
      | none => exact .reset _ _
      | some state =>
        dsimp only [Option.map]
        split
        · exact .reset _ _
        · exact ⟨rfl, rfl, rfl, rfl⟩

theorem Same.pick {a b : LfnState} (h : Same a b) (entry : DirEntry) :
    (fatPickDisplayName a entry).1 = (fatPickDisplayName b entry).1 ∧
      Same (fatPickDisplayName a entry).2 (fatPickDisplayName b entry).2 := by
  obtain ⟨name, text, sum, order, active⟩ := a
  obtain ⟨name', text', sum', order', active'⟩ := b
  obtain ⟨rfl, rfl, rfl, rfl⟩ := h
  rw [fatPickDisplayName, fatPickDisplayName]
  dsimp only
  split
  · exact ⟨rfl, .clear _ _⟩
  · exact ⟨rfl, .clear _ _⟩

end LfnState

open LfnState (Same)

/-- What is shown for an entry does not depend on the text. -/
theorem slotName_same {a b : LfnState} (h : Same a b) (m : Mem) :
    (slotName a m).1 = (slotName b m).1 ∧ Same (slotName a m).2 (slotName b m).2 := by
  rw [slotName, slotName]
  split
  · exact ⟨rfl, .reset _ _⟩
  · split
    · exact ⟨rfl, h.append _⟩
    · split
      · exact ⟨rfl, .reset _ _⟩
      · obtain ⟨hname, hsame⟩ := h.pick (dirEntry m)
        dsimp only
        rw [hname]
        exact ⟨rfl, hsame⟩

theorem slotName_start {lfn : LfnState} {m : Mem} {name : List UInt8} (h : (slotName lfn m).1 = some name) :
    Same (slotName lfn m).2 .start := by
  rw [slotName] at h ⊢
  split at h
  · exact absurd h (some_ne_none name).symm
  · split at h
    · exact absurd h (some_ne_none name).symm
    · split at h
      · exact absurd h (some_ne_none name).symm
      · rename_i hused hlong hvolume
        rw [if_neg hused, if_neg hlong, if_neg hvolume, fatPickDisplayName]
        dsimp only
        split <;> exact ⟨rfl, rfl, rfl, rfl⟩

/-! ## The names of a row of entries -/

/-- An entry as a walk meets it, or the sector that should have it. -/
inductive DirItem where
  | slot (m : Mem)
  | unreadable

/-- The names that are still to be reported. -/
def upcoming : LfnState → List DirItem → List Report
  | _, [] => []
  | _, .unreadable :: _ => []
  | lfn, .slot m :: rest =>
      if m 0 = 0 then []
      else (slotName lfn m).1.toList.map (isDirectory m, ·) ++ upcoming (slotName lfn m).2 rest

theorem upcoming_same : ∀ {items : List DirItem} {a b : LfnState}, Same a b → upcoming a items = upcoming b items
  | [], _, _, _ => rfl
  | .unreadable :: _, _, _, _ => rfl
  | .slot m :: rest, a, b, h => by
    obtain ⟨hname, hrest⟩ := slotName_same h m
    rw [upcoming, upcoming, hname, upcoming_same hrest]

/-- The entries of a sector from `i` on. -/
def sectorItems (d : Disk) (sector i : Nat) : List DirItem :=
  if d.bad sector then [.unreadable]
  else (List.range' i (d.blockSize / 32 - i)).map fun i => .slot (slot (d.data sector) i)

/-- The entries of `count` sectors, from entry `i` of sector `s` on. -/
def runItems (d : Disk) (first : Nat) : (count s i : Nat) → List DirItem
  | 0, _, _ => []
  | count + 1, s, i => sectorItems d ((first + s) % u32) i ++ runItems d first count (s + 1) 0

namespace Filesys

variable (fs : Filesys) (d : Disk)

/-- The entries of a chain, from entry `i` of sector `s` of its first cluster on. -/
def chainItems : List Nat → (s i : Nat) → List DirItem
  | [], _, _ => []
  | c :: cs, s, i => runItems d (fs.getSectorFoCluster c) (fs.sectorsPerCluster - s) s i ++ chainItems cs 0 0

/-- The entries behind a cursor. -/
def Place (startCluster cluster s i : Nat) (items : List DirItem) : Prop :=
  (fs.Fixed startCluster → cluster = 0 ∧ items = runItems d fs.startSec (fs.rootDirSectors - s) s i) ∧
    (¬fs.Fixed startCluster → ∃ cs, fs.Chain d cluster cs ∧ cs.length < walkLimit ∧ items = fs.chainItems d cs s i)

/-- The table cache of the filesystem, where the calls use it. -/
def MemberHolds (member : Cache) : Prop := fs.allowAllocate = false → member.Holds fs.toVolume d

end Filesys

/-! ## A sector -/

/-- An enumeration of the names `all` under way, with `items` before it and its locals at `s` and `i`. -/
structure Going (all : List Report) (limit s i : Nat) (items : List DirItem) (w : EnumWalk) : Prop where
  names : all = w.out ++ upcoming w.lfn items
  unlimited : w.state = none → limit = 0
  room : limit = 0 ∨ w.out.length < limit
  state : ∀ st ∈ w.state, st.finished = false ∧ st.limit = limit ∧ st.emitted = w.out.length
  cursorSectorOffset : w.cursorSectorOffset = s
  cursorEntryIndex : w.cursorEntryIndex = i

/-- The cursor that is kept. -/
def At (cluster s i : Nat) (w : EnumWalk) : Prop :=
  ∀ st ∈ w.state, st.cluster = cluster ∧ st.sectorOffset = s ∧ st.entryIndex = i ∧ st.started = true

/-- Where an enumeration is stopped; `place` says what is behind a cursor. -/
inductive Halted (place : Nat → Nat → Nat → List DirItem → Prop) (all : List Report) (limit : Nat) :
    DirWalkResult → EnumWalk → Prop
  | atEnd {w : EnumWalk} (names : w.out = all) (unlimited : w.state = none → limit = 0)
      (room : limit = 0 ∨ w.out.length < limit)
      (state : ∀ st ∈ w.state, st.finished = true ∧ st.full = false) : Halted place all limit .walkEnd w
  | atLimit {w : EnumWalk} {items : List DirItem} {st : FilesysEnumState}
      (names : all = w.out ++ upcoming .start items) (hlimit : limit ≠ 0) (hlength : w.out.length = limit)
      (hstate : w.state = some st) (state : st.finished = false ∧ st.full = true ∧ st.started = true)
      (cursor : place st.cluster st.sectorOffset st.entryIndex items) : Halted place all limit .walkLimit w
  | unreadable {w : EnumWalk} {items : List DirItem} (names : w.out = all) (unlimited : w.state = none → limit = 0)
      (room : limit = 0 ∨ w.out.length < limit) (hitems : upcoming .start items = [])
      (state : ∀ st ∈ w.state, st.finished = false ∧ st.started = true ∧
        place st.cluster st.sectorOffset st.entryIndex items) : Halted place all limit .walkError w

variable {all : List Report} {limit : Nat} {place : Nat → Nat → Nat → List DirItem → Prop}

variable {st : FilesysEnumState} {s i cluster first : Nat} {w : EnumWalk} {rest : List DirItem}
  {member : Cache}

theorem full_eq_true : st.full = true ↔ st.limit ≠ 0 ∧ st.limit ≤ st.emitted := by
  simp [FilesysEnumState.full]

theorem Going.not_full {items : List DirItem} (h : Going all limit s i items w) :
    ∀ st ∈ w.state, st.full = false := by
  intro st hst
  obtain ⟨-, hlimit, hemitted⟩ := h.state st hst
  have hroom := h.room
  refine Bool.eq_false_iff.mpr fun hfull => ?_
  obtain ⟨hne, hle⟩ := full_eq_true.mp hfull
  omega

/-- The cursor behind entry `i`. -/
def nextCursor (entriesPerSector s i : Nat) : Nat × Nat := if i + 1 ≥ entriesPerSector then (s + 1, 0) else (s, i + 1)

theorem report_eq (entriesPerSector cluster s i : Nat) (w : EnumWalk) (r : Report) :
    w.report entriesPerSector cluster s i r =
      { w with
        out := w.out ++ [r]
        state := w.state.map fun st =>
          st.emitOne.saveCursor cluster (nextCursor entriesPerSector s i).1 (nextCursor entriesPerSector s i).2 } := by
  rw [EnumWalk.report, nextCursor]
  split <;> simp only [EnumWalk.saveCursor, Option.map_map] <;> rfl

/-- The entries of a sector: the names of those that are shown are reported, up to the limit. -/
theorem enumEntries_walks {entriesPerSector s₀ i₀ : Nat} {buf : Mem}
    (hmid : ∀ i, i < entriesPerSector → place cluster s i
      ((List.range' i (entriesPerSector - i)).map (fun i => .slot (slot buf i)) ++ rest))
    (hend : place cluster (s + 1) 0 rest) : ∀ (n i : Nat) {w : EnumWalk}, n = entriesPerSector - i →
      Going all limit s₀ i₀ ((List.range' i n).map (fun i => .slot (slot buf i)) ++ rest) w →
        Walks (Going all limit s₀ i₀ rest) (Halted place all limit)
          (enumEntries entriesPerSector cluster s buf (List.range' i n) w)
  | 0, _, _, _, hw => hw
  | n + 1, i, w, hn, hw => by
    have hnames := hw.names
    rw [range'_succ, map_cons, cons_append, upcoming] at hnames
    rw [range'_succ, enumEntries]
    dsimp only
    by_cases h0 : slot buf i 0 = 0
    · rw [if_pos h0, append_nil] at hnames
      rw [if_pos h0]
      refine .stop (by decide) (.atEnd hnames.symm (fun h => hw.unlimited (map_eq_none_iff.mp h)) hw.room ?_)
      intro st hst
      obtain ⟨st, hst', rfl⟩ := mem_map.mp hst
      exact ⟨rfl, hw.not_full st hst'⟩
    rw [if_neg h0] at hnames ⊢
    cases hname : (slotName w.lfn (slot buf i)).1 with
    | none =>
      rw [hname] at hnames
      exact enumEntries_walks hmid hend n (i + 1) (by omega)
        ⟨hnames, hw.unlimited, hw.room, hw.state, hw.cursorSectorOffset, hw.cursorEntryIndex⟩
    | some name =>
      have hsame := slotName_start hname
      rw [hname, toList_some, map_singleton, singleton_append, append_cons] at hnames
      dsimp only
      rw [report_eq]
      have hlength : (w.out ++ [(isDirectory (slot buf i), name)]).length = w.out.length + 1 := length_append
      have hstate : ∀ st ∈ w.state.map fun st : FilesysEnumState =>
          st.emitOne.saveCursor cluster (nextCursor entriesPerSector s i).1 (nextCursor entriesPerSector s i).2,
          st.finished = false ∧ st.limit = limit ∧ st.emitted = w.out.length + 1 ∧ st.started = true ∧
            place st.cluster st.sectorOffset st.entryIndex
              ((List.range' (i + 1) n).map (fun i => .slot (slot buf i)) ++ rest) := by
        intro st hst
        obtain ⟨st, hst', rfl⟩ := mem_map.mp hst
        obtain ⟨hfinished, hlimit, hemitted⟩ := hw.state st hst'
        refine ⟨hfinished, hlimit, congrArg (· + 1) hemitted, rfl, ?_⟩
        show place cluster (nextCursor entriesPerSector s i).1 (nextCursor entriesPerSector s i).2 _
        rw [nextCursor]
        split
        · obtain rfl : n = 0 := by omega
          exact hend
        · obtain rfl : n = entriesPerSector - (i + 1) := by omega
          exact hmid (i + 1) (by omega)
      split
      · rename_i hfull
        obtain ⟨st, hst, hfull⟩ := (any_eq_true _ _).mp hfull
        obtain ⟨hfinished, hlimit, hemitted, hstarted, hplace⟩ := hstate st hst
        obtain ⟨hne, hle⟩ := full_eq_true.mp hfull
        have hroom := hw.room
        refine .stop (by decide) (.atLimit ?_ (hlimit ▸ hne) ?_ hst ⟨hfinished, hfull, hstarted⟩ hplace)
        · rw [← upcoming_same hsame]
          exact hnames
        · show (w.out ++ [(isDirectory (slot buf i), name)]).length = limit
          omega
      · rename_i hfull
        refine enumEntries_walks hmid hend n (i + 1) (by omega)
          ⟨hnames, ?_, ?_, ?_, hw.cursorSectorOffset, hw.cursorEntryIndex⟩
        · exact fun hnone => hw.unlimited (map_eq_none_iff.mp hnone)
        · show limit = 0 ∨ (w.out ++ [(isDirectory (slot buf i), name)]).length < limit
          rcases Nat.eq_zero_or_pos limit with hzero | hpos
          · exact .inl hzero
          refine .inr (Nat.lt_of_not_le fun hle => hfull ?_)
          cases hnone : w.state with
          | none => exact absurd (hw.unlimited hnone) (Nat.ne_of_gt hpos)
          | some st =>
            obtain ⟨-, hlimit, hemitted⟩ := hw.state st hnone
            refine (any_eq_true _ _).mpr ⟨_, rfl, full_eq_true.mpr ⟨?_, ?_⟩⟩
            · show st.limit ≠ 0
              omega
            · show st.limit ≤ st.emitted + 1
              omega
        · intro st hst
          obtain ⟨hfinished, hlimit, hemitted, -, -⟩ := hstate st hst
          exact ⟨hfinished, hlimit, hemitted.trans hlength.symm⟩

theorem Going.saveCursor {items : List DirItem} (h : Going all limit s i items w)
    (cluster s' i' : Nat) : Going all limit s i items (w.saveCursor cluster s' i') :=
  ⟨h.names, fun hnone => h.unlimited (map_eq_none_iff.mp hnone), h.room, fun st hst => by
    obtain ⟨st, hst', rfl⟩ := mem_map.mp hst
    exact h.state st hst', h.cursorSectorOffset, h.cursorEntryIndex⟩

theorem at_saveCursor (cluster s i : Nat) (w : EnumWalk) : At cluster s i (w.saveCursor cluster s i) := by
  intro st hst
  obtain ⟨st, hst', rfl⟩ := mem_map.mp hst
  exact ⟨rfl, rfl, rfl, rfl⟩

variable {d : Disk}

/-- A visit of sector `s` of `count`: it goes on with the next sector. -/
theorem enumVisit_walks {count s₀ i₀ : Nat}
    (hplace : ∀ s i, place cluster s i (runItems d first (count - s) s i ++ rest)) (hle : s₀ ≤ s) (hlt : s < count)
    (hw : Going all limit s₀ i₀ (runItems d first (count - s) s (if s = s₀ then i₀ else 0) ++ rest) w)
    (hat : At cluster s (if s = s₀ then i₀ else 0) w) :
    Walks (fun w' => Going all limit s₀ i₀
          (runItems d first (count - (s + 1)) (s + 1) (if s + 1 = s₀ then i₀ else 0) ++ rest) w' ∧
        At cluster (s + 1) (if s + 1 = s₀ then i₀ else 0) w')
      (Halted place all limit) (enumVisit d first cluster s w) := by
  have hcount : count - s = count - (s + 1) + 1 := by omega
  have hnext : (if s + 1 = s₀ then i₀ else 0) = 0 := if_neg (by omega)
  have hmid : ∀ i, place cluster s i
      (sectorItems d ((first + s) % u32) i ++ (runItems d first (count - (s + 1)) (s + 1) 0 ++ rest)) := by
    intro i
    have := hplace s i
    rwa [hcount, runItems, append_assoc] at this
  have hend := hplace (s + 1) 0
  rw [hnext]
  rw [hcount, runItems, append_assoc] at hw
  rw [enumVisit, hw.cursorSectorOffset, hw.cursorEntryIndex]
  generalize (if s = s₀ then i₀ else 0) = i at hw hat ⊢
  generalize runItems d first (count - (s + 1)) (s + 1) 0 ++ rest = after at hw hmid hend ⊢
  have hsector : Walks (Going all limit s₀ i₀ after) (Halted place all limit)
      (enumSector d ((first + s) % u32) cluster s i w) := by
    rw [enumSector]
    split
    · rename_i hbad
      have hnames := hw.names
      have hcursor := hmid i
      rw [sectorItems, if_pos hbad] at hnames hcursor
      rw [singleton_append] at hcursor
      rw [singleton_append, upcoming, append_nil] at hnames
      have hnil : upcoming .start (.unreadable :: after) = [] := by rw [upcoming]
      refine .stop (by decide) (.unreadable hnames.symm hw.unlimited hw.room hnil fun st hst => ?_)
      obtain ⟨hfinished, -, -⟩ := hw.state st hst
      obtain ⟨rfl, rfl, rfl, hstarted⟩ := hat st hst
      exact ⟨hfinished, hstarted, hcursor⟩
    · rename_i hbad
      rw [sectorItems, if_neg hbad] at hw
      refine enumEntries_walks (fun i _ => ?_) hend _ i rfl hw
      have := hmid i
      rwa [sectorItems, if_neg hbad] at this
  rw [Walks] at hsector
  split at hsector
  · rename_i hcont
    rw [if_pos hcont, hcont]
    exact .of_continue ⟨hsector.saveCursor _ _ _, at_saveCursor _ _ _ _⟩
  · rename_i hstop
    rw [if_neg hstop]
    exact .stop hstop hsector

theorem enumSectors_walks {count : Nat}
    (hplace : ∀ s i, place cluster s i (runItems d first (count - s) s i ++ rest))
    (hw : Going all limit s i (runItems d first (count - s) s i ++ rest) w) (hat : At cluster s i w) :
    Walks (Going all limit s i rest) (Halted place all limit) (enumSectors d first count cluster w) := by
  have hwalk : Walks _ (Halted place all limit) (walkSectors (enumVisit d first cluster) (count - s) s w) :=
    Walks.sectors (P := fun s' w =>
        Going all limit s i (runItems d first (count - s') s' (if s' = s then i else 0) ++ rest) w ∧
          At cluster s' (if s' = s then i else 0) w)
      (count - s) s (fun s' w hle hlt hP => enumVisit_walks hplace hle (by omega) hP.1 hP.2)
      (by rw [if_pos rfl]; exact ⟨hw, hat⟩)
  rw [enumSectors, hw.cursorSectorOffset]
  refine hwalk.mono (fun w' hw' => ?_) fun _ _ h => h
  have hnone : count - (s + (count - s)) = 0 := by omega
  have hdone := hw'.1
  rw [hnone, runItems] at hdone
  exact hdone

/-! ## A call -/

/-- The cursor of a state, for a directory that starts with `first`. -/
def FilesysEnumState.Behind (place : Nat → Nat → Nat → List DirItem → Prop) (first : Nat) (st : FilesysEnumState)
    (items : List DirItem) : Prop :=
  if st.started then place st.cluster st.sectorOffset st.entryIndex items else place first 0 0 items

/-- A walk that was to report `all`, and no more than `limit` of it. -/
structure Ended (place : Nat → Nat → Nat → List DirItem → Prop) (all : List Report) (limit : Nat)
    (r : Bool × EnumWalk) : Prop where
  names : r.2.out = if limit = 0 then all else all.take limit
  unlimited : r.2.state = none → limit = 0
  state : ∀ st ∈ r.2.state, (st.finished = true → r.2.out = all) ∧
    (st.finished = false → st.started = true ∧ ∃ items, place st.cluster st.sectorOffset st.entryIndex items ∧
      all = r.2.out ++ upcoming .start items)
  complete : r.1 = true → ∀ st ∈ r.2.state, st.finished = true ↔ limit = 0 ∨ all.length < limit

theorem names_of_room {out : List Report} (hout : out = all) (hroom : limit = 0 ∨ out.length < limit) :
    out = if limit = 0 then all else all.take limit := by
  subst hout
  split
  · rfl
  · exact (take_of_length_le (by omega)).symm

theorem Ended.of_done (hout : w.out = all) (hunlimited : w.state = none → limit = 0)
    (hroom : limit = 0 ∨ w.out.length < limit) (hstate : ∀ st ∈ w.state, st.finished = true) : Ended place all limit (true, w) where
  names := names_of_room hout hroom
  unlimited := hunlimited
  state := fun st hst => ⟨fun _ => hout, fun hfinished => absurd ((hstate st hst).symm.trans hfinished) (by decide)⟩
  complete := fun _ st hst => iff_of_true (hstate st hst) (hout ▸ hroom)

theorem Ended.of_limit {items : List DirItem}
    (hnames : all = w.out ++ upcoming .start items) (hlimit : limit ≠ 0) (hlength : w.out.length = limit)
    (hstate : w.state = some st) (hst : st.finished = false ∧ st.full = true ∧ st.started = true)
    (hcursor : place st.cluster st.sectorOffset st.entryIndex items) :
    Ended place all limit (true, w) where
  names := by
    rw [if_neg hlimit, hnames, take_left' hlength]
  unlimited := fun h => absurd (hstate.symm.trans h) (some_ne_none st)
  state := fun st' hst' => by
    obtain rfl : st = st' := Option.some.inj (hstate.symm.trans hst')
    exact ⟨fun h => absurd (hst.1.symm.trans h) (by decide), fun _ => ⟨hst.2.2, items, hcursor, hnames⟩⟩
  complete := fun _ st' hst' => by
    obtain rfl : st = st' := Option.some.inj (hstate.symm.trans hst')
    have hlonger : limit ≤ all.length := by
      rw [hnames, length_append, hlength]
      exact Nat.le_add_right _ _
    exact iff_of_false (by rw [hst.1]; decide) (by omega)

theorem Ended.of_unreadable {items : List DirItem} (hout : w.out = all)
    (hunlimited : w.state = none → limit = 0) (hroom : limit = 0 ∨ w.out.length < limit) (hitems : upcoming .start items = [])
    (hstate : ∀ st ∈ w.state, st.finished = false ∧ st.started = true ∧
      place st.cluster st.sectorOffset st.entryIndex items) :
    Ended place all limit (false, w) where
  names := names_of_room hout hroom
  unlimited := hunlimited
  state := fun st hst => by
    obtain ⟨hfinished, hstarted, hplace⟩ := hstate st hst
    exact ⟨fun h => absurd (hfinished.symm.trans h) (by decide), fun _ => ⟨hstarted, items, hplace, by
      rw [hitems, append_nil]
      exact hout.symm⟩⟩
  complete := fun h => absurd h Bool.false_ne_true

theorem markFinished_none (h : w.state = none → limit = 0) : w.markFinished.state = none → limit = 0 :=
  fun hnone => h (map_eq_none_iff.mp hnone)

theorem mem_markFinished : ∀ st ∈ w.markFinished.state, st.finished = true := by
  intro st hst
  obtain ⟨st, -, rfl⟩ := mem_map.mp hst
  rfl

theorem not_full (h : ∀ st ∈ w.state, st.full = false) : ¬w.full = true := by
  rw [Bool.not_eq_true]
  exact (any_eq_false _ _).mpr h

theorem Going.done (h : Going all limit s i [] w) : w.out = all := by
  have hnames := h.names
  rw [upcoming, append_nil] at hnames
  exact hnames.symm

variable {fs : Filesys} {startCluster : Nat}

theorem enumFixed_ended (hfixed : fs.Fixed startCluster) {items : List DirItem}
    (hplace : fs.Place d startCluster cluster s i items)
    (hw : Going all limit s i items w) (hat : At cluster s i w) : Ended (fs.Place d startCluster) all limit (fs.enumFixed d w) := by
  obtain ⟨rfl, rfl⟩ := hplace.1 hfixed
  rw [← append_nil (runItems _ _ _ _ _)] at hw
  have hwalk : Walks _ (Halted (fs.Place d startCluster) all limit) (enumSectors d fs.startSec fs.rootDirSectors 0 w) :=
    enumSectors_walks (fun s i => ⟨fun _ => ⟨rfl, append_nil _⟩, fun h => absurd hfixed h⟩) hw hat
  rw [enumFixed]
  generalize enumSectors d fs.startSec fs.rootDirSectors 0 w = r at hwalk ⊢
  obtain ⟨res, w'⟩ := r
  dsimp only
  rw [Walks] at hwalk
  split at hwalk
  · rename_i hcont
    obtain rfl : res = .walkContinue := hcont
    rw [if_neg (by decide), if_neg (not_full hwalk.not_full)]
    exact .of_done hwalk.done (markFinished_none hwalk.unlimited) hwalk.room mem_markFinished
  · cases hwalk with
    | atEnd hout hunlimited hroom hstate =>
      rw [if_neg (by decide), if_neg (not_full fun st hst => (hstate st hst).2)]
      exact .of_done hout (markFinished_none hunlimited) hroom mem_markFinished
    | atLimit hnames hlimit hlength hstate hst hcursor =>
      have hfull : w'.full = true := (any_eq_true _ _).mpr ⟨_, hstate, hst.2.1⟩
      rw [if_neg (by decide), if_pos hfull]
      exact .of_limit hnames hlimit hlength hstate hst hcursor
    | unreadable hout hunlimited hroom hitems hstate =>
      rw [if_pos rfl]
      exact .of_unreadable hout hunlimited hroom hitems hstate

theorem Going.moved {items : List DirItem} (h : Going all limit s i items w) (next : Nat) :
    Going all limit 0 0 items (w.moved next) ∧ At next 0 0 (w.moved next) :=
  have hsaved := h.saveCursor next 0 0
  ⟨⟨hsaved.names, hsaved.unlimited, hsaved.room, hsaved.state, rfl, rfl⟩, at_saveCursor next 0 0 w⟩

theorem enumChain_ended (hsound : fs.Sound d) (hfixed : ¬fs.Fixed startCluster)
    {items : List DirItem} (hplace : fs.Place d startCluster cluster s i items) {c : Cache}
    (hc : c.Holds fs.toVolume d) (hw : Going all limit s i items w) (hat : At cluster s i w) :
    Ended (fs.Place d startCluster) all limit (fs.enumChain d c cluster w).1 ∧
      (fs.enumChain d c cluster w).2.Holds fs.toVolume d := by
  obtain ⟨cs, hchain, hlength, rfl⟩ := hplace.2 hfixed
  have hends : ChainWalk.Ends fs.toVolume d _ (Halted (fs.Place d startCluster) all limit) walkLimit cs
      (walkClusters fs.toVolume d
        (fun cluster => enumSectors d (fs.getSectorFoCluster cluster) fs.sectorsPerCluster cluster) EnumWalk.moved
        walkLimit cluster c w) :=
    Walks.clusters hsound
      (P := fun cluster cs w => ∃ s i, cs.length < walkLimit ∧ Going all limit s i (fs.chainItems d cs s i) w ∧
        At cluster s i w)
      (fun c cs w hv hrest hP => by
        obtain ⟨s, i, hlength, hw, hat⟩ := hP
        have hcursors : ∀ s i, fs.Place d startCluster c s i (fs.chainItems d (c :: cs) s i) := fun s i =>
          ⟨fun h => absurd h hfixed, fun _ => ⟨c :: cs, .link hv hrest, hlength, rfl⟩⟩
        refine (enumSectors_walks hcursors hw hat).mono (fun w' hw' => ?_) fun _ _ h => h
        obtain ⟨hgoing, hcursor⟩ := hw'.moved (fs.normal (fs.entry d c))
        exact ⟨0, 0, Nat.lt_of_succ_lt hlength, hgoing, hcursor⟩)
      walkLimit hchain (Nat.le_of_lt hlength) hc ⟨s, i, hlength, hw, hat⟩
  rw [enumChain]
  generalize walkClusters _ _ _ _ _ _ _ _ = r at hends ⊢
  refine ⟨?_, hends.cache⟩
  dsimp only
  have hwalk := hends.walks
  rw [Walks] at hwalk
  split at hwalk
  · rename_i hcont
    have hcont : r.res = .walkContinue := hcont
    obtain ⟨hchain, s, i, -, hgoing, -⟩ := hwalk
    have hout : r.cluster < 2 ∨ Volume.endMark ≤ r.cluster ∨ r.limit = 0 := by
      cases hchain with
      | done h => omega
    rw [if_neg (by rw [hcont]; decide), if_pos hout]
    exact .of_done hgoing.done (markFinished_none hgoing.unlimited) hgoing.room mem_markFinished
  · rename_i hstop
    obtain ⟨⟨htwo, hend⟩, hleft⟩ := hends.stopped hstop
    have hin : ¬(r.cluster < 2 ∨ Volume.endMark ≤ r.cluster ∨ r.limit = 0) := by omega
    rw [if_neg hin]
    generalize hres : r.res = res at hwalk
    cases hwalk with
    | atEnd hout hunlimited hroom hstate =>
      rw [if_neg (by decide)]
      exact .of_done hout hunlimited hroom fun st hst => (hstate st hst).1
    | atLimit hnames hlimit hlength hstate hst hcursor =>
      rw [if_neg (by decide)]
      exact .of_limit hnames hlimit hlength hstate hst hcursor
    | unreadable hout hunlimited hroom hitems hstate =>
      rw [if_pos rfl]
      exact .of_unreadable hout hunlimited hroom hitems hstate

theorem callCache_holds (hsound : fs.Sound d) (hm : fs.MemberHolds d member) (scratch : Mem) :
    (fs.callCache member scratch).Holds fs.toVolume d := by
  rw [callCache]
  split
  · exact .fresh hsound scratch
  · rename_i hown
    exact hm (Bool.eq_false_iff.mpr hown)

theorem leftCache_holds {used : Cache} (hm : fs.MemberHolds d member) (hu : used.Holds fs.toVolume d) :
    fs.MemberHolds d (fs.leftCache member used) := by
  rw [leftCache]
  split
  · exact hm
  · exact fun _ => hu

/-- A state that a call begins with. -/
structure Resumed (place : Nat → Nat → Nat → List DirItem → Prop) (limit : Nat) (items : List DirItem)
    (st : FilesysEnumState) : Prop where
  counters : st.finished = false ∧ st.limit = limit ∧ st.emitted = 0
  started : st.started = true
  cursor : place st.cluster st.sectorOffset st.entryIndex items

theorem Resumed.of_behind {items : List DirItem}
    (hcounters : st.finished = false ∧ st.limit = limit ∧ st.emitted = 0) (h : st.Behind place first items) :
    Resumed place limit items (st.resume first) := by
  rw [FilesysEnumState.Behind] at h
  rw [FilesysEnumState.resume]
  dsimp only
  split at h
  · rename_i hstarted
    rw [if_pos hstarted]
    exact ⟨hcounters, hstarted, h⟩
  · rename_i hstarted
    rw [if_neg hstarted]
    exact ⟨hcounters, rfl, h⟩

theorem going_begin {items : List DirItem} {state : Option FilesysEnumState}
    (hnone : state = none → limit = 0 ∧ place first 0 0 items) (hstate : ∀ st ∈ state, Resumed place limit items st) :
    ∃ cluster s i, (state.map (·.cluster)).getD first = cluster ∧ place cluster s i items ∧
      Going (upcoming .start items) limit s i items
        ⟨.start, [], state, (state.map (·.sectorOffset)).getD 0, (state.map (·.entryIndex)).getD 0⟩ ∧
      At cluster s i ⟨.start, [], state, (state.map (·.sectorOffset)).getD 0, (state.map (·.entryIndex)).getD 0⟩ := by
  cases state with
  | none =>
    obtain ⟨hlimit, hplace⟩ := hnone rfl
    exact ⟨first, 0, 0, rfl, hplace, ⟨rfl, fun _ => hlimit, .inl hlimit, fun _ h => absurd h (not_mem_none _),
      rfl, rfl⟩, fun _ h => absurd h (not_mem_none _)⟩
  | some st =>
    have hst := hstate st rfl
    refine ⟨st.cluster, st.sectorOffset, st.entryIndex, rfl, hst.cursor,
      ⟨rfl, fun h => absurd h (some_ne_none st), Nat.eq_zero_or_pos limit, ?_, rfl, rfl⟩, ?_⟩
    · rintro _ ⟨⟩
      exact hst.counters
    · rintro _ ⟨⟩
      exact ⟨rfl, rfl, rfl, hst.started⟩

theorem enumer_ended (hsound : fs.Sound d) (hm : fs.MemberHolds d member) (scratch : Mem)
    {state : Option FilesysEnumState} {items : List DirItem}
    (hnone : state = none → limit = 0 ∧ fs.Place d startCluster (fs.firstCluster startCluster) 0 0 items)
    (hstate : ∀ st ∈ state, (st.finished = false ∧ st.limit = limit ∧ st.emitted = 0) ∧
      st.Behind (fs.Place d startCluster) (fs.firstCluster startCluster) items) :
    ∃ ok w left, fs.enumer d member scratch startCluster state = (ok, w.out, w.state, left) ∧
      Ended (fs.Place d startCluster) (upcoming .start items) limit (ok, w) ∧ fs.MemberHolds d left := by
  have hopen : ¬(state.any fun st => st.finished || st.full) = true := by
    rw [Bool.not_eq_true, Option.any_eq_false]
    intro st hst
    obtain ⟨⟨hfinished, hlimit, hemitted⟩, -⟩ := hstate st hst
    have hfull : st.full = false := Bool.eq_false_iff.mpr fun h => by
      have := full_eq_true.mp h
      omega
    rw [hfinished, hfull]
    rfl
  have hresumed : ∀ st ∈ state.map (·.resume (fs.firstCluster startCluster)),
      Resumed (fs.Place d startCluster) limit items st := by
    intro st hst
    obtain ⟨st, hst', rfl⟩ := mem_map.mp hst
    exact .of_behind (hstate st hst').1 (hstate st hst').2
  obtain ⟨cluster, s, i, hcluster, hplace, hgoing, hat⟩ :=
    going_begin (fun h => hnone (map_eq_none_iff.mp h)) hresumed
  rw [enumer, if_neg hopen]
  rw [firstCluster] at hcluster hgoing hat
  dsimp only
  rw [hcluster]
  split
  · rename_i hfixed
    exact ⟨_, _, _, rfl, enumFixed_ended hfixed hplace hgoing hat, hm⟩
  · rename_i hfixed
    obtain ⟨hended, hused⟩ := enumChain_ended hsound hfixed hplace (callCache_holds hsound hm scratch) hgoing hat
    exact ⟨_, _, _, rfl, hended, leftCache_holds hm hused⟩

/-! ## Calls one after another -/

/-- A call: its limit, and what the memory of a table cache of its own holds. -/
structure EnumCall where
  limit : Nat
  scratch : Mem

/-- Calls with one state: whether all succeeded, what they reported, the state and the table cache. -/
def Filesys.enumerCalls (fs : Filesys) (d : Disk) (startCluster : Nat) :
    List EnumCall → FilesysEnumState → Cache → Bool × List Report × FilesysEnumState × Cache
  | [], st, member => (true, [], st, member)
  | call :: calls, st, member =>
      let r := fs.enumer d member call.scratch startCluster (some (st.begin call.limit))
      let rest := enumerCalls fs d startCluster calls (r.2.2.1.getD st) r.2.2.2
      (r.1 && rest.1, r.2.1 ++ rest.2.1, rest.2.2)

/-- What a state is good for: the names that are still to be reported. -/
def Stands (fs : Filesys) (d : Disk) (startCluster : Nat) (st : FilesysEnumState) (todo : List Report) : Prop :=
  (st.finished = true → todo = []) ∧
    (st.finished = false → ∃ items, todo = upcoming .start items ∧
      st.Behind (fs.Place d startCluster) (fs.firstCluster startCluster) items)

/-- A call takes the names from the front, as many as its limit. -/
theorem enumer_stands (hsound : fs.Sound d) (hm : fs.MemberHolds d member) (call : EnumCall)
    (hpos : 0 < call.limit) {todo : List Report} (hst : Stands fs d startCluster st todo) :
    ∃ ok st' left, fs.enumer d member call.scratch startCluster (some (st.begin call.limit)) =
        (ok, todo.take call.limit, some st', left) ∧
      Stands fs d startCluster st' (todo.drop call.limit) ∧ fs.MemberHolds d left ∧
      (ok = true → (st'.finished = true ↔ st.finished = true ∨ todo.length < call.limit)) := by
  rcases Bool.eq_false_or_eq_true st.finished with hfinished | hfinished
  · obtain rfl := hst.1 hfinished
    refine ⟨true, st.begin call.limit, member, ?_, ?_, hm, fun _ => iff_of_true hfinished (.inl hfinished)⟩
    · rw [enumer, if_pos (by
        show (st.finished || _) = true
        rw [hfinished, Bool.true_or]), take_nil]
    · rw [drop_nil]
      exact ⟨fun _ => rfl, fun h => absurd (hfinished.symm.trans h) (by decide)⟩
  · obtain ⟨items, rfl, hbehind⟩ := hst.2 hfinished
    have hbegun : ∀ st' ∈ some (st.begin call.limit),
        (st'.finished = false ∧ st'.limit = call.limit ∧ st'.emitted = 0) ∧
          st'.Behind (fs.Place d startCluster) (fs.firstCluster startCluster) items := by
      rintro _ ⟨⟩
      exact ⟨⟨hfinished, rfl, rfl⟩, hbehind⟩
    obtain ⟨ok, w, left, heq, hended, hleft⟩ :=
      enumer_ended hsound hm call.scratch (fun h => absurd h (some_ne_none _)) hbegun
    have hne := Nat.ne_of_gt hpos
    have hnames : w.out = _ := hended.names
    rw [if_neg hne] at hnames
    cases hstate : w.state with
    | none => exact absurd (hended.unlimited hstate) hne
    | some st' =>
      obtain ⟨hdone, hrest⟩ := hended.state st' hstate
      refine ⟨ok, st', left, by rw [heq, hnames, hstate], ⟨fun h => ?_, fun h => ?_⟩, hleft, fun hok => ?_⟩
      · exact drop_eq_nil_of_le (take_eq_self_iff _ |>.mp (hnames.symm.trans (hdone h)))
      · obtain ⟨hstarted, items', hplace, hall⟩ := hrest h
        refine ⟨items', ?_, ?_⟩
        · have hsplit := (take_append_drop call.limit (upcoming .start items)).trans hall
          rw [← hnames] at hsplit
          exact append_cancel_left hsplit
        · rw [FilesysEnumState.Behind, if_pos hstarted]
          exact hplace
      · have hcomplete := hended.complete hok st' hstate
        rw [hcomplete, hfinished, or_iff_right hne, or_iff_right Bool.false_ne_true]

/-- The limits of all calls. -/
def allowance (calls : List EnumCall) : Nat := (calls.map (·.limit)).sum

/-- Calls one after another take as many names as their limits allow together. -/
theorem enumerCalls_stands (hsound : fs.Sound d) : ∀ (calls : List EnumCall) {member : Cache} {st : FilesysEnumState}
    {todo : List Report}, fs.MemberHolds d member → (∀ call ∈ calls, 0 < call.limit) → Stands fs d startCluster st todo →
      (fs.enumerCalls d startCluster calls st member).2.1 = todo.take (allowance calls) ∧
      Stands fs d startCluster (fs.enumerCalls d startCluster calls st member).2.2.1 (todo.drop (allowance calls)) ∧
      ((fs.enumerCalls d startCluster calls st member).1 = true →
        ((fs.enumerCalls d startCluster calls st member).2.2.1.finished = true ↔
          st.finished = true ∨ todo.length < allowance calls))
  | [], member, st, todo, hm, hpos, hst =>
    ⟨take_zero.symm, hst, fun _ => (or_iff_left (Nat.not_lt_zero _)).symm⟩
  | call :: calls, member, st, todo, hm, hpos, hst => by
    obtain ⟨ok, st', left, heq, hst', hleft, hdone⟩ :=
      enumer_stands hsound hm call (hpos call mem_cons_self) hst
    obtain ⟨hnames, hstands, hfinished⟩ :=
      enumerCalls_stands hsound calls hleft (fun c hc => hpos c (mem_cons_of_mem call hc)) hst'
    have hsum : allowance (call :: calls) = call.limit + allowance calls := by
      rw [allowance, map_cons, sum_cons, allowance]
    rw [enumerCalls, heq, hsum]
    dsimp only [Option.getD]
    refine ⟨?_, ?_, fun hok => ?_⟩
    · rw [hnames, take_add]
    · rw [← drop_drop]
      exact hstands
    · obtain ⟨hok, hrest⟩ := Bool.and_eq_true_iff.mp hok
      rw [hfinished hrest, hdone hok, length_drop]
      constructor
      · rintro ((h | h) | h)
        · exact .inl h
        · exact .inr (by omega)
        · exact .inr (by omega)
      · rintro (h | h)
        · exact .inl (.inl h)
        · rcases Nat.lt_or_ge todo.length call.limit with hlt | hge
          · exact .inl (.inr hlt)
          · exact .inr (by omega)

theorem Filesys.Directory.items (hdir : fs.Directory d startCluster) :
    ∃ items, fs.Place d startCluster (fs.firstCluster startCluster) 0 0 items := by
  by_cases hfixed : fs.Fixed startCluster
  · refine ⟨_, fun _ => ⟨?_, rfl⟩, fun h => absurd hfixed h⟩
    rw [firstCluster, if_neg (fun h => hfixed.2 h.2)]
    exact hfixed.1
  · obtain ⟨cs, hchain, hlength⟩ := hdir.chain hfixed
    exact ⟨_, fun h => absurd h hfixed, fun _ => ⟨cs, hchain, hlength, rfl⟩⟩

/-- However an enumeration is cut into calls with one state, the calls report what one call without a limit does, and the
state is finished after the last name only. -/
theorem enumer_resumes (hdir : fs.Directory d startCluster) {member : Cache} (hm : fs.MemberHolds d member)
    {state : Option FilesysEnumState} (hstate : state = none ∨ state = some (FilesysEnumState.new.begin 0))
    (scratch : Mem) {calls : List EnumCall} (hpos : ∀ call ∈ calls, 0 < call.limit) :
    let all := (fs.enumer d member scratch startCluster state).2.1
    let run := fs.enumerCalls d startCluster calls .new member
    run.2.1 = all.take (allowance calls) ∧ (run.2.2.1.finished = true → run.2.1 = all) ∧
      (run.1 = true → (run.2.2.1.finished = true ↔ all.length < allowance calls)) := by
  obtain ⟨items, hplace⟩ := hdir.items
  have hnew : ∀ st ∈ state, (st.finished = false ∧ st.limit = 0 ∧ st.emitted = 0) ∧
      st.Behind (fs.Place d startCluster) (fs.firstCluster startCluster) items := by
    intro st hst
    rcases hstate with rfl | rfl
    · exact absurd hst (not_mem_none st)
    · obtain rfl := Option.some.inj hst
      exact ⟨⟨rfl, rfl, rfl⟩, hplace⟩
  obtain ⟨ok, w, left, heq, hended, -⟩ :=
    enumer_ended hdir.sound hm scratch (fun _ => ⟨rfl, hplace⟩) hnew
  have hall : w.out = upcoming .start items := hended.names.trans (if_pos rfl)
  have hstands : Stands fs d startCluster .new (upcoming .start items) :=
    ⟨fun h => absurd h Bool.false_ne_true, fun _ => ⟨items, rfl, hplace⟩⟩
  obtain ⟨hnames, hleft, hfinished⟩ := enumerCalls_stands hdir.sound calls hm hpos hstands
  dsimp only
  rw [heq, hall]
  refine ⟨hnames, fun h => ?_, fun hok => ?_⟩
  · rw [hnames, take_eq_self_iff]
    exact drop_eq_nil_iff.mp (hleft.1 h)
  · rw [hfinished hok]
    exact or_iff_right Bool.false_ne_true

/-- Two names, and then the third. -/
theorem enumer_resumes_three :
    (smallVolume.enumerCalls smallDisk 0 [⟨2, fun _ => 0⟩, ⟨1, fun _ => 0⟩] .new ⟨fun _ => 0, 0xFFFFFFFF⟩).2.1 =
      [(false, [0x41]), (false, [0x42]), (false, [0x43])] :=
  (enumer_resumes ⟨smallVolume_sound, fun h => absurd ⟨rfl, by decide⟩ h⟩ (fun h => absurd h (by decide)) (.inl rfl)
    (fun _ => 0) (by decide)).1.trans (by decide)

end Unisym.Fat
