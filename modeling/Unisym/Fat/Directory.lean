/-
# `Directory` — walking a directory

A directory is a row of entries of 32 bytes: the fixed root of FAT12 and FAT16
takes `rootDirSectors` sectors before the data area, every other directory the
clusters of a chain.  Three functions walk it: `findEntryInDir` looks a name up,
`shortNameExists` an 8.3 pair, and `enumer` reports the names, and can be
interrupted after any of them and called again.

The walks have the same two loops, over the sectors of a cluster and over the
clusters of a chain (`walkSectors`, `walkClusters`).  What they do with a sector
is theirs.
-/
import Unisym.Fat.TableRuns
import Unisym.Fat.LongName

namespace Unisym.Fat

open Function Mem

/-- The members of `FilesysFAT` that the directories depend on. -/
structure Filesys extends Volume where
  rootDirSectors : Nat
  firstDataSector : Nat
  rootCluster : Nat
  sectorsPerCluster : Nat
  /-- Every call has a sector buffer and a table cache of its own. -/
  allowAllocate : Bool

/-! ## Entries -/

/-- The bytes of entry `i` of a sector. -/
def slot (buf : Mem) (i : Nat) : Mem := fun k => buf (i * 32 + k)

/-- The name of a `FAT_DirEntry`. -/
def dirEntry (m : Mem) : DirEntry where
  name := .ofFn fun k => m k
  ext := .ofFn fun k => m (8 + k)

/-- A `FAT_LongDirEntry`. -/
def longDirEntry (m : Mem) : LongDirEntry where
  order := (m 0).toNat
  name1 := .ofFn fun k => readLE m (1 + 2 * k) 2
  attr := (m 11).toNat
  type := (m 12).toNat
  checksum := (m 13).toNat
  name2 := .ofFn fun k => readLE m (14 + 2 * k) 2
  cluster := readLE m 26 2
  name3 := .ofFn fun k => readLE m (28 + 2 * k) 2

/-- `attribute.isLongName()` -/
def isLongName (m : Mem) : Bool := m 11 == 0x0F

/-- `attribute.directory` -/
def isDirectory (m : Mem) : Bool := (m 11).toNat.testBit 4

/-- `attribute.volume_id && !attribute.directory` -/
def isVolume (m : Mem) : Bool := (m 11).toNat.testBit 3 && !isDirectory m

/-- The check of a name that is to be compared or reported. -/
def isValidName (name : List UInt8) : Bool := name.all fun c => !(c < 0x20) && c != 0x7F

/-- What `findEntryInDir` and `enumer` make of an entry that is not the end: the name that is shown for it, if it is
the entry of a file or a directory. -/
def slotName (lfn : LfnState) (m : Mem) : Option (List UInt8) × LfnState :=
  if m 0 = 0xE5 then (none, fatResetLfnState lfn)
  else if isLongName m then (none, (fatAppendLfnPiece lfn (longDirEntry m)).2)
  else if isVolume m then (none, fatResetLfnState lfn)
  else
    let shown := fatPickDisplayName lfn (dirEntry m)
    -- a C string ends at its first zero
    let name := shown.1.takeWhile (· ≠ 0)
    (if isValidName name then some name else none, shown.2)

def asciiToLower (c : UInt8) : UInt8 := if 0x41 ≤ c ∧ c ≤ 0x5A then c + 32 else c

def strCompareInsensitive : List UInt8 → List UInt8 → Int
  | [], b => 0 - (asciiToLower (b.headD 0)).toNat
  | a :: _, [] => (asciiToLower a).toNat
  | a :: as, b :: bs =>
      let tmp : Int := (asciiToLower a).toNat - (asciiToLower b).toNat
      if tmp = 0 then strCompareInsensitive as bs else tmp

/-! ## The two loops -/

inductive DirWalkResult where
  | walkContinue
  | walkFound
  | walkEnd
  | walkLimit
  | walkError
  deriving DecidableEq, Repr

/-- `count` sectors from `s` on, until one does not continue. -/
def walkSectors {σ : Type} (visit : Nat → σ → DirWalkResult × σ) : (count s : Nat) → σ → DirWalkResult × σ
  | 0, _, st => (.walkContinue, st)
  | count + 1, s, st =>
      let r := visit s st
      if r.1 = .walkContinue then walkSectors visit count (s + 1) r.2 else r

/-- How a walk over a chain ends: where it stands, and how many clusters it could still visit. -/
structure ChainWalk (σ : Type) where
  res : DirWalkResult
  cluster : Nat
  limit : Nat
  cache : Cache
  st : σ

/-- The clusters of a chain, until one does not continue; `moved` is what follows a step along the chain. -/
def walkClusters {σ : Type} (v : Volume) (d : Disk) (visit : Nat → σ → DirWalkResult × σ) (moved : Nat → σ → σ) :
    (limit cluster : Nat) → Cache → σ → ChainWalk σ
  | 0, cluster, c, st => ⟨.walkContinue, cluster, 0, c, st⟩
  | limit + 1, cluster, c, st =>
      if 2 ≤ cluster ∧ cluster < Volume.endMark then
        let r := visit cluster st
        if r.1 = .walkContinue then
          let next := v.getFatEntry d c cluster
          walkClusters v d visit moved limit next.1 next.2 (moved next.1 r.2)
        else ⟨r.1, cluster, limit, c, r.2⟩
      else ⟨.walkContinue, cluster, limit + 1, c, st⟩

/-- The clusters a walk visits at most. -/
def walkLimit : Nat := 100000

namespace Filesys

variable (fs : Filesys)

def getSectorFoCluster (cluster : Nat) : Nat :=
  if cluster < 2 then 0 else ((cluster - 2) * fs.sectorsPerCluster + fs.firstDataSector) % u32

def startSec : Nat := (fs.firstDataSector + (u32 - fs.rootDirSectors)) % u32

/-- The table cache a call works with. -/
def callCache (member : Cache) (scratch : Mem) : Cache :=
  if fs.allowAllocate then ⟨scratch, 0xFFFFFFFF⟩ else member

/-- The table cache of the filesystem after a call. -/
def leftCache (member used : Cache) : Cache := if fs.allowAllocate then member else used

/-- The walk of `find_entry_in_dir` and `short_name_exists`: how it ends, and the table cache. -/
def walkDirectory {σ : Type} (d : Disk) (c : Cache) (dirCluster : Nat) (visit : Nat → σ → DirWalkResult × σ) (st : σ) :
    (DirWalkResult × σ) × Cache :=
  if dirCluster = 0 ∧ fs.fatType ≠ 32 then
    (walkSectors (fun s => visit ((fs.startSec + s) % u32)) fs.rootDirSectors 0 st, c)
  else
    let cluster := if dirCluster = 0 ∧ fs.fatType = 32 then fs.rootCluster else dirCluster
    let w := walkClusters fs.toVolume d
      (fun cluster => walkSectors (fun s => visit ((fs.getSectorFoCluster cluster + s) % u32)) fs.sectorsPerCluster 0)
      (fun _ st => st) walkLimit cluster c st
    ((w.res, w.st), w.cache)

/-! ## Looking a name up -/

/-- What `findEntryInDir` reports: where the entry is, and where its long name. -/
structure Found where
  entry : Mem
  sector : Nat
  index : Nat
  lfnSector : Nat
  lfnIndex : Nat
  lfnCount : Nat

/-- The locals of `findEntryInDir`. -/
structure FindState where
  lfn : LfnState
  lfnRunSector : Nat
  lfnRunIndex : Nat
  lfnRunCount : Nat
  found : Option Found

/-- The loop of its `process_sector` over the entries `is`. -/
def findEntries (targetName : List UInt8) (sector : Nat) (buf : Mem) :
    (is : List Nat) → FindState → DirWalkResult × FindState
  | [], st => (.walkContinue, st)
  | i :: is, st =>
      let m := slot buf i
      if m 0 = 0 then (.walkEnd, st)
      else
        let shown := slotName st.lfn m
        let st := { st with lfn := shown.2 }
        if m 0 ≠ 0xE5 ∧ isLongName m then
          findEntries targetName sector buf is
            { st with
              lfnRunSector := if st.lfnRunCount = 0 then sector else st.lfnRunSector
              lfnRunIndex := if st.lfnRunCount = 0 then i else st.lfnRunIndex
              lfnRunCount := st.lfnRunCount + 1 }
        else
          match shown.1 with
          | none => findEntries targetName sector buf is { st with lfnRunCount := 0 }
          | some finalName =>
              if strCompareInsensitive finalName targetName = 0 then
                (.walkFound, { st with
                  found := some ⟨m, sector, i, st.lfnRunSector, st.lfnRunIndex, st.lfnRunCount⟩ })
              else findEntries targetName sector buf is { st with lfnRunCount := 0 }

/-- Its `process_sector`. -/
def findSector (d : Disk) (targetName : List UInt8) (sector : Nat) (st : FindState) : DirWalkResult × FindState :=
  if d.bad sector then (.walkEnd, st)
  else findEntries targetName sector (d.data sector) (List.range (d.blockSize / 32)) st

/-- `find_entry_in_dir(dir_cluster, target_name, …)`: what is found, and the table cache. -/
def findEntryInDir (d : Disk) (c : Cache) (dirCluster : Nat) (targetName : List UInt8) : Option Found × Cache :=
  let r := fs.walkDirectory d c dirCluster (findSector d targetName) ⟨.start, 0, 0, 0, none⟩
  (r.1.2.found, r.2)

/-! ## Looking an 8.3 pair up -/

/-- The loop of `matches` in `short_name_exists`. -/
def matchesEntries (candidate : DirEntry) (buf : Mem) : (is : List Nat) → Bool
  | [] => false
  | i :: is =>
      let m := slot buf i
      if m 0 = 0 then false
      else if m 0 = 0xE5 then matchesEntries candidate buf is
      else if isLongName m then matchesEntries candidate buf is
      else if isVolume m then matchesEntries candidate buf is
      else if (dirEntry m).name = candidate.name ∧ (dirEntry m).ext = candidate.ext then true
      else matchesEntries candidate buf is

/-- `matches`: a sector that cannot be read counts as a match. -/
def matchesSector (d : Disk) (candidate : DirEntry) (sector : Nat) : Bool :=
  if d.bad sector then true else matchesEntries candidate (d.data sector) (List.range (d.blockSize / 32))

/-- `matches` as a step of a walk. -/
def matchesStep (d : Disk) (candidate : DirEntry) (sector : Nat) (st : Unit) : DirWalkResult × Unit :=
  (if matchesSector d candidate sector then .walkFound else .walkContinue, st)

/-- `short_name_exists(dir_cluster, candidate, …)`, and the table cache. -/
def shortNameExists (d : Disk) (c : Cache) (dirCluster : Nat) (candidate : DirEntry) : Bool × Cache :=
  let r := fs.walkDirectory d c dirCluster (matchesStep d candidate) ()
  (r.1.1 = .walkFound, r.2)

end Filesys

/-! ## Reporting the names -/

/-- `FilesysEnumState`; the first words of `opaque` under the names of `enumer`. -/
structure FilesysEnumState where
  position : Nat
  current : Nat
  limit : Nat
  emitted : Nat
  finished : Bool
  cluster : Nat
  sectorOffset : Nat
  entryIndex : Nat
  started : Bool

namespace FilesysEnumState

/-- A new state. -/
def new : FilesysEnumState := ⟨0, 0, 0, 0, false, 0, 0, 0, false⟩

def begin (st : FilesysEnumState) (maxEmit : Nat) : FilesysEnumState :=
  { st with current := 0, limit := maxEmit, emitted := 0 }

def full (st : FilesysEnumState) : Bool := st.limit != 0 && st.emitted ≥ st.limit

def emitOne (st : FilesysEnumState) : FilesysEnumState :=
  { st with emitted := st.emitted + 1, current := st.current + 1, position := st.current + 1 }

def markFinished (st : FilesysEnumState) : FilesysEnumState := { st with finished := true }

def saveCursor (st : FilesysEnumState) (cluster sectorOffset entryIndex : Nat) : FilesysEnumState :=
  { st with cluster, sectorOffset, entryIndex, started := true }

/-- What `enumer` does with a state before it walks: a state that is new gets a cursor at `cluster`. -/
def resume (st : FilesysEnumState) (cluster : Nat) : FilesysEnumState :=
  let st := { st with current := st.position }
  if st.started then st else st.saveCursor cluster 0 0

end FilesysEnumState

/-- What the callback gets: whether it is a directory, and its name. -/
abbrev Report := Bool × List UInt8

namespace Filesys

variable (fs : Filesys)

/-- The locals of `enumer`, and what it has reported. -/
structure EnumWalk where
  lfn : LfnState
  out : List Report
  state : Option FilesysEnumState
  cursorSectorOffset : Nat
  cursorEntryIndex : Nat

/-- The end of the directory. -/
def EnumWalk.markFinished (w : EnumWalk) : EnumWalk := { w with state := w.state.map FilesysEnumState.markFinished }

def EnumWalk.saveCursor (w : EnumWalk) (cluster sectorOffset entryIndex : Nat) : EnumWalk :=
  { w with state := w.state.map (·.saveCursor cluster sectorOffset entryIndex) }

/-- `state && state->full()` -/
def EnumWalk.full (w : EnumWalk) : Bool := w.state.any FilesysEnumState.full

/-- A name goes to the callback, and the cursor behind its entry. -/
def EnumWalk.report (entriesPerSector cluster sectorOffset i : Nat) (w : EnumWalk) (r : Report) : EnumWalk :=
  let w := { w with out := w.out ++ [r], state := w.state.map FilesysEnumState.emitOne }
  if i + 1 ≥ entriesPerSector then w.saveCursor cluster (sectorOffset + 1) 0
  else w.saveCursor cluster sectorOffset (i + 1)

/-- The loop of the `process_sector` of `enumer` over the entries `is`. -/
def enumEntries (entriesPerSector cluster sectorOffset : Nat) (buf : Mem) :
    (is : List Nat) → EnumWalk → DirWalkResult × EnumWalk
  | [], w => (.walkContinue, w)
  | i :: is, w =>
      let m := slot buf i
      if m 0 = 0 then (.walkEnd, w.markFinished)
      else
        let shown := slotName w.lfn m
        let w := { w with lfn := shown.2 }
        match shown.1 with
        | none => enumEntries entriesPerSector cluster sectorOffset buf is w
        | some finalName =>
            let w := w.report entriesPerSector cluster sectorOffset i (isDirectory m, finalName)
            if w.full then (.walkLimit, w) else enumEntries entriesPerSector cluster sectorOffset buf is w

/-- The `process_sector` of `enumer`. -/
def enumSector (d : Disk) (sector cluster sectorOffset startIndex : Nat) (w : EnumWalk) : DirWalkResult × EnumWalk :=
  if d.bad sector then (.walkError, w)
  else
    let entriesPerSector := d.blockSize / 32
    enumEntries entriesPerSector cluster sectorOffset (d.data sector)
      (List.range' startIndex (entriesPerSector - startIndex)) w

/-- The body of its loops over sectors: sector `s` of those from `first` on. -/
def enumVisit (d : Disk) (first cluster s : Nat) (w : EnumWalk) : DirWalkResult × EnumWalk :=
  let r := enumSector d ((first + s) % u32) cluster s
    (if s = w.cursorSectorOffset then w.cursorEntryIndex else 0) w
  if r.1 = .walkContinue then (r.1, r.2.saveCursor cluster (s + 1) 0) else r

/-- Its loop over the sectors from the cursor on. -/
def enumSectors (d : Disk) (first count cluster : Nat) (w : EnumWalk) : DirWalkResult × EnumWalk :=
  walkSectors (enumVisit d first cluster) (count - w.cursorSectorOffset) w.cursorSectorOffset w

/-- What follows a step along the chain. -/
def EnumWalk.moved (next : Nat) (w : EnumWalk) : EnumWalk :=
  { w.saveCursor next 0 0 with cursorSectorOffset := 0, cursorEntryIndex := 0 }

/-- Its walk over a fixed root. -/
def enumFixed (d : Disk) (w : EnumWalk) : Bool × EnumWalk :=
  let r := enumSectors d fs.startSec fs.rootDirSectors 0 w
  if r.1 = .walkError then (false, r.2) else (true, if r.2.full then r.2 else r.2.markFinished)

/-- Its walk over a chain, and the table cache. -/
def enumChain (d : Disk) (c : Cache) (cluster : Nat) (w : EnumWalk) : (Bool × EnumWalk) × Cache :=
  let r := walkClusters fs.toVolume d
    (fun cluster => enumSectors d (fs.getSectorFoCluster cluster) fs.sectorsPerCluster cluster) EnumWalk.moved
    walkLimit cluster c w
  (if r.res = .walkError then (false, r.st)
    else (true,
      if r.cluster < 2 ∨ Volume.endMark ≤ r.cluster ∨ r.limit = 0 then r.st.markFinished else r.st), r.cache)

/-- `enumer(dir_handler, _fn, state)` for a directory that starts at `startCluster`: the result, what is reported, the
state and the table cache.  `scratch` is what the memory of a table cache of its own holds. -/
def enumer (d : Disk) (member : Cache) (scratch : Mem) (startCluster : Nat) (state : Option FilesysEnumState) :
    Bool × List Report × Option FilesysEnumState × Cache :=
  if state.any (fun st => st.finished || st.full) then (true, [], state, member)
  else
    let cursorCluster := if startCluster = 0 ∧ fs.fatType = 32 then fs.rootCluster else startCluster
    let state := state.map (·.resume cursorCluster)
    let cursorCluster := (state.map (·.cluster)).getD cursorCluster
    let w : EnumWalk :=
      ⟨.start, [], state, (state.map (·.sectorOffset)).getD 0, (state.map (·.entryIndex)).getD 0⟩
    if startCluster = 0 ∧ fs.fatType ≠ 32 then
      let r := fs.enumFixed d w
      (r.1, r.2.out, r.2.state, member)
    else
      let r := fs.enumChain d (fs.callCache member scratch) cursorCluster w
      (r.1.1, r.1.2.out, r.1.2.state, fs.leftCache member r.2)

end Filesys

end Unisym.Fat
