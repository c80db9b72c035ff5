/-
# `ISO9660` — directories and path lookup on an ISO 9660 volume

`FilesysISO9660` reads the records of a directory sector by sector into one buffer.  Names are those of
Rock Ridge, of Joliet or plain ones, by the two flags of the volume.  A handle has the extent of its
entry and that of its parent, and nothing of what is above.  Recording times and the callback for each
segment are left out.
-/
import Unisym.Device.Partition
import Mathlib.Data.List.DropRight

namespace Unisym.Disc

open Mem

/-- `uint32` -/
def u32 : Nat := 2 ^ 32

structure ISO9660FileHandle where
  extentLba : Nat := 0
  dataLength : Nat := 0
  recordLba : Nat := 0
  recordOffset : Nat := 0
  flags : UInt8 := 0
  parentValid : Bool := false
  parentExtentLba : Nat := 0
  parentDataLength : Nat := 0
  parentFlags : UInt8 := 0
  deriving DecidableEq

def ISO9660FileHandle.isDir (h : ISO9660FileHandle) : Bool := h.flags &&& 0x02 != 0

structure FilesysISO9660 where
  storage : Device.Storage
  sectorBuffer : Mem
  logicalBlockSize : Nat
  rootExtentLba : Nat
  rootDataLength : Nat
  jolietEnabled : Bool
  rockridgeEnabled : Bool
  fsLoaded : Bool

/-- `storage->Read(lba, sector_buffer)`: the buffer afterwards. -/
def FilesysISO9660.read (fs : FilesysISO9660) (lba : Nat) : Option Mem :=
  (fs.storage.read lba 1 fs.sectorBuffer).map Prod.fst

/-! ## Directory records -/

/-- `ISO9660_DirectoryRecord`: a pointer into the buffer, with the sector that is in it. -/
structure ISO9660DirectoryRecord where
  buffer : Mem
  off : Nat
  lba : Nat

namespace ISO9660DirectoryRecord

variable (rec : ISO9660DirectoryRecord)

def length : Nat := (rec.buffer rec.off).toNat

/-- `extent_lba_le` -/
def extentLba : Nat := readLE rec.buffer (rec.off + 2) 4

/-- `data_length_le` -/
def dataLength : Nat := readLE rec.buffer (rec.off + 10) 4

def flags : UInt8 := rec.buffer (rec.off + 25)

def fileIdLength : Nat := (rec.buffer (rec.off + 32)).toNat

/-- The `file_id_length` bytes of `file_id`. -/
def fileId : List UInt8 := Device.bytesAt rec.buffer (rec.off + 33) rec.fileIdLength

/-- `iso_is_valid_record` -/
def isValid (remain : Nat) : Bool :=
  decide (1 ≤ remain) && rec.length != 0 && decide (rec.length ≤ remain) && decide (33 ≤ rec.length)

def fillHandle : ISO9660FileHandle :=
  { extentLba := rec.extentLba
    dataLength := rec.dataLength
    recordLba := rec.lba
    recordOffset := rec.off
    flags := rec.flags }

/-! ## Names -/

def asciiTolower (ch : UInt8) : UInt8 := if 65 ≤ ch ∧ ch ≤ 90 then ch + 32 else ch

/-- `"."` -/
def dot : List UInt8 := [46]

/-- `".."` -/
def dotdot : List UInt8 := [46, 46]

/-- The bytes of a C string before its zero. -/
def cString (s : List UInt8) : List UInt8 := s.takeWhile (· != 0)

/-- `StrCompareInsensitive(a, b) == 0` -/
def nameEquals (a b : List UInt8) : Bool := (cString a).map asciiTolower == (cString b).map asciiTolower

/-- `out_name[name_len++] = c` for the bytes one after the other, as long as there is room. -/
def appendBytes (outSize : Nat) (name bytes : List UInt8) : List UInt8 :=
  name ++ bytes.take (outSize - 1 - name.length)

/-- `iso_append_utf8`; a character that does not fit is left out. -/
def appendUtf8 (outSize : Nat) (name : List UInt8) (codepoint : Nat) : List UInt8 :=
  if codepoint ≤ 0x7F then
    if name.length + 1 ≥ outSize then name else name ++ [UInt8.ofNat codepoint]
  else if codepoint ≤ 0x7FF then
    if name.length + 2 ≥ outSize then name
    else name ++ [UInt8.ofNat (0xC0 ||| codepoint / 64 % 32), UInt8.ofNat (0x80 ||| codepoint % 64)]
  else if name.length + 3 ≥ outSize then name
  else name ++ [UInt8.ofNat (0xE0 ||| codepoint / 4096 % 16),
    UInt8.ofNat (0x80 ||| codepoint / 64 % 64), UInt8.ofNat (0x80 ||| codepoint % 64)]

/-- The pairs of bytes as 16-bit numbers, the more significant first. -/
def units : List UInt8 → List Nat
  | hi :: lo :: rest => (hi.toNat * 256 + lo.toNat) :: units rest
  | _ => []

def decodeNameAscii (outSize : Nat) : List UInt8 :=
  if rec.fileId = [0] then dot
  else if rec.fileId = [1] then dotdot
  else (appendBytes outSize [] ((rec.fileId.takeWhile (· != 59)).map asciiTolower)).rdropWhile (· == 46)

def decodeNameJoliet (outSize : Nat) : List UInt8 :=
  if rec.fileId = [0] then dot
  else if rec.fileId = [1] then dotdot
  else ((units rec.fileId).takeWhile (· != 59)).foldl (appendUtf8 outSize) []

/-- `iso_get_system_use_area`: where it begins and how long it is. -/
def systemUseArea : Option (Nat × Nat) :=
  if rec.length < 33 then none
  else
    let base := 33 + rec.fileIdLength
    let base := if base % 2 = 1 then base + 1 else base
    if base ≥ rec.length then none else some (rec.off + base, rec.length - base)

/-- The loop of `iso_extract_rr_name` over the entries from `su` on: whether a name was found, and the
name. -/
def rrNames (outSize su suLen : Nat) : (fuel used : Nat) → Bool × List UInt8 → Bool × List UInt8
  | 0, _, found => found
  | fuel + 1, used, found =>
      if used + 4 ≤ suLen then
        let entLength := (rec.buffer (su + used + 2)).toNat
        if entLength < 4 ∨ used + entLength > suLen then found
        else
          let named := rec.buffer (su + used) = 78 ∧ rec.buffer (su + used + 1) = 77 ∧ entLength ≥ 5 ∧
            rec.buffer (su + used + 4) &&& 0x06 = 0
          rrNames outSize su suLen fuel (used + entLength)
            (if named then
              (true, appendBytes outSize found.2 (Device.bytesAt rec.buffer (su + used + 5) (entLength - 5)))
            else found)
      else found

/-- `iso_extract_rr_name`: the name, unless the function is false. -/
def extractRrName (outSize : Nat) : Option (List UInt8) :=
  if rec.fileId = [0] ∨ rec.fileId = [1] then none
  else match rec.systemUseArea with
    | none => none
    | some (su, suLen) =>
        let found := rec.rrNames outSize su suLen suLen 0 (false, [])
        if found.1 ∧ found.2 ≠ [] then some found.2 else none

end ISO9660DirectoryRecord

open ISO9660DirectoryRecord

namespace FilesysISO9660

variable (fs : FilesysISO9660)

def decodeName (rec : ISO9660DirectoryRecord) (outSize : Nat) : List UInt8 :=
  if fs.rockridgeEnabled then
    (rec.extractRrName outSize).getD (rec.decodeNameAscii outSize)
  else if fs.jolietEnabled then rec.decodeNameJoliet outSize
  else rec.decodeNameAscii outSize

/-! ## The loops over a directory -/

/-- `sizeof(name)` and `sizeof(segment)` -/
def nameSize : Nat := 128

/-- The records that the loop over a sector comes to from `off` on. -/
def sectorRecords (buffer : Mem) (lba used : Nat) : (fuel off : Nat) → List ISO9660DirectoryRecord
  | 0, _ => []
  | fuel + 1, off =>
      let rec' : ISO9660DirectoryRecord := ⟨buffer, off, lba⟩
      if off < used ∧ rec'.length ≠ 0 ∧ rec'.isValid (used - off) then
        rec' :: sectorRecords buffer lba used fuel (off + rec'.length)
      else []

/-- `(total + logical_block_size - 1) / logical_block_size` -/
def sectorCount (total : Nat) : Nat := (total + fs.logicalBlockSize - 1) % u32 / fs.logicalBlockSize

/-- The loop of `iso_find_in_dir` and `iso_find_special_in_dir` over `count` sectors from `sec` on: the
first record that is a `hit`. -/
def findRecord (hit : ISO9660DirectoryRecord → Bool) (extent total : Nat) :
    (count sec processed : Nat) → Option ISO9660DirectoryRecord
  | 0, _, _ => none
  | count + 1, sec, processed =>
      let lba := (extent + sec) % u32
      match fs.read lba with
      | none => none
      | some buffer =>
          let sectorUsed := min fs.logicalBlockSize (total - processed)
          match (sectorRecords buffer lba sectorUsed sectorUsed 0).find? hit with
          | some rec => some rec
          | none => findRecord hit extent total count (sec + 1) (processed + sectorUsed)

def findInDir (dir : ISO9660FileHandle) (target : List UInt8) : Option ISO9660FileHandle :=
  if dir.isDir then
    (fs.findRecord (fun rec => nameEquals (fs.decodeName rec nameSize) target) dir.extentLba
      dir.dataLength (fs.sectorCount dir.dataLength) 0 0).map fillHandle
  else none

def findSpecialInDir (dir : ISO9660FileHandle) (specialId : UInt8) : Option ISO9660FileHandle :=
  if dir.isDir then
    (fs.findRecord (fun rec => rec.fileId == [specialId]) dir.extentLba dir.dataLength
      (fs.sectorCount dir.dataLength) 0 0).map fillHandle
  else none

/-! ## `search` -/

/-- `iso_set_root_handle` -/
def rootHandle : ISO9660FileHandle :=
  { extentLba := fs.rootExtentLba
    dataLength := fs.rootDataLength
    flags := 0x02
    parentValid := true
    parentExtentLba := fs.rootExtentLba
    parentDataLength := fs.rootDataLength
    parentFlags := 0x02 }

/-- The branch of `search` for `".."`. -/
def searchParent (handle : ISO9660FileHandle) : ISO9660FileHandle :=
  if handle.parentValid then
    let parent : ISO9660FileHandle :=
      { extentLba := handle.parentExtentLba
        dataLength := handle.parentDataLength
        flags := handle.parentFlags }
    if parent.extentLba = fs.rootExtentLba ∧ parent.dataLength = fs.rootDataLength then fs.rootHandle
    else match fs.findSpecialInDir parent 1 with
      | some grand =>
          { parent with
            parentValid := true
            parentExtentLba := grand.extentLba
            parentDataLength := grand.dataLength
            parentFlags := grand.flags }
      | none => parent
  else handle

/-- The branch of `search` for a name. -/
def searchName (handle : ISO9660FileHandle) (segment : List UInt8) : Option ISO9660FileHandle :=
  (fs.findInDir handle segment).map fun next =>
    if next.extentLba = fs.rootExtentLba ∧ next.dataLength = fs.rootDataLength ∧ next.isDir then
      fs.rootHandle
    else
      { next with
        parentValid := true
        parentExtentLba := handle.extentLba
        parentDataLength := handle.dataLength
        parentFlags := handle.flags }

/-- `'/'` -/
def slash : UInt8 := 47

/-- The inner loop of `search`: a segment of at most `room` bytes, and what is behind it. -/
def takeSegment : (room : Nat) → List UInt8 → List UInt8 × List UInt8
  | room + 1, c :: p =>
      if c = slash then ([], c :: p)
      else
        let (segment, rest) := takeSegment room p
        (c :: segment, rest)
  | _, p => ([], p)

/-- `while (*p == '/') p++` -/
def skipSlashes (p : List UInt8) : List UInt8 := p.dropWhile (· == slash)

/-- The outer loop of `search` at `p`. -/
def searchLoop : (fuel : Nat) → List UInt8 → ISO9660FileHandle → Option ISO9660FileHandle
  | 0, _, handle => some handle
  | _ + 1, [], handle => some handle
  | fuel + 1, p, handle =>
      let (segment, rest) := takeSegment (nameSize - 1) p
      let p := skipSlashes rest
      if segment = [] ∨ segment = dot then searchLoop fuel p handle
      else if segment = dotdot then searchLoop fuel p (fs.searchParent handle)
      else match fs.searchName handle segment with
        | none => none
        | some handle => if p ≠ [] ∧ ¬ handle.isDir then none else searchLoop fuel p handle

/-- `search`, for the bytes of a path before its zero; null is `none`. -/
def search (fullpath : List UInt8) : Option ISO9660FileHandle :=
  if ¬ fs.fsLoaded then none
  else if fullpath = [] ∨ fullpath = [slash] then some fs.rootHandle
  else
    let p := if fullpath.head? = some slash then fullpath.tail else fullpath
    fs.searchLoop p.length p fs.rootHandle

end FilesysISO9660

/-! ## `enumer` -/

structure FilesysEnumState where
  position : Nat
  current : Nat
  limit : Nat
  emitted : Nat
  finished : Bool

namespace FilesysEnumState

variable (state : FilesysEnumState)

def full : Bool := state.limit != 0 && decide (state.emitted ≥ state.limit)

def shouldEmit : Bool := !state.finished && !state.full && decide (state.current ≥ state.position)

def skipOne : FilesysEnumState := { state with current := state.current + 1 }

def emitOne : FilesysEnumState :=
  { state with
    emitted := state.emitted + 1
    current := state.current + 1
    position := state.current + 1 }

def markFinished : FilesysEnumState := { state with finished := true }

end FilesysEnumState

namespace FilesysISO9660

variable (fs : FilesysISO9660)

/-- The arguments of `_fn`: whether the entry is a directory, and its name. -/
abbrev Report := Bool × List UInt8

/-- What `enumer` tells `_fn` of a record. -/
def report (rec : ISO9660DirectoryRecord) : Report :=
  (rec.flags &&& 0x02 != 0, cString (fs.decodeName rec nameSize))

/-- The body of `enumer` for the records of a sector: the calls of `_fn`, the state after them, and
whether the function goes on. -/
def enumerRecords : List ISO9660DirectoryRecord → Option FilesysEnumState →
    List Report × Option FilesysEnumState × Bool
  | [], state => ([], state, true)
  | rec :: recs, none =>
      let (calls, state, goesOn) := enumerRecords recs none
      (fs.report rec :: calls, state, goesOn)
  | rec :: recs, some state =>
      if state.shouldEmit then
        if state.emitOne.full then ([fs.report rec], some state.emitOne, false)
        else
          let (calls, state, goesOn) := enumerRecords recs (some state.emitOne)
          (fs.report rec :: calls, state, goesOn)
      else enumerRecords recs (some state.skipOne)

/-- The loop of `enumer` over `count` sectors from `sec` on: the calls of `_fn`, the state after them, and
what the function returns. -/
def enumerSectors (extent total : Nat) : (count sec processed : Nat) → Option FilesysEnumState →
    List Report × Option FilesysEnumState × Bool
  | 0, _, _, state => ([], state.map FilesysEnumState.markFinished, true)
  | count + 1, sec, processed, state =>
      let lba := (extent + sec) % u32
      match fs.read lba with
      | none => ([], state, false)
      | some buffer =>
          let sectorUsed := min fs.logicalBlockSize (total - processed)
          match fs.enumerRecords (sectorRecords buffer lba sectorUsed sectorUsed 0) state with
          | (calls, state, false) => (calls, state, true)
          | (calls, state, true) =>
              let (calls', state, ok) :=
                enumerSectors extent total count (sec + 1) (processed + sectorUsed) state
              (calls ++ calls', state, ok)

def enumer (dir : ISO9660FileHandle) (state : Option FilesysEnumState) :
    List Report × Option FilesysEnumState × Bool :=
  if ¬ dir.isDir then ([], state, false)
  else if state.any fun state => state.finished || state.full then ([], state, true)
  else fs.enumerSectors dir.extentLba dir.dataLength (fs.sectorCount dir.dataLength) 0 0 state

end FilesysISO9660

end Unisym.Disc
