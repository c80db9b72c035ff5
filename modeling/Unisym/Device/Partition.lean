/-
# `Partition` — GUID partition tables and the partitions on them

`loadGPTPartitions` reads the table of a disk from the header in block 1, or
from its copy in the last block, and records the slices of the partitions.  A
`DiscPartition` is a storage of its own that hands the accesses on to the disk,
moved by the address of its slice.  `stduint` has 64 bits.
-/
import Unisym.Library.ByteMem

namespace Unisym.Device

open Function Mem

/-! ## Storage -/

/-- `uint64`, `stduint` -/
def u64 : Nat := 2 ^ 64

/-- A `StorageTrait`: its blocks, and which reads and writes fail, by the first
block and the number of blocks. -/
structure Storage where
  blockSize : Nat
  units : Nat
  block : Nat → Mem
  readFails : Nat → Nat → Bool
  writeFails : Nat → Nat → Bool
  units_lt : units < u64
  /-- A block has a buffer in memory. -/
  blockSize_le : blockSize ≤ 2 ^ 63

/-- `Block_Size ? Block_Size : 512` -/
def Storage.bytes (d : Storage) : Nat := if d.blockSize = 0 then 512 else d.blockSize

/-- `Read(BlockIden, Dest, Times)`, with the blocks it reads. -/
def Storage.read (d : Storage) (iden times : Nat) (dest : Mem) : Option (Mem × List Nat) :=
  if d.readFails iden times then none
  else some (fun o => if o < times * d.bytes then d.block (iden + o / d.bytes) (o % d.bytes)
    else dest o, List.range' iden times)

/-- `Write(BlockIden, Sors, Times)`, with the blocks it writes. -/
def Storage.write (d : Storage) (iden times : Nat) (sors : Mem) : Option (Storage × List Nat) :=
  if d.writeFails iden times then none
  else some ({ d with
    block := fun b o =>
      if iden ≤ b ∧ b < iden + times ∧ o < d.bytes then sors ((b - iden) * d.bytes + o)
      else d.block b o }, List.range' iden times)

/-- `MemCopyN(dest + at, sors, n)` -/
def copyN (dest : Mem) (at' : Nat) (sors : Mem) (n : Nat) : Mem := fun o =>
  if at' ≤ o ∧ o < at' + n then sors (o - at') else dest o

/-- An array of `n` bytes. -/
def bytesAt (m : Mem) (a n : Nat) : List UInt8 := (List.range n).map fun i => m (a + i)

/-! ## The table of partitions -/

inductive ClassicFilesysType where
  | none
  | fat12
  | fat16Chs
  | ext
  | fat16Chsx
  | ntfs
  | fat32Chs
  | fat32Lba
  | fat16Lba
  | linuxSwap
  | linuxNative
  | gptProtective
  | efiSys
  deriving DecidableEq

/-- The byte of a type. -/
def ClassicFilesysType.code : ClassicFilesysType → UInt8
  | .none => 0x00
  | .fat12 => 0x01
  | .fat16Chs => 0x04
  | .ext => 0x05
  | .fat16Chsx => 0x06
  | .ntfs => 0x07
  | .fat32Chs => 0x0B
  | .fat32Lba => 0x0C
  | .fat16Lba => 0x0E
  | .linuxSwap => 0x82
  | .linuxNative => 0x83
  | .gptProtective => 0xEE
  | .efiSys => 0xEF

structure PartitionSlice where
  address : Nat
  length : Nat
  sysId : ClassicFilesysType
  deriving DecidableEq

/-- `PartitionSlice{}` -/
def PartitionSlice.zero : PartitionSlice := ⟨0, 0, .none⟩

inductive PartitionSchemeKind where
  | unknown
  | mbr
  | gpt
  | gptBackup
  deriving DecidableEq

structure GptPartitionMeta where
  typeGuid : List UInt8
  uniqGuid : List UInt8
  attributes : Nat

/-- `GptPartitionMeta{}` -/
def GptPartitionMeta.zero : GptPartitionMeta := ⟨List.replicate 16 0, List.replicate 16 0, 0⟩

def maxPartitions : Nat := 128

/-- `HD_Info`; `part_count` is the length of `parts`. -/
structure HDInfo where
  wholeDisk : PartitionSlice
  schemeKind : PartitionSchemeKind
  partOverflow : Nat
  parts : List PartitionSlice
  gptMeta : Nat → GptPartitionMeta
  parts_le : parts.length ≤ maxPartitions

namespace HDInfo

def partCount (hdi : HDInfo) : Nat := hdi.parts.length

def resetUnifiedParts (hdi : HDInfo) : HDInfo :=
  { hdi with
    partOverflow := 0
    parts := []
    gptMeta := fun _ => .zero
    parts_le := Nat.zero_le _ }

def appendPart (hdi : HDInfo) (slice : PartitionSlice) : Bool × HDInfo :=
  if h : hdi.parts.length < maxPartitions then
    (true, { hdi with
      parts := hdi.parts ++ [slice]
      parts_le := by rw [List.length_append]; exact h })
  else (false, { hdi with partOverflow := (hdi.partOverflow + 1) % 2 ^ 32 })

def getPartitionSlice (hdi : HDInfo) (dev : Nat) : PartitionSlice :=
  if dev = 0 then hdi.wholeDisk
  else if dev ≤ hdi.partCount then hdi.parts.getD (dev - 1) .zero
  else .zero

end HDInfo

/-! ## Headers and entries -/

/-- `GptHeader`, the members that are read. -/
structure GptHeader where
  signature : List UInt8
  headerSize : Nat
  headerCrc32 : Nat
  myLba : Nat
  alternateLba : Nat
  firstUsableLba : Nat
  lastUsableLba : Nat
  partitionEntryLba : Nat
  numberOfPartitionEntries : Nat
  sizeOfPartitionEntry : Nat
  partitionEntryArrayCrc32 : Nat

/-- `MemCopyN(&out, block_buf, sizeof(GptHeader))` -/
def GptHeader.ofBytes (m : Mem) : GptHeader where
  signature := bytesAt m 0 8
  headerSize := readLE m 12 4
  headerCrc32 := readLE m 16 4
  myLba := readLE m 24 8
  alternateLba := readLE m 32 8
  firstUsableLba := readLE m 40 8
  lastUsableLba := readLE m 48 8
  partitionEntryLba := readLE m 72 8
  numberOfPartitionEntries := readLE m 80 4
  sizeOfPartitionEntry := readLE m 84 4
  partitionEntryArrayCrc32 := readLE m 88 4

/-- `GptEntry`, the members that are read. -/
structure GptEntry where
  typeGuid : List UInt8
  uniqGuid : List UInt8
  firstLba : Nat
  lastLba : Nat
  attributes : Nat

/-- `sizeof(GptEntry)` -/
def GptEntry.size : Nat := 128

/-- `MemCopyN(&ent, raw, sizeof(GptEntry))` -/
def GptEntry.ofBytes (m : Mem) (raw : Nat) : GptEntry where
  typeGuid := bytesAt m raw 16
  uniqGuid := bytesAt m (raw + 16) 16
  firstLba := readLE m (raw + 32) 8
  lastLba := readLE m (raw + 40) 8
  attributes := readLE m (raw + 48) 8

def isZeroGuid (guid : List UInt8) : Bool := guid.all (· == 0)

/-- One bit of `_LOCAL_Crc32`. -/
def crcBit (crc : UInt32) : UInt32 := (crc >>> 1) ^^^ (0xEDB88320 &&& (0 - (crc &&& 1)))

/-- The inner loop of `_LOCAL_Crc32`. -/
def crcBits : Nat → UInt32 → UInt32
  | 0, crc => crc
  | j + 1, crc => crcBits j (crcBit crc)

/-- The outer loop of `_LOCAL_Crc32`, with `n` bytes to go from `i` on. -/
def crcBytes (data : Mem) : (n i : Nat) → UInt32 → UInt32
  | 0, _, crc => crc
  | n + 1, i, crc => crcBytes data n (i + 1) (crcBits 8 (crc ^^^ (data i).toUInt32))

def crc32 (data : Mem) (size : Nat) : Nat := (~~~crcBytes data size 0 0xFFFFFFFF).toNat

def isPow2 (value : Nat) : Bool := value ≠ 0 && value &&& (value - 1) == 0

def guidEsp : List UInt8 :=
  [0x28, 0x73, 0x2A, 0xC1, 0x1F, 0xF8, 0xD2, 0x11, 0xBA, 0x4B, 0x00, 0xA0, 0xC9, 0x3E, 0xC9, 0x3B]

def guidBasicData : List UInt8 :=
  [0xA2, 0xA0, 0xD0, 0xEB, 0xE5, 0xB9, 0x33, 0x44, 0x87, 0xC0, 0x68, 0xB6, 0xB7, 0x26, 0x99, 0xC7]

def guidLinuxFs : List UInt8 :=
  [0xAF, 0x3D, 0xC6, 0x0F, 0x83, 0x84, 0x72, 0x47, 0x8E, 0x79, 0x3D, 0x69, 0xD8, 0x47, 0x7D, 0xE4]

def mapGptTypeToSysId (guid : List UInt8) : ClassicFilesysType :=
  if guid = guidEsp then .efiSys
  else if guid = guidBasicData then .fat32Lba
  else if guid = guidLinuxFs then .linuxNative
  else .none

/-! ## Loading -/

/-- `max_stduint`; `~0u` is an `unsigned`, so it has 32 bits. -/
def maxStduint : Nat := 2 ^ 32 - 1

def readBlock (base : Storage) (lba : Nat) (dest : Mem) : Option Mem :=
  if lba > maxStduint then none else (base.read lba 1 dest).map Prod.fst

/-- `_LOCAL_IsProtectiveMbr`; the type is the fifth byte of a partition. -/
def isProtectiveMbr (block : Mem) (blockSize : Nat) : Bool :=
  if blockSize < 512 then false
  else if block 510 ≠ 0x55 ∨ block 511 ≠ 0xAA then false
  else (List.range 4).any fun i =>
    block (0x1BE + 16 * i + 4) == ClassicFilesysType.gptProtective.code

/-- `"EFI PART"` -/
def sig : List UInt8 := [0x45, 0x46, 0x49, 0x20, 0x50, 0x41, 0x52, 0x54]

def validateGptHeader (hdr : GptHeader) (expectedLba expectedAltLba diskLastLba blockSize : Nat)
    (blockBuf : Mem) : Bool :=
  if hdr.signature ≠ sig then false
  else if hdr.headerSize < 92 ∨ hdr.headerSize > blockSize then false
  else if hdr.myLba ≠ expectedLba then false
  else if hdr.alternateLba ≠ expectedAltLba then false
  else if hdr.firstUsableLba > hdr.lastUsableLba then false
  else if hdr.sizeOfPartitionEntry < GptEntry.size then false
  else if hdr.sizeOfPartitionEntry &&& 127 ≠ 0 then false
  else if ¬isPow2 (hdr.sizeOfPartitionEntry / 128) then false
  else if hdr.numberOfPartitionEntries = 0 then false
  else
    let entryBytes := hdr.numberOfPartitionEntries * hdr.sizeOfPartitionEntry % u64
    let entryBlocks := (entryBytes + blockSize - 1) % u64 / blockSize
    if entryBlocks = 0 then false
    else if hdr.partitionEntryLba < 2 then false
    else if (hdr.partitionEntryLba + entryBlocks - 1) % u64 > diskLastLba then false
    else if hdr.firstUsableLba < 2 ∨ hdr.lastUsableLba > diskLastLba then false
    else crc32 (writeLE blockBuf 16 4 0) hdr.headerSize == hdr.headerCrc32

/-- The loop of `_LOCAL_LoadGpt` that reads the entry array, with `n` blocks to
go from the `i`-th on. -/
def readEntryBlocks (base : Storage) (lba entryBytes : Nat) : (n i : Nat) → (blockBuf entryBuf : Mem) →
    Option (Mem × Mem)
  | 0, _, blockBuf, entryBuf => some (blockBuf, entryBuf)
  | n + 1, i, blockBuf, entryBuf =>
      match readBlock base ((lba + i) % u64) blockBuf with
      | none => none
      | some blockBuf =>
          let copied := i * base.bytes
          let todo := if copied + base.bytes > entryBytes then entryBytes - copied else base.bytes
          readEntryBlocks base lba entryBytes n (i + 1) blockBuf (copyN entryBuf copied blockBuf todo)

/-- The type of the filesystem in the slice of an entry. -/
def sysIdOf (base : Storage) (ent : GptEntry) (blockBuf : Mem) : ClassicFilesysType :=
  let sysId := mapGptTypeToSysId ent.typeGuid
  if sysId = .fat32Lba then
    match readBlock base ent.firstLba blockBuf with
    | none => sysId
    | some block =>
        if block 3 = 0x4E ∧ block 4 = 0x54 ∧ block 5 = 0x46 ∧ block 6 = 0x53 then .ntfs else sysId
  else sysId

/-- Whether an entry shares a block with a slice, `!(ent.last_lba < prev_start || …)`. -/
def meets (ent : GptEntry) (prev : PartitionSlice) : Bool :=
  let prevEnd := (prev.address + prev.length + (u64 - 1)) % u64
  !(ent.lastLba < prev.address || ent.firstLba > prevEnd)

/-- The body of the loop over the entries: `none` is `return false`. -/
def addEntry (base : Storage) (hdr : GptHeader) (blockBuf : Mem) (ent : GptEntry) (hdi : HDInfo) :
    Option HDInfo :=
  if isZeroGuid ent.typeGuid then some hdi
  else if ent.firstLba > ent.lastLba then none
  else if ent.firstLba < hdr.firstUsableLba ∨ ent.lastLba > hdr.lastUsableLba then none
  else
    let sliceLen := (ent.lastLba - ent.firstLba + 1) % u64
    if ent.firstLba > maxStduint ∨ sliceLen > maxStduint then none
    else if hdi.parts.any (meets ent) then none
    else
      let slice : PartitionSlice := ⟨ent.firstLba, sliceLen, sysIdOf base ent blockBuf⟩
      let metaIndex := if hdi.partCount < maxPartitions then hdi.partCount else maxPartitions - 1
      let (appended, hdi) := hdi.appendPart slice
      if appended then
        some { hdi with
          gptMeta := update hdi.gptMeta metaIndex ⟨ent.typeGuid, ent.uniqGuid, ent.attributes⟩ }
      else some hdi

/-- The loop over the entries, with `n` entries to go from the `i`-th on; the
table is what it is when the loop returns, also where it fails. -/
def addEntries (base : Storage) (hdr : GptHeader) (blockBuf entryBuf : Mem) :
    (n i : Nat) → HDInfo → Bool × HDInfo
  | 0, _, hdi => (true, hdi)
  | n + 1, i, hdi =>
      match addEntry base hdr blockBuf (.ofBytes entryBuf (i * hdr.sizeOfPartitionEntry)) hdi with
      | none => (false, hdi)
      | some hdi => addEntries base hdr blockBuf entryBuf n (i + 1) hdi

/-- `_LOCAL_LoadGpt`; `fresh` is what `new` leaves in the entry array. -/
def loadGpt (base : Storage) (hdi : HDInfo) (blockBuf fresh : Mem) (hdr : GptHeader)
    (kind : PartitionSchemeKind) : Bool × HDInfo :=
  let entryBytes := hdr.numberOfPartitionEntries * hdr.sizeOfPartitionEntry % u64
  if entryBytes > maxStduint then (false, hdi)
  else
    let blocks := (entryBytes + base.bytes - 1) % u64 / base.bytes
    match readEntryBlocks base hdr.partitionEntryLba entryBytes blocks 0 blockBuf fresh with
    | none => (false, hdi)
    | some (blockBuf, entryBuf) =>
        if crc32 entryBuf entryBytes ≠ hdr.partitionEntryArrayCrc32 then (false, hdi)
        else
          addEntries base hdr blockBuf entryBuf hdr.numberOfPartitionEntries 0
            { hdi with schemeKind := kind }.resetUnifiedParts

def tryGpt (base : Storage) (hdi : HDInfo) (blockBuf fresh : Mem)
    (headerLba expectedAltLba diskLastLba : Nat) (kind : PartitionSchemeKind) : Bool × HDInfo :=
  match readBlock base headerLba blockBuf with
  | none => (false, hdi)
  | some blockBuf =>
      let hdr := GptHeader.ofBytes blockBuf
      if validateGptHeader hdr headerLba expectedAltLba diskLastLba base.bytes blockBuf then
        loadGpt base hdi blockBuf fresh hdr kind
      else (false, hdi)

def loadGPTPartitions (base : Storage) (hdi : HDInfo) (blockBuf fresh : Mem) : Bool × HDInfo :=
  if base.units = 0 then (false, hdi)
  else
    let lastLba := base.units - 1
    match readBlock base 0 blockBuf with
    | none => (false, hdi)
    | some blockBuf =>
        if isProtectiveMbr blockBuf base.bytes then
          let (ok, hdi) := tryGpt base hdi blockBuf fresh 1 lastLba lastLba .gpt
          if ok then (true, hdi)
          else tryGpt base hdi blockBuf fresh lastLba 1 lastLba .gptBackup
        else (false, hdi)

/-! ## Partitions -/

/-- `DiscPartition`, on a disk with the table `hdi`. -/
structure DiscPartition where
  device : Nat
  slice : PartitionSlice

namespace DiscPartition

/-- `DiscPartition(storage, dev)` -/
def new (dev : Nat) : DiscPartition := ⟨dev, .zero⟩

/-- `if (!slice.address && !slice.length) renew_slice()` -/
def renewed (p : DiscPartition) (hdi : HDInfo) : DiscPartition :=
  if p.slice.address = 0 ∧ p.slice.length = 0 then
    { p with slice := hdi.getPartitionSlice p.device }
  else p

def read (p : DiscPartition) (base : Storage) (hdi : HDInfo) (iden times : Nat) (dest : Mem) :
    Option (Mem × List Nat) × DiscPartition :=
  let p := p.renewed hdi
  (base.read ((iden + p.slice.address) % u64) times dest, p)

def write (p : DiscPartition) (base : Storage) (hdi : HDInfo) (iden times : Nat) (sors : Mem) :
    Option (Storage × List Nat) × DiscPartition :=
  let p := p.renewed hdi
  (base.write ((iden + p.slice.address) % u64) times sors, p)

end DiscPartition

end Unisym.Device
