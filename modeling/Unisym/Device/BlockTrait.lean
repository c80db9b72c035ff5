/-
# `BlockTrait` — bytes read and written through whole blocks

`BlockTrait::Read` and `BlockTrait::Write` on a linear offset cut a transfer into
the rest of a first block, whole blocks, and the beginning of a last one; a part
of a block goes through `buffer`.  A device hands over all blocks of a call or
none, and any call may fail.  `dest`, `src` and `buffer` are memory of their own,
and `stduint` has 64 bits.

What is transferred is a prefix of what was asked for (`byte_access_exact`): each
of the three parts keeps `Reading`, or `Writing`, whether it fails or not.
-/
import Unisym.Device.Partition
import Mathlib.Algebra.Order.Group.Nat

namespace Unisym.Device

open Mem

/-! ## The device -/

/-- A block device in use: its blocks, how many calls it has taken, and which of
its calls fail. -/
structure BlockDevice where
  blockSize : Nat
  block : Nat → Mem
  calls : Nat
  fails : Nat → Bool

/-- `Block_Size ? Block_Size : 512` -/
def BlockDevice.bytes (d : BlockDevice) : Nat := if d.blockSize = 0 then 512 else d.blockSize

/-- The byte at a linear offset. -/
def BlockDevice.byte (d : BlockDevice) (o : Nat) : UInt8 := d.block (o / d.bytes) (o % d.bytes)

/-- The device has taken another call. -/
def BlockDevice.count (d : BlockDevice) : BlockDevice := { d with calls := d.calls + 1 }

/-- `Read(BlockIden, Dest + place, Times)`: all the blocks, or nothing. -/
def BlockDevice.read (d : BlockDevice) (iden : Nat) (dest : Mem) (place times : Nat) :
    BlockDevice × Option Mem :=
  (d.count,
    if d.fails d.calls then none
    else some (copyN dest place (fun o => d.block (iden + o / d.bytes) (o % d.bytes))
      (times * d.bytes)))

/-- `Write(BlockIden, Sors + place, Times)`: all the blocks, or nothing. -/
def BlockDevice.write (d : BlockDevice) (iden : Nat) (sors : Mem) (place times : Nat) :
    BlockDevice × Bool :=
  if d.fails d.calls then (d.count, false)
  else
    ({ d.count with
        block := fun b o =>
          if iden ≤ b ∧ b < iden + times ∧ o < d.bytes then
            sors (place + ((b - iden) * d.bytes + o))
          else d.block b o }, true)

/-! ## The transfers -/

/-- The variables of a transfer.  `memory` is `dest`, respectively `src`; `out` and
`in` point `ret` bytes behind its start. -/
structure Transfer where
  device : BlockDevice
  memory : Mem
  buffer : Mem
  ret : Nat
  length : Nat
  crtBlock : Nat

/-- A part of a transfer goes on, or returns `ret` early. -/
abbrev Part := Except Transfer Transfer

/-- `// Partial head block` of `Read`. -/
def readHead (blockOffset : Nat) (s : Transfer) : Part :=
  if blockOffset ≠ 0 ∧ 0 < s.length then
    match s.device.read s.crtBlock s.buffer 0 1 with
    | (d, none) => .error { s with device := d }
    | (d, some buffer) =>
        let copySize := min (s.device.bytes - blockOffset) s.length
        .ok { device := d
              memory := copyN s.memory s.ret (fun o => buffer (blockOffset + o)) copySize
              buffer := buffer
              ret := s.ret + copySize
              length := s.length - copySize
              crtBlock := (s.crtBlock + 1) % u64 }
  else .ok s

/-- `// Multi-block aligned body` of `Read`. -/
def readBody (s : Transfer) : Part :=
  let fullBlocks := s.length / s.device.bytes
  if 0 < fullBlocks then
    match s.device.read s.crtBlock s.memory s.ret fullBlocks with
    | (d, none) => .error { s with device := d }
    | (d, some memory) =>
        let transBytes := fullBlocks * s.device.bytes
        .ok { s with
              device := d
              memory := memory
              ret := s.ret + transBytes
              length := s.length - transBytes
              crtBlock := (s.crtBlock + fullBlocks) % u64 }
  else .ok s

/-- `// Partial tail block` of `Read`. -/
def readTail (s : Transfer) : Part :=
  if 0 < s.length then
    match s.device.read s.crtBlock s.buffer 0 1 with
    | (d, none) => .error { s with device := d }
    | (d, some buffer) =>
        .ok { s with
              device := d
              memory := copyN s.memory s.ret buffer s.length
              buffer := buffer
              ret := s.ret + s.length }
  else .ok s

/-- `// Partial head block (read-modify-write)` of `Write`. -/
def writeHead (blockOffset : Nat) (s : Transfer) : Part :=
  if blockOffset ≠ 0 ∧ 0 < s.length then
    match s.device.read s.crtBlock s.buffer 0 1 with
    | (d, none) => .error { s with device := d }
    | (d, some buffer) =>
        let copySize := min (s.device.bytes - blockOffset) s.length
        let buffer := copyN buffer blockOffset (fun o => s.memory (s.ret + o)) copySize
        match d.write s.crtBlock buffer 0 1 with
        | (d, false) => .error { s with device := d, buffer := buffer }
        | (d, true) =>
            .ok { s with
                  device := d
                  buffer := buffer
                  ret := s.ret + copySize
                  length := s.length - copySize
                  crtBlock := (s.crtBlock + 1) % u64 }
  else .ok s

/-- `// Multi-block aligned body (direct multi-block write)` of `Write`. -/
def writeBody (s : Transfer) : Part :=
  let fullBlocks := s.length / s.device.bytes
  if 0 < fullBlocks then
    match s.device.write s.crtBlock s.memory s.ret fullBlocks with
    | (d, false) => .error { s with device := d }
    | (d, true) =>
        let transBytes := fullBlocks * s.device.bytes
        .ok { s with
              device := d
              ret := s.ret + transBytes
              length := s.length - transBytes
              crtBlock := (s.crtBlock + fullBlocks) % u64 }
  else .ok s

/-- `// Partial tail block (read-modify-write)` of `Write`. -/
def writeTail (s : Transfer) : Part :=
  if 0 < s.length then
    match s.device.read s.crtBlock s.buffer 0 1 with
    | (d, none) => .error { s with device := d }
    | (d, some buffer) =>
        let buffer := copyN buffer 0 (fun o => s.memory (s.ret + o)) s.length
        match d.write s.crtBlock buffer 0 1 with
        | (d, false) => .error { s with device := d, buffer := buffer }
        | (d, true) =>
            .ok { s with
                  device := d
                  buffer := buffer
                  ret := s.ret + s.length }
  else .ok s

/-- The variables at the start of a transfer. -/
def BlockDevice.start (d : BlockDevice) (linearOffset : Nat) (memory : Mem) (length : Nat)
    (buffer : Mem) : Transfer where
  device := d
  memory := memory
  buffer := buffer
  ret := 0
  length := length
  crtBlock := linearOffset / d.bytes

/-- Where a transfer stands when it returns. -/
def returned : Part → Transfer
  | .ok s => s
  | .error s => s

/-- `BlockTrait::Read(linear_offset, dest, length, buffer)` -/
def BlockDevice.readBytes (d : BlockDevice) (linearOffset : Nat) (dest : Mem) (length : Nat)
    (buffer : Mem) : Transfer :=
  returned do
    let s ← readHead (linearOffset % d.bytes) (d.start linearOffset dest length buffer)
    let s ← readBody s
    readTail s

/-- `BlockTrait::Write(linear_offset, src, length, buffer)` -/
def BlockDevice.writeBytes (d : BlockDevice) (linearOffset : Nat) (src : Mem) (length : Nat)
    (buffer : Mem) : Transfer :=
  returned do
    let s ← writeHead (linearOffset % d.bytes) (d.start linearOffset src length buffer)
    let s ← writeBody s
    writeTail s

/-! ## Blocks and linear offsets -/

theorem BlockDevice.bytes_pos (d : BlockDevice) : 0 < d.bytes := by
  unfold BlockDevice.bytes
  split <;> omega

theorem BlockDevice.byte_from (d : BlockDevice) (iden o : Nat) :
    d.byte (iden * d.bytes + o) = d.block (iden + o / d.bytes) (o % d.bytes) := by
  have hpos := d.bytes_pos
  rw [BlockDevice.byte, Nat.add_comm, Nat.add_mul_div_right o iden hpos, Nat.add_mul_mod_self_right,
    Nat.add_comm]

theorem BlockDevice.byte_write {d d' : BlockDevice} {iden place times : Nat} {sors : Mem}
    (h : d.write iden sors place times = (d', true)) (o : Nat) :
    d'.byte o =
      if iden * d.bytes ≤ o ∧ o < (iden + times) * d.bytes then sors (place + (o - iden * d.bytes))
      else d.byte o := by
  have hpos := d.bytes_pos
  unfold BlockDevice.write at h
  split at h
  · cases h
  · obtain ⟨rfl, -⟩ := Prod.mk.inj h
    have hsize : ∀ f : Nat → Mem, BlockDevice.bytes { d.count with block := f } = d.bytes :=
      fun _ => rfl
    simp only [BlockDevice.byte, hsize, Nat.mod_lt o hpos, and_true]
    simp only [← Nat.le_div_iff_mul_le hpos, ← Nat.div_lt_iff_lt_mul hpos]
    split
    next hin =>
      have hmul : (o / d.bytes - iden) * d.bytes = o / d.bytes * d.bytes - iden * d.bytes :=
        Nat.sub_mul _ _ _
      have hle : iden * d.bytes ≤ o / d.bytes * d.bytes := Nat.mul_le_mul_right _ hin.1
      have hdiv := Nat.div_add_mod' o d.bytes
      have hplace : (o / d.bytes - iden) * d.bytes + o % d.bytes = o - iden * d.bytes := by omega
      rw [hplace]
    next => rfl

/-! ## What a part keeps -/

/-- A part that goes on meets `P`, one that returns early `Q`. -/
def Part.Meets (P Q : Transfer → Prop) : Part → Prop
  | .ok s => P s
  | .error s => Q s

theorem Part.Meets.bind {P P' Q : Transfer → Prop} {x : Part} {f : Transfer → Part}
    (hx : Part.Meets P Q x) (hf : ∀ s, P s → Part.Meets P' Q (f s)) :
    Part.Meets P' Q (x >>= f) := by
  cases x with
  | ok s => exact hf s hx
  | error s => exact hx

theorem Part.Meets.mono {P P' Q : Transfer → Prop} {x : Part} (hx : Part.Meets P Q x)
    (h : ∀ s, P s → P' s) : Part.Meets P' Q x := by
  cases x with
  | ok s => exact h s hx
  | error s => exact hx

theorem Part.Meets.returned {P Q R : Transfer → Prop} {x : Part} (hx : Part.Meets P Q x)
    (hP : ∀ s, P s → R s) (hQ : ∀ s, Q s → R s) : R (returned x) := by
  cases x with
  | ok s => exact hP s hx
  | error s => exact hQ s hx

/-- One of the calls made since has failed. -/
def BlockDevice.Failed (d : BlockDevice) (s : Transfer) : Prop :=
  ∃ i, d.calls ≤ i ∧ i < s.device.calls ∧ d.fails i = true

/-- The device, but for its blocks, and the buffer behind its block. -/
structure Kept (d : BlockDevice) (buffer : Mem) (s : Transfer) : Prop where
  blockSize : s.device.blockSize = d.blockSize
  fails : s.device.fails = d.fails
  calls : d.calls ≤ s.device.calls
  buffer : ∀ o, d.bytes ≤ o → s.buffer o = buffer o

theorem Kept.bytes {d : BlockDevice} {buffer : Mem} {s : Transfer} (h : Kept d buffer s) :
    s.device.bytes = d.bytes := by
  unfold BlockDevice.bytes
  rw [h.blockSize]

/-- What is left of `total` bytes from `offset` on: it begins with a block. -/
structure Aligned (d : BlockDevice) (offset total : Nat) (s : Transfer) : Prop where
  total : s.ret + s.length = total
  block : 0 < s.length → s.crtBlock * d.bytes = offset + s.ret

/-- The first `ret` of the bytes from `offset` on are in `dest`. -/
structure Reading (d : BlockDevice) (offset total : Nat) (dest buffer : Mem) (s : Transfer) :
    Prop extends Kept d buffer s where
  block : s.device.block = d.block
  read : ∀ i < s.ret, s.memory i = d.byte (offset + i)
  rest : ∀ i, s.ret ≤ i → s.memory i = dest i
  le : s.ret ≤ total

/-- The first `ret` bytes of `src` are on the device, from `offset` on. -/
structure Writing (d : BlockDevice) (offset total : Nat) (src buffer : Mem) (s : Transfer) :
    Prop extends Kept d buffer s where
  memory : s.memory = src
  written : ∀ i < s.ret, s.device.byte (offset + i) = src i
  rest : ∀ o, o < offset ∨ offset + s.ret ≤ o → s.device.byte o = d.byte o
  le : s.ret ≤ total

section

variable {d : BlockDevice} {offset total : Nat} {dest src buffer : Mem} {s : Transfer}

theorem Kept.failed (h : Kept d buffer s) (hf : s.device.fails s.device.calls = true)
    (t : Transfer) (ht : t.device.calls = s.device.calls + 1) : d.Failed t := by
  refine ⟨s.device.calls, h.calls, ?_, ?_⟩
  · rw [ht]
    exact Nat.lt_succ_self _
  · rw [← h.fails]
    exact hf

section

variable (h : Reading d offset total dest buffer s)
include h

theorem Reading.fail : Reading d offset total dest buffer { s with device := s.device.count } where
  blockSize := h.blockSize
  fails := h.fails
  calls := Nat.le_succ_of_le h.calls
  buffer := h.buffer
  block := h.block
  read := h.read
  rest := h.rest
  le := h.le

theorem Reading.take {f b : Mem} {n length crt : Nat} (hf : ∀ j < n, f j = d.byte (offset + s.ret + j))
    (hb : ∀ o, d.bytes ≤ o → b o = buffer o) (hn : s.ret + n ≤ total) : Reading d offset total dest buffer
      { device := s.device.count, memory := copyN s.memory s.ret f n, buffer := b,
        ret := s.ret + n, length := length, crtBlock := crt } where
  blockSize := h.blockSize
  fails := h.fails
  calls := Nat.le_succ_of_le h.calls
  buffer := hb
  block := h.block
  read := by
    intro i hi
    dsimp only at hi ⊢
    unfold copyN
    split
    next hin =>
      rw [hf _ (by omega)]
      congr 1
      omega
    next hout => exact h.read i (by omega)
  rest := by
    intro i hi
    dsimp only at hi ⊢
    unfold copyN
    rw [if_neg (by omega)]
    exact h.rest i (by omega)
  le := hn

/-- What a read call puts into the buffer or into `dest`. -/
theorem Reading.fetched (o : Nat) : s.device.block (s.crtBlock + o / s.device.bytes) (o % s.device.bytes) =
      d.byte (s.crtBlock * d.bytes + o) := by
  rw [d.byte_from, h.block, h.bytes]

end

theorem fetched_buffer (f : Mem) (b : Mem) {n o : Nat} (ho : o < n) : copyN b 0 f n o = f o := by
  unfold copyN
  rw [if_pos ⟨Nat.zero_le o, by omega⟩, Nat.sub_zero]

theorem fetched_beyond (f : Mem) (b : Mem) {n o : Nat} (ho : n ≤ o) : copyN b 0 f n o = b o := by
  unfold copyN
  rw [if_neg (by omega)]

theorem readHead_meets (hs : Reading d offset total dest buffer s) (hret : s.ret = 0)
    (hlen : s.length = total) (hcrt : s.crtBlock = offset / d.bytes)
    (hwrap : offset + total ≤ u64) :
    Part.Meets (fun t => Reading d offset total dest buffer t ∧ Aligned d offset total t)
      (fun t => Reading d offset total dest buffer t ∧ d.Failed t)
      (readHead (offset % d.bytes) s) := by
  have hpos := d.bytes_pos
  have hdiv := Nat.div_add_mod' offset d.bytes
  have hmod := Nat.mod_lt offset hpos
  unfold readHead
  split
  next hin =>
    unfold BlockDevice.read
    by_cases hf : s.device.fails s.device.calls = true
    · rw [if_pos hf]
      exact ⟨hs.fail, hs.failed hf _ rfl⟩
    · rw [if_neg hf]
      simp only [Part.Meets]
      have hsize := hs.bytes
      rw [hsize]
      refine ⟨hs.take (fun j hj => ?_) (fun o ho => ?_) (by omega), ⟨?_, ?_⟩⟩
      · have hfetched := hs.fetched (offset % d.bytes + j)
        rw [hsize] at hfetched
        rw [fetched_buffer _ _ (by omega), hfetched, hcrt, hret]
        congr 1
        omega
      · rw [fetched_beyond _ _ (by omega)]
        exact hs.buffer o ho
      · dsimp only
        omega
      · intro hleft
        dsimp only at hleft ⊢
        have hnext : (offset / d.bytes + 1) * d.bytes = offset / d.bytes * d.bytes + d.bytes := by
          rw [Nat.add_mul, Nat.one_mul]
        have hlt : offset / d.bytes + 1 ≤ (offset / d.bytes + 1) * d.bytes :=
          Nat.le_mul_of_pos_right _ hpos
        rw [hcrt, Nat.mod_eq_of_lt (by omega)]
        omega
  next hout =>
    refine ⟨hs, ⟨by omega, fun hleft => ?_⟩⟩
    have hzero : offset % d.bytes = 0 := by
      by_contra hne
      exact hout ⟨hne, hleft⟩
    rw [hcrt, hret]
    omega

theorem Aligned.next (ha : Aligned d offset total s) (hwrap : offset + total ≤ u64)
    (hleft : 0 < s.length - s.length / d.bytes * d.bytes) :
    (s.crtBlock + s.length / d.bytes) % u64 * d.bytes =
      offset + (s.ret + s.length / d.bytes * d.bytes) := by
  have hpos := d.bytes_pos
  have htotal := ha.total
  have hblock := ha.block (by omega)
  have hle : s.crtBlock + s.length / d.bytes ≤ (s.crtBlock + s.length / d.bytes) * d.bytes :=
    Nat.le_mul_of_pos_right _ hpos
  rw [Nat.add_mul] at hle
  rw [Nat.mod_eq_of_lt (by omega), Nat.add_mul]
  omega

theorem readBody_meets (hs : Reading d offset total dest buffer s) (ha : Aligned d offset total s)
    (hwrap : offset + total ≤ u64) :
    Part.Meets
      (fun t => Reading d offset total dest buffer t ∧ Aligned d offset total t ∧
        t.length < d.bytes)
      (fun t => Reading d offset total dest buffer t ∧ d.Failed t) (readBody s) := by
  have hsize := hs.bytes
  have htotal := ha.total
  have hdiv := Nat.div_add_mod' s.length d.bytes
  have hmod := Nat.mod_lt s.length d.bytes_pos
  unfold readBody
  dsimp only
  split
  next hin =>
    unfold BlockDevice.read
    by_cases hf : s.device.fails s.device.calls = true
    · rw [if_pos hf]
      exact ⟨hs.fail, hs.failed hf _ rfl⟩
    · rw [if_neg hf]
      simp only [Part.Meets]
      have hlen : 0 < s.length := by
        by_contra hzero
        rw [Nat.eq_zero_of_not_pos hzero, Nat.zero_div] at hin
        exact absurd hin (Nat.lt_irrefl 0)
      rw [hsize]
      refine ⟨hs.take (fun j _ => ?_) hs.buffer (by omega), ⟨?_, ha.next hwrap⟩, ?_⟩
      · have hfetched := hs.fetched j
        rw [hsize] at hfetched
        rw [hfetched, ha.block hlen]
      · dsimp only
        omega
      · omega
  next hout =>
    rw [hsize, Nat.not_lt, Nat.le_zero] at hout
    rw [hout] at hdiv
    exact ⟨hs, ha, by omega⟩

theorem readTail_meets (hs : Reading d offset total dest buffer s) (ha : Aligned d offset total s)
    (hlt : s.length < d.bytes) :
    Part.Meets (fun t => Reading d offset total dest buffer t ∧ t.ret = total)
      (fun t => Reading d offset total dest buffer t ∧ d.Failed t) (readTail s) := by
  have hsize := hs.bytes
  have htotal := ha.total
  unfold readTail
  split
  next hin =>
    unfold BlockDevice.read
    by_cases hf : s.device.fails s.device.calls = true
    · rw [if_pos hf]
      exact ⟨hs.fail, hs.failed hf _ rfl⟩
    · rw [if_neg hf]
      refine ⟨hs.take (fun j hj => ?_) (fun o ho => ?_) (by omega), htotal⟩
      · rw [fetched_buffer _ _ (by omega), hs.fetched, ha.block hin]
      · rw [fetched_beyond _ _ (by omega)]
        exact hs.buffer o ho
  next hout => exact ⟨hs, by omega⟩

section

variable (h : Writing d offset total src buffer s)
include h

theorem Writing.fail {b : Mem} (hb : ∀ o, d.bytes ≤ o → b o = buffer o) :
    Writing d offset total src buffer { s with device := s.device.count, buffer := b } where
  blockSize := h.blockSize
  fails := h.fails
  calls := Nat.le_succ_of_le h.calls
  buffer := hb
  memory := h.memory
  written := h.written
  rest := h.rest
  le := h.le

/-- The next `n` bytes are written: blocks from `crtBlock` on, whose other bytes stay. -/
theorem Writing.put {d' : BlockDevice} {b f : Mem} {place times n length crt : Nat}
    (hw : s.device.write s.crtBlock f place times = (d', true)) (hb : ∀ o, d.bytes ≤ o → b o = buffer o)
    (hn : s.ret + n ≤ total) (hfrom : s.crtBlock * d.bytes ≤ offset + s.ret)
    (hto : offset + s.ret + n ≤ (s.crtBlock + times) * d.bytes)
    (hnew : ∀ o, offset + s.ret ≤ o → o < offset + s.ret + n →
      f (place + (o - s.crtBlock * d.bytes)) = src (o - offset))
    (hold : ∀ o, s.crtBlock * d.bytes ≤ o → o < (s.crtBlock + times) * d.bytes →
      o < offset + s.ret ∨ offset + s.ret + n ≤ o →
      f (place + (o - s.crtBlock * d.bytes)) = s.device.byte o) : Writing d offset total src buffer
      { device := d', memory := s.memory, buffer := b, ret := s.ret + n, length := length,
        crtBlock := crt } := by
  have hbyte := BlockDevice.byte_write hw
  rw [h.bytes] at hbyte
  have hkept : d'.blockSize = s.device.blockSize ∧ d'.fails = s.device.fails ∧
      d'.calls = s.device.calls + 1 := by
    unfold BlockDevice.write at hw
    split at hw
    · cases hw
    · obtain ⟨rfl, -⟩ := Prod.mk.inj hw
      exact ⟨rfl, rfl, rfl⟩
  refine { blockSize := hkept.1.trans h.blockSize, fails := hkept.2.1.trans h.fails,
           calls := hkept.2.2 ▸ Nat.le_succ_of_le h.calls, buffer := hb, memory := h.memory,
           written := ?_, rest := ?_, le := hn }
  · intro i hi
    dsimp only at hi ⊢
    rw [hbyte]
    by_cases hin : s.ret ≤ i
    · rw [if_pos (by omega), hnew _ (by omega) (by omega), Nat.add_sub_cancel_left]
    · have hwritten := h.written i (by omega)
      split
      next hblock => rw [hold _ hblock.1 hblock.2 (by omega), hwritten]
      next => exact hwritten
  · intro o ho
    dsimp only at ho ⊢
    rw [hbyte]
    have hrest := h.rest o (by omega)
    split
    next hblock => rw [hold _ hblock.1 hblock.2 (by omega), hrest]
    next => exact hrest

theorem Writing.fetched (o : Nat) : s.device.block (s.crtBlock + o / s.device.bytes) (o % s.device.bytes) =
      s.device.byte (s.crtBlock * d.bytes + o) := by
  rw [← s.device.byte_from, h.bytes]

end

theorem BlockDevice.write_cases (d : BlockDevice) (iden : Nat) (sors : Mem) (place times : Nat) :
    (d.fails d.calls = true ∧ d.write iden sors place times = (d.count, false)) ∨
      ∃ d', d.write iden sors place times = (d', true) := by
  unfold BlockDevice.write
  split
  next hf => exact .inl ⟨hf, rfl⟩
  next => exact .inr ⟨_, rfl⟩

/-- Part of a block is written: the block is read, `n` bytes of `src` are put into it `place`
bytes behind its start, and it is written back. -/
theorem Writing.modify (h : Writing d offset total src buffer s) (place n : Nat)
    (hplace : s.crtBlock * d.bytes + place = offset + s.ret) (hin : place + n ≤ d.bytes)
    (hn : s.ret + n ≤ total) (length crt : Nat) :
    Part.Meets
      (fun t => Writing d offset total src buffer t ∧ t.ret = s.ret + n ∧ t.length = length ∧
        t.crtBlock = crt)
      (fun t => Writing d offset total src buffer t ∧ d.Failed t)
      (match s.device.read s.crtBlock s.buffer 0 1 with
      | (d, none) => .error { s with device := d }
      | (d, some buffer) =>
        match d.write s.crtBlock (copyN buffer place (fun o => s.memory (s.ret + o)) n) 0 1 with
        | (d, false) =>
          .error { s with
            device := d
            buffer := copyN buffer place (fun o => s.memory (s.ret + o)) n }
        | (d, true) =>
          .ok { s with
            device := d
            buffer := copyN buffer place (fun o => s.memory (s.ret + o)) n
            ret := s.ret + n
            length := length
            crtBlock := crt }) := by
  have hsize := h.bytes
  unfold BlockDevice.read
  by_cases hf : s.device.fails s.device.calls = true
  · rw [if_pos hf]
    exact ⟨h.fail h.buffer, h.failed hf _ rfl⟩
  · rw [if_neg hf]
    dsimp only
    -- the block as it was read, and the buffer that is written back
    set block : Mem := copyN s.buffer 0 (fun o =>
      s.device.block (s.crtBlock + o / s.device.bytes) (o % s.device.bytes))
      (1 * s.device.bytes) with hblock
    set b : Mem := copyN block place (fun o => s.memory (s.ret + o)) n with hb
    have hread : ∀ o < d.bytes, block o = s.device.byte (s.crtBlock * d.bytes + o) := by
      intro o ho
      rw [hblock, fetched_buffer _ _ (by omega), h.fetched]
    have hbeyond : ∀ o, d.bytes ≤ o → b o = buffer o := by
      intro o ho
      rw [hb, copyN, if_neg (by omega), hblock, fetched_beyond _ _ (by omega)]
      exact h.buffer o ho
    have hcount : Writing d offset total src buffer { s with device := s.device.count } :=
      h.fail h.buffer
    obtain ⟨hfail, hwrite⟩ | ⟨d', hwrite⟩ := s.device.count.write_cases s.crtBlock b 0 1
    · rw [hwrite]
      exact ⟨hcount.fail hbeyond, hcount.failed hfail _ rfl⟩
    · rw [hwrite]
      refine ⟨hcount.put hwrite hbeyond hn (by dsimp only; omega) ?_ ?_ ?_, rfl, rfl, rfl⟩
      · dsimp only
        rw [Nat.add_mul]
        omega
      · intro o hfrom hto
        dsimp only at hfrom hto ⊢
        rw [hb, copyN, if_pos (by omega), h.memory]
        congr 1
        omega
      · intro o hfrom hto hout
        dsimp only at hfrom hto hout ⊢
        rw [Nat.add_mul] at hto
        rw [hb, copyN, if_neg (by omega), hread _ (by omega)]
        exact congrArg s.device.byte (by omega)

section

variable (hs : Writing d offset total src buffer s)
include hs

theorem writeHead_meets (hret : s.ret = 0) (hlen : s.length = total) (hcrt : s.crtBlock = offset / d.bytes)
    (hwrap : offset + total ≤ u64) :
    Part.Meets (fun t => Writing d offset total src buffer t ∧ Aligned d offset total t)
      (fun t => Writing d offset total src buffer t ∧ d.Failed t)
      (writeHead (offset % d.bytes) s) := by
  have hpos := d.bytes_pos
  have hdiv := Nat.div_add_mod' offset d.bytes
  have hmod := Nat.mod_lt offset hpos
  have hsize := hs.bytes
  unfold writeHead
  split
  next hin =>
    rw [hsize]
    refine (hs.modify (offset % d.bytes) (min (d.bytes - offset % d.bytes) s.length)
      (by rw [hcrt, hret]; omega) (by omega) (by omega) _ _).mono ?_
    rintro t ⟨ht, htret, htlen, htcrt⟩
    refine ⟨ht, ⟨by omega, fun hleft => ?_⟩⟩
    have hnext : (offset / d.bytes + 1) * d.bytes = offset / d.bytes * d.bytes + d.bytes := by
      rw [Nat.add_mul, Nat.one_mul]
    have hlt : offset / d.bytes + 1 ≤ (offset / d.bytes + 1) * d.bytes :=
      Nat.le_mul_of_pos_right _ hpos
    rw [htcrt, htret, hcrt, Nat.mod_eq_of_lt (by omega)]
    omega
  next hout =>
    refine ⟨hs, ⟨by omega, fun hleft => ?_⟩⟩
    have hzero : offset % d.bytes = 0 := by
      by_contra hne
      exact hout ⟨hne, hleft⟩
    rw [hcrt, hret]
    omega

theorem writeBody_meets (ha : Aligned d offset total s) (hwrap : offset + total ≤ u64) : Part.Meets
      (fun t => Writing d offset total src buffer t ∧ Aligned d offset total t ∧
        t.length < d.bytes)
      (fun t => Writing d offset total src buffer t ∧ d.Failed t) (writeBody s) := by
  have hsize := hs.bytes
  have htotal := ha.total
  have hdiv := Nat.div_add_mod' s.length d.bytes
  have hmod := Nat.mod_lt s.length d.bytes_pos
  unfold writeBody
  dsimp only
  rw [hsize]
  split
  next hin =>
    have hlen : 0 < s.length := by
      by_contra hzero
      rw [Nat.eq_zero_of_not_pos hzero, Nat.zero_div] at hin
      exact absurd hin (Nat.lt_irrefl 0)
    have hblock := ha.block hlen
    obtain ⟨hf, hwrite⟩ | ⟨d', hwrite⟩ :=
      s.device.write_cases s.crtBlock s.memory s.ret (s.length / d.bytes)
    · rw [hwrite]
      exact ⟨hs.fail hs.buffer, hs.failed hf _ rfl⟩
    · rw [hwrite]
      refine ⟨hs.put hwrite hs.buffer (by omega) (by omega) ?_ ?_ ?_, ⟨?_, ha.next hwrap⟩, ?_⟩
      · rw [Nat.add_mul]
        omega
      · intro o hfrom hto
        rw [hs.memory]
        congr 1
        omega
      · intro o hfrom hto hout
        rw [Nat.add_mul] at hto
        omega
      · dsimp only
        omega
      · dsimp only
        omega
  next hout =>
    rw [Nat.not_lt, Nat.le_zero] at hout
    rw [hout] at hdiv
    exact ⟨hs, ha, by omega⟩

theorem writeTail_meets (ha : Aligned d offset total s) (hlt : s.length < d.bytes) :
    Part.Meets (fun t => Writing d offset total src buffer t ∧ t.ret = total)
      (fun t => Writing d offset total src buffer t ∧ d.Failed t) (writeTail s) := by
  have htotal := ha.total
  unfold writeTail
  split
  next hin =>
    refine (hs.modify 0 s.length (ha.block hin) (by omega) (by omega) s.length s.crtBlock).mono ?_
    rintro t ⟨ht, htret, -, -⟩
    exact ⟨ht, by omega⟩
  next hout => exact ⟨hs, by omega⟩

end

end

/-! ## Whole transfers -/

section

variable (d : BlockDevice) (offset length : Nat) (memory buffer : Mem)

theorem reading_start :
    Reading d offset length memory buffer (d.start offset memory length buffer) where
  blockSize := rfl
  fails := rfl
  calls := Nat.le_refl _
  buffer := fun _ _ => rfl
  block := rfl
  read := fun _ hi => absurd hi (Nat.not_lt_zero _)
  rest := fun _ _ => rfl
  le := Nat.zero_le _

theorem writing_start :
    Writing d offset length memory buffer (d.start offset memory length buffer) where
  blockSize := rfl
  fails := rfl
  calls := Nat.le_refl _
  buffer := fun _ _ => rfl
  memory := rfl
  written := fun _ hi => absurd hi (Nat.not_lt_zero _)
  rest := fun _ _ => rfl
  le := Nat.zero_le _

/-- A read is one of a prefix, and of everything unless a call has failed. -/
theorem readBytes_reading (hwrap : offset + length ≤ u64) :
    Reading d offset length memory buffer (d.readBytes offset memory length buffer) ∧
      ((d.readBytes offset memory length buffer).ret = length ∨
        d.Failed (d.readBytes offset memory length buffer)) := by
  have hrun : Part.Meets (fun t => Reading d offset length memory buffer t ∧ t.ret = length)
      (fun t => Reading d offset length memory buffer t ∧ d.Failed t)
      (readHead (offset % d.bytes) (d.start offset memory length buffer) >>= fun s =>
        readBody s >>= readTail) :=
    (readHead_meets (reading_start d offset length memory buffer) rfl rfl rfl hwrap).bind
      fun s hs => (readBody_meets hs.1 hs.2 hwrap).bind
        fun s hs => readTail_meets hs.1 hs.2.1 hs.2.2
  exact hrun.returned (R := fun t => Reading d offset length memory buffer t ∧
    (t.ret = length ∨ d.Failed t)) (fun t ht => ⟨ht.1, .inl ht.2⟩) (fun t ht => ⟨ht.1, .inr ht.2⟩)

theorem writeBytes_writing (hwrap : offset + length ≤ u64) :
    Writing d offset length memory buffer (d.writeBytes offset memory length buffer) ∧
      ((d.writeBytes offset memory length buffer).ret = length ∨
        d.Failed (d.writeBytes offset memory length buffer)) := by
  have hrun : Part.Meets (fun t => Writing d offset length memory buffer t ∧ t.ret = length)
      (fun t => Writing d offset length memory buffer t ∧ d.Failed t)
      (writeHead (offset % d.bytes) (d.start offset memory length buffer) >>= fun s =>
        writeBody s >>= writeTail) :=
    (writeHead_meets (writing_start d offset length memory buffer) rfl rfl rfl hwrap).bind
      fun s hs => (writeBody_meets hs.1 hs.2 hwrap).bind
        fun s hs => writeTail_meets hs.1 hs.2.1 hs.2.2
  exact hrun.returned (R := fun t => Writing d offset length memory buffer t ∧
    (t.ret = length ∨ d.Failed t)) (fun t ht => ⟨ht.1, .inl ht.2⟩) (fun t ht => ⟨ht.1, .inr ht.2⟩)

end

/-- No call of the transfer has failed. -/
def BlockDevice.NoFailure (d : BlockDevice) (s : Transfer) : Prop :=
  ∀ i, d.calls ≤ i → i < s.device.calls → d.fails i = false

theorem BlockDevice.NoFailure.not_failed {d : BlockDevice} {s : Transfer} (h : d.NoFailure s) :
    ¬d.Failed s := by
  rintro ⟨i, hfrom, hto, hf⟩
  rw [h i hfrom hto] at hf
  cases hf

/-- Reads and writes of bytes are exact: a prefix of `k` bytes is read into `dest`,
respectively written from `src`, nothing else changes, and `k` is `length` unless a
call of the device has failed. -/
theorem byte_access_exact (d : BlockDevice) (offset length : Nat) (memory buffer : Mem)
    (hwrap : offset + length ≤ u64) :
    (∃ r, d.readBytes offset memory length buffer = r ∧ r.ret ≤ length ∧
      (∀ i, r.memory i = if i < r.ret then d.byte (offset + i) else memory i) ∧
      r.device.block = d.block ∧ (∀ o, d.bytes ≤ o → r.buffer o = buffer o) ∧
      (d.NoFailure r → r.ret = length)) ∧
    ∃ w, d.writeBytes offset memory length buffer = w ∧ w.ret ≤ length ∧
      w.device.bytes = d.bytes ∧
      (∀ o, w.device.byte o =
        if offset ≤ o ∧ o < offset + w.ret then memory (o - offset) else d.byte o) ∧
      w.memory = memory ∧ (∀ o, d.bytes ≤ o → w.buffer o = buffer o) ∧
      (d.NoFailure w → w.ret = length) := by
  refine ⟨⟨_, rfl, ?_⟩, ⟨_, rfl, ?_⟩⟩
  · obtain ⟨hr, hend⟩ := readBytes_reading d offset length memory buffer hwrap
    refine ⟨hr.le, fun i => ?_, hr.block, hr.buffer, fun hno => ?_⟩
    · split
      next hi => exact hr.read i hi
      next hi => exact hr.rest i (Nat.le_of_not_lt hi)
    · exact hend.resolve_right hno.not_failed
  · obtain ⟨hw, hend⟩ := writeBytes_writing d offset length memory buffer hwrap
    refine ⟨hw.le, hw.bytes, fun o => ?_, hw.memory, hw.buffer, fun hno => ?_⟩
    · split
      next ho =>
        have hwritten := hw.written (o - offset) (by omega)
        rwa [Nat.add_sub_cancel' ho.1] at hwritten
      next ho => exact hw.rest o (by omega)
    · exact hend.resolve_right hno.not_failed

/-- A device with blocks of four bytes whose third call fails. -/
def thirdFails : BlockDevice where
  blockSize := 4
  block := fun b o => UInt8.ofNat (16 * b + o)
  calls := 0
  fails := fun i => i == 2

/-- Seven bytes from offset 2 on: the head and the body are read, the tail is not; of a
write the head is read and written, and the body fails. -/
theorem byte_access_exact_thirdFails :
    ((thirdFails.readBytes 2 (fun _ => 0) 7 (fun _ => 0)).ret = 6 ∧
      (thirdFails.readBytes 2 (fun _ => 0) 7 (fun _ => 0)).memory 5 = thirdFails.byte 7) ∧
    (thirdFails.writeBytes 2 (fun _ => 255) 7 (fun _ => 0)).ret = 2 ∧
      (thirdFails.writeBytes 2 (fun _ => 255) 7 (fun _ => 0)).device.byte 4 =
        thirdFails.byte 4 := by
  obtain ⟨⟨r, rfl, -, hread, -⟩, ⟨w, rfl, -, -, hwritten, -⟩⟩ :=
    byte_access_exact thirdFails 2 7 (fun _ => 0) (fun _ => 0) (by decide)
  obtain ⟨-, ⟨w, rfl, -, -, hwritten, -⟩⟩ :=
    byte_access_exact thirdFails 2 7 (fun _ => 255) (fun _ => 0) (by decide)
  have hret : (thirdFails.readBytes 2 (fun _ => 0) 7 (fun _ => 0)).ret = 6 := by decide
  have hwret : (thirdFails.writeBytes 2 (fun _ => 255) 7 (fun _ => 0)).ret = 2 := by decide
  refine ⟨⟨hret, ?_⟩, hwret, ?_⟩
  · rw [hread, hret]
    rfl
  · rw [hwritten, hwret]
    rfl

end Unisym.Device
