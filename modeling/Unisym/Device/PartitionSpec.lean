/-
# `PartitionSpec` — what is loaded, and what a partition reaches

`Laid` is what the loop over the entries keeps of the slices recorded so far
(`addEntry_laid`, `addEntries_laid`).  Whatever table `loadGPTPartitions`
accepts, its bytes are those of the disk (`loadGPTPartitions_loaded`).  A
partition does not check the blocks it is asked for: an access stays in the
slice where the caller does (`DiscPartition.inside_iff`).
-/
import Unisym.Device.Partition
import Mathlib.Data.List.Range

namespace Unisym.Device

open Function Mem

/-! ## Storage -/

theorem Storage.bytes_pos (d : Storage) : 0 < d.bytes := by
  unfold Storage.bytes
  split <;> omega

theorem Storage.bytes_le (d : Storage) : d.bytes ≤ 2 ^ 63 := by
  have h := d.blockSize_le
  unfold Storage.bytes
  split <;> omega

variable {d : Storage} {lba : Nat} {m m' buf fresh : Mem} {hdr : GptHeader} {hdi hdi' : HDInfo}

theorem readBlock_spec {dest : Mem} (h : readBlock d lba dest = some m) :
    ∀ o < d.bytes, m o = d.block lba o := by
  intro o ho
  unfold readBlock Storage.read at h
  split at h
  · cases h
  · split at h
    · cases h
    · cases h
      dsimp only
      rw [if_pos (by omega), Nat.div_eq_of_lt ho, Nat.mod_eq_of_lt ho, Nat.add_zero]

/-! ## Bytes -/

theorem bytesAt_congr {a n : Nat} (h : ∀ o, a ≤ o → o < a + n → m' o = m o) :
    bytesAt m' a n = bytesAt m a n :=
  List.map_congr_left fun i hi => h (a + i) (Nat.le_add_right _ _)
    (Nat.add_lt_add_left (List.mem_range.mp hi) a)

theorem readLE_agree {a n : Nat} (h : ∀ o, a ≤ o → o < a + n → m' o = m o) :
    readLE m' a n = readLE m a n :=
  readLE_congr fun o ho => h o ho.1 ho.2

theorem GptHeader.ofBytes_congr (h : ∀ o < 92, m' o = m o) :
    GptHeader.ofBytes m' = GptHeader.ofBytes m := by
  have hle : ∀ a n, a + n ≤ 92 → readLE m' a n = readLE m a n := fun a n han =>
    readLE_agree fun o _ ho => h o (Nat.lt_of_lt_of_le ho han)
  unfold GptHeader.ofBytes
  rw [bytesAt_congr fun o _ ho => h o (by omega), hle 12 4, hle 16 4, hle 24 8, hle 32 8, hle 40 8,
    hle 48 8, hle 72 8, hle 80 4, hle 84 4, hle 88 4] <;> decide

theorem GptEntry.ofBytes_congr {raw : Nat}
    (h : ∀ o, raw ≤ o → o < raw + GptEntry.size → m' o = m o) :
    GptEntry.ofBytes m' raw = GptEntry.ofBytes m raw := by
  have hat : ∀ a n, raw ≤ a → a + n ≤ raw + 128 → ∀ o, a ≤ o → o < a + n → m' o = m o :=
    fun a n ha hn o h1 h2 => h o (Nat.le_trans ha h1) (Nat.lt_of_lt_of_le h2 hn)
  unfold GptEntry.ofBytes
  rw [bytesAt_congr (hat raw 16 (by omega) (by omega)),
    bytesAt_congr (hat (raw + 16) 16 (by omega) (by omega)),
    readLE_agree (hat (raw + 32) 8 (by omega) (by omega)),
    readLE_agree (hat (raw + 40) 8 (by omega) (by omega)),
    readLE_agree (hat (raw + 48) 8 (by omega) (by omega))]

theorem crcBytes_congr : ∀ {n i : Nat} (crc : UInt32),
    (∀ o, i ≤ o → o < i + n → m' o = m o) → crcBytes m' n i crc = crcBytes m n i crc
  | 0, _, _, _ => rfl
  | n + 1, i, crc, h => by
    rw [crcBytes, crcBytes, h i (Nat.le_refl _) (by omega)]
    exact crcBytes_congr _ fun o h1 h2 => h o (by omega) (by omega)

theorem crc32_congr {size : Nat} (h : ∀ o < size, m' o = m o) :
    crc32 m' size = crc32 m size := by
  unfold crc32
  rw [crcBytes_congr _ fun o _ ho => h o (by omega)]

/-! ## The entry array -/

/-- The entry array of a header, on the disk. -/
def entryArray (d : Storage) (hdr : GptHeader) : Mem := fun o =>
  d.block ((hdr.partitionEntryLba + o / d.bytes) % u64) (o % d.bytes)

/-- Where the first `i` blocks are read, all blocks are after the loop. -/
theorem readEntryBlocks_spec (d : Storage) (hdr : GptHeader) (entryBytes : Nat) :
    ∀ (n i : Nat) {b e b' e' : Mem},
      readEntryBlocks d hdr.partitionEntryLba entryBytes n i b e = some (b', e') →
      (∀ o, o < i * d.bytes → o < entryBytes → e o = entryArray d hdr o) →
      ∀ o, o < (i + n) * d.bytes → o < entryBytes → e' o = entryArray d hdr o
  | 0, i, _, _, _, _, h, hread => by
    cases h
    exact hread
  | n + 1, i, b, e, b', e', h, hread => by
    rw [readEntryBlocks] at h
    cases hblock : readBlock d ((hdr.partitionEntryLba + i) % u64) b with
    | none =>
      rw [hblock] at h
      cases h
    | some m =>
      rw [hblock] at h
      dsimp only at h
      rw [show i + (n + 1) = i + 1 + n by omega]
      refine readEntryBlocks_spec d hdr entryBytes n (i + 1) h fun o ho hend => ?_
      rw [Nat.succ_mul] at ho
      unfold copyN
      by_cases hold : o < i * d.bytes
      · rw [if_neg (by omega)]
        exact hread o hold hend
      · have hpos : i * d.bytes ≤ o := Nat.le_of_not_lt hold
        rw [if_pos ⟨hpos, by split <;> omega⟩, readBlock_spec hblock _ (by omega)]
        have hdiv : o / d.bytes = i :=
          Nat.div_eq_of_lt_le hpos (by rw [Nat.succ_mul]; exact ho)
        have hmod : o % d.bytes = o - i * d.bytes := by
          have hsum := Nat.div_add_mod o d.bytes
          rw [hdiv, Nat.mul_comm] at hsum
          omega
        unfold entryArray
        rw [hdiv, hmod]

/-! ## The slices -/

/-- The blocks of a slice. -/
def PartitionSlice.blocks (s : PartitionSlice) : Set Nat := Set.Ico s.address (s.address + s.length)

/-- The slices recorded after `seen` entries of a type that is not zero. -/
structure Laid (hdr : GptHeader) (seen : Nat) (hdi : HDInfo) : Prop where
  length_pos : ∀ s ∈ hdi.parts, 0 < s.length
  usable : ∀ s ∈ hdi.parts, s.blocks ⊆ Set.Icc hdr.firstUsableLba hdr.lastUsableLba
  disjoint : hdi.parts.Pairwise fun s t => Disjoint s.blocks t.blocks
  count : hdi.partCount + hdi.partOverflow = seen

theorem laid_reset (hdr : GptHeader) (hdi : HDInfo) : Laid hdr 0 hdi.resetUnifiedParts where
  length_pos := fun _ h => absurd h List.not_mem_nil
  usable := fun _ h => absurd h List.not_mem_nil
  disjoint := List.Pairwise.nil
  count := rfl

/-- A slice in a table is shorter than the address space. -/
theorem Laid.end_lt {seen : Nat} (h : Laid hdr seen hdi)
    {s : PartitionSlice} (hs : s ∈ hdi.parts) : s.address + s.length ≤ hdr.lastUsableLba + 1 := by
  have hpos := h.length_pos s hs
  have hlast : s.address + s.length - 1 ∈ s.blocks := ⟨by omega, by omega⟩
  have hle := (h.usable s hs hlast).2
  omega

/-- An entry that meets no recorded slice has no block of one. -/
theorem disjoint_of_meets {ent : GptEntry} {s : PartitionSlice} {k : ClassicFilesysType}
    (hmeets : meets ent s = false) (hpos : 0 < s.length) (hend : s.address + s.length ≤ u64)
    (hle : ent.firstLba ≤ ent.lastLba) :
    Disjoint s.blocks (PartitionSlice.blocks ⟨ent.firstLba, ent.lastLba - ent.firstLba + 1, k⟩) := by
  have hprev : (s.address + s.length + (u64 - 1)) % u64 = s.address + s.length - 1 := by
    have hsum : s.address + s.length + (u64 - 1) = s.address + s.length - 1 + u64 := by
      unfold u64 at *
      omega
    rw [hsum, Nat.add_mod_right, Nat.mod_eq_of_lt (by omega)]
  unfold meets at hmeets
  dsimp only at hmeets
  rw [hprev, Bool.not_eq_false', Bool.or_eq_true, decide_eq_true_eq, decide_eq_true_eq] at hmeets
  rw [Set.disjoint_left]
  rintro b ⟨h1, h2⟩ ⟨h3, h4⟩
  dsimp only at h3 h4
  omega

theorem addEntry_laid {blockBuf : Mem} {ent : GptEntry} {seen : Nat} (h : Laid hdr seen hdi) (hseen : seen < 2 ^ 32 - 1)
    (hlast : hdr.lastUsableLba < u64 - 1) (hadd : addEntry d hdr blockBuf ent hdi = some hdi') :
    Laid hdr (if isZeroGuid ent.typeGuid then seen else seen + 1) hdi' := by
  unfold addEntry at hadd
  split at hadd
  case isTrue hzero =>
    cases hadd
    rwa [if_pos hzero]
  case isFalse hzero =>
    rw [if_neg hzero]
    split at hadd
    · cases hadd
    split at hadd
    · cases hadd
    dsimp only at hadd
    split at hadd
    · cases hadd
    split at hadd
    · cases hadd
    rename_i hle husable hmax hany
    have hlen : (ent.lastLba - ent.firstLba + 1) % u64 = ent.lastLba - ent.firstLba + 1 :=
      Nat.mod_eq_of_lt (by omega)
    rw [hlen] at hadd
    unfold HDInfo.appendPart at hadd
    split at hadd
    case isTrue hroom =>
      -- the slice is recorded
      rw [if_pos rfl] at hadd
      cases hadd
      refine ⟨fun s hs => ?_, fun s hs => ?_, ?_, ?_⟩
      · rcases List.mem_append.mp hs with hs | hs
        · exact h.length_pos s hs
        · rw [List.mem_singleton.mp hs]
          exact Nat.succ_pos _
      · rcases List.mem_append.mp hs with hs | hs
        · exact h.usable s hs
        · rw [List.mem_singleton.mp hs]
          rintro b ⟨h1, h2⟩
          dsimp only at h1 h2
          exact ⟨by omega, by omega⟩
      · refine List.pairwise_append.mpr ⟨h.disjoint, List.pairwise_singleton _ _, fun s hs t ht => ?_⟩
        rw [List.mem_singleton.mp ht]
        have hmeets : meets ent s = false := by
          cases hm : meets ent s with
          | false => rfl
          | true => exact absurd (List.any_eq_true.mpr ⟨s, hs, hm⟩) hany
        have hend := h.end_lt hs
        exact disjoint_of_meets hmeets (h.length_pos s hs) (by omega) (by omega)
      · have hcount := h.count
        unfold HDInfo.partCount at *
        rw [List.length_append, List.length_singleton]
        dsimp only
        omega
    case isFalse hroom =>
      rw [if_neg Bool.false_ne_true] at hadd
      cases hadd
      refine ⟨h.length_pos, h.usable, h.disjoint, ?_⟩
      have hcount := h.count
      unfold HDInfo.partCount at *
      dsimp only
      rw [Nat.mod_eq_of_lt (by omega)]
      omega

/-- The number of entries among the first `k` whose type is not zero. -/
def usedEntries (m : Mem) (size k : Nat) : Nat :=
  (List.range k).countP fun i => !isZeroGuid (GptEntry.ofBytes m (i * size)).typeGuid

theorem usedEntries_succ (m : Mem) (size k : Nat) : usedEntries m size (k + 1) =
    if isZeroGuid (GptEntry.ofBytes m (k * size)).typeGuid then usedEntries m size k
    else usedEntries m size k + 1 := by
  unfold usedEntries
  rw [List.range_succ, List.countP_append, List.countP_singleton]
  cases isZeroGuid (GptEntry.ofBytes m (k * size)).typeGuid <;> rfl

theorem usedEntries_le (m : Mem) (size k : Nat) : usedEntries m size k ≤ k := by
  unfold usedEntries
  exact Nat.le_trans List.countP_le_length (Nat.le_of_eq List.length_range)

theorem addEntries_laid {blockBuf entryBuf : Mem}
    (hlast : hdr.lastUsableLba < u64 - 1) : ∀ (n i : Nat) {hdi hdi' : HDInfo}, i + n < 2 ^ 32 →
      Laid hdr (usedEntries entryBuf hdr.sizeOfPartitionEntry i) hdi →
      addEntries d hdr blockBuf entryBuf n i hdi = (true, hdi') →
      Laid hdr (usedEntries entryBuf hdr.sizeOfPartitionEntry (i + n)) hdi'
  | 0, i, hdi, hdi', _, h, hadd => by
    cases hadd
    exact h
  | n + 1, i, hdi, hdi', hn, h, hadd => by
    rw [addEntries] at hadd
    cases hentry : addEntry d hdr blockBuf
        (.ofBytes entryBuf (i * hdr.sizeOfPartitionEntry)) hdi with
    | none =>
      rw [hentry] at hadd
      cases hadd
    | some hdi₁ =>
      rw [hentry] at hadd
      have hle := usedEntries_le entryBuf hdr.sizeOfPartitionEntry i
      have hstep := addEntry_laid h (by omega) hlast hentry
      rw [← usedEntries_succ] at hstep
      rw [show i + (n + 1) = i + 1 + n by omega]
      exact addEntries_laid hlast n (i + 1) (by omega) hstep hadd

theorem usedEntries_congr {size k : Nat} (hsize : GptEntry.size ≤ size)
    (h : ∀ o < k * size, m' o = m o) : usedEntries m' size k = usedEntries m size k := by
  refine List.countP_congr fun i hi => ?_
  have hik : (i + 1) * size ≤ k * size := Nat.mul_le_mul_right _ (List.mem_range.mp hi)
  rw [Nat.succ_mul] at hik
  rw [GptEntry.ofBytes_congr fun o _ ho => h o (by omega)]

/-! ## Loading -/

theorem validateGptHeader_spec {alt last blockSize : Nat}
    (h : validateGptHeader hdr lba alt last blockSize buf = true) :
    hdr.headerSize ≤ blockSize ∧ GptEntry.size ≤ hdr.sizeOfPartitionEntry ∧
      hdr.lastUsableLba ≤ last ∧ crc32 (writeLE buf 16 4 0) hdr.headerSize = hdr.headerCrc32 := by
  unfold validateGptHeader at h
  simp only [Bool.if_false_left, Bool.and_eq_true, Bool.not_eq_true', decide_eq_false_iff_not,
    beq_iff_eq, not_or, Nat.not_lt, gt_iff_lt] at h
  obtain ⟨-, ⟨-, hsize⟩, -, -, -, hentry, -, -, -, -, -, -, ⟨-, hlast⟩, hcrc⟩ := h
  exact ⟨hsize, hentry, hlast, hcrc⟩

/-- The table of a disk comes from the header in a block and its entry array. -/
structure Loaded (d : Storage) (hdi : HDInfo) (lba : Nat) (hdr : GptHeader) : Prop where
  header : hdr = GptHeader.ofBytes (d.block lba)
  header_crc : crc32 (writeLE (d.block lba) 16 4 0) hdr.headerSize = hdr.headerCrc32
  array_crc : crc32 (entryArray d hdr)
    (hdr.numberOfPartitionEntries * hdr.sizeOfPartitionEntry) = hdr.partitionEntryArrayCrc32
  last_lt : hdr.lastUsableLba < d.units
  laid : Laid hdr (usedEntries (entryArray d hdr) hdr.sizeOfPartitionEntry
    hdr.numberOfPartitionEntries) hdi

theorem le_blocks_mul {bytes block : Nat} (hpos : 0 < block) :
    bytes ≤ (bytes + block - 1) / block * block := by
  have hsum := Nat.div_add_mod (bytes + block - 1) block
  have hlt := Nat.mod_lt (bytes + block - 1) hpos
  rw [Nat.mul_comm] at hsum
  omega

theorem loadGpt_loaded
    {kind : PartitionSchemeKind} (hnumber : hdr.numberOfPartitionEntries < 2 ^ 32)
    (hsize : hdr.sizeOfPartitionEntry < 2 ^ 32) (hentry : GptEntry.size ≤ hdr.sizeOfPartitionEntry)
    (hlast : hdr.lastUsableLba < u64 - 1) (h : loadGpt d hdi buf fresh hdr kind = (true, hdi')) :
    crc32 (entryArray d hdr) (hdr.numberOfPartitionEntries * hdr.sizeOfPartitionEntry) =
        hdr.partitionEntryArrayCrc32 ∧
      Laid hdr (usedEntries (entryArray d hdr) hdr.sizeOfPartitionEntry
        hdr.numberOfPartitionEntries) hdi' := by
  have hmul : hdr.numberOfPartitionEntries * hdr.sizeOfPartitionEntry < 2 ^ 32 * 2 ^ 32 :=
    Nat.mul_lt_mul'' hnumber hsize
  have hbytes : hdr.numberOfPartitionEntries * hdr.sizeOfPartitionEntry % u64 =
      hdr.numberOfPartitionEntries * hdr.sizeOfPartitionEntry := Nat.mod_eq_of_lt hmul
  unfold loadGpt at h
  rw [hbytes] at h
  dsimp only at h
  split at h
  · cases h
  rename_i hmax
  have hblock := d.bytes_le
  have hpos := d.bytes_pos
  have hblocks := @le_blocks_mul (hdr.numberOfPartitionEntries * hdr.sizeOfPartitionEntry) _ hpos
  rw [Nat.mod_eq_of_lt (by unfold u64 maxStduint at *; omega)] at h
  split at h
  · cases h
  rename_i b entryBuf hread
  have hagree := readEntryBlocks_spec d hdr _ _ 0 hread fun o ho => absurd ho (by omega)
  rw [Nat.zero_add] at hagree
  have harray : ∀ o < hdr.numberOfPartitionEntries * hdr.sizeOfPartitionEntry,
      entryBuf o = entryArray d hdr o := fun o ho => hagree o (Nat.lt_of_lt_of_le ho hblocks) ho
  rw [crc32_congr harray] at h
  split at h
  · cases h
  rename_i hcrc
  have hadded := addEntries_laid hlast _ 0 (by omega) (laid_reset hdr _) h
  rw [Nat.zero_add, usedEntries_congr hentry harray] at hadded
  exact ⟨Decidable.not_not.mp hcrc, hadded⟩

theorem tryGpt_loaded {alt : Nat}
    {kind : PartitionSchemeKind} (hmbr : 92 ≤ d.bytes) (hunits : d.units ≠ 0)
    (h : tryGpt d hdi buf fresh lba alt (d.units - 1) kind = (true, hdi')) :
    ∃ hdr, Loaded d hdi' lba hdr := by
  unfold tryGpt at h
  split at h
  · cases h
  rename_i block hread
  have hbytes := readBlock_spec hread
  have hhdr := GptHeader.ofBytes_congr fun o ho => hbytes o (Nat.lt_of_lt_of_le ho hmbr)
  rw [hhdr] at h
  dsimp only at h
  split at h
  swap
  · cases h
  rename_i hvalid
  obtain ⟨hheader, hentry, hlast, hcrc⟩ := validateGptHeader_spec hvalid
  have hunitsLt := d.units_lt
  obtain ⟨harray, hlaid⟩ := loadGpt_loaded (readLE_lt _ _ _) (readLE_lt _ _ _) hentry (by omega) h
  refine ⟨_, rfl, ?_, harray, by omega, hlaid⟩
  rw [← hcrc]
  refine crc32_congr fun o ho => ?_
  unfold writeLE
  rw [hbytes o (Nat.lt_of_lt_of_le ho hheader)]

/-- A table that is loaded comes from block 1 or from the last block. -/
theorem loadGPTPartitions_loaded
    (h : loadGPTPartitions d hdi buf fresh = (true, hdi')) :
    ∃ lba hdr, (lba = 1 ∨ lba = d.units - 1) ∧ Loaded d hdi' lba hdr := by
  unfold loadGPTPartitions at h
  split at h
  · cases h
  rename_i hunits
  dsimp only at h
  split at h
  · cases h
  rename_i block _
  split at h
  swap
  · cases h
  rename_i hmbr
  have hbytes : 92 ≤ d.bytes := by
    unfold isProtectiveMbr at hmbr
    split at hmbr
    · cases hmbr
    · omega
  cases hfirst : tryGpt d hdi block fresh 1 (d.units - 1) (d.units - 1) .gpt with
  | mk ok hdi₁ =>
    rw [hfirst] at h
    cases ok with
    | true =>
      cases h
      obtain ⟨hdr, hloaded⟩ := tryGpt_loaded hbytes hunits hfirst
      exact ⟨1, hdr, Or.inl rfl, hloaded⟩
    | false =>
      obtain ⟨hdr, hloaded⟩ := tryGpt_loaded hbytes hunits h
      exact ⟨d.units - 1, hdr, Or.inr rfl, hloaded⟩

/-! ## Partitions -/

namespace DiscPartition

/-- A partition of the disk with the table `hdi`, before or after its first use. -/
def On (p : DiscPartition) (hdi : HDInfo) (dev : Nat) : Prop :=
  p.device = dev ∧ (p.slice = .zero ∨ p.slice = hdi.getPartitionSlice dev)

theorem on_new (hdi : HDInfo) (dev : Nat) : (new dev).On hdi dev := ⟨rfl, Or.inl rfl⟩

theorem On.renewed {p : DiscPartition} {hdi : HDInfo} {dev : Nat} (h : p.On hdi dev)
    (hlen : 0 < (hdi.getPartitionSlice dev).length) :
    p.renewed hdi = ⟨dev, hdi.getPartitionSlice dev⟩ := by
  obtain ⟨device, slice⟩ := p
  obtain ⟨hdev, hslice⟩ := h
  cases hdev
  unfold DiscPartition.renewed
  rcases hslice with hslice | hslice
  · cases hslice
    exact if_pos ⟨rfl, rfl⟩
  · have hzero : ¬(slice.address = 0 ∧ slice.length = 0) := fun hzero =>
      Nat.ne_of_gt hlen (hslice ▸ hzero.2)
    exact (if_neg hzero).trans (by rw [← hslice])

/-- Some blocks from `iden` on are in the slice, where it does not go beyond the
address space, if and only if the last of them is. -/
theorem inside_iff {s : PartitionSlice} {iden times : Nat} (hend : s.address + s.length ≤ u64)
    (hiden : iden < u64) :
    (∀ b ∈ List.range' ((iden + s.address) % u64) times, b ∈ s.blocks) ↔
      times = 0 ∨ iden + times ≤ s.length := by
  constructor
  · intro hall
    by_cases hzero : times = 0
    · exact Or.inl hzero
    have hfirst := hall _ (List.mem_range'_1.mpr ⟨Nat.le_refl _, by omega⟩)
    have hlast := hall ((iden + s.address) % u64 + (times - 1))
      (List.mem_range'_1.mpr ⟨by omega, by omega⟩)
    have hlow : s.address ≤ (iden + s.address) % u64 := hfirst.1
    have hhigh : (iden + s.address) % u64 + (times - 1) < s.address + s.length := hlast.2
    by_cases hwrap : iden + s.address < u64
    · rw [Nat.mod_eq_of_lt hwrap] at hhigh
      omega
    · rw [Nat.mod_eq_sub_mod (Nat.le_of_not_lt hwrap), Nat.mod_eq_of_lt (by omega)] at hlow
      omega
  · rintro (rfl | hin) b hb
    · exact absurd hb List.not_mem_nil
    · obtain ⟨h1, h2⟩ := List.mem_range'_1.mp hb
      have hlt : iden + s.address < u64 := by omega
      rw [Nat.mod_eq_of_lt hlt] at h1 h2
      exact ⟨by omega, by omega⟩

end DiscPartition

theorem HDInfo.getPartitionSlice_mem {hdi : HDInfo} {dev : Nat} (hpos : 1 ≤ dev)
    (hle : dev ≤ hdi.partCount) : hdi.getPartitionSlice dev ∈ hdi.parts := by
  unfold HDInfo.getPartitionSlice
  have hlt : dev - 1 < hdi.parts.length := by
    unfold HDInfo.partCount at hle
    omega
  rw [if_neg (by omega), if_pos hle, List.getD_eq_getElem?_getD, List.getElem?_eq_getElem hlt]
  exact List.getElem_mem _

/-- The slices of a table that is loaded are those of the disk, and an access to
a partition stays in its slice if and only if the disk refuses it or its blocks
end where the slice does. -/
theorem partitions_isolated {d : Storage} {hdi hdi' : HDInfo} {buf fresh : Mem}
    (h : loadGPTPartitions d hdi buf fresh = (true, hdi')) :
    (∃ lba hdr, (lba = 1 ∨ lba = d.units - 1) ∧ Loaded d hdi' lba hdr ∧
      (∀ s ∈ hdi'.parts, s.blocks ⊆ Set.Iio d.units) ∧ hdi'.partCount ≤ maxPartitions) ∧
    ∀ dev, 1 ≤ dev → dev ≤ hdi'.partCount → ∀ p : DiscPartition, p.On hdi' dev →
      ∀ iden < u64, ∀ (times : Nat) (m : Mem),
        let s := hdi'.getPartitionSlice dev
        ((∀ r l, (p.read d hdi' iden times m).1 = some (r, l) → ∀ b ∈ l, b ∈ s.blocks) ↔
          d.readFails ((iden + s.address) % u64) times = true ∨ times = 0 ∨
            iden + times ≤ s.length) ∧
        ((∀ r l, (p.write d hdi' iden times m).1 = some (r, l) → ∀ b ∈ l, b ∈ s.blocks) ↔
          d.writeFails ((iden + s.address) % u64) times = true ∨ times = 0 ∨
            iden + times ≤ s.length) ∧
        (p.read d hdi' iden times m).2.On hdi' dev ∧
        (p.write d hdi' iden times m).2.On hdi' dev := by
  obtain ⟨lba, hdr, hlba, hloaded⟩ := loadGPTPartitions_loaded h
  have hunits := d.units_lt
  refine ⟨⟨lba, hdr, hlba, hloaded, fun s hs b hb => ?_, hdi'.parts_le⟩, ?_⟩
  · exact Nat.lt_of_le_of_lt (hloaded.laid.usable s hs hb).2 hloaded.last_lt
  intro dev hpos hle p hp iden hiden times m
  have hmem := HDInfo.getPartitionSlice_mem hpos hle
  have hend := hloaded.laid.end_lt hmem
  have hlast := hloaded.last_lt
  have hinside := @DiscPartition.inside_iff (hdi'.getPartitionSlice dev) iden times (by omega) hiden
  have hrenewed := hp.renewed (hloaded.laid.length_pos _ hmem)
  dsimp only
  unfold DiscPartition.read DiscPartition.write
  rw [hrenewed]
  dsimp only
  refine ⟨?_, ?_, ⟨rfl, Or.inr rfl⟩, ⟨rfl, Or.inr rfl⟩⟩
  · rw [← hinside]
    unfold Storage.read
    cases d.readFails ((iden + (hdi'.getPartitionSlice dev).address) % u64) times with
    | true => exact ⟨fun _ => Or.inl rfl, fun _ r l hr => by cases hr⟩
    | false =>
        refine ⟨fun hall => Or.inr (hall _ _ rfl), fun hin r l hr => ?_⟩
        cases hr
        rcases hin with hin | hin
        · cases hin
        · exact hin
  · rw [← hinside]
    unfold Storage.write
    cases d.writeFails ((iden + (hdi'.getPartitionSlice dev).address) % u64) times with
    | true => exact ⟨fun _ => Or.inl rfl, fun _ r l hr => by cases hr⟩
    | false =>
        refine ⟨fun hall => Or.inr (hall _ _ rfl), fun hin r l hr => ?_⟩
        cases hr
        rcases hin with hin | hin
        · cases hin
        · exact hin

/-- A block of zeros but for numbers, each with its offset and its bytes. -/
def blockOf (fields : List (Nat × Nat × Nat)) : Mem :=
  fields.foldl (fun m f => writeLE m f.1 f.2.1 f.2.2) fun _ => 0

/-- A disk with the partitions 10–19 and 20–29. -/
def twoPartitions : Storage where
  blockSize := 512
  units := 100
  block
    | 0 => blockOf [(0x1BE + 4, 1, 0xEE), (510, 2, 0xAA55)]
    | 1 => blockOf [(0, 8, 0x5452415020494645), (12, 4, 92), (16, 4, 1479728821), (24, 8, 1),
        (32, 8, 99), (40, 8, 3), (48, 8, 98), (72, 8, 2), (80, 4, 2), (84, 4, 128),
        (88, 4, 1127477666)]
    | 2 => blockOf [(0, 1, 1), (32, 8, 10), (40, 8, 19), (128, 1, 1), (160, 8, 20), (168, 8, 29)]
    | _ => blockOf []
  readFails := fun _ _ => false
  writeFails := fun _ _ => false
  units_lt := by decide
  blockSize_le := by decide

/-- A table before the first load. -/
def noParts : HDInfo where
  wholeDisk := .zero
  schemeKind := .unknown
  partOverflow := 0
  parts := []
  gptMeta := fun _ => .zero
  parts_le := Nat.zero_le _

/-- The table of `twoPartitions`. -/
def twoParts : HDInfo := (loadGPTPartitions twoPartitions noParts (blockOf []) (blockOf [])).2

theorem twoParts_loaded :
    (loadGPTPartitions twoPartitions noParts (blockOf []) (blockOf [])).1 = true ∧
    twoParts.parts = [⟨10, 10, .none⟩, ⟨20, 10, .none⟩] := by decide +kernel

theorem twoParts_slices : twoParts.getPartitionSlice 1 = ⟨10, 10, .none⟩ ∧
    twoParts.getPartitionSlice 2 = ⟨20, 10, .none⟩ := by
  unfold HDInfo.getPartitionSlice HDInfo.partCount
  rw [twoParts_loaded.2]
  exact ⟨rfl, rfl⟩

/-- All blocks of the first of two partitions. -/
theorem partitions_isolated_two : 1 ≤ twoParts.partCount ∧ ∀ r l,
    ((DiscPartition.new 1).read twoPartitions twoParts 0 10 (blockOf [])).1 = some (r, l) →
      ∀ b ∈ l, b ∈ (twoParts.getPartitionSlice 1).blocks := by
  have hload : loadGPTPartitions twoPartitions noParts (blockOf []) (blockOf []) =
      (true, twoParts) := by
    rw [← twoParts_loaded.1]
    exact Prod.mk.eta.symm
  have hcount : 1 ≤ twoParts.partCount := by
    unfold HDInfo.partCount
    rw [twoParts_loaded.2]
    decide
  have hroom : 0 + 10 ≤ (twoParts.getPartitionSlice 1).length := by
    rw [twoParts_slices.1]
  have haccess := (partitions_isolated hload).2 1 (Nat.le_refl 1) hcount (.new 1)
    (DiscPartition.on_new twoParts 1) 0 (Nat.pow_pos (by decide)) 10
    (blockOf [])
  exact ⟨hcount, haccess.1.mpr (Or.inr (Or.inr hroom))⟩

/-- Block 10 of the first partition is the first block of the second. -/
theorem partition_reaches_next :
    (loadGPTPartitions twoPartitions noParts (blockOf []) (blockOf [])).1 = true ∧
    ((DiscPartition.new 1).read twoPartitions twoParts 10 1 (blockOf [])).1.map Prod.snd =
      some [20] ∧
    ((DiscPartition.new 1).write twoPartitions twoParts 10 1 (blockOf [])).1.map Prod.snd =
      some [20] ∧
    20 ∉ (twoParts.getPartitionSlice 1).blocks ∧ 20 ∈ (twoParts.getPartitionSlice 2).blocks := by
  obtain ⟨hfirst, hsecond⟩ := twoParts_slices
  have hrenewed : (DiscPartition.new 1).renewed twoParts = ⟨1, ⟨10, 10, .none⟩⟩ := by
    unfold DiscPartition.renewed
    rw [if_pos ⟨rfl, rfl⟩]
    exact congrArg _ hfirst
  refine ⟨twoParts_loaded.1, ?_, ?_, ?_, ?_⟩
  · unfold DiscPartition.read
    rw [hrenewed]
    rfl
  · unfold DiscPartition.write
    rw [hrenewed]
    rfl
  · rw [hfirst]
    exact fun h => absurd h.2 (Nat.lt_irrefl 20)
  · rw [hsecond]
    exact ⟨Nat.le_refl 20, Nat.lt_add_of_pos_right (by decide)⟩

/-! ## Altered disks -/

theorem getLsbD_crcBit (c : UInt32) (i : Nat) : (crcBit c).toBitVec.getLsbD i =
    (c.toBitVec.getLsbD (i + 1) ^^ ((0xEDB88320 : BitVec 32).getLsbD i && c.toBitVec.getLsbD 0)) := by
  have hmask : (0 - (c &&& 1)).toBitVec = -(c.toBitVec &&& 1#32) := by simp
  unfold crcBit
  rw [UInt32.toBitVec_xor, UInt32.toBitVec_and, hmask, BitVec.and_one_eq_setWidth_ofBool_getLsbD]
  cases c.toBitVec.getLsbD 0 <;> simp [Nat.add_comm]

theorem crcBit_injective : Injective crcBit := by
  intro c c' h
  have hbit : ∀ i, (crcBit c).toBitVec.getLsbD i = (crcBit c').toBitVec.getLsbD i := fun i => by rw [h]
  simp only [getLsbD_crcBit] at hbit
  -- The highest bit of the polynomial shows the bit that is shifted out.
  have hlow : c.toBitVec.getLsbD 0 = c'.toBitVec.getLsbD 0 := by simpa using hbit 31
  refine UInt32.toBitVec_inj.mp (BitVec.eq_of_getLsbD_eq fun i _ => ?_)
  cases i with
  | zero => exact hlow
  | succ i =>
    have hi := hbit i
    rw [hlow] at hi
    exact Bool.xor_left_inj.mp hi

theorem crcBits_injective : ∀ n, Injective (crcBits n)
  | 0 => injective_id
  | n + 1 => (crcBits_injective n).comp crcBit_injective

theorem crcBytes_injective (m : Mem) : ∀ n i, Injective (crcBytes m n i)
  | 0, _ => injective_id
  | n + 1, i => fun _ _ h =>
    (UInt32.xor_left_inj _).mp (crcBits_injective 8 (crcBytes_injective m n (i + 1) h))

/-- One byte that was altered alters the register. -/
theorem crcBytes_altered {k : Nat} : ∀ {n i : Nat} (crc : UInt32), i ≤ k → k < i + n →
    (∀ o, i ≤ o → o < i + n → o ≠ k → m' o = m o) → crcBytes m' n i crc = crcBytes m n i crc → m' k = m k
  | 0, _, _, _, _, _, _ => by omega
  | n + 1, i, crc, hi, hk, h, heq => by
    rw [crcBytes, crcBytes] at heq
    by_cases hik : i = k
    · subst hik
      rw [crcBytes_congr _ fun o ho hn => h o (by omega) (by omega) (by omega)] at heq
      have hbyte := (UInt32.xor_right_inj _).mp (crcBits_injective 8 (crcBytes_injective m n _ heq))
      simpa using congrArg UInt32.toUInt8 hbyte
    · rw [h i (Nat.le_refl i) (by omega) hik] at heq
      exact crcBytes_altered _ (by omega) (by omega) (fun o ho hn => h o (by omega) (by omega)) heq

theorem crc32_altered {k size : Nat} (hk : k < size) (h : ∀ o < size, o ≠ k → m' o = m o)
    (heq : crc32 m' size = crc32 m size) : m' k = m k :=
  crcBytes_altered _ (Nat.zero_le k) (by omega) (fun o _ ho => h o (by omega))
    (UInt32.not_inj.mp (UInt32.toNat_inj.mp heq))

/-- The disks differ in one byte under a checksum: of the header in a block, but for its size and its checksum, or
of the entries. -/
def DifferInByte (d d' : Storage) (lba : Nat) : Prop :=
  let hdr := GptHeader.ofBytes (d.block lba)
  let entryBytes := hdr.numberOfPartitionEntries * hdr.sizeOfPartitionEntry
  (∃ k < hdr.headerSize, (k < 12 ∨ 20 ≤ k) ∧ d'.block lba k ≠ d.block lba k ∧
      ∀ o ≠ k, d'.block lba o = d.block lba o) ∨
    (d'.block lba = d.block lba ∧ ∃ k < entryBytes, entryArray d' hdr k ≠ entryArray d hdr k ∧
      ∀ o < entryBytes, o ≠ k → entryArray d' hdr o = entryArray d hdr o)

/-- Where a table is loaded, none is once a byte under a checksum is another. -/
theorem tryGpt_altered {d' : Storage} {alt alt' : Nat} {kind kind' : PartitionSchemeKind} {hdi₁ : HDInfo}
    {buf₁ fresh₁ : Mem} (hmbr : 92 ≤ d.bytes) (hmbr' : 92 ≤ d'.bytes) (hunits : d.units ≠ 0)
    (hunits' : d'.units ≠ 0) (h : (tryGpt d hdi buf fresh lba alt (d.units - 1) kind).1 = true)
    (hd : DifferInByte d d' lba) :
    (tryGpt d' hdi₁ buf₁ fresh₁ lba alt' (d'.units - 1) kind').1 = false := by
  refine Bool.eq_false_iff.mpr fun h' => ?_
  obtain ⟨_, rfl, hcrc, harray, -⟩ := tryGpt_loaded hmbr hunits (Prod.ext_iff.mpr ⟨h, rfl⟩)
  obtain ⟨_, rfl, hcrc', harray', -⟩ := tryGpt_loaded hmbr' hunits' (Prod.ext_iff.mpr ⟨h', rfl⟩)
  rcases hd with ⟨k, hlt, hfield, hne, hsame⟩ | ⟨hblock, k, hlt, hne, hsame⟩
  · have hread : ∀ a, a = 12 ∨ a = 16 → readLE (d'.block lba) a 4 = readLE (d.block lba) a 4 :=
      fun a ha => readLE_agree fun o _ _ => hsame o (by omega)
    simp only [GptHeader.ofBytes, hread _ (Or.inl rfl), hread _ (Or.inr rfl)] at hcrc hcrc' hlt
    refine hne ?_
    have hk := crc32_altered hlt (fun o _ ho => ?_) (hcrc'.trans hcrc.symm)
    · unfold writeLE at hk
      rwa [if_neg (by omega), if_neg (by omega)] at hk
    · unfold writeLE
      rw [hsame o ho]
  · rw [hblock] at harray'
    exact hne (crc32_altered hlt hsame (harray'.trans harray.symm))

/-- A byte of the identifier of the disk. -/
theorem tryGpt_altered_two :
    (tryGpt { twoPartitions with block := update twoPartitions.block 1 (update (twoPartitions.block 1) 56 7) }
      noParts (blockOf []) (blockOf []) 1 99 99 .gpt).1 = false := by
  have h : (tryGpt twoPartitions noParts (blockOf []) (blockOf []) 1 99 99 .gpt).1 = true := by decide +kernel
  exact tryGpt_altered (by decide) (by decide) (by decide) (by decide) h
    (Or.inl ⟨56, by decide, Or.inr (by decide), by decide, fun o ho => update_of_ne ho ..⟩)

end Unisym.Device
