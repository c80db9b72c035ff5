/-
# `MemCopyP` — copying through two page tables

`MemCopyP` copies chunk by chunk: a chunk ends where the page of either side
ends, and each side is translated once for it.  The page tables are in the
memory that is copied in, as bytes.

An `Arch` is what a build says about its page entries; the six builds are
`x86`, `x64`, `riscv32`, `riscv64`, `arm32` and `arm64`.  A walk reads the bytes
`walkBytes` and no others (`walk_congr`), and goes the same way for all addresses
of the page it ends in (`walk_page`).

`memCopyP_exact`: as long as the bytes that are written are not in the page
tables, the copy is that of `copyEach`, which translates every byte by itself.
-/
import Unisym.Library.ByteMem
import Unisym.Paging.Entry

namespace Unisym.Paging

open Function

/-! ## The builds -/

/-- The page entries of a build: `sizeof(stduint)` in bits, `PAGE_LEVELS` less one,
`VPN_SHIFTS`, `PAGE_ENTRY_COUNTS`, and the methods of `PageEntry` on its raw word and the
level. -/
structure Arch where
  bits : Nat
  rootLevel : Nat
  vpnShift : Nat → Nat
  entryCount : Nat → Nat
  isPresent : Nat → Bool
  isLeaf : Nat → Nat → Bool
  isTable : Nat → Nat → Bool
  getAddress : Nat → Nat → Nat
  shift_le_succ : ∀ level < rootLevel, vpnShift level ≤ vpnShift (level + 1)
  shift_le_bits : ∀ level ≤ rootLevel, vpnShift level ≤ bits

/-- The builds of `Target`. -/
def Target.arch (t : Target) : Arch where
  bits := t.bits
  rootLevel := t.rootLevel
  vpnShift := t.vpnShift
  entryCount := fun _ => t.entryCount
  isPresent := PageEntry.isPresent
  isLeaf := PageEntry.isLeaf t
  isTable := PageEntry.isTable
  getAddress := PageEntry.getAddress t
  shift_le_succ := by cases t <;> decide
  shift_le_bits := by cases t <;> decide

namespace Arch

/-- Bits `k` to `k + n - 1` of a word. -/
def field (raw k n : Nat) : Nat := raw / 2 ^ k % 2 ^ n

/-- Bit `k` of a word. -/
def bit (raw k : Nat) : Bool := field raw k 1 == 1

/-- `valid`, and not writable without readable. -/
def riscvPresent (raw : Nat) : Bool := bit raw 0 && !(bit raw 2 && !bit raw 1)

/-- `read || writable || execute` -/
def riscvMapped (raw : Nat) : Bool := bit raw 1 || bit raw 2 || bit raw 3

/-- `_ARC_RISCV_32` -/
def riscv32 : Arch where
  bits := 32
  rootLevel := 1
  vpnShift
    | 0 => 12
    | _ => 22
  entryCount := fun _ => 1024
  isPresent := riscvPresent
  isLeaf raw _ := riscvPresent raw && riscvMapped raw
  isTable raw level := level != 0 && riscvPresent raw && !riscvMapped raw
  getAddress raw _ := field raw 10 22 * 2 ^ 12 % 2 ^ 32
  shift_le_succ := by decide
  shift_le_bits := by decide

/-- `_ARC_RISCV_64` -/
def riscv64 : Arch where
  bits := 64
  rootLevel := 2
  vpnShift
    | 0 => 12
    | 1 => 21
    | _ => 30
  entryCount := fun _ => 512
  isPresent := riscvPresent
  isLeaf raw _ := riscvPresent raw && riscvMapped raw
  isTable raw level := level != 0 && riscvPresent raw && !riscvMapped raw
  getAddress raw _ := field raw 10 44 * 2 ^ 12 % 2 ^ 64
  shift_le_succ := by decide
  shift_le_bits := by decide

/-- `isHuge` of `_ARC_ARM_64`. -/
def arm64Huge (raw level : Nat) : Bool :=
  level != 0 && decide (level < 3) && bit raw 0 && !bit raw 1

/-- `_ARC_ARM_64` -/
def arm64 : Arch where
  bits := 64
  rootLevel := 3
  vpnShift
    | 0 => 12
    | 1 => 21
    | 2 => 30
    | _ => 39
  entryCount := fun _ => 512
  isPresent raw := bit raw 0
  isLeaf raw level := bit raw 0 && (if level ≠ 0 then arm64Huge raw level else bit raw 1)
  isTable raw level := level != 0 && bit raw 0 && bit raw 1
  getAddress raw level :=
    if level = 0 then field raw 12 36 * 2 ^ 12
    else if arm64Huge raw level ∧ level = 1 then field raw 21 27 * 2 ^ 21
    else if arm64Huge raw level ∧ level = 2 then field raw 30 18 * 2 ^ 30
    else field raw 12 36 * 2 ^ 12
  shift_le_succ := by decide
  shift_le_bits := by decide

/-- `isHuge` of `_ARC_ARM_32`. -/
def arm32Huge (raw level : Nat) : Bool := level == 1 && field raw 0 2 == 2 && !bit raw 18

/-- `_ARC_ARM_32` -/
def arm32 : Arch where
  bits := 32
  rootLevel := 1
  vpnShift
    | 0 => 12
    | _ => 20
  entryCount
    | 0 => 256
    | _ => 4096
  isPresent raw := field raw 0 2 != 0
  isLeaf raw level := if level ≠ 0 then arm32Huge raw level else field raw 0 2 != 0 && bit raw 1
  isTable raw level := level == 1 && field raw 0 2 == 1
  getAddress raw level :=
    if level = 0 then field raw 12 20 * 2 ^ 12
    else if arm32Huge raw level then field raw 20 12 * 2 ^ 20
    else field raw 10 22 * 2 ^ 10
  shift_le_succ := by decide
  shift_le_bits := by decide

/-! ## The walk -/

variable (b : Arch)

/-- `sizeof(PageEntry)` -/
def entrySize : Nat := b.bits / 8

def getVPN (address level : Nat) : Nat := address / 2 ^ b.vpnShift level % b.entryCount level

/-- `&table[getVPN(address, level)]` -/
def entryAt (table address level : Nat) : Nat :=
  (table + b.getVPN address level * b.entrySize) % 2 ^ b.bits

/-- `entry->raw` -/
def raw (m : Mem) (entry : Nat) : Nat := m.readLE entry b.entrySize

/-- `Paging::Walk` to level 0 from a table of the level: the entry it stops at and its
level. -/
def walk (m : Mem) (address : Nat) : (level table : Nat) → Option (Nat × Nat)
  | level, table =>
      let entry := b.entryAt table address level
      if !b.isPresent (b.raw m entry) || b.isLeaf (b.raw m entry) level || level == 0 then
        some (entry, level)
      else if !b.isTable (b.raw m entry) level then none
      else
        match level with
        | 0 => none
        | below + 1 =>
            walk m address below (b.getAddress (b.raw m entry) (below + 1) % 2 ^ b.bits)

def getEntry (m : Mem) (root address : Nat) : Option (Nat × Nat) :=
  if root = 0 then none
  else
    match b.walk m address b.rootLevel root with
    | none => none
    | some (entry, level) => if b.isLeaf (b.raw m entry) level then some (entry, level) else none

/-- `pg[address]`, where a null root means raw physical addresses; `none` where the page
is not mapped. -/
def translate (m : Mem) (root address : Nat) : Option Nat :=
  if root = 0 then some address
  else
    match b.getEntry m root address with
    | none => none
    | some (entry, level) =>
        some ((b.getAddress (b.raw m entry) level + address % 2 ^ b.vpnShift level) % 2 ^ b.bits)

/-! ## `MemCopyP` -/

def memCopyN : (n dest sors : Nat) → Mem → Mem
  | 0, _, _, m => m
  | n + 1, dest, sors, m =>
      memCopyN n ((dest + 1) % 2 ^ b.bits) ((sors + 1) % 2 ^ b.bits) (update m dest (m sors))

/-- One side of a round: the physical address, and `unit` cut off at the end of the
page. -/
def side (m : Mem) (root address unit : Nat) : Option (Nat × Nat) :=
  if root ≠ 0 then
    match b.getEntry m root address with
    | none => none
    | some (entry, level) =>
        let shift := b.vpnShift level
        let offset := address % 2 ^ shift
        some ((b.getAddress (b.raw m entry) level + offset) % 2 ^ b.bits,
          min unit (2 ^ shift - offset))
  else some (address, unit)

/-- `while (length)` of `MemCopyP`; `fuel` bounds the rounds. -/
def copyLoop (pg_d pg_s : Nat) : (fuel dest sors length ret : Nat) → Mem → Option (Nat × Mem)
  | 0, _, _, _, _, _ => none
  | fuel + 1, dest, sors, length, ret, m =>
      if length = 0 then some (ret, m)
      else
        match b.side m pg_d dest length with
        | none => some (0, m)
        | some (phy_d, unit) =>
            match b.side m pg_s sors unit with
            | none => some (0, m)
            | some (phy_s, unit) =>
                copyLoop pg_d pg_s fuel ((dest + unit) % 2 ^ b.bits) ((sors + unit) % 2 ^ b.bits)
                  (length - unit) (ret + unit) (b.memCopyN unit phy_d phy_s m)

/-- `MemCopyP`: what it returns, and the memory. -/
def memCopyP (dest pg_d sors pg_s length : Nat) (m : Mem) : Option (Nat × Mem) :=
  b.copyLoop pg_d pg_s (length + 1) dest sors length 0 m

/-- Byte `i` from `pg_s[sors + i]` to `pg_d[dest + i]`, for `n` bytes in turn: what the copy
is for. -/
def copyEach (dest pg_d sors pg_s : Nat) : (n i : Nat) → Mem → Option Mem
  | 0, _, m => some m
  | n + 1, i, m =>
      match b.translate m pg_d ((dest + i) % 2 ^ b.bits),
          b.translate m pg_s ((sors + i) % 2 ^ b.bits) with
      | some d, some s => copyEach dest pg_d sors pg_s n (i + 1) (update m d (m s))
      | _, _ => none

/-! ## What a walk reads -/

/-- The bytes of the entries a walk looks at. -/
def walkBytes (m : Mem) (address : Nat) : (level table : Nat) → Set Nat
  | level, table =>
      let entry := b.entryAt table address level
      Set.Ico entry (entry + b.entrySize) ∪
        if !b.isPresent (b.raw m entry) || b.isLeaf (b.raw m entry) level ||
          !b.isTable (b.raw m entry) level then ∅
        else
          match level with
          | 0 => ∅
          | below + 1 =>
              walkBytes m address below (b.getAddress (b.raw m entry) (below + 1) % 2 ^ b.bits)

/-- The bytes a translation reads. -/
def tableBytes (m : Mem) (root address : Nat) : Set Nat :=
  if root = 0 then ∅ else b.walkBytes m address b.rootLevel root

variable {b : Arch} {m m' : Mem}

theorem raw_congr {entry : Nat} (h : Mem.AgreeOn (Set.Ico entry (entry + b.entrySize)) m m') :
    b.raw m' entry = b.raw m entry := Mem.readLE_congr h

theorem walk_congr (address : Nat) : ∀ (level table : Nat),
    Mem.AgreeOn (b.walkBytes m address level table) m m' →
    b.walk m' address level table = b.walk m address level table ∧
      ∀ r, b.walk m address level table = some r → b.raw m' r.1 = b.raw m r.1 := by
  intro level
  induction level with
  | zero =>
    intro table h
    have hraw : b.raw m' (b.entryAt table address 0) = b.raw m (b.entryAt table address 0) :=
      raw_congr (h.mono Set.subset_union_left)
    have hlast : ∀ m, b.walk m address 0 table = some (b.entryAt table address 0, 0) := by
      intro m
      rw [walk, if_pos (by simp)]
    refine ⟨by rw [hlast, hlast], fun r hr => ?_⟩
    rw [hlast] at hr
    obtain rfl := Option.some.inj hr
    exact hraw
  | succ level ih =>
    intro table h
    rw [walkBytes] at h
    have hraw : b.raw m' (b.entryAt table address (level + 1)) =
        b.raw m (b.entryAt table address (level + 1)) :=
      raw_congr (h.mono Set.subset_union_left)
    rw [walk, walk, hraw]
    split
    next =>
      refine ⟨rfl, fun r hr => ?_⟩
      obtain rfl := Option.some.inj hr
      exact hraw
    next hstop =>
      split
      next => exact ⟨rfl, fun r hr => by cases hr⟩
      next htable =>
        -- the walk goes on, and so do the bytes it reads
        have hgo : ¬(!b.isPresent (b.raw m (b.entryAt table address (level + 1))) ||
            b.isLeaf (b.raw m (b.entryAt table address (level + 1))) (level + 1) ||
            !b.isTable (b.raw m (b.entryAt table address (level + 1))) (level + 1)) = true := by
          simp only [Bool.or_eq_true, not_or] at hstop htable ⊢
          exact ⟨hstop.1, htable⟩
        rw [if_neg hgo] at h
        exact ih _ (h.mono Set.subset_union_right)

variable {root address unit : Nat}

section

variable (h : Mem.AgreeOn (b.tableBytes m root address) m m')
include h

theorem getEntry_congr : b.getEntry m' root address = b.getEntry m root address ∧
      ∀ r, b.getEntry m root address = some r → b.raw m' r.1 = b.raw m r.1 := by
  unfold getEntry
  by_cases hroot : root = 0
  · rw [if_pos hroot, if_pos hroot]
    exact ⟨rfl, fun r hr => by cases hr⟩
  · rw [tableBytes, if_neg hroot] at h
    obtain ⟨hwalk, hread⟩ := walk_congr address b.rootLevel root h
    rw [if_neg hroot, if_neg hroot, hwalk]
    cases hw : b.walk m address b.rootLevel root with
    | none => exact ⟨rfl, fun r hr => by cases hr⟩
    | some r =>
      obtain ⟨entry, level⟩ := r
      have hraw : b.raw m' entry = b.raw m entry := hread _ hw
      dsimp only
      rw [hraw]
      split
      next =>
        refine ⟨rfl, fun r hr => ?_⟩
        obtain rfl := Option.some.inj hr
        exact hraw
      next => exact ⟨rfl, fun r hr => by cases hr⟩

theorem translate_congr : b.translate m' root address = b.translate m root address := by
  obtain ⟨hentry, hread⟩ := getEntry_congr h
  unfold translate
  rw [hentry]
  split
  next => rfl
  next =>
    cases he : b.getEntry m root address with
    | none => rfl
    | some r =>
      obtain ⟨entry, level⟩ := r
      have hraw : b.raw m' entry = b.raw m entry := hread _ he
      dsimp only
      rw [hraw]

theorem side_congr : b.side m' root address unit = b.side m root address unit := by
  obtain ⟨hentry, hread⟩ := getEntry_congr h
  unfold side
  rw [hentry]
  split
  next =>
    cases he : b.getEntry m root address with
    | none => rfl
    | some r =>
      obtain ⟨entry, level⟩ := r
      have hraw : b.raw m' entry = b.raw m entry := hread _ he
      dsimp only
      rw [hraw]
  next => rfl

end

/-! ## Within a page -/

theorem shift_mono (b : Arch) {low : Nat} : ∀ {high : Nat}, low ≤ high → high ≤ b.rootLevel →
    b.vpnShift low ≤ b.vpnShift high := by
  intro high
  induction high with
  | zero =>
    intro hle _
    rw [Nat.le_zero.mp hle]
  | succ high ih =>
    intro hle hroot
    rcases Nat.lt_or_eq_of_le hle with hlt | heq
    · exact Nat.le_trans (ih (Nat.le_of_lt_succ hlt) (by omega)) (b.shift_le_succ high (by omega))
    · rw [heq]

theorem entryAt_page {table address' level leaf : Nat} (hleaf : leaf ≤ level)
    (hroot : level ≤ b.rootLevel)
    (hpage : address' / 2 ^ b.vpnShift leaf = address / 2 ^ b.vpnShift leaf) :
    b.entryAt table address' level = b.entryAt table address level := by
  have hshift : 2 ^ b.vpnShift level =
      2 ^ b.vpnShift leaf * 2 ^ (b.vpnShift level - b.vpnShift leaf) := by
    rw [← Nat.pow_add, Nat.add_sub_cancel' (b.shift_mono hleaf hroot)]
  rw [entryAt, entryAt, getVPN, getVPN, hshift, ← Nat.div_div_eq_div_mul, hpage,
    Nat.div_div_eq_div_mul]

/-- The walk is the same for all addresses of the page it ends in. -/
theorem walk_page {address' : Nat} : ∀ {level table : Nat} {r : Nat × Nat},
    level ≤ b.rootLevel → b.walk m address level table = some r →
    address' / 2 ^ b.vpnShift r.2 = address / 2 ^ b.vpnShift r.2 →
    r.2 ≤ level ∧ b.walk m address' level table = some r := by
  intro level
  induction level with
  | zero =>
    intro table r hroot hr hpage
    have hlast : ∀ address, b.walk m address 0 table = some (b.entryAt table address 0, 0) := by
      intro address
      rw [walk, if_pos (by simp)]
    rw [hlast] at hr ⊢
    obtain rfl := Option.some.inj hr
    exact ⟨Nat.le_refl 0, by rw [entryAt_page (Nat.le_refl 0) hroot hpage]⟩
  | succ level ih =>
    intro table r hroot hr hpage
    -- the walk ends at this level, or goes on below
    have hle : r.2 ≤ level + 1 := by
      rw [walk] at hr
      split at hr
      next =>
        obtain rfl := Option.some.inj hr
        exact Nat.le_refl _
      next =>
        split at hr
        next => cases hr
        next => exact Nat.le_succ_of_le (ih (by omega) hr hpage).1
    refine ⟨hle, ?_⟩
    rw [walk] at hr ⊢
    rw [entryAt_page hle hroot hpage]
    split at hr
    next hstop =>
      rw [if_pos hstop]
      exact hr
    next hstop =>
      rw [if_neg hstop]
      split at hr
      next => cases hr
      next htable =>
        rw [if_neg htable]
        exact (ih (by omega) hr hpage).2

theorem add_in_page {shift bits i : Nat} (haddress : address < 2 ^ bits)
    (hshift : shift ≤ bits) (hi : address % 2 ^ shift + i < 2 ^ shift) :
    (address + i) % 2 ^ bits = address + i ∧
      (address + i) / 2 ^ shift = address / 2 ^ shift ∧
      (address + i) % 2 ^ shift = address % 2 ^ shift + i := by
  have hpos : 0 < 2 ^ shift := Nat.two_pow_pos shift
  have hsplit := Nat.div_add_mod address (2 ^ shift)
  have hsum : address + i = address % 2 ^ shift + i + 2 ^ shift * (address / 2 ^ shift) := by omega
  have hdiv : (address + i) / 2 ^ shift = address / 2 ^ shift := by
    rw [hsum, Nat.add_mul_div_left _ _ hpos, Nat.div_eq_of_lt hi, Nat.zero_add]
  have hlt : address + i < 2 ^ bits := by
    have hbits : 2 ^ bits = 2 ^ shift * 2 ^ (bits - shift) := by
      rw [← Nat.pow_add, Nat.add_sub_cancel' hshift]
    rw [hbits, Nat.mul_comm] at haddress ⊢
    exact (Nat.div_lt_iff_lt_mul hpos).mp (hdiv ▸ (Nat.div_lt_iff_lt_mul hpos).mpr haddress)
  refine ⟨Nat.mod_eq_of_lt hlt, hdiv, ?_⟩
  rw [hsum, Nat.add_mul_mod_self_left, Nat.mod_eq_of_lt hi]

/-- A page that is mapped: its leaf, and what the addresses in it translate to. -/
theorem getEntry_page {entry level : Nat} (hroot : root ≠ 0)
    (h : b.getEntry m root address = some (entry, level)) :
    level ≤ b.rootLevel ∧ ∀ address', address' / 2 ^ b.vpnShift level =
        address / 2 ^ b.vpnShift level →
      b.translate m root address' =
        some ((b.getAddress (b.raw m entry) level + address' % 2 ^ b.vpnShift level) %
          2 ^ b.bits) := by
  rw [getEntry, if_neg hroot] at h
  cases hw : b.walk m address b.rootLevel root with
  | none =>
    rw [hw] at h
    cases h
  | some r =>
    rw [hw] at h
    dsimp only at h
    split at h
    next hleaf =>
      obtain ⟨rfl, rfl⟩ := Prod.mk.inj (Option.some.inj h)
      refine ⟨(walk_page (Nat.le_refl _) hw rfl).1, fun address' hpage => ?_⟩
      have hw' := (walk_page (Nat.le_refl _) hw hpage).2
      rw [translate, if_neg hroot, getEntry, if_neg hroot, hw']
      dsimp only
      rw [if_pos hleaf]
    next => cases h

/-- One side of a round: the bytes of the chunk follow each other. -/
theorem side_spec {p u : Nat} (haddress : address < 2 ^ b.bits)
    (h : b.side m root address unit = some (p, u)) :
    u ≤ unit ∧ (0 < unit → 0 < u) ∧ p < 2 ^ b.bits ∧ ∀ i < u,
      b.translate m root ((address + i) % 2 ^ b.bits) = some ((p + i) % 2 ^ b.bits) := by
  unfold side at h
  by_cases hroot : root = 0
  · rw [if_neg (not_not.mpr hroot)] at h
    obtain ⟨rfl, rfl⟩ := Prod.mk.inj (Option.some.inj h)
    exact ⟨Nat.le_refl _, id, haddress, fun i _ => by rw [translate, if_pos hroot]⟩
  · rw [if_pos hroot] at h
    cases he : b.getEntry m root address with
    | none =>
      rw [he] at h
      cases h
    | some r =>
      obtain ⟨entry, level⟩ := r
      rw [he] at h
      obtain ⟨rfl, rfl⟩ := Prod.mk.inj (Option.some.inj h)
      obtain ⟨hlevel, hpage⟩ := getEntry_page hroot he
      have hoffset := Nat.mod_lt address (Nat.two_pow_pos (b.vpnShift level))
      refine ⟨Nat.min_le_left _ _, fun hpos => Nat.lt_min.mpr ⟨hpos, by omega⟩,
        Nat.mod_lt _ (Nat.two_pow_pos _), fun i hi => ?_⟩
      obtain ⟨hmod, hdiv, hrest⟩ := add_in_page haddress (b.shift_le_bits level hlevel)
        (i := i) (by omega)
      rw [hmod, hpage _ hdiv, hrest, ← Nat.add_assoc, Nat.mod_add_mod]

theorem side_eq_none :
    b.side m root address unit = none ↔ b.translate m root address = none := by
  unfold side translate
  by_cases hroot : root = 0
  · rw [if_neg (not_not.mpr hroot), if_pos hroot]
    exact iff_of_false (by simp) (by simp)
  · rw [if_pos hroot, if_neg hroot]
    cases b.getEntry m root address with
    | none => exact iff_of_true rfl rfl
    | some r => exact iff_of_false (by simp) (by simp)

/-! ## The copy -/

section

variable (b m) (dest pg_d sors pg_s length : Nat)

/-- Byte `i` of both sides is mapped. -/
def Mapped (i : Nat) : Prop :=
  (b.translate m pg_d ((dest + i) % 2 ^ b.bits)).isSome ∧
    (b.translate m pg_s ((sors + i) % 2 ^ b.bits)).isSome

/-- No byte of the destination is one of the page tables the copy looks at. -/
def NotAliased : Prop :=
  ∀ i < length, ∀ d, b.translate m pg_d ((dest + i) % 2 ^ b.bits) = some d → ∀ j < length,
    d ∉ b.tableBytes m pg_d ((dest + j) % 2 ^ b.bits) ∧
      d ∉ b.tableBytes m pg_s ((sors + j) % 2 ^ b.bits)

/-- The page tables are what they were. -/
def Kept (m' : Mem) : Prop :=
  ∀ j < length, Mem.AgreeOn (b.tableBytes m pg_d ((dest + j) % 2 ^ b.bits)) m m' ∧
    Mem.AgreeOn (b.tableBytes m pg_s ((sors + j) % 2 ^ b.bits)) m m'

end

variable {dest pg_d sors pg_s length : Nat}

theorem Kept.update {d : Nat} {v : UInt8} (h : b.Kept m dest pg_d sors pg_s length m')
    (hd : ∀ j < length, d ∉ b.tableBytes m pg_d ((dest + j) % 2 ^ b.bits) ∧
      d ∉ b.tableBytes m pg_s ((sors + j) % 2 ^ b.bits)) :
    b.Kept m dest pg_d sors pg_s length (Function.update m' d v) := by
  intro j hj
  obtain ⟨hkept, hkept'⟩ := h j hj
  obtain ⟨hnot, hnot'⟩ := hd j hj
  refine ⟨fun a ha => ?_, fun a ha => ?_⟩
  · rw [Function.update_of_ne (fun heq => hnot (by rw [← heq]; exact ha)), hkept a ha]
  · rw [Function.update_of_ne (fun heq => hnot' (by rw [← heq]; exact ha)), hkept' a ha]

theorem memCopyN_spec (hna : b.NotAliased m dest pg_d sors pg_s length) :
    ∀ (u k p q : Nat) (m' : Mem), b.Kept m dest pg_d sors pg_s length m' → k + u ≤ length →
    p < 2 ^ b.bits → q < 2 ^ b.bits →
    (∀ i < u, b.translate m pg_d ((dest + (k + i)) % 2 ^ b.bits) = some ((p + i) % 2 ^ b.bits)) →
    (∀ i < u, b.translate m pg_s ((sors + (k + i)) % 2 ^ b.bits) = some ((q + i) % 2 ^ b.bits)) →
    b.copyEach dest pg_d sors pg_s u k m' = some (b.memCopyN u p q m') ∧
      b.Kept m dest pg_d sors pg_s length (b.memCopyN u p q m') := by
  intro u
  induction u with
  | zero =>
    intro k p q m' hkept _ _ _ _ _
    exact ⟨rfl, hkept⟩
  | succ u ih =>
    intro k p q m' hkept hle hp hq hdest hsors
    have hk : k < length := by omega
    have hd := hdest 0 (Nat.succ_pos u)
    have hs := hsors 0 (Nat.succ_pos u)
    rw [Nat.add_zero, Nat.add_zero, Nat.mod_eq_of_lt hp] at hd
    rw [Nat.add_zero, Nat.add_zero, Nat.mod_eq_of_lt hq] at hs
    have hnext : ∀ {r i : Nat}, (r + (i + 1)) % 2 ^ b.bits =
        ((r + 1) % 2 ^ b.bits + i) % 2 ^ b.bits := by
      intro r i
      rw [Nat.mod_add_mod]
      congr 1
      omega
    rw [copyEach, translate_congr (hkept k hk).1, translate_congr (hkept k hk).2, hd, hs]
    dsimp only
    refine ih (k + 1) ((p + 1) % 2 ^ b.bits) ((q + 1) % 2 ^ b.bits) _
      (hkept.update (hna k hk p hd)) (by omega) (Nat.mod_lt _ (Nat.two_pow_pos _))
      (Nat.mod_lt _ (Nat.two_pow_pos _)) (fun i hi => ?_) (fun i hi => ?_)
    · rw [Nat.add_assoc k, Nat.add_comm 1, hdest (i + 1) (Nat.succ_lt_succ hi), hnext]
    · rw [Nat.add_assoc k, Nat.add_comm 1, hsors (i + 1) (Nat.succ_lt_succ hi), hnext]

theorem copyEach_add (n n' : Nat) : ∀ (i : Nat) (m : Mem),
    b.copyEach dest pg_d sors pg_s (n + n') i m =
      (b.copyEach dest pg_d sors pg_s n i m).bind (b.copyEach dest pg_d sors pg_s n' (i + n)) := by
  induction n with
  | zero =>
    intro i m
    rw [Nat.zero_add]
    rfl
  | succ n ih =>
    intro i m
    rw [Nat.succ_add_eq_add_succ, Nat.add_succ, copyEach, copyEach]
    split
    next => rw [ih, Nat.add_assoc i, Nat.add_comm 1]
    next => rfl

/-- From byte `k` on, with the tables as they were: all that is left is copied, or a byte is not
mapped. -/
theorem copyLoop_spec (hna : b.NotAliased m dest pg_d sors pg_s length) :
    ∀ (fuel k ret : Nat) (m' : Mem), b.Kept m dest pg_d sors pg_s length m' → k ≤ length →
    length - k < fuel →
    ∃ ret' m'', b.copyLoop pg_d pg_s fuel ((dest + k) % 2 ^ b.bits) ((sors + k) % 2 ^ b.bits)
        (length - k) ret m' = some (ret', m'') ∧
      ((∀ i, k ≤ i → i < length → b.Mapped m dest pg_d sors pg_s i) →
        ret' = ret + (length - k) ∧
          b.copyEach dest pg_d sors pg_s (length - k) k m' = some m'') ∧
      ((∃ i, k ≤ i ∧ i < length ∧ ¬b.Mapped m dest pg_d sors pg_s i) → ret' = 0) := by
  intro fuel
  induction fuel with
  | zero =>
    intro k ret m' _ _ hfuel
    exact absurd hfuel (Nat.not_lt_zero _)
  | succ fuel ih =>
    intro k ret m' hkept hle hfuel
    have hpos : 0 < 2 ^ b.bits := Nat.two_pow_pos _
    rw [copyLoop]
    by_cases hend : length - k = 0
    · rw [if_pos hend, hend]
      refine ⟨ret, m', rfl, fun _ => ⟨rfl, rfl⟩, ?_⟩
      rintro ⟨i, hki, hi, -⟩
      omega
    rw [if_neg hend]
    have hk : k < length := by omega
    obtain ⟨hkeptD, hkeptS⟩ := hkept k hk
    rw [side_congr hkeptD]
    cases hside : b.side m pg_d ((dest + k) % 2 ^ b.bits) (length - k) with
    | none =>
      have hun := side_eq_none.mp hside
      refine ⟨0, m', rfl, fun hall => ?_, fun _ => rfl⟩
      have hmapped := (hall k (Nat.le_refl k) hk).1
      rw [hun] at hmapped
      cases hmapped
    | some r =>
      obtain ⟨p, u⟩ := r
      obtain ⟨hu, hupos, hp, hdest⟩ := side_spec (Nat.mod_lt _ hpos) hside
      dsimp only
      rw [side_congr hkeptS]
      cases hside' : b.side m pg_s ((sors + k) % 2 ^ b.bits) u with
      | none =>
        have hun := side_eq_none.mp hside'
        refine ⟨0, m', rfl, fun hall => ?_, fun _ => rfl⟩
        have hmapped := (hall k (Nat.le_refl k) hk).2
        rw [hun] at hmapped
        cases hmapped
      | some r =>
        obtain ⟨q, v⟩ := r
        obtain ⟨hv, hvpos, hq, hsors⟩ := side_spec (Nat.mod_lt _ hpos) hside'
        dsimp only
        have hvpos' := hvpos (hupos (by omega))
        have hplace : ∀ {a i : Nat}, ((a + k) % 2 ^ b.bits + i) % 2 ^ b.bits =
            (a + (k + i)) % 2 ^ b.bits := by
          intro a i
          rw [Nat.mod_add_mod, Nat.add_assoc]
        have hdest' : ∀ i < v, b.translate m pg_d ((dest + (k + i)) % 2 ^ b.bits) =
            some ((p + i) % 2 ^ b.bits) := by
          intro i hi
          rw [← hplace, hdest i (by omega)]
        have hsors' : ∀ i < v, b.translate m pg_s ((sors + (k + i)) % 2 ^ b.bits) =
            some ((q + i) % 2 ^ b.bits) := by
          intro i hi
          rw [← hplace, hsors i hi]
        obtain ⟨hchunk, hkept'⟩ :=
          memCopyN_spec hna v k p q m' hkept (by omega) hp hq hdest' hsors'
        have hmapped : ∀ i, k ≤ i → i < k + v → b.Mapped m dest pg_d sors pg_s i := by
          intro i hki hi
          obtain ⟨j, rfl⟩ := Nat.exists_eq_add_of_le hki
          rw [Mapped, hdest' j (by omega), hsors' j (by omega)]
          exact ⟨rfl, rfl⟩
        obtain ⟨ret', m'', hrun, hall, hsome⟩ := ih (k + v) (ret + v) _ hkept' (by omega)
          (by omega)
        rw [hplace, hplace, Nat.sub_sub, hrun]
        refine ⟨ret', m'', rfl, fun h => ?_, ?_⟩
        · obtain ⟨hret, hcopy⟩ := hall fun i hki hi => h i (by omega) hi
          refine ⟨by omega, ?_⟩
          have hsplit : length - k = v + (length - (k + v)) := by omega
          rw [hsplit, copyEach_add, hchunk, Option.bind_some, hcopy]
        · rintro ⟨i, hki, hi, hnot⟩
          refine hsome ⟨i, ?_, hi, hnot⟩
          by_contra hlt
          exact hnot (hmapped i hki (by omega))

/-- Where the destination is not in the page tables, `MemCopyP` returns the length and
leaves what the copy byte by byte would, if every page is mapped; else it returns 0. -/
theorem memCopyP_exact (b : Arch) (m : Mem) (dest pg_d sors pg_s length : Nat)
    (hdest : dest < 2 ^ b.bits) (hsors : sors < 2 ^ b.bits)
    (hna : b.NotAliased m dest pg_d sors pg_s length) :
    ∃ ret m', b.memCopyP dest pg_d sors pg_s length m = some (ret, m') ∧
      ((∀ i < length, b.Mapped m dest pg_d sors pg_s i) →
        ret = length ∧ b.copyEach dest pg_d sors pg_s length 0 m = some m') ∧
      ((∃ i < length, ¬b.Mapped m dest pg_d sors pg_s i) → ret = 0) := by
  have hkept : b.Kept m dest pg_d sors pg_s length m := fun _ _ =>
    ⟨Mem.AgreeOn.refl _ m, Mem.AgreeOn.refl _ m⟩
  obtain ⟨ret, m', hrun, hall, hsome⟩ := copyLoop_spec hna (length + 1) 0 0 m hkept
    (Nat.zero_le _) (by omega)
  rw [Nat.add_zero dest, Nat.add_zero sors, Nat.mod_eq_of_lt hdest, Nat.mod_eq_of_lt hsors,
    Nat.sub_zero] at hrun
  rw [Nat.sub_zero, Nat.zero_add] at hall
  refine ⟨ret, m', hrun, fun h => hall fun i _ hi => h i hi, ?_⟩
  rintro ⟨i, hi, hnot⟩
  exact hsome ⟨i, Nat.zero_le i, hi, hnot⟩

/-- A page directory at `0x1000` with a 4 MB page at `0x400000` and a table at `0x2000`, whose
first page is at `0x5000`. -/
def twoPages : Mem
  | 0x1000 => 0x83
  | 0x1002 => 0x40
  | 0x1004 => 0x03
  | 0x1005 => 0x20
  | 0x2000 => 0x03
  | 0x2001 => 0x50
  | a => if a < 0x9000 then 0 else UInt8.ofNat a

/-- Four bytes across the end of the 4 MB page into the page of 4 KB. -/
theorem memCopyP_exact_twoPages :
    ∃ m', Target.x86.arch.memCopyP 0x3FFFFE 0x1000 0x9001 0 4 twoPages = some (4, m') ∧
      Target.x86.arch.copyEach 0x3FFFFE 0x1000 0x9001 0 4 0 twoPages = some m' := by
  have hdest : ∀ i < 4, Target.x86.arch.translate twoPages 0x1000 ((0x3FFFFE + i) % 2 ^ 32) =
      some (if i < 2 then 0x7FFFFE + i else 0x4FFE + i) := by decide
  have hhuge : ∀ i < 2, Target.x86.arch.tableBytes twoPages 0x1000 ((0x3FFFFE + i) % 2 ^ 32) =
      Set.Ico 0x1000 0x1004 ∪ ∅ := by
    intro i hi
    interval_cases i <;> rfl
  have hsmall : ∀ i < 2, Target.x86.arch.tableBytes twoPages 0x1000 ((0x400000 + i) % 2 ^ 32) =
      Set.Ico 0x1004 0x1008 ∪ (Set.Ico 0x2000 0x2004 ∪ ∅) := by
    intro i hi
    interval_cases i <;> rfl
  have htables : ∀ i < 4, ∀ d ∈ Target.x86.arch.tableBytes twoPages 0x1000
      ((0x3FFFFE + i) % 2 ^ 32), d < 0x2004 := by
    intro i hi d hd
    by_cases hlow : i < 2
    · rw [hhuge i hlow] at hd
      obtain ⟨-, hlt⟩ | hempty := hd
      · omega
      · exact absurd hempty (Set.notMem_empty d)
    · obtain ⟨j, rfl⟩ := Nat.exists_eq_add_of_le (Nat.le_of_not_lt hlow)
      rw [← Nat.add_assoc, hsmall j (by omega)] at hd
      obtain ⟨-, hlt⟩ | ⟨-, hlt⟩ | hempty := hd
      · omega
      · exact hlt
      · exact absurd hempty (Set.notMem_empty d)
  have hna : Target.x86.arch.NotAliased twoPages 0x3FFFFE 0x1000 0x9001 0 4 := by
    intro i hi d hd j hj
    have hd' := (hdest i hi).symm.trans hd
    obtain rfl := Option.some.inj hd'
    refine ⟨fun hmem => ?_, fun hmem => hmem⟩
    have hlt := htables j hj _ hmem
    split at hlt <;> omega
  obtain ⟨ret, m', hrun, hall, -⟩ := memCopyP_exact Target.x86.arch twoPages 0x3FFFFE 0x1000 0x9001 0 4
    (by decide) (by decide) hna
  obtain ⟨rfl, hcopy⟩ := hall (by
    intro i hi
    interval_cases i <;> exact ⟨rfl, rfl⟩)
  exact ⟨m', hrun, hcopy⟩

end Arch

end Unisym.Paging
