/-
# `TableSpec` — reading and setting an entry

What `getFatEntry` and `setFatEntry` do to the table as bits.  A read finds the
entry of its cluster where the cache holds the bytes of the disk; a set changes
that entry in all copies, and no other bit of the table.
-/
import Unisym.Fat.Table

namespace Unisym.Fat

open Function Mem

/-! ## Buffers -/

theorem bit_update (m : Mem) (a : Nat) (b : UInt8) (i : Nat) :
    Mem.bit (update m a b) i = if i / 8 = a then b.toNat.testBit (i % 8) else m.bit i := by
  unfold Mem.bit
  by_cases hi : i / 8 = a
  · rw [if_pos hi, hi, update_self]
  · rw [if_neg hi, update_of_ne hi]

theorem testBit_ofNat {x j : Nat} (hj : j < 8) : (UInt8.ofNat x).toNat.testBit j = x.testBit j := by
  rw [toNat_ofNat, show (256 : Nat) = 2 ^ 8 from rfl, Nat.testBit_mod_two_pow, decide_eq_true hj,
    Bool.true_and]

theorem testBit_byte {x k j : Nat} (hj : j < 8) :
    ((x >>> k) &&& 0xFF).testBit j = x.testBit (k + j) := by
  rw [show (0xFF : Nat) = 2 ^ 8 - 1 from rfl, Nat.and_two_pow_sub_one_eq_mod,
    Nat.testBit_mod_two_pow, decide_eq_true hj, Bool.true_and, Nat.testBit_shiftRight]

theorem testBit_byte_zero {x j : Nat} (hj : j < 8) : (x &&& 0xFF).testBit j = x.testBit j := by
  have h := testBit_byte (x := x) (k := 0) hj
  rwa [Nat.shiftRight_zero, Nat.zero_add] at h

theorem twelve_eq (m : Mem) (a : Nat) : Volume.twelve (m a) (m (a + 1)) = readLE m a 2 := by
  unfold Volume.twelve
  rw [Nat.shiftLeft_eq, Nat.lor_comm, Nat.mul_comm, ← Nat.two_pow_add_eq_or_of_lt (m a).toNat_lt,
    readLE, readLE, readLE, Nat.mul_zero, Nat.add_zero, Nat.add_comm]
  rfl

theorem testBit_twelve (m : Mem) (a : Nat) {j : Nat} (hj : j < 16) :
    (Volume.twelve (m a) (m (a + 1))).testBit j = m.bit (8 * a + j) := by
  rw [twelve_eq, testBit_readLE, decide_eq_true (by omega), Bool.true_and]

theorem masks_twelve : ∀ j, j < 16 →
    (0x000F : Nat).testBit j = decide (j < 4) ∧ (0xFFF0 : Nat).testBit j = decide (4 ≤ j) ∧
      (0xF000 : Nat).testBit j = decide (12 ≤ j) ∧ (0x0FFF : Nat).testBit j = decide (j < 12) := by
  decide

theorem masks_four : ∀ j, j < 8 →
    (0xF0 : Nat).testBit j = decide (4 ≤ j) ∧ (0x0F : Nat).testBit j = decide (j < 4) := by
  decide

/-- An odd FAT12 entry takes the upper twelve of sixteen bits. -/
theorem testBit_odd (cur value : Nat) {j : Nat} (hj : j < 16) :
    ((cur &&& 0x000F) ||| ((value <<< 4) % u32 &&& 0xFFF0)).testBit j =
      if j < 4 then cur.testBit j else value.testBit (j - 4) := by
  obtain ⟨m1, m2, -, -⟩ := masks_twelve j hj
  rw [Nat.testBit_or, Nat.testBit_and, Nat.testBit_and, m1, m2, show u32 = 2 ^ 32 from rfl,
    Nat.testBit_mod_two_pow, decide_eq_true (show j < 32 by omega), Bool.true_and,
    Nat.testBit_shiftLeft]
  by_cases h4 : j < 4
  · rw [if_pos h4, decide_eq_true h4, decide_eq_false (show ¬4 ≤ j by omega), Bool.and_true,
      Bool.and_false, Bool.or_false]
  · rw [if_neg h4, decide_eq_false h4, decide_eq_true (show j ≥ 4 by omega), Bool.and_false,
      Bool.false_or, Bool.true_and, Bool.and_true]

theorem testBit_even (cur value : Nat) {j : Nat} (hj : j < 16) :
    ((cur &&& 0xF000) ||| (value &&& 0x0FFF)).testBit j =
      if j < 12 then value.testBit j else cur.testBit j := by
  obtain ⟨-, -, m3, m4⟩ := masks_twelve j hj
  rw [Nat.testBit_or, Nat.testBit_and, Nat.testBit_and, m3, m4]
  by_cases h12 : j < 12
  · rw [if_pos h12, decide_eq_true h12, decide_eq_false (show ¬12 ≤ j by omega), Bool.and_false,
      Bool.false_or, Bool.and_true]
  · rw [if_neg h12, decide_eq_false h12, decide_eq_true (show 12 ≤ j by omega), Bool.and_true,
      Bool.and_false, Bool.or_false]

namespace Volume

variable {v : Volume}

theorem width_32 (h : v.fatType = 32) : v.width = 28 := if_pos h

theorem width_ne (h : v.fatType ≠ 32) : v.width = v.fatType := if_neg h

theorem shift_ne (h : v.fatType ≠ 12) (cluster : Nat) : v.shift cluster = 0 :=
  if_neg fun hc => h hc.1

theorem shift_odd (h : v.fatType = 12) {cluster : Nat} (hc : cluster % 2 = 1) :
    v.shift cluster = 4 := if_pos ⟨h, hc⟩

theorem shift_even {cluster : Nat} (hc : ¬cluster % 2 = 1) : v.shift cluster = 0 :=
  if_neg fun h => hc h.2

theorem fieldSet_two {m : Mem} {a x : Nat} :
    FieldSet m (update (update m a (.ofNat (x &&& 0xFF))) (a + 1) (.ofNat ((x >>> 8) &&& 0xFF)))
      (8 * a) 16 x := by
  intro i
  rw [bit_update, bit_update]
  have h8 : i % 8 < 8 := Nat.mod_lt _ (by decide)
  rw [testBit_ofNat h8, testBit_ofNat h8, testBit_byte h8, testBit_byte_zero h8]
  by_cases h1 : i / 8 = a + 1
  · rw [if_pos h1, if_pos (by omega), show 8 + i % 8 = i - 8 * a by omega]
  · rw [if_neg h1]
    by_cases h0 : i / 8 = a
    · rw [if_pos h0, if_pos (by omega), show i % 8 = i - 8 * a by omega]
    · rw [if_neg h0, if_neg (by omega)]

theorem FieldSet.narrow {m m' : Mem} {pos w x pos' w' value : Nat} (h : FieldSet m m' pos w x)
    (hsub : pos ≤ pos' ∧ pos' + w' ≤ pos + w)
    (hin : ∀ i, pos' ≤ i → i < pos' + w' → x.testBit (i - pos) = value.testBit (i - pos'))
    (hout : ∀ i, pos ≤ i → i < pos + w → ¬(pos' ≤ i ∧ i < pos' + w') →
      x.testBit (i - pos) = m.bit i) : FieldSet m m' pos' w' value := by
  intro i
  rw [h i]
  by_cases h1 : pos' ≤ i ∧ i < pos' + w'
  · rw [if_pos h1, if_pos (by omega), hin i h1.1 h1.2]
  · rw [if_neg h1]
    by_cases h2 : pos ≤ i ∧ i < pos + w
    · rw [if_pos h2, hout i h2.1 h2.2 h1]
    · rw [if_neg h2]

theorem putEntry_spec (ht : v.fatType = 12 ∨ v.fatType = 16 ∨ v.fatType = 32)
    (cluster value ent : Nat) (buf : Mem) :
    FieldSet buf (v.putEntry cluster value ent buf) (8 * ent + v.shift cluster) v.width value := by
  unfold putEntry
  rcases ht with ht | ht | ht
  · rw [if_neg (by omega), if_neg (by omega), width_ne (by omega), ht]
    dsimp only
    have hand : cluster &&& 1 = cluster % 2 := Nat.and_one_is_mod cluster
    have hcur : ∀ i, 8 * ent ≤ i → i < 8 * ent + 16 →
        (twelve (buf ent) (buf (ent + 1))).testBit (i - 8 * ent) = buf.bit i := by
      intro i h1 h2
      rw [testBit_twelve _ _ (by omega), Nat.add_sub_cancel' h1]
    by_cases hodd : cluster % 2 = 1
    · rw [shift_odd ht hodd, if_pos (hand.trans hodd)]
      refine FieldSet.narrow fieldSet_two (by omega) (fun i h1 h2 => ?_) fun i h1 h2 h3 => ?_
      · rw [testBit_odd _ _ (by omega), if_neg (by omega), Nat.sub_sub]
      · rw [testBit_odd _ _ (by omega), if_pos (by omega), hcur i h1 h2]
    · rw [shift_even hodd, if_neg (fun h => hodd (hand.symm.trans h))]
      refine FieldSet.narrow fieldSet_two (by omega) (fun i h1 h2 => ?_) fun i h1 h2 h3 => ?_
      · rw [testBit_even _ _ (by omega), if_pos (by omega), Nat.add_zero]
      · rw [testBit_even _ _ (by omega), if_neg (by omega), hcur i h1 h2]
  · rw [if_neg (by omega), if_pos ht, shift_ne (by omega), width_ne (by omega), ht]
    exact fieldSet_two
  · rw [if_pos ht, shift_ne (by omega), width_32 ht]
    dsimp only
    intro i
    have h8 : i % 8 < 8 := Nat.mod_lt _ (by decide)
    obtain ⟨m1, m2⟩ := masks_four (i % 8) h8
    have hmask : ∀ j, (value &&& 0x0FFFFFFF).testBit j = (decide (j < 28) && value.testBit j) := by
      intro j
      rw [show (0x0FFFFFFF : Nat) = 2 ^ 28 - 1 from rfl, Nat.and_two_pow_sub_one_eq_mod,
        Nat.testBit_mod_two_pow]
    rw [bit_update, bit_update, bit_update, bit_update, testBit_ofNat h8, testBit_ofNat h8,
      testBit_ofNat h8, testBit_ofNat h8, testBit_byte h8, testBit_byte h8, testBit_byte_zero h8,
      Nat.testBit_or, Nat.testBit_and, Nat.testBit_and, Nat.testBit_shiftRight, m1, m2, hmask, hmask,
      hmask, hmask, update_of_ne (by omega), update_of_ne (by omega), update_of_ne (by omega)]
    by_cases h3 : i / 8 = ent + 3
    · rw [if_pos h3]
      by_cases hlow : i % 8 < 4
      · rw [if_pos (by omega), decide_eq_true hlow, decide_eq_false (by omega),
          decide_eq_true (by omega), Bool.and_false, Bool.false_or, Bool.and_true, Bool.true_and,
          show 24 + i % 8 = i - (8 * ent + 0) by omega]
      · rw [if_neg (by omega), decide_eq_false hlow, decide_eq_true (by omega), Bool.and_false,
          Bool.or_false, Bool.and_true, ← h3]
        rfl
    · rw [if_neg h3]
      by_cases h2 : i / 8 = ent + 2
      · rw [if_pos h2, if_pos (by omega), decide_eq_true (by omega), Bool.true_and,
          show 16 + i % 8 = i - (8 * ent + 0) by omega]
      · rw [if_neg h2]
        by_cases h1 : i / 8 = ent + 1
        · rw [if_pos h1, if_pos (by omega), decide_eq_true (by omega), Bool.true_and,
            show 8 + i % 8 = i - (8 * ent + 0) by omega]
        · rw [if_neg h1]
          by_cases h0 : i / 8 = ent
          · rw [if_pos h0, if_pos (by omega), decide_eq_true (by omega), Bool.true_and,
              show i % 8 = i - (8 * ent + 0) by omega]
          · rw [if_neg h0, if_neg (by omega)]

/-! ## Where an entry lies -/

section
variable {b : Nat} (hv : v.Consistent b)
include hv

theorem Consistent.bits_le (cluster : Nat) : v.shift cluster + v.width ≤ 8 * v.entLen := by
  unfold shift width entLen
  rcases hv.type with h | h | h
  · rw [if_neg (show ¬v.fatType = 32 by omega), if_neg (show ¬v.fatType = 32 by omega), h]
    split <;> omega
  · rw [if_neg (by omega), if_neg (show ¬v.fatType = 32 by omega),
      if_neg (show ¬v.fatType = 32 by omega), h]
  · rw [if_neg (by omega), if_pos h, if_pos h]
    omega

section

variable {cluster : Nat} (hc : cluster < v.totalClusters + 2)
include hc

/-- The bytes before an entry, and the bits of its first byte. -/
theorem Consistent.offset_bits : 8 * v.fatOffset cluster + v.shift cluster = v.fatType * cluster := by
  have hu : u32 = 4294967296 := rfl
  have h1 := hv.entries
  have h2 := hv.offsets
  unfold fatOffset
  rcases hv.type with ht | ht | ht
  · have h3 := hv.twelve ht
    rw [if_neg (by omega), if_neg (by omega), Nat.mod_eq_of_lt (by omega), ht]
    by_cases hodd : cluster % 2 = 1
    · rw [shift_odd ht hodd]; omega
    · rw [shift_even hodd]; omega
  · rw [ht] at h1
    rw [if_neg (by omega), if_pos ht, shift_ne (by omega), Nat.mod_eq_of_lt (by omega), ht]
    omega
  · rw [ht] at h1
    rw [if_pos ht, shift_ne (by omega), Nat.mod_eq_of_lt (by omega), ht]
    omega

theorem Consistent.offset_lt : v.fatType * cluster + v.fatType ≤ 8 * (v.sectorsPerFat * b) := by
  have h : v.fatType * cluster + v.fatType ≤ v.fatType * (v.totalClusters + 2) := by
    rw [← Nat.mul_succ]
    exact Nat.mul_le_mul_left _ hc
  exact h.trans hv.entries

/-- The sector of an entry, counted from the start of the table. -/
theorem Consistent.sector_lt : v.fatOffset cluster / b < v.sectorsPerFat := by
  have h1 := hv.offset_bits hc
  have h2 := hv.offset_lt hc
  have h3 : 0 < v.fatType := by rcases hv.type with h | h | h <;> omega
  rw [Nat.div_lt_iff_lt_mul hv.block.1]
  omega

theorem Consistent.fatSector_eq : v.fatSector b cluster = v.firstFatSector + v.fatOffset cluster / b := by
  have h1 := hv.sector_lt hc
  have h2 := hv.sectors
  have h3 : v.sectorsPerFat ≤ v.fatCount * v.sectorsPerFat := Nat.le_mul_of_pos_left _ hv.copies
  exact Nat.mod_eq_of_lt (by omega)

theorem Consistent.inside (hns : ¬v.straddles b cluster) : v.entOffset b cluster + v.entLen ≤ b := by
  have h1 := hv.offset_bits hc
  obtain ⟨hb, hb4⟩ := hv.block
  have hlt : v.entOffset b cluster < b := Nat.mod_lt _ hb
  have hmod : v.entOffset b cluster % 4 = v.fatOffset cluster % 4 := Nat.mod_mod_of_dvd _ hb4
  unfold straddles at hns
  unfold entLen
  rcases hv.type with ht | ht | ht
  · rw [if_neg (by omega)]
    omega
  · rw [shift_ne (by omega), ht] at h1
    rw [if_neg (by omega)]
    omega
  · rw [shift_ne (by omega), ht] at h1
    rw [if_pos ht]
    omega

end

end

/-! ## Reading -/

theorem readLE_shift {m m' : Mem} : ∀ {n a a' : Nat}, (∀ k, k < n → m' (a' + k) = m (a + k)) →
    readLE m' a' n = readLE m a n
  | 0, _, _, _ => rfl
  | n + 1, a, a', h => by
    have h0 : m' a' = m a := h 0 (Nat.succ_pos n)
    have hrest : ∀ k, k < n → m' (a' + 1 + k) = m (a + 1 + k) := by
      intro k hk
      rw [Nat.add_right_comm, Nat.add_right_comm a]
      exact h (k + 1) (by omega)
    unfold readLE
    rw [h0, readLE_shift hrest]

theorem readLE_mod (m : Mem) (a n w : Nat) (hw : w ≤ 8 * n) :
    readLE m a n % 2 ^ w = field m (8 * a) w := by
  refine eq_field fun j => ?_
  rw [Nat.testBit_mod_two_pow, testBit_readLE]
  by_cases hj : j < w
  · rw [decide_eq_true (show j < 8 * n by omega), Bool.true_and]
  · rw [decide_eq_false hj, Bool.false_and, Bool.false_and]

theorem div_same {x k b : Nat} (hb : 0 < b) (h : x % b + k < b) : (x + k) / b = x / b := by
  have h1 := Nat.div_add_mod x b
  rw [show x + k = b * (x / b) + (x % b + k) by omega, Nat.mul_add_div hb, Nat.div_eq_of_lt h,
    Nat.add_zero]

theorem copy_byte {d : Disk} (hb : 0 < d.blockSize) (i cluster : Nat) {k : Nat}
    (hk : v.entOffset d.blockSize cluster + k < d.blockSize) :
    v.copy d i (v.fatOffset cluster + k) =
      d.data (v.firstFatSector + i * v.sectorsPerFat + v.fatOffset cluster / d.blockSize)
        (v.entOffset d.blockSize cluster + k) := by
  have hdiv : (v.fatOffset cluster + k) / d.blockSize = v.fatOffset cluster / d.blockSize :=
    div_same hb hk
  have hmod : (v.fatOffset cluster + k) % d.blockSize = v.entOffset d.blockSize cluster + k := by
    rw [Nat.add_mod, Nat.mod_eq_of_lt (show k < d.blockSize by omega)]
    exact Nat.mod_eq_of_lt hk
  unfold copy
  rw [hdiv, hmod]

theorem copy_next {d : Disk} (hb : 0 < d.blockSize) (i cluster : Nat)
    (hk : v.entOffset d.blockSize cluster = d.blockSize - 1) :
    v.copy d i (v.fatOffset cluster + 1) =
      d.data (v.firstFatSector + i * v.sectorsPerFat + v.fatOffset cluster / d.blockSize + 1) 0 := by
  have h1 := Nat.div_add_mod (v.fatOffset cluster) d.blockSize
  have h2 : v.fatOffset cluster + 1 = d.blockSize * (v.fatOffset cluster / d.blockSize + 1) := by
    rw [Nat.mul_succ]
    unfold entOffset at hk
    omega
  unfold copy
  rw [h2, Nat.mul_div_cancel_left _ hb, Nat.mul_mod_right]
  rfl

theorem twelve_odd {m : Mem} {a : Nat} :
    twelve (m a) (m (a + 1)) >>> 4 = field m (8 * a + 4) 12 := by
  refine eq_field fun j => ?_
  rw [Nat.testBit_shiftRight, twelve_eq, testBit_readLE, Nat.add_assoc]
  congr 1
  exact decide_eq_decide.mpr (by omega)

theorem twelve_even {m : Mem} {a : Nat} :
    twelve (m a) (m (a + 1)) &&& 0x0FFF = field m (8 * a) 12 := by
  rw [show (0x0FFF : Nat) = 2 ^ 12 - 1 from rfl, Nat.and_two_pow_sub_one_eq_mod, twelve_eq]
  exact readLE_mod m a 2 12 (by decide)

section
variable {d : Disk} (hv : v.Consistent d.blockSize) {cluster : Nat}
  (hc : cluster < v.totalClusters + 2) {c : Cache}
include hv hc

/-- A read finds the entry where the cache holds its bytes. -/
theorem getFatEntry_eq
    (hbuf : ∀ k, k < v.entLen → v.entOffset d.blockSize cluster + k < d.blockSize →
      (c.load d (v.fatSector d.blockSize cluster)).buffer (v.entOffset d.blockSize cluster + k) =
        d.data (v.fatSector d.blockSize cluster) (v.entOffset d.blockSize cluster + k))
    (hnext : v.straddles d.blockSize cluster → d.bad (v.fatSector d.blockSize cluster + 1) = false) :
    (v.getFatEntry d c cluster).1 = v.normal (v.entry d cluster) := by
  have hb := hv.block.1
  have hbits := hv.offset_bits hc
  have hsec := hv.fatSector_eq hc
  have hlt : v.entOffset d.blockSize cluster < d.blockSize := Nat.mod_lt _ hb
  -- the bytes of the buffer are those of the first copy
  have hcopy : ∀ k, k < v.entLen → v.entOffset d.blockSize cluster + k < d.blockSize →
      (c.load d (v.fatSector d.blockSize cluster)).buffer (v.entOffset d.blockSize cluster + k) =
        v.copy d 0 (v.fatOffset cluster + k) := by
    intro k hk hin
    rw [hbuf k hk hin, copy_byte hb 0 cluster hin, hsec, Nat.zero_mul, Nat.add_zero]
  unfold getFatEntry normal entry
  dsimp only
  rcases hv.type with ht | ht | ht
  · have hlen : v.entLen = 2 := if_neg (by omega)
    have hw : v.width = 12 := (width_ne (by omega)).trans ht
    have h0 := hcopy 0 (by omega) hlt
    rw [Nat.add_zero, Nat.add_zero] at h0
    rw [if_neg (by omega), if_neg (by omega), hw]
    -- both bytes are there, whether or not they are in one sector
    have hvalue : (if v.entOffset d.blockSize cluster = d.blockSize - 1 then
        twelve ((c.load d (v.fatSector d.blockSize cluster)).buffer (v.entOffset d.blockSize cluster))
          ((if v.entOffset d.blockSize cluster = d.blockSize - 1 then
            (⟨(d.read (v.fatSector d.blockSize cluster + 1)
              (c.load d (v.fatSector d.blockSize cluster)).buffer).2,
              v.fatSector d.blockSize cluster + 1⟩ : Cache)
            else c.load d (v.fatSector d.blockSize cluster)).buffer 0)
        else twelve
          ((c.load d (v.fatSector d.blockSize cluster)).buffer (v.entOffset d.blockSize cluster))
          ((c.load d (v.fatSector d.blockSize cluster)).buffer
            (v.entOffset d.blockSize cluster + 1))) =
        twelve (v.copy d 0 (v.fatOffset cluster)) (v.copy d 0 (v.fatOffset cluster + 1)) := by
      by_cases hs : v.entOffset d.blockSize cluster = d.blockSize - 1
      · rw [if_pos hs, if_pos hs, h0, copy_next hb 0 cluster hs, Nat.zero_mul,
          Nat.add_zero v.firstFatSector, ← hsec]
        unfold Disk.read
        rw [if_neg (by rw [hnext ⟨ht, hs⟩]; simp)]
        dsimp only
        rw [if_pos hb]
      · rw [if_neg hs, h0, hcopy 1 (by omega) (by omega)]
    rw [hvalue, ← hbits]
    have hand : cluster &&& 1 = cluster % 2 := Nat.and_one_is_mod cluster
    by_cases hodd : cluster % 2 = 1
    · rw [if_pos (hand.trans hodd), shift_odd ht hodd, twelve_odd]
      rfl
    · rw [if_neg (fun h => hodd (hand.symm.trans h)), shift_even hodd, twelve_even]
      rfl
  · have hlen : v.entLen = 2 := if_neg (by omega)
    have hin := hv.inside hc (fun hs => by have := hs.1; omega)
    rw [shift_ne (by omega), Nat.add_zero] at hbits
    rw [if_neg (by omega), if_pos ht, width_ne (by omega), ← hbits, ht]
    have hval := readLE_mod (v.copy d 0) (v.fatOffset cluster) 2 16 (by decide)
    rw [Nat.mod_eq_of_lt (show _ < 2 ^ 16 from readLE_lt _ 2 _)] at hval
    rw [readLE_shift fun k hk => hcopy k (by omega) (by omega), hval]
    rfl
  · have hlen : v.entLen = 4 := if_pos ht
    have hin := hv.inside hc (fun hs => by have := hs.1; omega)
    rw [shift_ne (by omega), Nat.add_zero] at hbits
    rw [if_pos ht, width_32 ht, ← hbits, show (0x0FFFFFFF : Nat) = 2 ^ 28 - 1 from rfl,
      Nat.and_two_pow_sub_one_eq_mod, readLE_shift fun k hk => hcopy k (by omega) (by omega),
      readLE_mod _ _ 4 28 (by decide)]
    rfl

end

/-! ## Setting -/

theorem writeCopies_fields (sec : Nat) (buf : Mem) : ∀ (n : Nat) (d : Disk),
    (v.writeCopies sec buf n d).blockSize = d.blockSize ∧ (v.writeCopies sec buf n d).bad = d.bad
  | 0, _ => ⟨rfl, rfl⟩
  | n + 1, d => by
    have ih := writeCopies_fields sec buf n d
    unfold writeCopies Disk.write
    split
    · exact ih
    · exact ih

/-- The copies of the sector get the buffer, other sectors are left. -/
theorem writeCopies_data {d : Disk} {sec : Nat} {buf : Mem} : ∀ {n : Nat},
    (∀ i, i < n → sec + i * v.sectorsPerFat < u32) →
    (∀ i, i < n → d.bad (sec + i * v.sectorsPerFat) = false) →
    (∀ i, i < n → ∀ o, o < d.blockSize →
      (v.writeCopies sec buf n d).data (sec + i * v.sectorsPerFat) o = buf o) ∧
    ∀ s, (∀ i, i < n → s ≠ sec + i * v.sectorsPerFat) →
      (v.writeCopies sec buf n d).data s = d.data s
  | 0, _, _ => ⟨fun i hi => absurd hi (Nat.not_lt_zero i), fun _ _ => rfl⟩
  | n + 1, hu, hok => by
    obtain ⟨h1, h2⟩ := writeCopies_data (n := n) (fun i hi => hu i (by omega))
      (fun i hi => hok i (by omega))
    obtain ⟨hbs, hbad⟩ := writeCopies_fields (v := v) sec buf n d
    have hstep : v.writeCopies sec buf (n + 1) d =
        { v.writeCopies sec buf n d with
          data := update (v.writeCopies sec buf n d).data (sec + n * v.sectorsPerFat) fun o =>
            if o < (v.writeCopies sec buf n d).blockSize then buf o
            else (v.writeCopies sec buf n d).data (sec + n * v.sectorsPerFat) o } := by
      rw [writeCopies, Disk.write, Nat.mod_eq_of_lt (hu n (by omega)),
        if_neg (by rw [hbad, hok n (by omega)]; simp)]
    rw [hstep]
    refine ⟨fun i hi o ho => ?_, fun s hs => ?_⟩
    · dsimp only
      by_cases heq : sec + i * v.sectorsPerFat = sec + n * v.sectorsPerFat
      · rw [heq, update_self, if_pos (hbs ▸ ho)]
      · rw [update_of_ne heq]
        exact h1 i (by by_contra hin; exact heq (by rw [show i = n by omega])) o ho
    · dsimp only
      rw [update_of_ne (hs n (by omega))]
      exact h2 s fun i hi => hs i (by omega)

/-- What a set does to the table. -/
structure Sets (v : Volume) (d d' : Disk) (cluster value : Nat) : Prop where
  blockSize : d'.blockSize = d.blockSize
  bad : d'.bad = d.bad
  /-- One field of the table changes. -/
  bits : ∀ i, i < 8 * (v.sectorsPerFat * d.blockSize) →
    (v.copy d' 0).bit i =
      if v.fatType * cluster ≤ i ∧ i < v.fatType * cluster + v.width then
        value.testBit (i - v.fatType * cluster)
      else (v.copy d 0).bit i
  /-- The sector of the entry is the same in all copies. -/
  agree : ∀ k, k < v.fatCount → ∀ o, o < d.blockSize →
    d'.data (v.fatSector d.blockSize cluster + k * v.sectorsPerFat) o =
      d'.data (v.fatSector d.blockSize cluster) o
  /-- Nothing else is written. -/
  frame : ∀ s, (∀ k, k < v.fatCount → s ≠ v.fatSector d.blockSize cluster + k * v.sectorsPerFat) →
    d'.data s = d.data s

section
variable {d : Disk} (hv : v.Consistent d.blockSize) {cluster : Nat}
  (hc : cluster < v.totalClusters + 2) {c : Cache}
include hv hc

/-- A set changes its entry where the cache holds the sector. -/
theorem setFatEntry_eq (hc2 : 2 ≤ cluster) (value : Nat)
    (hbuf : ∀ o, o < d.blockSize → (c.load d (v.fatSector d.blockSize cluster)).buffer o =
      d.data (v.fatSector d.blockSize cluster) o)
    (hns : ¬v.straddles d.blockSize cluster)
    (hok : ∀ k, k < v.fatCount →
      d.bad (v.fatSector d.blockSize cluster + k * v.sectorsPerFat) = false) :
    ∃ d' c', v.setFatEntry d c cluster value = (true, d', c') ∧ v.Sets d d' cluster value ∧
      c'.currentSector = v.fatSector d.blockSize cluster ∧
      ∀ o, o < d.blockSize → c'.buffer o = d'.data (v.fatSector d.blockSize cluster) o := by
  obtain ⟨hb, -⟩ := hv.block
  have hsec := hv.fatSector_eq hc
  have hslt := hv.sector_lt hc
  have hin := hv.inside hc hns
  have hbits := hv.offset_bits hc
  have hput := putEntry_spec hv.type cluster value (v.entOffset d.blockSize cluster)
    (c.load d (v.fatSector d.blockSize cluster)).buffer
  have hload : (c.load d (v.fatSector d.blockSize cluster)).currentSector =
      v.fatSector d.blockSize cluster := by
    unfold Cache.load
    split
    · rfl
    · rename_i h; exact not_not.mp h
  have hu : ∀ k, k < v.fatCount →
      v.fatSector d.blockSize cluster + k * v.sectorsPerFat < u32 := by
    intro k hk
    have h1 := hv.sectors
    have h2 : (k + 1) * v.sectorsPerFat ≤ v.fatCount * v.sectorsPerFat :=
      Nat.mul_le_mul_right _ hk
    rw [Nat.succ_mul] at h2
    omega
  generalize hbuf' : v.putEntry cluster value (v.entOffset d.blockSize cluster)
    (c.load d (v.fatSector d.blockSize cluster)).buffer = buf' at hput
  obtain ⟨hdata, hframe⟩ := writeCopies_data (v := v) hu hok
  obtain ⟨hbs, hbad⟩ := writeCopies_fields (v := v) (v.fatSector d.blockSize cluster) buf'
    v.fatCount d
  have hfirst : ∀ o, o < d.blockSize →
      (v.writeCopies (v.fatSector d.blockSize cluster) buf' v.fatCount d).data
        (v.fatSector d.blockSize cluster) o = buf' o := by
    intro o ho
    have h := hdata 0 hv.copies o ho
    rwa [Nat.zero_mul, Nat.add_zero] at h
  refine ⟨v.writeCopies (v.fatSector d.blockSize cluster) buf' v.fatCount d,
    ⟨buf', v.fatSector d.blockSize cluster⟩, ?_, ⟨hbs, hbad, fun i hi => ?_, fun k hk o ho => ?_,
      hframe⟩, rfl, fun o ho => (hfirst o ho).symm⟩
  · unfold setFatEntry
    rw [if_neg (by omega)]
    dsimp only
    rw [hbuf', hload]
  · -- the bits of the sector of the entry, and those of the other sectors
    have hi8 : i / 8 < v.sectorsPerFat * d.blockSize := by omega
    have hidiv : i / 8 / d.blockSize < v.sectorsPerFat := by
      rwa [Nat.div_lt_iff_lt_mul hb]
    by_cases hsame : i / 8 / d.blockSize = v.fatOffset cluster / d.blockSize
    · have hio := Nat.mod_lt (i / 8) hb
      have h1 := Nat.div_add_mod (i / 8) d.blockSize
      have h2 := Nat.div_add_mod (v.fatOffset cluster) d.blockSize
      rw [hsame] at h1
      have hent : v.fatOffset cluster % d.blockSize = v.entOffset d.blockSize cluster := rfl
      have hbit : ∀ (d₀ : Disk) (m : Mem), d₀.blockSize = d.blockSize →
          (∀ o, o < d.blockSize → d₀.data (v.fatSector d.blockSize cluster) o = m o) →
          (v.copy d₀ 0).bit i = m.bit (8 * (i / 8 % d.blockSize) + i % 8) := by
        intro d₀ m hd₀ hm
        refine bit_congr ?_ (by omega)
        unfold copy
        rw [hd₀, Nat.zero_mul, Nat.add_zero, hsame, ← hsec, hm _ hio]
        congr 1
        omega
      rw [hbit _ buf' hbs hfirst, hput, hbit d _ rfl fun o ho => (hbuf o ho).symm]
      by_cases hfield : v.fatType * cluster ≤ i ∧ i < v.fatType * cluster + v.width
      · rw [if_pos hfield, if_pos (by omega)]
        congr 1
        omega
      · rw [if_neg hfield, if_neg (by omega)]
    · have hout : ∀ k, k < v.fatCount → v.firstFatSector + i / 8 / d.blockSize ≠
          v.fatSector d.blockSize cluster + k * v.sectorsPerFat := by
        intro k hk heq
        rw [hsec] at heq
        rcases Nat.eq_zero_or_pos k with rfl | hpos
        · rw [Nat.zero_mul] at heq
          omega
        · have hk := Nat.le_mul_of_pos_left v.sectorsPerFat hpos
          have h0 := Nat.zero_le (v.fatOffset cluster / d.blockSize)
          omega
      have hnot : ¬(v.fatType * cluster ≤ i ∧ i < v.fatType * cluster + v.width) := by
        rintro ⟨h1, h2⟩
        have hlen := hv.bits_le cluster
        refine hsame ?_
        rw [show i / 8 = v.fatOffset cluster + (i / 8 - v.fatOffset cluster) by omega]
        refine div_same hb ?_
        show v.entOffset d.blockSize cluster + (i / 8 - v.fatOffset cluster) < d.blockSize
        omega
      rw [if_neg hnot]
      refine bit_congr ?_ rfl
      unfold copy
      rw [hbs, Nat.zero_mul, Nat.add_zero, hframe _ hout]
  · rw [hdata k hk o ho, hfirst o ho]

end

end Volume

end Unisym.Fat
