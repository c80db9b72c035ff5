/-
# `TableRuns` — sequences of table accesses

Several one-sector caches stand before the same table, the buffer of the
filesystem and any number of `FAT_TableScratch`.  What they should amount to is
one function from clusters to values (`specStep`).  `coherent_run`: they do, as
long as each call finds in its cache what the disk holds, and no FAT12 entry
that ends in the next sector is set.

Nothing in the code keeps the caches in step, and `set_fat_entry` puts the
second byte of such an entry behind the buffer (`caches_diverge`).
-/
import Unisym.Fat.TableSpec

namespace Unisym.Fat

open Function Mem

/-- The disk and the caches. -/
structure TableWorld (κ : Type*) where
  disk : Disk
  caches : κ → Cache

/-- The calls; `k` says which cache they work on. -/
inductive TableCall (κ : Type*) where
  | get (k : κ) (cluster : Nat)
  | set (k : κ) (cluster value : Nat)

variable {κ : Type*} [DecidableEq κ]

/-- One call: its answer and the world after it. -/
def TableWorld.step (v : Volume) (w : TableWorld κ) : TableCall κ → Nat × TableWorld κ
  | .get k cluster =>
      let r := v.getFatEntry w.disk (w.caches k) cluster
      (r.1, ⟨w.disk, update w.caches k r.2⟩)
  | .set k cluster value =>
      let r := v.setFatEntry w.disk (w.caches k) cluster value
      (r.1.toNat, ⟨r.2.1, update w.caches k r.2.2⟩)

/-- A sequence of calls: the answers and the world after them. -/
def TableWorld.run (v : Volume) : TableWorld κ → List (TableCall κ) → List Nat × TableWorld κ
  | w, [] => ([], w)
  | w, call :: calls =>
      let r := w.step v call
      let rest := TableWorld.run v r.2 calls
      (r.1 :: rest.1, rest.2)

/-! ## What is meant -/

/-- A table is a function from clusters to values. -/
def specStep (v : Volume) (t : Nat → Nat) : TableCall κ → Nat × (Nat → Nat)
  | .get _ cluster => (v.normal (t cluster), t)
  | .set _ cluster value => (1, update t cluster (value % 2 ^ v.width))

/-- A sequence of calls on a table. -/
def specRun (v : Volume) : (Nat → Nat) → List (TableCall κ) → List Nat × (Nat → Nat)
  | t, [] => ([], t)
  | t, call :: calls =>
      let r := specStep v t call
      let rest := specRun v r.2 calls
      (r.1 :: rest.1, rest.2)

/-- All copies of a sector of the table agree. -/
def Mirrored (v : Volume) (d : Disk) (s : Nat) : Prop :=
  ∀ k, k < v.fatCount → ∀ o, o < d.blockSize →
    d.data (v.firstFatSector + s + k * v.sectorsPerFat) o = d.data (v.firstFatSector + s) o

/-! ## When it holds -/

/-- The cache does not hold the sector and can read it, or has its bytes from
`lo` up to `hi`. -/
def Cache.Fresh (c : Cache) (d : Disk) (sec lo hi : Nat) : Prop :=
  if c.currentSector = sec then ∀ o, lo ≤ o → o < hi → o < d.blockSize → c.buffer o = d.data sec o
  else d.bad sec = false

/-- A cluster of the volume. -/
def Volume.Valid (v : Volume) (cluster : Nat) : Prop := 2 ≤ cluster ∧ cluster < v.totalClusters + 2

/-- When a call does what is meant. -/
def TableCall.Ok (v : Volume) (w : TableWorld κ) : TableCall κ → Prop
  | .get k cluster =>
      v.Valid cluster ∧
      (w.caches k).Fresh w.disk (v.fatSector w.disk.blockSize cluster)
        (v.entOffset w.disk.blockSize cluster)
        (v.entOffset w.disk.blockSize cluster + v.entLen) ∧
      (v.straddles w.disk.blockSize cluster →
        w.disk.bad (v.fatSector w.disk.blockSize cluster + 1) = false)
  | .set k cluster _ =>
      v.Valid cluster ∧
      (w.caches k).Fresh w.disk (v.fatSector w.disk.blockSize cluster) 0 w.disk.blockSize ∧
      ¬v.straddles w.disk.blockSize cluster ∧
      ∀ k, k < v.fatCount →
        w.disk.bad (v.fatSector w.disk.blockSize cluster + k * v.sectorsPerFat) = false

/-- Every call of a sequence is `Ok` where it is made. -/
def TableOkRun (v : Volume) : TableWorld κ → List (TableCall κ) → Prop
  | _, [] => True
  | w, call :: calls => call.Ok v w ∧ TableOkRun v (w.step v call).2 calls

theorem Cache.Fresh.load {c : Cache} {d : Disk} {sec lo hi : Nat} (h : c.Fresh d sec lo hi) {o : Nat}
    (h1 : lo ≤ o) (h2 : o < hi) (h3 : o < d.blockSize) : (c.load d sec).buffer o = d.data sec o := by
  unfold Fresh at h
  unfold Cache.load
  by_cases hs : c.currentSector = sec
  · rw [if_pos hs] at h
    rw [if_neg (not_not_intro hs)]
    exact h o h1 h2 h3
  · rw [if_neg hs] at h
    rw [if_pos hs]
    unfold Disk.read
    rw [if_neg (by rw [h]; simp)]
    exact if_pos h3

namespace Volume

variable {v : Volume} {d d' : Disk} {cluster value : Nat}

theorem Sets.entry (hs : v.Sets d d' cluster value) (hv : v.Consistent d.blockSize)
    (hc : cluster < v.totalClusters + 2) {c : Nat} (hcc : c < v.totalClusters + 2) :
    v.entry d' c = update (v.entry d) cluster (value % 2 ^ v.width) c := by
  have hlt := hv.offset_lt hcc
  have hw : v.width ≤ v.fatType := by
    unfold Volume.width
    split <;> omega
  unfold Volume.entry
  by_cases heq : c = cluster
  · subst heq
    rw [update_self]
    refine Nat.eq_of_testBit_eq fun j => ?_
    rw [testBit_field, Nat.testBit_mod_two_pow]
    by_cases hj : j < v.width
    · rw [hs.bits _ (by omega), if_pos (by omega), Nat.add_sub_cancel_left]
    · rw [decide_eq_false hj, Bool.false_and, Bool.false_and]
  · rw [update_of_ne heq]
    refine field_congr fun j hj => ?_
    rw [hs.bits _ (by omega), if_neg]
    rcases Nat.lt_or_gt_of_ne heq with hlt' | hlt'
    · have := Nat.mul_le_mul_left v.fatType hlt'
      rw [Nat.mul_succ] at this
      omega
    · have := Nat.mul_le_mul_left v.fatType hlt'
      rw [Nat.mul_succ] at this
      omega

/-- A set keeps the sectors that are mirrored, and mirrors its own. -/
theorem Sets.mirrored (hs : v.Sets d d' cluster value) (hv : v.Consistent d.blockSize)
    (hc : cluster < v.totalClusters + 2) {s : Nat} (hsec : s < v.sectorsPerFat)
    (h : Mirrored v d s ∨ v.fatOffset cluster / d.blockSize = s) : Mirrored v d' s := by
  have hfs := hv.fatSector_eq hc
  intro k hk o ho
  rw [hs.blockSize] at ho
  by_cases heq : v.fatOffset cluster / d.blockSize = s
  · have hag := hs.agree k hk o ho
    rwa [hfs, heq] at hag
  · have hne : ∀ i j, i < v.fatCount → j < v.fatCount →
        v.firstFatSector + s + i * v.sectorsPerFat ≠
          v.fatSector d.blockSize cluster + j * v.sectorsPerFat := by
      intro i j _ _ he
      have hslt := hv.sector_lt hc
      rw [hfs, Nat.add_assoc, Nat.add_assoc, Nat.add_left_cancel_iff] at he
      -- equal sums of a remainder and a multiple
      have hmod := congrArg (· % v.sectorsPerFat) he
      simp only [Nat.add_mul_mod_self_right, Nat.mod_eq_of_lt hsec, Nat.mod_eq_of_lt hslt] at hmod
      exact heq hmod.symm
    rw [hs.frame _ (fun j hj => hne k j hk hj)]
    have h0 := hs.frame (v.firstFatSector + s) fun j hj => by
      have h := hne 0 j hv.copies hj
      rwa [Nat.zero_mul, Nat.add_zero] at h
    rw [h0]
    exact (h.resolve_right heq) k hk o ho

end Volume

/-- Where a call writes. -/
def TableCall.Touches (v : Volume) (b s : Nat) : TableCall κ → Prop
  | .get _ _ => False
  | .set _ cluster _ => v.fatOffset cluster / b = s

/-- The bits of the table that belong to no entry. -/
def Volume.Reserved (v : Volume) (i : Nat) : Prop :=
  ∀ c, c < v.totalClusters + 2 → ¬(v.fatType * c ≤ i ∧ i < v.fatType * c + v.width)

/-- How the world after some calls is related to the table `t` they amount to. -/
structure Coherent (v : Volume) (w w' : TableWorld κ) (t : Nat → Nat) (calls : List (TableCall κ)) :
    Prop where
  blockSize : w'.disk.blockSize = w.disk.blockSize
  entries : ∀ c, c < v.totalClusters + 2 → v.entry w'.disk c = t c
  reserved : ∀ i, i < 8 * (v.sectorsPerFat * w.disk.blockSize) → v.Reserved i →
    (v.copy w'.disk 0).bit i = (v.copy w.disk 0).bit i
  mirrored : ∀ s, s < v.sectorsPerFat →
    (Mirrored v w.disk s ∨ ∃ call ∈ calls, call.Touches v w.disk.blockSize s) → Mirrored v w'.disk s

theorem TableCall.Ok.step {v : Volume} {w : TableWorld κ} {call : TableCall κ} {t : Nat → Nat}
    (hok : call.Ok v w) (hv : v.Consistent w.disk.blockSize)
    (ht : ∀ c, c < v.totalClusters + 2 → v.entry w.disk c = t c) :
    (w.step v call).1 = (specStep v t call).1 ∧
      Coherent v w (w.step v call).2 (specStep v t call).2 [call] := by
  cases call with
  | get k cluster =>
    obtain ⟨⟨-, hlt⟩, hfresh, hnext⟩ := hok
    have hget := Volume.getFatEntry_eq hv hlt
      (fun o ho hin => hfresh.load (by omega) (by omega) hin) hnext
    refine ⟨?_, rfl, ht, fun _ _ _ => rfl, fun s _ h => h.elim id ?_⟩
    · show (v.getFatEntry w.disk (w.caches k) cluster).1 = v.normal (t cluster)
      rw [hget, ht cluster hlt]
    · rintro ⟨call, hmem, htouch⟩
      rw [List.mem_singleton.mp hmem] at htouch
      exact absurd htouch id
  | set k cluster value =>
    obtain ⟨⟨h2, hlt⟩, hfresh, hns, hgood⟩ := hok
    obtain ⟨d', c', hset, hsets, -, -⟩ := Volume.setFatEntry_eq hv hlt h2 value
      (fun o ho => hfresh.load (Nat.zero_le _) ho ho) hns hgood
    have hstep : w.step v (.set k cluster value) = (1, ⟨d', update w.caches k c'⟩) := by
      unfold TableWorld.step
      simp only [hset]
      rfl
    rw [hstep]
    refine ⟨rfl, hsets.blockSize, fun c hc => ?_, fun i hi hres => ?_, fun s hs h => ?_⟩
    · rw [hsets.entry hv hlt hc]
      show _ = update t cluster _ c
      by_cases heq : c = cluster
      · rw [heq, update_self, update_self]
      · rw [update_of_ne heq, update_of_ne heq, ht c hc]
    · rw [hsets.bits i hi, if_neg (hres cluster hlt)]
    · refine hsets.mirrored hv hlt hs (h.imp id ?_)
      rintro ⟨call, hmem, htouch⟩
      rwa [List.mem_singleton.mp hmem] at htouch

/-- A sequence of `Ok` calls is answered as the table would answer, and leaves
the table it amounts to: the entries are those set last, the reserved bits are
the old ones, and all copies agree where they did or where an entry was set. -/
theorem coherent_run {v : Volume} : ∀ {calls : List (TableCall κ)} {w : TableWorld κ} {t : Nat → Nat},
    v.Consistent w.disk.blockSize → TableOkRun v w calls →
    (∀ c, c < v.totalClusters + 2 → v.entry w.disk c = t c) →
    (w.run v calls).1 = (specRun v t calls).1 ∧
      Coherent v w (w.run v calls).2 (specRun v t calls).2 calls
  | [], w, t, _, _, ht => ⟨rfl, rfl, ht, fun _ _ _ => rfl, fun _ _ h => h.elim id (by simp)⟩
  | call :: calls, w, t, hv, ⟨hok, hrest⟩, ht => by
      obtain ⟨hans, hco⟩ := hok.step hv ht
      have hv' : v.Consistent (w.step v call).2.disk.blockSize := by rw [hco.blockSize]; exact hv
      obtain ⟨hans', hco'⟩ := coherent_run hv' hrest hco.entries
      refine ⟨?_, hco'.blockSize.trans hco.blockSize, hco'.entries, fun i hi hres => ?_,
        fun s hs h => hco'.mirrored s hs ?_⟩
      · show _ :: _ = _ :: _
        rw [hans, hans']
      · rw [show (w.run v (call :: calls)).2 = ((w.step v call).2.run v calls).2 from rfl,
          hco'.reserved i (by rw [hco.blockSize]; exact hi) hres, hco.reserved i hi hres]
      · rw [hco.blockSize]
        rcases h with h | ⟨c, hmem, htouch⟩
        · exact Or.inl (hco.mirrored s hs (Or.inl h))
        · rcases List.mem_cons.mp hmem with rfl | hmem
          · exact Or.inl (hco.mirrored s hs (Or.inr ⟨c, List.mem_singleton_self c, htouch⟩))
          · exact Or.inr ⟨c, hmem, htouch⟩

/-! ## Runs on one volume -/

/-- A FAT16 volume with two copies of one sector. -/
def volume16 : Volume := ⟨16, 1, 1, 2, 100⟩

/-- A FAT12 volume with two copies of two sectors. -/
def volume12 : Volume := ⟨12, 1, 2, 2, 400⟩

/-- An empty disk, and two caches that hold nothing. -/
def emptyWorld : TableWorld Bool :=
  ⟨⟨512, fun _ _ => 0, fun _ => false⟩, fun _ => ⟨fun _ => 0, 0xFFFFFFFF⟩⟩

theorem volume16_consistent : volume16.Consistent 512 :=
  ⟨by decide, by decide, by decide, by decide, by decide, by decide, by decide⟩

/-- A value is set through one cache and read through the other. -/
theorem coherent_run_two :
    (emptyWorld.run volume16 [.set true 2 5, .get false 2]).1 =
      (specRun volume16 (volume16.entry emptyWorld.disk)
        [(.set true 2 5 : TableCall Bool), .get false 2]).1 := by
  refine (coherent_run volume16_consistent ?_ fun _ _ => rfl).1
  refine ⟨⟨⟨by decide, by decide⟩, ?_, fun h => absurd h.1 (by decide), fun _ _ => rfl⟩,
    ⟨⟨by decide, by decide⟩, ?_, fun _ => rfl⟩, trivial⟩
  · exact (if_neg (by decide)).mpr rfl
  · exact (if_neg (by decide)).mpr rfl

/-- A cache that was filled before a set through another one answers with the
old value, and a FAT12 entry that ends in the next sector loses its upper bits. -/
theorem caches_diverge :
    (emptyWorld.run volume16 [.get false 2, .set true 2 5, .get false 2]).1 = [0, 1, 0] ∧
    (specRun volume16 (volume16.entry emptyWorld.disk)
      [(.get false 2 : TableCall Bool), .set true 2 5, .get false 2]).1 = [0, 1, 5] ∧
    (emptyWorld.run volume12 [.set false 341 0x123, .get true 341]).1 = [1, 0x3] ∧
    (specRun volume12 (volume12.entry emptyWorld.disk)
      [(.set false 341 0x123 : TableCall Bool), .get true 341]).1 = [1, 0x123] := by
  decide

end Unisym.Fat
