/-
# `DirectorySpec` — rules for the walks

A walk over a directory is two loops around a visit of a sector.  What a loop
does is said once, as a rule: what every visit keeps holds where the loop ends
without a stop (`Walks.sectors`, `Walks.clusters`).  The second rule is for a
chain of clusters, `Chain`, which is what the table on the disk says
(`Sound.getFatEntry`), for a cache that holds what the disk holds.

A walk that needs no more than the order of the sectors is a walk over a list
of them (`walkDirectory_eq`).
-/
import Unisym.Fat.Directory

namespace Unisym.Fat

open Function Mem

/-! ## The table -/

/-- A table that fits its geometry and can be read. -/
structure Volume.Sound (v : Volume) (d : Disk) : Prop where
  consistent : v.Consistent d.blockSize
  readable : ∀ s, s < v.sectorsPerFat → d.bad (v.firstFatSector + s) = false
  inside : v.firstFatSector + v.sectorsPerFat < u32

/-- If a cache has a sector of the table, it has what the disk has. -/
def Cache.Holds (v : Volume) (d : Disk) (c : Cache) : Prop :=
  ∀ s, s < v.sectorsPerFat → c.currentSector = v.firstFatSector + s →
    ∀ o, o < d.blockSize → c.buffer o = d.data (v.firstFatSector + s) o

theorem Cache.Holds.fresh {v : Volume} {d : Disk} (hs : v.Sound d) (scratch : Mem) :
    Cache.Holds v d ⟨scratch, 0xFFFFFFFF⟩ := by
  intro s hs' heq
  have hinside := hs.inside
  rw [u32] at hinside
  have : 0xFFFFFFFF = v.firstFatSector + s := heq
  omega

theorem Cache.Holds.read {v : Volume} {d : Disk} (hs : v.Sound d) (buf : Mem) (sec : Nat) :
    Cache.Holds v d ⟨(d.read sec buf).2, sec⟩ := by
  intro s hs' heq o ho
  obtain rfl : sec = v.firstFatSector + s := heq
  show (d.read (v.firstFatSector + s) buf).2 o = _
  rw [Disk.read, if_neg (Bool.eq_false_iff.mp (hs.readable s hs'))]
  exact if_pos ho

theorem Cache.Holds.load {v : Volume} {d : Disk} {c : Cache} (h : c.Holds v d) (hs : v.Sound d) (sec : Nat) :
    (c.load d sec).Holds v d := by
  rw [Cache.load]
  split
  · exact .read hs _ _
  · exact h

namespace Volume

variable {v : Volume} {d : Disk}

/-- A read gets what the table says, and leaves a cache that holds what the disk holds. -/
theorem Sound.getFatEntry (hs : v.Sound d) {c : Cache} (hc : c.Holds v d) {cluster : Nat} (hv : v.Valid cluster) :
    (v.getFatEntry d c cluster).1 = v.normal (v.entry d cluster) ∧ (v.getFatEntry d c cluster).2.Holds v d := by
  have hlt := hv.2
  have hsec := hs.consistent.fatSector_eq hlt
  have hin := hs.consistent.sector_lt hlt
  constructor
  · refine getFatEntry_eq hs.consistent hlt (fun k hk ho => ?_) fun hstraddle => ?_
    · have hload := hc.load hs (v.fatSector d.blockSize cluster) _ hin
      rw [hsec] at hload ⊢
      refine hload ?_ _ ho
      rw [Cache.load]
      split
      · rfl
      · rename_i hcur
        exact not_not.mp hcur
    · -- the entry ends inside the table
      have hentries := hs.consistent.entries
      have hbits := hs.consistent.offset_bits hlt
      have hb := hs.consistent.block.1
      obtain ⟨ht, hoff⟩ := hstraddle
      rw [entOffset] at hoff
      have hdiv := Nat.div_add_mod (v.fatOffset cluster) d.blockSize
      have hnext : v.fatOffset cluster / d.blockSize + 1 < v.sectorsPerFat := by
        have hmul : v.fatType * (cluster + 1) ≤ v.fatType * (v.totalClusters + 2) := Nat.mul_le_mul_left _ hlt
        have hsucc : v.fatType * (cluster + 1) = v.fatType * cluster + 12 := by rw [Nat.mul_add, ht]
        have hfits : v.fatOffset cluster + 1 < v.sectorsPerFat * d.blockSize := by omega
        have hcarry : v.fatOffset cluster + 1 = d.blockSize * (v.fatOffset cluster / d.blockSize + 1) := by
          rw [Nat.mul_add, Nat.mul_one]
          omega
        rw [hcarry, Nat.mul_comm] at hfits
        exact Nat.lt_of_mul_lt_mul_right hfits
      rw [hsec, Nat.add_assoc]
      exact hs.readable _ hnext
  · rw [Volume.getFatEntry]
    dsimp only
    have hload := hc.load hs (v.fatSector d.blockSize cluster)
    split
    · exact hload
    · split
      · exact hload
      · dsimp only
        split
        · exact .read hs _ _
        · exact hload

/-- The clusters from `cluster` on, to the end of the chain. -/
inductive Chain (v : Volume) (d : Disk) : Nat → List Nat → Prop
  | done {cluster : Nat} (h : ¬(2 ≤ cluster ∧ cluster < endMark)) : Chain v d cluster []
  | link {cluster : Nat} {rest : List Nat} (hv : v.Valid cluster)
      (h : Chain v d (v.normal (v.entry d cluster)) rest) : Chain v d cluster (cluster :: rest)

theorem Consistent.valid_lt (hv : v.Consistent d.blockSize) {cluster : Nat} (h : v.Valid cluster) :
    2 ≤ cluster ∧ cluster < endMark := by
  have hlt := h.2
  have hentries := hv.entries
  have hoffsets := hv.offsets
  refine ⟨h.1, ?_⟩
  have hmul : 12 * (cluster + 1) ≤ v.fatType * (v.totalClusters + 2) :=
    Nat.mul_le_mul (by rcases hv.type with ht | ht | ht <;> omega) hlt
  rw [u32] at hoffsets
  rw [endMark]
  omega

end Volume

/-! ## The loops -/

/-- Where a loop stands: `P` if it was not stopped, `Q` if it was. -/
def Walks {σ : Type} (P : σ → Prop) (Q : DirWalkResult → σ → Prop) (r : DirWalkResult × σ) : Prop :=
  if r.1 = .walkContinue then P r.2 else Q r.1 r.2

variable {σ : Type} {P P' : σ → Prop} {Q Q' : DirWalkResult → σ → Prop}

theorem Walks.of_continue {st : σ} (h : P st) : Walks P Q (.walkContinue, st) := h

theorem Walks.stop {res : DirWalkResult} {st : σ} (hres : res ≠ .walkContinue) (h : Q res st) : Walks P Q (res, st) := by
  rw [Walks, if_neg hres]
  exact h

theorem Walks.mono {r : DirWalkResult × σ} (h : Walks P Q r) (hP : ∀ st, P st → P' st)
    (hQ : ∀ res st, Q res st → Q' res st) : Walks P' Q' r := by
  rw [Walks] at h ⊢
  split at h
  · rename_i hcont
    rw [if_pos hcont]
    exact hP _ h
  · rename_i hstop
    rw [if_neg hstop]
    exact hQ _ _ h

theorem Walks.sectors {visit : Nat → σ → DirWalkResult × σ} {P : Nat → σ → Prop} : ∀ (count s : Nat) {st : σ},
    (∀ s' st, s ≤ s' → s' < s + count → P s' st → Walks (P (s' + 1)) Q (visit s' st)) → P s st →
      Walks (P (s + count)) Q (walkSectors visit count s st)
  | 0, _, _, _, hst => hst
  | count + 1, s, st, hstep, hst => by
    have hfirst := hstep s st (Nat.le_refl s) (by omega) hst
    rw [walkSectors]
    rw [Walks] at hfirst
    split at hfirst
    · rename_i hcont
      have hsum : s + (count + 1) = s + 1 + count := by omega
      rw [if_pos hcont, hsum]
      exact Walks.sectors count (s + 1) (fun s' st hle hlt => hstep s' st (by omega) (by omega)) hfirst
    · rename_i hstop
      rw [if_neg hstop]
      exact .stop hstop hfirst

/-- How the loop over clusters ends. -/
structure ChainWalk.Ends (v : Volume) (d : Disk) (P : Nat → List Nat → σ → Prop) (Q : DirWalkResult → σ → Prop)
    (limit : Nat) (cs : List Nat) (w : ChainWalk σ) : Prop where
  walks : Walks (fun st => v.Chain d w.cluster [] ∧ P w.cluster [] st) Q (w.res, w.st)
  /-- Where it was stopped, it could have gone on. -/
  stopped : w.res ≠ .walkContinue → (2 ≤ w.cluster ∧ w.cluster < Volume.endMark) ∧ limit ≤ w.limit + cs.length
  cache : w.cache.Holds v d

/-- The loop over clusters, for a chain it can walk to the end. -/
theorem Walks.clusters {v : Volume} {d : Disk} (hs : v.Sound d) {visit : Nat → σ → DirWalkResult × σ}
    {moved : Nat → σ → σ} {P : Nat → List Nat → σ → Prop}
    (hstep : ∀ c cs st, v.Valid c → v.Chain d (v.normal (v.entry d c)) cs → P c (c :: cs) st →
      Walks (fun st' => P (v.normal (v.entry d c)) cs (moved (v.normal (v.entry d c)) st')) Q (visit c st)) :
    ∀ (limit : Nat) {cluster : Nat} {cs : List Nat} {c : Cache} {st : σ}, v.Chain d cluster cs → cs.length ≤ limit →
      c.Holds v d → P cluster cs st →
        (walkClusters v d visit moved limit cluster c st).Ends v d P Q limit cs
  | 0, cluster, cs, c, st, hchain, hlen, hc, hst => by
    obtain rfl : cs = [] := List.length_eq_zero_iff.mp (Nat.le_zero.mp hlen)
    exact ⟨.of_continue ⟨hchain, hst⟩, fun h => absurd rfl h, hc⟩
  | limit + 1, _, _, c, st, .done hout, _, hc, hst => by
    rw [walkClusters, if_neg hout]
    exact ⟨.of_continue ⟨.done hout, hst⟩, fun h => absurd rfl h, hc⟩
  | limit + 1, cluster, _, c, st, @Volume.Chain.link _ _ _ rest hv hrest, hlen, hc, hst => by
    have hin := hs.consistent.valid_lt hv
    have hvisit := hstep cluster rest st hv hrest hst
    obtain ⟨hnext, hcache⟩ := hs.getFatEntry hc hv
    rw [walkClusters, if_pos hin]
    dsimp only
    rw [Walks] at hvisit
    split at hvisit
    · rename_i hcont
      rw [if_pos hcont, hnext]
      have ih := Walks.clusters hs hstep limit hrest (Nat.le_of_succ_le_succ hlen) hcache hvisit
      refine ⟨ih.walks, fun hstop => ⟨(ih.stopped hstop).1, ?_⟩, ih.cache⟩
      have hleft := (ih.stopped hstop).2
      rw [List.length_cons]
      omega
    · rename_i hstop
      rw [if_neg hstop]
      refine ⟨.stop hstop hvisit, fun _ => ⟨hin, ?_⟩, hc⟩
      rw [List.length_cons]
      show limit + 1 ≤ limit + (rest.length + 1)
      omega

/-! ## A directory -/

namespace Filesys

variable (fs : Filesys) (d : Disk)

/-- A directory with a fixed place. -/
def Fixed (startCluster : Nat) : Prop := startCluster = 0 ∧ fs.fatType ≠ 32

/-- The cluster a directory starts with. -/
def firstCluster (startCluster : Nat) : Nat :=
  if startCluster = 0 ∧ fs.fatType = 32 then fs.rootCluster else startCluster

/-- A directory that can be walked to its end. -/
structure Directory (startCluster : Nat) : Prop where
  sound : fs.Sound d
  chain : ¬fs.Fixed startCluster →
    ∃ cs, fs.Chain d (fs.firstCluster startCluster) cs ∧ cs.length < walkLimit

/-- The sectors from `first` on. -/
def sectorRun (first count : Nat) : List Nat := (List.range' 0 count).map fun s => (first + s) % u32

/-- The sectors of a directory, in the order of the walks. -/
def Sectors (startCluster : Nat) (secs : List Nat) : Prop :=
  (fs.Fixed startCluster → secs = sectorRun fs.startSec fs.rootDirSectors) ∧
    (¬fs.Fixed startCluster → ∃ cs, fs.Chain d (fs.firstCluster startCluster) cs ∧ cs.length < walkLimit ∧
      secs = cs.flatMap fun c => sectorRun (fs.getSectorFoCluster c) fs.sectorsPerCluster)

end Filesys

/-- A walk over a list of sectors. -/
def walkList (visit : Nat → σ → DirWalkResult × σ) : List Nat → σ → DirWalkResult × σ
  | [], st => (.walkContinue, st)
  | sec :: secs, st =>
      let r := visit sec st
      if r.1 = .walkContinue then walkList visit secs r.2 else r

theorem walkSectors_eq (visit : Nat → σ → DirWalkResult × σ) (first : Nat) : ∀ (count s : Nat) (st : σ),
    walkSectors (fun s => visit ((first + s) % u32)) count s st =
      walkList visit ((List.range' s count).map fun s => (first + s) % u32) st
  | 0, _, _ => rfl
  | count + 1, s, st => by
    rw [walkSectors, List.range'_succ, List.map_cons, walkList, walkSectors_eq visit first count]

theorem walkList_append (visit : Nat → σ → DirWalkResult × σ) (more : List Nat) : ∀ (secs : List Nat) (st : σ),
    walkList visit (secs ++ more) st =
      if (walkList visit secs st).1 = .walkContinue then walkList visit more (walkList visit secs st).2
      else walkList visit secs st
  | [], st => (if_pos rfl).symm
  | sec :: secs, st => by
    rw [List.cons_append, walkList, walkList, walkList_append visit more secs]
    split <;> rfl

variable {fs : Filesys} {d : Disk}

theorem walkDirectory_eq (hsound : fs.Sound d) {c : Cache} (hc : c.Holds fs.toVolume d) {dirCluster : Nat}
    {secs : List Nat} (hsecs : fs.Sectors d dirCluster secs) (visit : Nat → σ → DirWalkResult × σ) (st : σ) :
    (fs.walkDirectory d c dirCluster visit st).1 = walkList visit secs st ∧
      (fs.walkDirectory d c dirCluster visit st).2.Holds fs.toVolume d := by
  rw [Filesys.walkDirectory]
  split
  · rename_i hfixed
    rw [hsecs.1 hfixed]
    exact ⟨walkSectors_eq visit fs.startSec fs.rootDirSectors 0 st, hc⟩
  · rename_i hfixed
    obtain ⟨cs, hchain, hlength, rfl⟩ := hsecs.2 hfixed
    have hends : ChainWalk.Ends fs.toVolume d _
        (fun res st' => (res, st') = walkList visit
          (cs.flatMap fun c => Filesys.sectorRun (fs.getSectorFoCluster c) fs.sectorsPerCluster) st) walkLimit cs
        (walkClusters fs.toVolume d (fun cluster => walkSectors
          (fun s => visit ((fs.getSectorFoCluster cluster + s) % u32)) fs.sectorsPerCluster 0) (fun _ st => st)
          walkLimit (fs.firstCluster dirCluster) c st) :=
      Walks.clusters hsound
        (P := fun _ cs' st' =>
          walkList visit (cs'.flatMap fun c => Filesys.sectorRun (fs.getSectorFoCluster c) fs.sectorsPerCluster) st' =
            walkList visit (cs.flatMap fun c => Filesys.sectorRun (fs.getSectorFoCluster c) fs.sectorsPerCluster) st)
        (fun c cs' st' hv hrest hP => by
          rw [List.flatMap_cons, walkList_append] at hP
          rw [walkSectors_eq]
          rw [Filesys.sectorRun] at hP
          rw [Walks]
          split at hP
          · rename_i hcont
            rw [if_pos hcont]
            exact hP
          · rename_i hstop
            rw [if_neg hstop]
            exact hP)
        walkLimit hchain (Nat.le_of_lt hlength) hc rfl
    rw [Filesys.firstCluster] at hends
    dsimp only
    generalize walkClusters _ _ _ _ _ _ _ _ = w at hends ⊢
    refine ⟨?_, hends.cache⟩
    have hwalk := hends.walks
    rw [Walks] at hwalk
    split at hwalk
    · rename_i hcont
      have hlast : (w.res, w.st) = (.walkContinue, w.st) := Prod.ext hcont rfl
      exact hlast.trans hwalk.2
    · exact hwalk

/-! ## A small volume -/

/-- A FAT16 volume with a root of two sectors, of two entries each. -/
def smallVolume : Filesys where
  fatType := 16
  firstFatSector := 1
  sectorsPerFat := 1
  fatCount := 2
  totalClusters := 20
  rootDirSectors := 2
  firstDataSector := 5
  rootCluster := 0
  sectorsPerCluster := 1
  allowAllocate := true

/-- Its root has the files `A`, `B` and `C`. -/
def smallDisk : Disk where
  blockSize := 64
  data sec o :=
    if sec = 3 then (if o = 0 then 0x41 else if o = 32 then 0x42 else 0x20)
    else if sec = 4 ∧ o < 32 then (if o = 0 then 0x43 else 0x20)
    else 0
  bad _ := false

theorem smallVolume_sound : smallVolume.Sound smallDisk :=
  ⟨⟨by decide, by decide, by decide, by decide, by decide, by decide, by decide⟩, fun _ _ => rfl, by decide⟩

end Unisym.Fat
