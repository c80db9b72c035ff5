/-
# `ISO9660Spec` — path lookup walks the tree of the volume

`tree` is the tree that the directories of a volume make, by the names in full.  On a well-formed volume
`search` walks it, with the components of the path cut into pieces of 127 bytes (`search_walks`): it
agrees with the tree unless a longer component has pieces that lead somewhere (`search_agrees_iff`).
-/
import Unisym.Disc.ISO9660
import Unisym.Library.TreeWalk
import Mathlib.Data.List.Find

namespace Unisym.Disc

open Mem ISO9660DirectoryRecord FilesysISO9660 List Option

/-! ## Paths -/

/-- The components of a path, without the empty ones. -/
def components (path : List UInt8) : List (List UInt8) := (path.splitOn slash).filter (· ≠ [])

/-- A component cut after every `n` bytes. -/
def cut (n : Nat) (s : List UInt8) : List (List UInt8) :=
  if n = 0 ∨ s = [] then [] else s.take n :: cut n (s.drop n)
termination_by s.length
decreasing_by
  rename_i h
  have := length_pos_iff.mpr fun hs => h (.inr hs)
  simp only [length_drop]
  omega

/-- The components of a path, each cut after every 127 bytes. -/
def pieces (path : List UInt8) : List (List UInt8) := (components path).flatMap (cut (nameSize - 1))

def stepOf (name : List UInt8) : PathStep (List UInt8) :=
  if name = dot then .stay else if name = dotdot then .up else .down name

@[simp] theorem components_nil : components [] = [] := by
  simp [components, splitOn_nil]

@[simp] theorem components_slash (p : List UInt8) : components (slash :: p) = components p := by
  simp [components, splitOn_cons_eq_if_modifyHead]

theorem components_skipSlashes : (p : List UInt8) → components (skipSlashes p) = components p
  | [] => rfl
  | c :: p => by
    by_cases hc : c = slash
    · rw [hc, components_slash]
      exact components_skipSlashes p
    · rw [skipSlashes, dropWhile_cons_of_neg (by simpa using hc)]

theorem components_append_slash (p q : List UInt8) :
    components (p ++ slash :: q) = components p ++ components q := by
  simp [components, splitOn_append_cons_self]

variable {s : List UInt8} {n m : Nat}

theorem components_of_notMem (hs : slash ∉ s) :
    components s = if s = [] then [] else [s] := by
  rw [components, splitOn_eq_singleton hs]
  by_cases h : s = [] <;> simp [h]

theorem mem_splitOn_slash : {path c : List UInt8} → c ∈ path.splitOn slash → slash ∉ c ∧ c ⊆ path
  | [], c, hc => by
    rw [splitOn_nil, mem_singleton] at hc
    simp [hc]
  | b :: path, c, hc => by
    obtain ⟨s, ss, hsplit⟩ := exists_cons_of_ne_nil (splitOn_ne_nil slash path)
    have hmem : ∀ x ∈ s :: ss, slash ∉ x ∧ x ⊆ path := fun x hx =>
      mem_splitOn_slash (hsplit ▸ hx)
    rw [splitOn_cons_eq_if_modifyHead, hsplit] at hc
    split at hc
    · rcases mem_cons.mp hc with rfl | hc
      · simp
      · exact ⟨(hmem c hc).1, fun x hx => mem_cons_of_mem _ ((hmem c hc).2 hx)⟩
    · rename_i hb
      rcases mem_cons.mp hc with rfl | hc
      · obtain ⟨hs, hsub⟩ := hmem s mem_cons_self
        refine ⟨?_, cons_subset_cons b hsub⟩
        rintro (_ | ⟨_, h⟩)
        · exact hb (by simp)
        · exact hs h
      · obtain ⟨hc', hsub⟩ := hmem c (mem_cons_of_mem _ hc)
        exact ⟨hc', fun x hx => mem_cons_of_mem _ (hsub hx)⟩

theorem mem_components {path c : List UInt8} (hc : c ∈ components path) :
    c ≠ [] ∧ slash ∉ c ∧ c ⊆ path := by
  obtain ⟨hc, hne⟩ := mem_filter.mp hc
  exact ⟨by simpa using hne, mem_splitOn_slash hc⟩

@[simp] theorem cut_nil (n : Nat) : cut n [] = [] := by
  rw [cut, if_pos (.inr rfl)]

theorem cut_cons (hn : 0 < n) (hs : s ≠ []) :
    cut n s = s.take n :: cut n (s.drop n) := by
  rw [cut, if_neg (by simp [hs]; omega)]

theorem cut_of_le (hs : s ≠ []) (hle : s.length ≤ n) : cut n s = [s] := by
  rw [cut_cons (Nat.lt_of_lt_of_le (length_pos_iff.mpr hs) hle) hs, take_of_length_le hle,
    drop_of_length_le hle, cut_nil]

theorem takeSegment_eq : (room : Nat) → (p : List UInt8) →
    takeSegment room p =
      ((p.takeWhile (· != slash)).take room, p.drop ((p.takeWhile (· != slash)).take room).length)
  | 0, p => by simp [takeSegment]
  | room + 1, [] => by simp [takeSegment]
  | room + 1, c :: p => by
    by_cases hc : c = slash
    · simp [takeSegment, hc]
    · simp [takeSegment, hc, takeSegment_eq room p]

theorem components_append {r : List UInt8} (hs : slash ∉ s) (hr : ∀ c ∈ r.head?, c = slash) :
    components (s ++ r) = (if s = [] then [] else [s]) ++ components r := by
  cases r with
  | nil => rw [append_nil, components_of_notMem hs, components_nil, append_nil]
  | cons c r =>
    rw [hr c rfl, components_append_slash, components_of_notMem hs, components_slash]

/-- The pieces of a path: the segment that `search` takes, and those of the path behind it. -/
theorem pieces_eq {p segment rest : List UInt8} (h : takeSegment (nameSize - 1) p = (segment, rest)) :
    pieces p = (if segment = [] then [] else [segment]) ++ pieces (skipSlashes rest) := by
  rw [takeSegment_eq] at h
  obtain ⟨rfl, rfl⟩ := Prod.mk.inj h
  have hsplit := takeWhile_append_dropWhile (p := (· != slash)) (l := p)
  have hs : slash ∉ p.takeWhile (· != slash) := fun h => by
    simpa using mem_takeWhile_imp h
  have hr : ∀ c ∈ (p.dropWhile (· != slash)).head?, c = slash := fun c hc => by
    have := head?_dropWhile_not (· != slash) p
    simpa [mem_def.mp hc] using this
  generalize p.takeWhile (· != slash) = s at *
  generalize p.dropWhile (· != slash) = r at *
  subst hsplit
  rw [pieces, components_append hs hr, pieces, components_skipSlashes]
  by_cases hempty : s = []
  · simp [hempty]
  by_cases hle : s.length ≤ nameSize - 1
  -- the segment is a whole component
  · simp [hempty, take_of_length_le hle, cut_of_le hempty hle]
  -- the segment is a piece of a component, the next one begins at once
  · have htake : (s.take (nameSize - 1)).length = nameSize - 1 := by
      rw [length_take]
      omega
    have hdrop : s.drop (nameSize - 1) ≠ [] := by
      rw [Ne, drop_eq_nil_iff]
      exact hle
    have hpos : 0 < nameSize - 1 := by decide
    have hne : s.take (nameSize - 1) ≠ [] := by
      rw [← length_pos_iff, htake]
      exact hpos
    have hrest : components (s.drop (nameSize - 1) ++ r) =
        s.drop (nameSize - 1) :: components r := by
      rw [components_append (fun h => hs (mem_of_mem_drop h)) hr, if_neg hdrop]
      rfl
    rw [htake, drop_append_of_le_length (by omega), hrest, if_neg hempty, if_neg hne,
      singleton_append, singleton_append, flatMap_cons, flatMap_cons,
      cut_cons hpos hempty, cons_append]

/-! ## Names in full -/

/-- Room for every name: a record has 255 bytes, and two of them make three at most. -/
def fullSize : Nat := 1024

theorem appendBytes_of_short {name bytes : List UInt8} (hnm : n ≤ m)
    (h : (appendBytes m name bytes).length < n) : appendBytes n name bytes = appendBytes m name bytes := by
  rw [appendBytes, length_append, length_take] at h
  rw [appendBytes, appendBytes]
  by_cases hfits : bytes.length ≤ m - 1 - name.length
  · rw [take_of_length_le hfits, take_of_length_le (by omega)]
  · rw [show n - 1 - name.length = m - 1 - name.length by omega]

theorem length_le_appendBytes (n : Nat) (name bytes : List UInt8) :
    name.length ≤ (appendBytes n name bytes).length := by
  rw [appendBytes, length_append]
  exact Nat.le_add_right _ _

theorem appendUtf8_of_short {name : List UInt8} {codepoint : Nat} (hnm : n ≤ m)
    (h : (appendUtf8 m name codepoint).length < n) :
    appendUtf8 n name codepoint = appendUtf8 m name codepoint := by
  unfold appendUtf8 at h ⊢
  grind

theorem length_le_appendUtf8 (n : Nat) (name : List UInt8) (codepoint : Nat) :
    name.length ≤ (appendUtf8 n name codepoint).length := by
  unfold appendUtf8
  grind

theorem length_le_foldl_appendUtf8 (n : Nat) : (codepoints : List Nat) → (name : List UInt8) →
    name.length ≤ (codepoints.foldl (appendUtf8 n) name).length
  | [], _ => Nat.le_refl _
  | c :: codepoints, name =>
    Nat.le_trans (length_le_appendUtf8 n name c) (length_le_foldl_appendUtf8 n codepoints _)

theorem foldl_appendUtf8_of_short (hnm : n ≤ m) : (codepoints : List Nat) →
    (name : List UInt8) → (codepoints.foldl (appendUtf8 m) name).length < n →
    codepoints.foldl (appendUtf8 n) name = codepoints.foldl (appendUtf8 m) name
  | [], _, _ => rfl
  | c :: codepoints, name, h => by
    have hc := appendUtf8_of_short hnm
      (Nat.lt_of_le_of_lt (length_le_foldl_appendUtf8 m codepoints (appendUtf8 m name c)) h)
    rw [foldl_cons, foldl_cons, hc]
    exact foldl_appendUtf8_of_short hnm codepoints _ h

theorem rdropWhile_take {α : Type} (p : α → Bool) (k : Nat) (l : List α)
    (h : (l.rdropWhile p).length ≤ k) : (l.take k).rdropWhile p = l.rdropWhile p := by
  induction l using List.reverseRecOn with
  | nil => rw [take_nil]
  | append_singleton l x ih =>
    by_cases hk : k ≤ l.length
    · by_cases hx : p x = true
      · rw [rdropWhile_concat_pos _ _ _ hx] at h ⊢
        rw [take_append_of_le_length hk]
        exact ih h
      · rw [rdropWhile_concat_neg _ _ _ hx, length_append, length_singleton] at h
        omega
    · rw [take_of_length_le (by rw [length_append, length_singleton]; omega)]

variable (rec : ISO9660DirectoryRecord)

theorem decodeNameAscii_of_short (hnm : n ≤ m)
    (h : (rec.decodeNameAscii m).length < n) : rec.decodeNameAscii n = rec.decodeNameAscii m := by
  unfold decodeNameAscii at h ⊢
  split
  · rfl
  split
  · rfl
  rename_i h0 h1
  rw [if_neg h0, if_neg h1] at h
  simp only [appendBytes, nil_append, length_nil, Nat.sub_zero] at h ⊢
  rw [← rdropWhile_take _ (n - 1) (List.take (m - 1) _) (by omega), take_take,
    Nat.min_eq_left (by omega)]

theorem decodeNameJoliet_of_short (hnm : n ≤ m)
    (h : (rec.decodeNameJoliet m).length < n) : rec.decodeNameJoliet n = rec.decodeNameJoliet m := by
  unfold decodeNameJoliet at h ⊢
  split
  · rfl
  split
  · rfl
  rename_i h0 h1
  rw [if_neg h0, if_neg h1] at h
  exact foldl_appendUtf8_of_short hnm _ _ h

theorem length_le_rrNames (n su suLen : Nat) : (fuel used : Nat) → (found : Bool × List UInt8) →
    found.2.length ≤ (rec.rrNames n su suLen fuel used found).2.length
  | 0, _, _ => Nat.le_refl _
  | fuel + 1, used, found => by
    unfold rrNames
    split
    · dsimp only
      split
      · exact Nat.le_refl _
      · refine Nat.le_trans ?_ (length_le_rrNames n su suLen fuel _ _)
        split
        · exact length_le_appendBytes _ _ _
        · exact Nat.le_refl _
    · exact Nat.le_refl _

theorem rrNames_of_short (hnm : n ≤ m) (su suLen : Nat) : (fuel used : Nat) →
    (found : Bool × List UInt8) → (rec.rrNames m su suLen fuel used found).2.length < n →
    rec.rrNames n su suLen fuel used found = rec.rrNames m su suLen fuel used found
  | 0, _, _, _ => rfl
  | fuel + 1, used, found, h => by
    unfold rrNames at h ⊢
    split
    case isFalse => rfl
    case isTrue hfits =>
      rw [if_pos hfits] at h
      dsimp only at h ⊢
      split
      case isTrue => rfl
      case isFalse hlong =>
        rw [if_neg hlong] at h
        have hshort := Nat.lt_of_le_of_lt (length_le_rrNames rec m su suLen fuel _ _) h
        split
        case isTrue hnamed =>
          rw [if_pos hnamed] at h hshort
          rw [appendBytes_of_short hnm hshort]
          exact rrNames_of_short hnm su suLen fuel _ _ h
        case isFalse hnamed =>
          rw [if_neg hnamed] at h
          exact rrNames_of_short hnm su suLen fuel _ _ h

/-- As long as no name is found there are no bytes of one. -/
theorem rrNames_nil (n su suLen : Nat) : (fuel used : Nat) → (found : Bool × List UInt8) →
    (found.1 = false → found.2 = []) → (rec.rrNames n su suLen fuel used found).1 = false →
    (rec.rrNames n su suLen fuel used found).2 = []
  | 0, _, _, hfound, h => hfound h
  | fuel + 1, used, found, hfound, h => by
    unfold rrNames at h ⊢
    split
    case isFalse hfits => exact hfound (by rwa [if_neg hfits] at h)
    case isTrue hfits =>
      rw [if_pos hfits] at h
      dsimp only at h ⊢
      split
      case isTrue hlong => exact hfound (by rwa [if_pos hlong] at h)
      case isFalse hlong =>
        rw [if_neg hlong] at h
        refine rrNames_nil n su suLen fuel _ _ ?_ h
        split
        · exact nofun
        · exact hfound

theorem extractRrName_of_short (hnm : n ≤ m) (hn : 0 < n)
    (h : ∀ name, rec.extractRrName m = some name → name.length < n) :
    rec.extractRrName n = rec.extractRrName m := by
  unfold extractRrName at h ⊢
  split
  · rfl
  rename_i hspecial
  rw [if_neg hspecial] at h
  cases harea : rec.systemUseArea with
  | none => rfl
  | some area =>
    obtain ⟨su, suLen⟩ := area
    simp only [harea] at h ⊢
    have hshort : (rec.rrNames m su suLen suLen 0 (false, [])).2.length < n := by
      by_cases hfound : (rec.rrNames m su suLen suLen 0 (false, [])).1 = true ∧
          (rec.rrNames m su suLen suLen 0 (false, [])).2 ≠ []
      · exact h _ (if_pos hfound)
      · have hempty : (rec.rrNames m su suLen suLen 0 (false, [])).2 = [] := by
          by_contra hne
          exact hne (rrNames_nil rec m su suLen suLen 0 _ (fun _ => rfl)
            (Bool.eq_false_iff.mpr fun hfst => hfound ⟨hfst, hne⟩))
        rwa [hempty]
    rw [rrNames_of_short rec hnm su suLen suLen 0 _ hshort]

theorem decodeName_of_short (fs : FilesysISO9660) (hnm : n ≤ m)
    (h : (fs.decodeName rec m).length < n) : fs.decodeName rec n = fs.decodeName rec m := by
  unfold decodeName at h ⊢
  split
  case isTrue hrr =>
    rw [if_pos hrr] at h
    have hextract : rec.extractRrName n = rec.extractRrName m :=
      extractRrName_of_short rec hnm (Nat.lt_of_le_of_lt (Nat.zero_le _) h) fun name hname => by
        rwa [hname, getD_some] at h
    rw [hextract]
    cases hname : rec.extractRrName m with
    | some name => rfl
    | none =>
      rw [hname] at h
      exact decodeNameAscii_of_short rec hnm h
  case isFalse hrr =>
    rw [if_neg hrr] at h
    split
    case isTrue hjoliet =>
      rw [if_pos hjoliet] at h
      exact decodeNameJoliet_of_short rec hnm h
    case isFalse hjoliet =>
      rw [if_neg hjoliet] at h
      exact decodeNameAscii_of_short rec hnm h

/-! ## The tree of a volume -/

/-- An entry of the tree: the extent, the length, and whether it is a directory. -/
structure Node where
  extentLba : Nat
  dataLength : Nat
  isDir : Bool
  deriving DecidableEq

/-- An entry of a directory, with its name in full. -/
structure DirEntry where
  fileId : List UInt8
  name : List UInt8
  node : Node
  deriving DecidableEq

def ISO9660FileHandle.node (h : ISO9660FileHandle) : Node := ⟨h.extentLba, h.dataLength, h.isDir⟩

def ISO9660FileHandle.parentNode (h : ISO9660FileHandle) : Node :=
  ⟨h.parentExtentLba, h.parentDataLength, h.parentFlags &&& 0x02 != 0⟩

/-- The first two entries of a directory are none of its children. -/
def DirEntry.isChild (e : DirEntry) : Bool := e.name != dot && e.name != dotdot

/-- The names are equal but for the case of letters. -/
def sameName (a b : List UInt8) : Bool := a.map asciiTolower == b.map asciiTolower

namespace FilesysISO9660

variable (fs : FilesysISO9660)

def rootNode : Node := ⟨fs.rootExtentLba, fs.rootDataLength, true⟩

def entryOf : DirEntry :=
  ⟨rec.fileId, fs.decodeName rec fullSize, ⟨rec.extentLba, rec.dataLength, rec.flags &&& 0x02 != 0⟩⟩

/-- The records in `count` sectors from `lba` on, if they can be read. -/
def records : (count lba : Nat) → Option (List ISO9660DirectoryRecord)
  | 0, _ => some []
  | count + 1, lba => do
      let buffer ← fs.read lba
      let recs ← records count (lba + 1)
      some (sectorRecords buffer lba 2048 2048 0 ++ recs)

/-- The entries of a directory. -/
def entries (n : Node) : Option (List DirEntry) :=
  (fs.records (n.dataLength / 2048) n.extentLba).map fun recs => recs.map fs.entryOf

def tree : NamedTree (List UInt8) Node where
  root := fs.rootNode
  isDir n := n.isDir
  child n name := (fs.entries n).bind fun es =>
    (es.find? fun e => e.isChild && sameName e.name name).map DirEntry.node

/-- What an entry other than the first two has. -/
structure EntryOk (e : DirEntry) : Prop where
  ne_nil : e.name ≠ []
  ne_dot : e.name ≠ dot
  ne_dotdot : e.name ≠ dotdot
  no_slash : slash ∉ e.name
  no_zero : 0 ∉ e.name
  short : e.name.length < nameSize
  /-- No directory below the root is the root. -/
  ne_root : e.node ≠ fs.rootNode

/-- A directory at its place in the tree. -/
structure DirectoryOk (p : Place Node) : Prop where
  /-- It has whole sectors of the volume. -/
  sectors : ∃ count, p.node.dataLength = 2048 * count ∧ 2048 * count < u32 ∧
    p.node.extentLba + count ≤ u32
  /-- The first two entries are the directory itself and its parent. -/
  entries : ∃ rest, fs.entries p.node =
      some (⟨[0], dot, p.node⟩ :: ⟨[1], dotdot, fs.tree.parent p⟩ :: rest) ∧
    (∀ e ∈ rest, fs.EntryOk e) ∧ rest.Pairwise fun a b => sameName a.name b.name = false

structure WellFormed : Prop where
  loaded : fs.fsLoaded = true
  blockSize : fs.logicalBlockSize = 2048
  directories : ∀ p, fs.tree.HasPlace p → p.node.isDir = true → fs.DirectoryOk p

/-! ## The loops over a directory -/

variable {fs}

variable {total : Nat} {call : Report} {p : Place Node} {e : DirEntry} {h : ISO9660FileHandle}
  {c : UInt8} {path : List UInt8}

/-- The loop over the sectors finds the first hit of the records. -/
theorem findRecord_eq (hsize : fs.logicalBlockSize = 2048) (hit : ISO9660DirectoryRecord → Bool)
    {extent : Nat} : (count sec : Nat) → (recs : List ISO9660DirectoryRecord) →
    fs.records count (extent + sec) = some recs → extent + sec + count ≤ u32 →
    total = 2048 * (sec + count) →
    fs.findRecord hit extent total count sec (2048 * sec) = recs.find? hit
  | 0, sec, recs, h, _, _ => by
    cases h
    rfl
  | count + 1, sec, recs, h, hlba, htotal => by
    obtain ⟨buffer, hread, h⟩ := bind_eq_some_iff.mp h
    obtain ⟨rest, hrest, h⟩ := bind_eq_some_iff.mp h
    cases h
    have hused : min fs.logicalBlockSize (total - 2048 * sec) = 2048 := by
      rw [hsize, htotal]
      omega
    have hmod : (extent + sec) % u32 = extent + sec := Nat.mod_eq_of_lt (by omega)
    have ih := findRecord_eq hsize hit count (sec + 1) rest hrest (by omega)
      (htotal.trans (by omega))
    rw [findRecord]
    simp only [hmod, hread, hused]
    rw [find?_append, show 2048 * sec + 2048 = 2048 * (sec + 1) by omega, ih]
    cases (sectorRecords buffer (extent + sec) 2048 2048 0).find? hit <;> rfl

theorem mem_enumerRecords : (recs : List ISO9660DirectoryRecord) →
    (state : Option FilesysEnumState) → call ∈ (fs.enumerRecords recs state).1 →
    ∃ rec ∈ recs, call = fs.report rec
  | [], _, h => by cases h
  | rec :: recs, none, h => by
    rcases mem_cons.mp h with rfl | h
    · exact ⟨rec, mem_cons_self, rfl⟩
    · obtain ⟨rec', hrec, hcall⟩ := mem_enumerRecords recs none h
      exact ⟨rec', mem_cons_of_mem _ hrec, hcall⟩
  | rec :: recs, some state, h => by
    have hlater : ∀ state', call ∈ (fs.enumerRecords recs state').1 →
        ∃ rec' ∈ rec :: recs, call = fs.report rec' := fun state' h => by
      obtain ⟨rec', hrec, hcall⟩ := mem_enumerRecords recs state' h
      exact ⟨rec', mem_cons_of_mem _ hrec, hcall⟩
    rw [enumerRecords] at h
    split at h
    · split at h
      · exact ⟨rec, mem_cons_self, mem_singleton.mp h⟩
      · rcases mem_cons.mp h with rfl | h
        · exact ⟨rec, mem_cons_self, rfl⟩
        · exact hlater _ h
    · exact hlater _ h

theorem mem_enumerSectors (hsize : fs.logicalBlockSize = 2048) {extent : Nat} :
    (count sec : Nat) → (recs : List ISO9660DirectoryRecord) → (state : Option FilesysEnumState) →
    fs.records count (extent + sec) = some recs → extent + sec + count ≤ u32 →
    total = 2048 * (sec + count) →
    call ∈ (fs.enumerSectors extent total count sec (2048 * sec) state).1 →
    ∃ rec ∈ recs, call = fs.report rec
  | 0, sec, recs, state, _, _, _, hcall => by cases hcall
  | count + 1, sec, recs, state, h, hlba, htotal, hcall => by
    obtain ⟨buffer, hread, h⟩ := bind_eq_some_iff.mp h
    obtain ⟨rest, hrest, h⟩ := bind_eq_some_iff.mp h
    cases h
    have hused : min fs.logicalBlockSize (total - 2048 * sec) = 2048 := by
      rw [hsize, htotal]
      omega
    have hmod : (extent + sec) % u32 = extent + sec := Nat.mod_eq_of_lt (by omega)
    rw [enumerSectors] at hcall
    simp only [hmod, hread, hused] at hcall
    have hhere (h : call ∈
        (fs.enumerRecords (sectorRecords buffer (extent + sec) 2048 2048 0) state).1) :=
      mem_enumerRecords _ _ h
    rcases hsector : fs.enumerRecords (sectorRecords buffer (extent + sec) 2048 2048 0) state with
      ⟨calls, state', goesOn⟩
    rw [hsector] at hhere
    have hfirst : call ∈ calls → ∃ rec ∈ sectorRecords buffer (extent + sec) 2048 2048 0 ++ rest,
        call = fs.report rec := fun h => by
      obtain ⟨rec, hrec, heq⟩ := hhere h
      exact ⟨rec, mem_append_left _ hrec, heq⟩
    cases goesOn with
    | false =>
      simp only [hsector] at hcall
      exact hfirst hcall
    | true =>
      simp only [hsector] at hcall
      rcases mem_append.mp hcall with hcall | hcall
      · exact hfirst hcall
      · rw [show 2048 * sec + 2048 = 2048 * (sec + 1) by omega] at hcall
        obtain ⟨rec, hrec, heq⟩ := mem_enumerSectors hsize count (sec + 1) rest state' hrest
          (by omega) (by omega) hcall
        exact ⟨rec, mem_append_right _ hrec, heq⟩

/-! ## One directory -/

theorem cString_of_notMem {s : List UInt8} (h : 0 ∉ s) : cString s = s := by
  rw [cString, takeWhile_eq_self_iff]
  intro c hc
  simpa using fun hzero : c = 0 => h (hzero ▸ hc)

theorem DirectoryOk.plain (hp : fs.DirectoryOk p)
    (he : e ∈ (fs.entries p.node).getD []) : 0 ∉ e.name ∧ e.name.length < nameSize := by
  obtain ⟨rest, hentries, hrest, _⟩ := hp.entries
  rw [hentries, getD_some] at he
  rcases mem_cons.mp he with rfl | he
  · show 0 ∉ dot ∧ dot.length < nameSize
    decide
  rcases mem_cons.mp he with rfl | he
  · show 0 ∉ dotdot ∧ dotdot.length < nameSize
    decide
  · exact ⟨(hrest e he).no_zero, (hrest e he).short⟩

theorem decodeName_eq {rec : ISO9660DirectoryRecord} (h : (fs.entryOf rec).name.length < nameSize) :
    fs.decodeName rec nameSize = (fs.entryOf rec).name :=
  decodeName_of_short rec fs (by decide) h

theorem DirectoryOk.records (hp : fs.DirectoryOk p) :
    ∃ recs, fs.records (p.node.dataLength / 2048) p.node.extentLba = some recs ∧
      fs.entries p.node = some (recs.map fs.entryOf) := by
  obtain ⟨rest, hentries, _⟩ := hp.entries
  obtain ⟨recs, hrecs, _⟩ := map_eq_some_iff.mp hentries
  exact ⟨recs, hrecs, by rw [FilesysISO9660.entries, hrecs, map_some]⟩

theorem sectorCount_eq (hsize : fs.logicalBlockSize = 2048) {count : Nat}
    (htotal : total = 2048 * count) (hlt : 2048 * count < u32) : fs.sectorCount total = count := by
  rw [sectorCount, hsize, htotal]
  simp only [u32] at hlt ⊢
  omega

/-- The loop over the sectors of a directory goes over its records. -/
theorem DirectoryOk.findRecord (hp : fs.DirectoryOk p)
    (hsize : fs.logicalBlockSize = 2048) (hnode : h.node = p.node)
    {recs : List ISO9660DirectoryRecord}
    (hrecs : fs.records (p.node.dataLength / 2048) p.node.extentLba = some recs)
    (hit : ISO9660DirectoryRecord → Bool) :
    fs.findRecord hit h.extentLba h.dataLength (fs.sectorCount h.dataLength) 0 0 =
      recs.find? hit := by
  obtain ⟨count, hlength, hlt, hbelow⟩ := hp.sectors
  have hextent : h.extentLba = p.node.extentLba := congrArg Node.extentLba hnode
  have hdata : h.dataLength = 2048 * count := (congrArg Node.dataLength hnode).trans hlength
  rw [hlength, Nat.mul_div_cancel_left count (by decide)] at hrecs
  rw [sectorCount_eq hsize hdata hlt, hextent]
  exact findRecord_eq hsize hit count 0 recs hrecs hbelow (by rw [hdata, Nat.zero_add])

theorem asciiTolower_eq_dot (h : asciiTolower c = 46) : c = 46 := by
  unfold asciiTolower at h
  split at h
  · rename_i hc
    have : c.toNat ≤ 90 := UInt8.le_iff_toNat_le.mp hc.2
    have hle : 65 ≤ c.toNat := UInt8.le_iff_toNat_le.mp hc.1
    have := congrArg UInt8.toNat h
    rw [UInt8.toNat_add] at this
    simp at this
    omega
  · exact h

theorem isChild_of_sameName {target : List UInt8} (hdot : target ≠ dot)
    (hdotdot : target ≠ dotdot) (h : sameName e.name target = true) : e.isChild = true := by
  have hdots : ∀ n : Nat, e.name = List.replicate n 46 → target = List.replicate n 46 := by
    intro n hn
    rw [sameName, hn, beq_iff_eq, map_replicate] at h
    refine eq_replicate_iff.mpr ⟨?_, fun c hc => asciiTolower_eq_dot ?_⟩
    · simpa using (congrArg List.length h).symm
    · exact eq_of_mem_replicate (h ▸ mem_map_of_mem hc : asciiTolower c ∈
        List.replicate n (asciiTolower 46))
  simp only [DirEntry.isChild, Bool.and_eq_true, bne_iff_ne]
  exact ⟨fun hname => hdot (hdots 1 hname), fun hname => hdotdot (hdots 2 hname)⟩

section

variable (hp : fs.DirectoryOk p) (hsize : fs.logicalBlockSize = 2048) (hdir : p.node.isDir = true)
variable (hnode : h.node = p.node)
include hp hsize hdir hnode

theorem findInDir_eq {target : List UInt8} (htarget : 0 ∉ target) (hdot : target ≠ dot)
    (hdotdot : target ≠ dotdot) :
    (fs.findInDir h target).map ISO9660FileHandle.node = fs.tree.child p.node target := by
  obtain ⟨recs, hrecs, hentries⟩ := hp.records
  have hisDir : h.isDir = true := (congrArg Node.isDir hnode).trans hdir
  have hfind : recs.find? (fun rec => nameEquals (fs.decodeName rec nameSize) target) =
      recs.find? (fun rec => (fs.entryOf rec).isChild && sameName (fs.entryOf rec).name target) := by
    refine find?_congr fun rec hrec => ?_
    obtain ⟨hzero, hshort⟩ := hp.plain (e := fs.entryOf rec)
      (by rw [hentries]; exact mem_map_of_mem hrec)
    rw [nameEquals, decodeName_eq hshort, cString_of_notMem hzero, cString_of_notMem htarget]
    show sameName (fs.entryOf rec).name target = _
    cases hsame : sameName (fs.entryOf rec).name target with
    | false => rw [Bool.and_false]
    | true => rw [isChild_of_sameName hdot hdotdot hsame, Bool.and_true]
  rw [findInDir, if_pos hisDir, hp.findRecord hsize hnode hrecs, hfind]
  show _ = (fs.entries p.node).bind _
  rw [hentries, Option.bind_some, find?_map, Option.map_map, Option.map_map]
  rfl

theorem findSpecialInDir_eq : ∃ grand, fs.findSpecialInDir h 1 = some grand ∧ grand.node = fs.tree.parent p := by
  obtain ⟨recs, hrecs, hentries⟩ := hp.records
  obtain ⟨rest, hfirst, _⟩ := hp.entries
  have hisDir : h.isDir = true := (congrArg Node.isDir hnode).trans hdir
  rw [findSpecialInDir, if_pos hisDir, hp.findRecord hsize hnode hrecs]
  rw [hentries, Option.some.injEq] at hfirst
  obtain ⟨self, recs, rfl, hself, hfirst⟩ := map_eq_cons_iff.mp hfirst
  obtain ⟨parent, recs, rfl, hparent, _⟩ := map_eq_cons_iff.mp hfirst
  have hself' : self.fileId = [0] := congrArg DirEntry.fileId hself
  have hparent' : parent.fileId = [1] := congrArg DirEntry.fileId hparent
  refine ⟨parent.fillHandle, ?_, congrArg DirEntry.node hparent⟩
  simp [hself', hparent']

end

/-! ## `search` -/

variable (fs) in
/-- The handle is that of the place, and knows the node above. -/
structure Holds (h : ISO9660FileHandle) (p : Place Node) : Prop where
  node : h.node = p.node
  valid : h.parentValid = true
  parent : h.parentNode = fs.tree.parent p
  place : fs.tree.HasPlace p

theorem rootHandle_node : fs.rootHandle.node = fs.rootNode :=
  congrArg (Node.mk fs.rootExtentLba fs.rootDataLength) (show ((2 : UInt8) &&& 2 != 0) = true by decide)

theorem rootHandle_holds : fs.Holds fs.rootHandle fs.tree.rootPlace :=
  ⟨rootHandle_node, rfl, rootHandle_node, fs.tree.hasPlace_root⟩

/-- A child is one of the entries, and not one of the first two. -/
theorem DirectoryOk.child_ok (hp : fs.DirectoryOk p) {n : Node} {name : List UInt8}
    (hchild : fs.tree.child p.node name = some n) :
    ∃ e, fs.EntryOk e ∧ e.node = n ∧ sameName e.name name = true := by
  obtain ⟨rest, hentries, hrest, _⟩ := hp.entries
  obtain ⟨es, hes, hfind⟩ := bind_eq_some_iff.mp hchild
  obtain ⟨e, hfound, rfl⟩ := map_eq_some_iff.mp hfind
  have hboth := find?_some hfound
  obtain ⟨hisChild, hsame⟩ := Bool.and_eq_true_iff.mp hboth
  refine ⟨e, ?_, rfl, hsame⟩
  have hmem := mem_of_find?_eq_some hfound
  rw [hentries, Option.some.injEq] at hes
  rw [← hes] at hmem
  rcases mem_cons.mp hmem with rfl | hmem
  · simp [DirEntry.isChild] at hisChild
  rcases mem_cons.mp hmem with rfl | hmem
  · simp [DirEntry.isChild] at hisChild
  · exact hrest e hmem

theorem WellFormed.ne_root (hfs : fs.WellFormed) {n a : Node} {above : List Node}
    (hplace : fs.tree.HasPlace ⟨n, a :: above⟩) : n ≠ fs.rootNode := by
  obtain ⟨hdir, ⟨name, hchild⟩, hplace⟩ := hplace
  obtain ⟨e, he, rfl, _⟩ := (hfs.directories ⟨a, above⟩ hplace hdir).child_ok hchild
  exact he.ne_root

theorem rootNode_iff (hdir : h.isDir = true) :
    (h.extentLba = fs.rootExtentLba ∧ h.dataLength = fs.rootDataLength) ↔ h.node = fs.rootNode := by
  simp [ISO9660FileHandle.node, rootNode, hdir]

theorem searchParent_holds (hfs : fs.WellFormed) {q : Place Node}
    (hp : fs.Holds h p) (hdir : p.node.isDir = true) (hstep : fs.tree.step p .up = some q) :
    fs.Holds (fs.searchParent h) q := by
  have hq : fs.tree.HasPlace q := hp.place.step hdir hstep
  obtain ⟨hqnode, hqdir⟩ := hp.place.step_up hdir hstep
  let parent : ISO9660FileHandle :=
    { extentLba := h.parentExtentLba
      dataLength := h.parentDataLength
      flags := h.parentFlags }
  have hnode : parent.node = q.node := hp.parent.trans hqnode.symm
  have hparentDir : parent.isDir = true := (congrArg Node.isDir hnode).trans hqdir
  have hroot : _ ↔ _ = fs.rootNode := (rootNode_iff hparentDir).trans (Eq.congr_left hnode)
  rw [searchParent, if_pos hp.valid]
  rcases q with ⟨n, _ | ⟨a, above⟩⟩
  -- the parent is the root
  · cases hq
    rw [if_pos (hroot.mpr rfl)]
    exact rootHandle_holds
  · obtain ⟨grand, hgrand, hgrandNode⟩ := findSpecialInDir_eq (hfs.directories _ hq hqdir)
      hfs.blockSize hqdir hnode
    rw [if_neg (hroot.not.mpr (hfs.ne_root hq))]
    simp only [parent] at hgrand
    rw [hgrand]
    exact ⟨hnode, rfl, hgrandNode, hq⟩

theorem searchName_holds (hfs : fs.WellFormed)
    (hp : fs.Holds h p) (hdir : p.node.isDir = true) {segment : List UInt8} (hzero : 0 ∉ segment)
    (hdot : segment ≠ dot) (hdotdot : segment ≠ dotdot) :
    Option.Rel fs.Holds (fs.searchName h segment) (fs.tree.step p (.down segment)) := by
  have hfind := findInDir_eq (hfs.directories p hp.place hdir) hfs.blockSize hdir hp.node hzero hdot
    hdotdot
  rw [searchName, NamedTree.step, ← hfind, Option.map_map]
  cases hnext : fs.findInDir h segment with
  | none => exact .none
  | some next =>
    refine .some ?_
    rw [hnext] at hfind
    have hplace : fs.tree.HasPlace ⟨next.node, p.node :: p.above⟩ :=
      ⟨hdir, ⟨segment, hfind.symm⟩, hp.place⟩
    have hne := hfs.ne_root hplace
    have hnot : ¬ (next.extentLba = fs.rootExtentLba ∧ next.dataLength = fs.rootDataLength ∧
        next.isDir = true) := by
      rintro ⟨hextent, hlength, hisDir⟩
      exact hne ((rootNode_iff hisDir).mp ⟨hextent, hlength⟩)
    dsimp only
    rw [if_neg hnot]
    exact ⟨rfl, rfl, hp.node, hplace⟩

theorem takeSegment_append : (room : Nat) → (p : List UInt8) →
    (takeSegment room p).1 ++ (takeSegment room p).2 = p
  | 0, _ => rfl
  | _ + 1, [] => rfl
  | room + 1, c :: p => by
    unfold takeSegment
    split
    · rfl
    · exact congrArg (c :: ·) (takeSegment_append room p)

theorem skipSlashes_suffix (p : List UInt8) : skipSlashes p <:+ p := dropWhile_suffix _

/-- Each turn of the outer loop uses up a byte of the path. -/
theorem length_skipSlashes_lt {p segment rest : List UInt8}
    (h : takeSegment (nameSize - 1) (c :: p) = (segment, rest)) :
    (skipSlashes rest).length ≤ p.length := by
  have happend := takeSegment_append (nameSize - 1) (c :: p)
  rw [h] at happend
  have hle := (skipSlashes_suffix rest).length_le
  cases segment with
  | nil =>
    cases happend
    have hc : c = slash := by
      by_contra hne
      simp [takeSegment, nameSize, hne] at h
    rw [skipSlashes, dropWhile_cons_of_pos (by simpa using hc)]
    exact (skipSlashes_suffix p).length_le
  | cons b segment =>
    have := congrArg List.length happend
    simp only [cons_append, length_cons, length_append] at this
    omega

theorem pieces_eq_nil {p : List UInt8} (h : pieces (skipSlashes p) = []) : skipSlashes p = [] := by
  cases hp : skipSlashes p with
  | nil => rfl
  | cons c q =>
    have hc : c ≠ slash := by
      have := head?_dropWhile_not (· == slash) p
      rw [← skipSlashes, hp] at this
      simpa using this
    rcases htake : takeSegment (nameSize - 1) (c :: q) with ⟨segment, rest⟩
    rw [hp, pieces_eq htake] at h
    cases segment with
    | nil => simp [takeSegment, nameSize, hc] at htake
    | cons b segment => cases h

theorem searchLoop_walks (hfs : fs.WellFormed) : (fuel : Nat) → (path : List UInt8) →
    path.length ≤ fuel → 0 ∉ path → {h : ISO9660FileHandle} → {p : Place Node} → fs.Holds h p →
    (path ≠ [] → p.node.isDir = true) →
    Option.Rel fs.Holds (fs.searchLoop fuel path h) (fs.tree.walk p ((pieces path).map stepOf))
  | 0, path, hlength, _, h, p, hp, _ => by
    cases eq_nil_of_length_eq_zero (Nat.le_zero.mp hlength)
    exact .some hp
  | fuel + 1, [], _, _, h, p, hp, _ => .some hp
  | fuel + 1, c :: path, hlength, hzero, h, p, hp, hdir => by
    have hdir : p.node.isDir = true := hdir (cons_ne_nil _ _)
    rcases hsegment : takeSegment (nameSize - 1) (c :: path) with ⟨segment, rest⟩
    have happend := takeSegment_append (nameSize - 1) (c :: path)
    rw [hsegment] at happend
    have hrest : (skipSlashes rest).length ≤ fuel :=
      Nat.le_trans (length_skipSlashes_lt hsegment) (Nat.le_of_succ_le_succ hlength)
    have hzeroRest : 0 ∉ skipSlashes rest := fun h =>
      hzero (happend ▸ mem_append_right _ ((skipSlashes_suffix rest).subset h))
    have hzeroSegment : 0 ∉ segment := fun h => hzero (happend ▸ mem_append_left _ h)
    have hloop := fun (q : Place Node) (h' : ISO9660FileHandle) (hq : fs.Holds h' q) =>
      searchLoop_walks hfs fuel (skipSlashes rest) hrest hzeroRest hq
    rw [pieces_eq hsegment]
    simp only [searchLoop, hsegment]
    by_cases hempty : segment = []
    · rw [if_pos (.inl hempty), if_pos hempty]
      exact hloop p h hp fun _ => hdir
    rw [if_neg hempty, singleton_append, map_cons, NamedTree.walk]
    rw [if_pos (show fs.tree.isDir p.node = true from hdir)]
    by_cases hdot : segment = dot
    · rw [if_pos (.inr hdot), stepOf, if_pos hdot]
      exact hloop p h hp fun _ => hdir
    rw [if_neg (not_or.mpr ⟨hempty, hdot⟩), stepOf, if_neg hdot]
    by_cases hdotdot : segment = dotdot
    · rw [if_pos hdotdot, if_pos hdotdot]
      exact hloop _ _ (searchParent_holds hfs hp hdir rfl) fun _ =>
        (hp.place.step_up hdir rfl).2
    rw [if_neg hdotdot, if_neg hdotdot]
    have hname := searchName_holds hfs hp hdir hzeroSegment hdot hdotdot
    generalize fs.searchName h segment = found at hname ⊢
    generalize fs.tree.step p (.down segment) = reached at hname ⊢
    cases hname with
    | none => exact .none
    | @some h' q hq =>
      have hisDir : h'.isDir = q.node.isDir := congrArg Node.isDir hq.node
      dsimp only [bind_some]
      split
      case isTrue hfile =>
        cases hpieces : pieces (skipSlashes rest) with
        | nil => exact absurd (pieces_eq_nil hpieces) hfile.1
        | cons piece others =>
          rw [map_cons, NamedTree.walk]
          rw [if_neg fun h : fs.tree.isDir q.node = true => hfile.2 (hisDir.trans h)]
          exact .none
      case isFalse hgoesOn =>
        refine hloop q h' hq fun hne => ?_
        rw [← hisDir]
        exact Decidable.not_not.mp fun hfile => hgoesOn ⟨hne, hfile⟩

theorem search_walks (hfs : fs.WellFormed) (hzero : 0 ∉ path) :
    Option.Rel fs.Holds (fs.search path)
      (fs.tree.walk fs.tree.rootPlace ((pieces path).map stepOf)) := by
  rw [search, if_neg (not_not.mpr hfs.loaded)]
  split
  case isTrue hroot =>
    have hpieces : pieces path = [] := by
      rcases hroot with rfl | rfl <;> simp [pieces]
    rw [hpieces]
    exact .some rootHandle_holds
  case isFalse =>
    dsimp only
    split
    case isTrue hhead =>
      obtain ⟨p, rfl⟩ : ∃ p, path = slash :: p := by
        cases path with
        | nil => cases hhead
        | cons c p => exact ⟨p, by cases hhead; rfl⟩
      rw [show pieces (slash :: p) = pieces p by rw [pieces, components_slash, pieces]]
      exact searchLoop_walks hfs _ p (Nat.le_refl _) (fun h => hzero (mem_cons_of_mem _ h))
        rootHandle_holds fun _ => rfl
    case isFalse =>
      exact searchLoop_walks hfs _ path (Nat.le_refl _) hzero rootHandle_holds fun _ => rfl

/-! ## What is found -/

theorem pieces_of_short
    (h : ∀ c ∈ components path, c.length ≤ nameSize - 1) : pieces path = components path := by
  have hcut : ∀ cs : List (List UInt8), (∀ c ∈ cs, c ≠ [] ∧ c.length ≤ nameSize - 1) →
      cs.flatMap (cut (nameSize - 1)) = cs := by
    intro cs hcs
    induction cs with
    | nil => rfl
    | cons c cs ih =>
      obtain ⟨hne, hle⟩ := hcs c mem_cons_self
      rw [flatMap_cons, cut_of_le hne hle, ih fun d hd => hcs d (mem_cons_of_mem _ hd)]
      rfl
  exact hcut _ fun c hc => ⟨(mem_components hc).1, h c hc⟩

/-- No name is as long as a component that `search` cuts. -/
theorem walk_none_of_long (hfs : fs.WellFormed) {c : List UInt8} (hc : c ∈ components path)
    (hlong : nameSize - 1 < c.length) :
    fs.tree.walk fs.tree.rootPlace ((components path).map stepOf) = none := by
  have hstep : stepOf c = .down c := by
    have hdot : c ≠ dot := fun h => absurd (h ▸ hlong) (by decide)
    have hdotdot : c ≠ dotdot := fun h => absurd (h ▸ hlong) (by decide)
    rw [stepOf, if_neg hdot, if_neg hdotdot]
  have hmem : .down c ∈ (components path).map stepOf := mem_map.mpr ⟨c, hc, hstep⟩
  refine NamedTree.walk_none_of_missing (fun p hp hdir => ?_) _ hmem _ fs.tree.hasPlace_root
  cases hchild : fs.tree.child p.node c with
  | none => rfl
  | some n =>
    obtain ⟨e, he, _, hsame⟩ := (hfs.directories p hp hdir).child_ok hchild
    have hlength := congrArg List.length (beq_iff_eq.mp hsame)
    rw [length_map, length_map] at hlength
    have := he.short
    simp only [nameSize] at this hlong
    omega

/-- Where the names are distinct, the first entry of this name is the entry itself. -/
theorem find?_name (hchild : e.isChild = true) : (rest : List DirEntry) →
    rest.Pairwise (fun a b => sameName a.name b.name = false) → e ∈ rest →
    rest.find? (fun d => d.isChild && sameName d.name e.name) = some e
  | d :: rest, hdistinct, he => by
    obtain ⟨hd, hrest⟩ := pairwise_cons.mp hdistinct
    rcases mem_cons.mp he with rfl | he
    · rw [find?_cons_of_pos]
      simp [hchild, sameName]
    · rw [find?_cons_of_neg (by simp [hd e he])]
      exact find?_name hchild rest hrest he

theorem DirectoryOk.step_name (hp : fs.DirectoryOk p) (hplace : fs.tree.HasPlace p)
    (hdir : p.node.isDir = true) (he : e ∈ (fs.entries p.node).getD []) :
    e.name ≠ [] ∧ slash ∉ e.name ∧
      (fs.tree.step p (stepOf e.name)).map Place.node = some e.node := by
  obtain ⟨rest, hentries, hrest, hdistinct⟩ := hp.entries
  rw [hentries, getD_some] at he
  rcases mem_cons.mp he with rfl | he
  · exact ⟨cons_ne_nil _ _, show slash ∉ dot by decide, rfl⟩
  rcases mem_cons.mp he with rfl | he
  · refine ⟨cons_ne_nil _ _, show slash ∉ dotdot by decide, ?_⟩
    exact congrArg some (hplace.step_up hdir rfl).1
  · have hok := hrest e he
    refine ⟨hok.ne_nil, hok.no_slash, ?_⟩
    have hchild : e.isChild = true := by simp [DirEntry.isChild, hok.ne_dot, hok.ne_dotdot]
    rw [stepOf, if_neg hok.ne_dot, if_neg hok.ne_dotdot, NamedTree.step, Option.map_map]
    show ((fs.entries p.node).bind _).map _ = _
    rw [hentries, bind_some, find?_cons_of_neg, find?_cons_of_neg,
      find?_name hchild rest hdistinct he]
    · rfl
    · simp [DirEntry.isChild]
    · simp [DirEntry.isChild]

theorem pieces_append_name (path : List UInt8) {name : List UInt8} (hne : name ≠ [])
    (hslash : slash ∉ name) (hshort : name.length < nameSize) :
    pieces (path ++ slash :: name) = pieces path ++ [name] := by
  rw [pieces, components_append_slash, components_of_notMem hslash, if_neg hne, flatMap_append,
    flatMap_singleton, cut_of_le hne (Nat.le_sub_one_of_lt hshort)]
  rfl

theorem rel_node {found : Option ISO9660FileHandle} {reached : Option (Place Node)}
    (h : Option.Rel fs.Holds found reached) :
    found.map ISO9660FileHandle.node = reached.map Place.node := by
  cases h with
  | none => rfl
  | some hp => exact congrArg some hp.node

theorem DirectoryOk.mem_enumer (hp : fs.DirectoryOk p)
    (hsize : fs.logicalBlockSize = 2048) (hnode : h.node = p.node)
    {recs : List ISO9660DirectoryRecord}
    (hrecs : fs.records (p.node.dataLength / 2048) p.node.extentLba = some recs)
    {state : Option FilesysEnumState} (hcall : call ∈ (fs.enumer h state).1) :
    ∃ rec ∈ recs, call = fs.report rec := by
  obtain ⟨count, hlength, hlt, hbelow⟩ := hp.sectors
  have hextent : h.extentLba = p.node.extentLba := congrArg Node.extentLba hnode
  have hdata : h.dataLength = 2048 * count := (congrArg Node.dataLength hnode).trans hlength
  rw [hlength, Nat.mul_div_cancel_left count (by decide)] at hrecs
  unfold enumer at hcall
  split at hcall
  · cases hcall
  split at hcall
  · cases hcall
  rw [sectorCount_eq hsize hdata hlt, hextent] at hcall
  exact mem_enumerSectors hsize count 0 recs state hrecs hbelow (by rw [hdata, Nat.zero_add]) hcall

theorem search_reported (hfs : fs.WellFormed) (hzero : 0 ∉ path) (hsearch : fs.search path = some h) {state : Option FilesysEnumState} (hcall : call ∈ (fs.enumer h state).1) :
    ∃ e ∈ (fs.entries h.node).getD [], call = (e.node.isDir, e.name) ∧
      (fs.search (path ++ slash :: e.name)).map ISO9660FileHandle.node = some e.node := by
  have hwalk := search_walks hfs hzero
  rw [hsearch] at hwalk
  generalize hreached : fs.tree.walk _ _ = reached at hwalk
  cases hwalk with
  | @some _ p hp =>
  have hisDir : h.isDir = true := by
    by_contra hfile
    rw [enumer, if_pos hfile] at hcall
    cases hcall
  have hdir : p.node.isDir = true := (congrArg Node.isDir hp.node).symm.trans hisDir
  have hok := hfs.directories p hp.place hdir
  obtain ⟨recs, hrecs, hentries⟩ := hok.records
  obtain ⟨rec, hrec, rfl⟩ := hok.mem_enumer hfs.blockSize hp.node hrecs hcall
  have he : fs.entryOf rec ∈ (fs.entries p.node).getD [] := by
    rw [hentries]
    exact mem_map_of_mem hrec
  obtain ⟨hnameZero, hshort⟩ := hok.plain he
  obtain ⟨hne, hslash, hstep⟩ := hok.step_name hp.place hdir he
  refine ⟨fs.entryOf rec, hp.node ▸ he, ?_, ?_⟩
  · rw [report, decodeName_eq hshort, cString_of_notMem hnameZero]
    rfl
  · have hzero' : 0 ∉ path ++ slash :: (fs.entryOf rec).name := by
      simp only [mem_append, mem_cons, not_or]
      exact ⟨hzero, by decide, hnameZero⟩
    have hwalk := search_walks hfs hzero'
    rw [pieces_append_name path hne hslash hshort, map_append, NamedTree.walk_append, hreached,
      bind_some, map_singleton, NamedTree.walk,
      if_pos (show fs.tree.isDir p.node = true from hdir)] at hwalk
    rw [rel_node hwalk, ← hstep]
    cases fs.tree.step p (stepOf (fs.entryOf rec).name) <;> rfl

variable (fs) in
/-- `search` leads where the walk along the components does, and what `enumer` reports of a directory
found is found there. -/
def SearchAgrees (path : List UInt8) : Prop :=
  (fs.search path).map ISO9660FileHandle.node =
      (fs.tree.walk fs.tree.rootPlace ((components path).map stepOf)).map Place.node ∧
    ∀ h state call, fs.search path = some h → call ∈ (fs.enumer h state).1 →
      ∃ e ∈ (fs.entries h.node).getD [], call = (e.node.isDir, e.name) ∧
        (fs.search (path ++ slash :: e.name)).map ISO9660FileHandle.node = some e.node

/-- `search` agrees with the tree, unless a component of more than 127 bytes is cut into pieces that lead
to an entry. -/
theorem search_agrees_iff (hfs : fs.WellFormed) {path : List UInt8} (hzero : 0 ∉ path) :
    fs.SearchAgrees path ↔ (∀ c ∈ components path, c.length ≤ 127) ∨
      fs.tree.walk fs.tree.rootPlace ((pieces path).map stepOf) = none := by
  have hwalk := rel_node (search_walks hfs hzero)
  have hreported : ∀ h state call, fs.search path = some h → call ∈ (fs.enumer h state).1 → _ :=
    fun h state call hsearch hcall => search_reported hfs hzero hsearch hcall
  by_cases hshort : ∀ c ∈ components path, c.length ≤ 127
  · refine ⟨fun _ => .inl hshort, fun _ => ⟨?_, hreported⟩⟩
    rw [hwalk, pieces_of_short hshort]
  · obtain ⟨c, hc, hlong⟩ : ∃ c ∈ components path, 127 < c.length := by
      simpa only [not_forall, Nat.not_le, exists_prop] using hshort
    have hnone := walk_none_of_long hfs hc hlong
    rw [SearchAgrees, hnone, hwalk, map_none, map_eq_none_iff]
    exact ⟨fun h => .inr h.1, fun h => ⟨h.resolve_left hshort, hreported⟩⟩

/-! A volume of one directory, whose name has 127 bytes. -/

/-- A record without system use. -/
def recordBytes (extent : UInt8) (id : List UInt8) : List UInt8 :=
  [UInt8.ofNat (33 + id.length), 0, extent, 0, 0, 0, 0, 0, 0, extent, 0, 8, 0, 0, 0, 0, 8, 0,
    0, 0, 0, 0, 0, 0, 0, 2, 0, 0, 1, 0, 0, 1, UInt8.ofNat id.length] ++ id

def longName : List UInt8 := List.replicate 127 100

theorem longName_notMem (hc : c ≠ 100) : c ∉ longName := fun h =>
  hc (eq_of_mem_replicate h)

def longNameVolume : FilesysISO9660 where
  storage :=
    { blockSize := 2048
      units := 22
      block := fun b o =>
        (if b = 20 then recordBytes 20 [0] ++ recordBytes 20 [1] ++ recordBytes 21 longName
          else if b = 21 then recordBytes 21 [0] ++ recordBytes 20 [1] else []).getD o 0
      readFails := fun b n => decide (22 < b + n)
      writeFails := fun _ _ => true
      units_lt := by decide
      blockSize_le := by decide }
  sectorBuffer := fun _ => 0
  logicalBlockSize := 2048
  rootExtentLba := 20
  rootDataLength := 2048
  jolietEnabled := false
  rockridgeEnabled := false
  fsLoaded := true

theorem longNameVolume_entries :
    longNameVolume.entries ⟨20, 2048, true⟩ =
      some [⟨[0], dot, ⟨20, 2048, true⟩⟩, ⟨[1], dotdot, ⟨20, 2048, true⟩⟩,
        ⟨longName, longName, ⟨21, 2048, true⟩⟩] ∧
    longNameVolume.entries ⟨21, 2048, true⟩ =
      some [⟨[0], dot, ⟨21, 2048, true⟩⟩, ⟨[1], dotdot, ⟨20, 2048, true⟩⟩] ∧
    (longNameVolume.search (longName ++ [46])).map ISO9660FileHandle.node = some ⟨21, 2048, true⟩ := by
  decide +kernel

/-- The places of the volume: the root and the directory. -/
theorem longNameVolume_places : (above : List Node) → (n : Node) →
    longNameVolume.tree.Descends n above →
    n = ⟨20, 2048, true⟩ ∧ above = [] ∨ n = ⟨21, 2048, true⟩ ∧ above = [⟨20, 2048, true⟩]
  | [], n, h => .inl ⟨h, rfl⟩
  | a :: above, n, ⟨_, ⟨name, hchild⟩, h⟩ => by
    obtain ⟨es, hes, hfind⟩ := bind_eq_some_iff.mp hchild
    obtain ⟨e, hfound, rfl⟩ := map_eq_some_iff.mp hfind
    have hboth := find?_some hfound
    have hmem := mem_of_find?_eq_some hfound
    have hisChild := (Bool.and_eq_true_iff.mp hboth).1
    rcases longNameVolume_places above a h with ⟨rfl, rfl⟩ | ⟨rfl, rfl⟩
    · rw [longNameVolume_entries.1, Option.some.injEq] at hes
      rw [← hes] at hmem
      simp only [mem_cons, not_mem_nil, or_false] at hmem
      rcases hmem with rfl | rfl | rfl
      · simp [DirEntry.isChild] at hisChild
      · simp [DirEntry.isChild] at hisChild
      · exact .inr ⟨rfl, rfl⟩
    · rw [longNameVolume_entries.2.1, Option.some.injEq] at hes
      rw [← hes] at hmem
      simp only [mem_cons, not_mem_nil, or_false] at hmem
      rcases hmem with rfl | rfl <;> simp [DirEntry.isChild] at hisChild

theorem longNameVolume_wellFormed : longNameVolume.WellFormed where
  loaded := rfl
  blockSize := rfl
  directories := by
    rintro ⟨n, above⟩ hplace _
    rcases longNameVolume_places above n hplace with ⟨rfl, rfl⟩ | ⟨rfl, rfl⟩
    · refine ⟨⟨1, rfl, by decide, by decide⟩, _, longNameVolume_entries.1, ?_,
        pairwise_singleton _ _⟩
      intro e he
      rw [mem_singleton] at he
      subst he
      exact ⟨by decide, by decide, by decide, longName_notMem (by decide), longName_notMem (by decide),
        by simp [longName, nameSize], by decide⟩
    · exact ⟨⟨1, rfl, by decide, by decide⟩, [], longNameVolume_entries.2.1, nofun, .nil⟩

/-- The path of the directory with a slash at its end. -/
theorem search_agrees_iff_longName : longNameVolume.SearchAgrees (longName ++ [slash]) :=
  (search_agrees_iff longNameVolume_wellFormed (by
    simpa [slash] using longName_notMem (show (0 : UInt8) ≠ 100 by decide))).mpr
    (.inl (by
      rw [components_append_slash]
      simp [components_of_notMem, longName, slash]))

/-- A component of 128 bytes, and none of the entries has this name. -/
theorem longComponent_found : longNameVolume.WellFormed ∧
    ¬ longNameVolume.SearchAgrees (longName ++ [46]) := by
  refine ⟨longNameVolume_wellFormed, fun h => ?_⟩
  have hmem : longName ++ [46] ∈ components (longName ++ [46]) := by
    simp [components_of_notMem, longName, slash]
  have hwalk := walk_none_of_long longNameVolume_wellFormed hmem
    (by simp [longName, nameSize])
  have hfound := h.1
  rw [hwalk, longNameVolume_entries.2.2] at hfound
  cases hfound

end FilesysISO9660

end Unisym.Disc
