/-
# `RecordLayoutSpec` — records and the rules of C

Where no member is an array of pointers, the frontend finds for a member the size and the alignment that C gives it, and
places it where the rules put it (`Laid`).  What is taken for a pointer instead of an array has only the size of one.
-/
import Unisym.Lango.Declarators
import Unisym.Library.Fields

namespace Unisym.Lango.FrontendC

open Unisym.Fields List

/-! ## Members -/

section Members

variable {target : FrontendCTargetInfo} {info : FrontendCTypeInfo}

theorem CType.eq_pointer_of_not_isPointerArray {c : CType} (h : c.depth ≠ 0) (hc : ¬c.IsPointerArray) :
    ∃ c', c = pointer c' := by
  induction c with
  | base type => exact (h rfl).elim
  | pointer c => exact ⟨c, rfl⟩
  | array n c ih =>
    cases c with
    | base type => exact (h rfl).elim
    | pointer c => exact (hc trivial).elim
    | array m c => exact absurd (ih h hc) (by rintro ⟨c', h⟩; cases h)

/-- The frontend finds the size and the alignment of a member that is no array of pointers. -/
theorem parseMember_spec {d : MemberDeclaration} {name : String} {type : FrontendCType}
    (h : parseMember target d = some (name, type)) :
    name = d.declarator.identifier ∧ ∃ c, CType.ofMember target d = some c ∧ (¬c.IsPointerArray → ∀ info,
      alignBits target info type = c.align target info ∧
      (c.size target info < 2 ^ 64 → sizeBits target info type = c.size target info)) := by
  rw [parseMember] at h
  split at h
  · cases h
  · obtain ⟨hname, c, hc, -, rfl⟩ := declared_flatten d.specifiers h
    refine ⟨hname, c, hc, fun harray info => ?_⟩
    obtain ⟨hpointer, hplain⟩ := layout_flatten target info c
    by_cases hdepth : c.depth = 0
    · exact ⟨(hplain hdepth).2, fun hword => (hplain hdepth).1.trans (Nat.mod_eq_of_lt hword)⟩
    · obtain ⟨c', rfl⟩ := CType.eq_pointer_of_not_isPointerArray hdepth harray
      exact ⟨(hpointer hdepth).2, fun _ => (hpointer hdepth).1⟩

end Members

/-! ## The loop over the members -/

/-- The size and the alignment of a member; the members of a packed record have no alignment. -/
def CType.shape (target : FrontendCTargetInfo) (info : FrontendCTypeInfo) (isPacked : Bool) (c : CType) : Nat × Nat :=
  (c.size target info, if isPacked then 1 else c.align target info)

/-- The fields that members of these types make -/
def fieldsOf (target : FrontendCTargetInfo) (info : FrontendCTypeInfo) (isPacked : Bool)
    (members : List FrontendCRecordMember) (types : List CType) : List Field :=
  (members.zip types).map fun (m, c) => ⟨m.offsetBits, (c.shape target info isPacked).1, (c.shape target info isPacked).2⟩

section Loop

variable {target : FrontendCTargetInfo} {info : FrontendCTypeInfo} {isUnion isPacked : Bool}

theorem alignUp_eq {n a : Nat} (ha : a ≠ 0) (h : Fields.next a n < 2 ^ 64) : alignUp n a = Fields.next a n := by
  unfold alignUp Fields.next at *
  split at h
  · next h0 => simp [ha, h0]
  · next h0 =>
      simp only [ha, h0, if_false, ne_eq, not_false_eq_true, if_true]
      exact Nat.mod_eq_of_lt h

/-- A member goes where the rules put it, if its end is a word. -/
theorem addMember_spec {p q : Progress} {d : MemberDeclaration}
    (h : addMember target info isUnion isPacked p d = some q) : ∃ c, CType.ofMember target d = some c ∧
      (¬c.IsPointerArray → let f := put isUnion p.sizeBits (c.shape target info isPacked)
        f.stop < 2 ^ 64 → c.size target info ≠ 0 ∧ c.align target info ≠ 0 ∧
          (∃ type, q.members = p.members ++ [⟨d.declarator.identifier, type, f.offset⟩]) ∧
          q.sizeBits = max p.sizeBits f.stop ∧
          q.alignBits = if isPacked then p.alignBits else max p.alignBits (c.align target info)) := by
  simp only [addMember, Option.bind_eq_bind, Option.bind_eq_some_iff, Prod.exists] at h
  obtain ⟨name, type, hparse, h⟩ := h
  obtain ⟨rfl, c, hc, hspec⟩ := parseMember_spec hparse
  refine ⟨c, hc, fun harray => ?_⟩
  obtain ⟨halign, hsize⟩ := hspec harray info
  intro f hstop
  have hword : c.size target info < 2 ^ 64 := lt_of_le_of_lt (Nat.le_add_left _ _) hstop
  rw [halign, hsize hword] at h
  split at h
  · cases h
  split at h
  · cases h
  rename_i hzero
  rw [not_or] at hzero
  cases h
  -- the code rounds up only in a structure that is not packed
  have hput : (if isUnion then 0 else
      if (!isUnion && !isPacked) = true then alignUp p.sizeBits (c.align target info) else p.sizeBits) = f.offset := by
    cases isUnion with
    | true => rfl
    | false =>
      cases isPacked with
      | true => exact (next_one _).symm
      | false =>
        have hnext : Fields.next (c.align target info) p.sizeBits < 2 ^ 64 := lt_of_le_of_lt (Nat.le_add_right _ _) hstop
        exact alignUp_eq hzero.2 hnext
  refine ⟨hzero.1, hzero.2, ⟨type, by rw [← hput]⟩, ?_, by cases isPacked <;> rfl⟩
  cases isUnion with
  | true => simp [f, put, Field.stop, CType.shape]
  | false =>
    have hle : p.sizeBits ≤ f.stop := (le_next _ _).trans (Nat.le_add_right _ _)
    rw [Nat.max_eq_right hle]
    simp only [Bool.false_eq_true, if_false] at hput ⊢
    rw [hput]
    exact Nat.mod_eq_of_lt hstop

/-- The loop lays out the members by the rules, if the last end is a word. -/
theorem foldlM_addMember {ds : List MemberDeclaration} {p q : Progress}
    (h : ds.foldlM (addMember target info isUnion isPacked) p = some q) :
    ∃ types, ds.mapM (CType.ofMember target) = some types ∧
      ((∀ c ∈ types, ¬c.IsPointerArray) →
        let fs := place isUnion p.sizeBits (types.map (CType.shape target info isPacked))
        max p.sizeBits (extent fs) < 2 ^ 64 →
          (∀ c ∈ types, c.size target info ≠ 0 ∧ c.align target info ≠ 0) ∧
          (∃ members, q.members = p.members ++ members ∧
            members.map (·.name) = ds.map (·.declarator.identifier) ∧
            fieldsOf target info isPacked members types = fs) ∧
          q.sizeBits = max p.sizeBits (extent fs) ∧
          q.alignBits = if isPacked then p.alignBits
            else max p.alignBits ((types.map (CType.align target info)).foldr max 0)) := by
  induction ds generalizing p with
  | nil =>
    cases h
    refine ⟨[], rfl, fun _ => ?_⟩
    simp [place, extent, fieldsOf]
  | cons d ds ih =>
    rw [foldlM_cons, Option.bind_eq_bind, Option.bind_eq_some_iff] at h
    obtain ⟨p', hstep, hrest⟩ := h
    obtain ⟨c, hc, hput⟩ := addMember_spec hstep
    obtain ⟨types, htypes, hloop⟩ := ih hrest
    refine ⟨c :: types, by rw [mapM_cons, hc, htypes]; rfl, fun harray => ?_⟩
    intro fs hmax
    have hfs : fs = put isUnion p.sizeBits (c.shape target info isPacked) ::
      place isUnion (max p.sizeBits (put isUnion p.sizeBits (c.shape target info isPacked)).stop)
        (types.map (CType.shape target info isPacked)) := rfl
    rw [hfs, extent, ← max_assoc] at hmax ⊢
    have hstop := lt_of_le_of_lt ((le_max_right _ _).trans (le_max_left _ _)) hmax
    obtain ⟨hsize, halign, ⟨type, hmembers⟩, hbits, haligns⟩ := hput (harray c (by simp)) hstop
    rw [← hbits] at hmax ⊢
    obtain ⟨hwhole, ⟨members, hmore, hnames, hfields⟩, hlast, hmost⟩ :=
      hloop (fun c hc => harray c (mem_cons_of_mem _ hc)) hmax
    let m : FrontendCRecordMember :=
      ⟨d.declarator.identifier, type, (put isUnion p.sizeBits (c.shape target info isPacked)).offset⟩
    refine ⟨forall_mem_cons.mpr ⟨⟨hsize, halign⟩, hwhole⟩, ⟨m :: members, ?_, ?_, ?_⟩, hlast, ?_⟩
    · rw [hmore, hmembers, append_assoc, singleton_append]
    · rw [map_cons, map_cons, hnames]
    · rw [← hfields]
      rfl
    · rw [hmost, haligns]
      cases isPacked with
      | true => rfl
      | false => simp [max_assoc]

end Loop

/-! ## Targets -/

/-- The alignment is a power of two, and the size a multiple of it. -/
def Whole (layout : Nat × Nat) : Prop := layout.2.isPowerOfTwo ∧ layout.2 ∣ layout.1

/-- The scalars of the target are whole. -/
structure FrontendCTargetInfo.Regular (target : FrontendCTargetInfo) : Prop where
  charBits : target.charBits.isPowerOfTwo
  rank (rank : FrontendCIntegerRank) : Whole (rankLayout target rank)
  float : Whole (target.floatBits, target.floatAlignBits)
  double : Whole (target.doubleBits, target.doubleAlignBits)
  longDouble : Whole (target.longDoubleBits, target.longDoubleAlignBits)
  pointer : Whole (target.pointerBits, target.pointerAlignBits)

theorem regular_fromDataModel {longBits pointerBits : Nat} (hl : longBits.isPowerOfTwo)
    (hp : pointerBits.isPowerOfTwo) : (fromDataModel longBits pointerBits).Regular where
  charBits := ⟨3, rfl⟩
  rank rank := by
    cases rank with
    | bool => exact ⟨⟨3, rfl⟩, dvd_rfl⟩
    | char => exact ⟨⟨3, rfl⟩, dvd_rfl⟩
    | short => exact ⟨⟨4, rfl⟩, dvd_rfl⟩
    | int => exact ⟨⟨5, rfl⟩, dvd_rfl⟩
    | long => exact ⟨hl, dvd_rfl⟩
    | longLong => exact ⟨⟨6, rfl⟩, dvd_rfl⟩
  float := ⟨⟨5, rfl⟩, dvd_rfl⟩
  double := ⟨⟨6, rfl⟩, dvd_rfl⟩
  longDouble := ⟨⟨7, rfl⟩, dvd_rfl⟩
  pointer := ⟨hp, dvd_rfl⟩

section Alignments

variable {target : FrontendCTargetInfo} {info : FrontendCTypeInfo}

/-- The complete records are whole. -/
def WholeRecords (info : FrontendCTypeInfo) : Prop :=
  ∀ id record, entryAt? info.records id = some record → record.complete → Whole (record.sizeBits, record.alignBits)

theorem whole_baseLayout (ht : target.Regular) (hinfo : WholeRecords info) (type : FrontendCType) :
    baseLayout target info type = (0, 0) ∨ Whole (baseLayout target info type) := by
  unfold baseLayout
  split
  · exact .inl rfl
  split
  · split
    · exact .inl rfl
    · next record h =>
        obtain ⟨hentry, hcomplete⟩ := Option.filter_eq_some_iff.mp h
        exact .inr (hinfo _ record hentry hcomplete)
  split
  · exact .inr ht.float
  · exact .inr ht.double
  · exact .inr ht.longDouble
  · split
    · split
      · exact .inl rfl
      · exact .inr (ht.rank _)
    · exact .inr (ht.rank _)

theorem whole_type (ht : target.Regular) (hinfo : WholeRecords info) (c : CType) :
    (c.align target info ≠ 0 → (c.align target info).isPowerOfTwo) ∧ c.align target info ∣ c.size target info := by
  induction c with
  | base type =>
    rcases whole_baseLayout ht hinfo type with h | h
    · simp [CType.align, CType.size, h]
    · exact ⟨fun _ => h.1, h.2⟩
  | pointer c => exact ⟨fun _ => ht.pointer.1, ht.pointer.2⟩
  | array n c ih => exact ⟨ih.1, ih.2.trans (Dvd.intro_left n rfl)⟩

theorem isPowerOfTwo_foldr_max {l : List Nat} (h : ∀ a ∈ l, a.isPowerOfTwo) (hne : l.foldr max 0 ≠ 0) :
    (l.foldr max 0).isPowerOfTwo := by
  induction l with
  | nil => exact (hne rfl).elim
  | cons a l ih =>
    rw [forall_mem_cons] at h
    rw [foldr_cons] at hne ⊢
    rcases Nat.le_total (l.foldr max 0) a with hle | hle
    · rw [Nat.max_eq_left hle]
      exact h.1
    · rw [Nat.max_eq_right hle] at hne ⊢
      exact ih h.2 hne

theorem le_foldr_max {l : List Nat} : ∀ a ∈ l, a ≤ l.foldr max 0 := by
  induction l with
  | nil => simp
  | cons b l ih =>
    exact forall_mem_cons.mpr ⟨le_max_left _ _, fun a ha => (ih a ha).trans (le_max_right _ _)⟩

theorem dvd_of_le {a b : Nat} (ha : a.isPowerOfTwo) (hb : b.isPowerOfTwo) (h : a ≤ b) : a ∣ b := by
  obtain ⟨i, rfl⟩ := ha
  obtain ⟨j, rfl⟩ := hb
  exact Nat.pow_dvd_pow 2 ((Nat.pow_le_pow_iff_right (by decide)).mp h)

theorem parseRecordAlignment_isPowerOfTwo (ht : target.Regular) {exponent : Bool} {argument : CString} {a : Nat}
    (h : parseRecordAlignment target exponent argument = some a) : a.isPowerOfTwo := by
  simp only [parseRecordAlignment, Option.bind_eq_bind, Option.bind_eq_some_iff, Prod.exists] at h
  obtain ⟨value, _, -, h⟩ := h
  have hbytes : ∃ bytes : Nat, bytes ≠ 0 ∧
      (if bytes &&& (bytes - 1) ≠ 0 ∨ bytes > 16 then none else some (bytes * target.charBits)) = some a := by
    split_ifs at h with hexp hvalue hvalue
    · cases h
    · exact ⟨2 ^ value.toNat, by positivity, h⟩
    · cases h
    · exact ⟨value.toNat, by omega, h⟩
  obtain ⟨bytes, hpos, h⟩ := hbytes
  split at h
  · cases h
  · rename_i hand
    rw [not_or, not_not] at hand
    cases h
    obtain ⟨i, rfl⟩ := (Nat.and_sub_one_eq_zero_iff_isPowerOfTwo hpos).mp hand.1
    obtain ⟨j, hj⟩ := ht.charBits
    exact ⟨i + j, by rw [hj, pow_add]⟩

theorem parsePrefix_isPowerOfTwo (ht : target.Regular) {modifiers : List Modifier}
    {state state' : FrontendCRecordLayout × Nat} (h : parsePrefix target modifiers state = some state')
    (hs : state.2 ≠ 0 → state.2.isPowerOfTwo) : state'.2 ≠ 0 → state'.2.isPowerOfTwo := by
  induction modifiers generalizing state with
  | nil =>
    cases h
    exact hs
  | cons modifier modifiers ih =>
    obtain ⟨layout, explicit⟩ := state
    obtain ⟨next, hnext, h⟩ := Option.bind_eq_some_iff.mp h
    refine ih h ?_
    cases modifier with
    | packed | padded =>
      simp only at hnext
      split at hnext
      · cases hnext
      · cases hnext
        exact hs
    | alignb argument | aligne argument =>
      simp only at hnext
      split at hnext
      · cases hnext
      · obtain ⟨a, ha, rfl⟩ := Option.map_eq_some_iff.mp hnext
        exact fun _ => parseRecordAlignment_isPowerOfTwo ht ha

end Alignments

/-! ## Records -/

/-- The alignment of a record, where the largest alignment of its members is this -/
def recordAlign (target : FrontendCTargetInfo) (isPacked : Bool) (explicit natural : Nat) : Nat :=
  if explicit ≠ 0 then explicit else if isPacked then target.charAlignBits else natural

/-- The total size of a record by the rules is below `2 ^ 64`. -/
def Fits (target : FrontendCTargetInfo) (info : FrontendCTypeInfo) (d : RecordDefinition) : Prop :=
  ∀ layout explicit types, parsePrefix target d.modifiers (.default, 0) = some (layout, explicit) →
    d.members.mapM (CType.ofMember target) = some types →
      Fields.next (recordAlign target (layout = .packed) explicit ((types.map (CType.align target info)).foldr max 0))
        (extent (place d.isUnion 0 (types.map (CType.shape target info (layout = .packed))))) < 2 ^ 64

/-- The fields of a record whose members have these types -/
def FrontendCRecord.fields (target : FrontendCTargetInfo) (info : FrontendCTypeInfo) (types : List CType)
    (record : FrontendCRecord) : List Field :=
  fieldsOf target info (record.layout = .packed) record.members types

/-- A record is laid out by the rules of C, where its definition gives its members these types. -/
structure Laid (target : FrontendCTargetInfo) (info : FrontendCTypeInfo) (d : RecordDefinition) (types : List CType)
    (record : FrontendCRecord) : Prop where
  typed : d.members.mapM (CType.ofMember target) = some types
  modifiers : parsePrefix target d.modifiers (.default, 0) = some (record.layout, record.explicitAlignBits)
  kind : record.isUnion = d.isUnion
  names : record.members.map (·.name) = d.members.map (·.declarator.identifier)
  nonempty : ∀ c ∈ types, c.size target info ≠ 0
  lowest : !record.isUnion → LowestFrom 0 (record.fields target info types)
  apart : !record.isUnion → (record.fields target info types).Pairwise fun f g => f.stop ≤ g.offset
  overlaid : record.isUnion → ∀ f ∈ record.fields target info types, f.offset = 0
  inside : ∀ f ∈ record.fields target info types, f.stop ≤ record.sizeBits
  explicit : record.explicitAlignBits ≤ record.alignBits
  power : record.alignBits.isPowerOfTwo
  multiple : record.layout ≠ .packed → ∀ c ∈ types, c.align target info ∣ record.alignBits
  size : IsLeast {k | record.alignBits ∣ k ∧ ∀ f ∈ record.fields target info types, f.stop ≤ k} record.sizeBits

section Records

variable {target : FrontendCTargetInfo} {info info' : FrontendCTypeInfo}

/-- What is declared has a place, and the sizes and alignments stay. -/
theorem prepareRecordDeclaration_spec {isUnion : Bool} {tag : String}
    (h : prepareRecordDeclaration info isUnion tag = some info') :
    info'.enums = info.enums ∧ findRecord info' tag = findRecord info tag ∧
      (∀ record, info'.records[findRecord info' tag]? = some record → record.isUnion = isUnion) ∧
      (info' = info ∨ info'.records = info.records ++ [({ tag, isUnion } : FrontendCRecord)]) := by
  unfold prepareRecordDeclaration at h
  split at h
  · cases h
  split at h
  · next record hfind =>
      split at h
      · cases h
      · next hkind =>
          cases h
          refine ⟨rfl, rfl, fun r hr => ?_, .inl rfl⟩
          rw [hfind] at hr
          cases hr
          exact not_not.mp hkind
  · next hnone =>
      cases h
      have hfind : info.records.findIdx (·.tag = tag) = info.records.length :=
        Nat.le_antisymm findIdx_le_length (getElem?_eq_none_iff.mp hnone)
      have hnew : findRecord { info with records := info.records ++ [{ tag, isUnion }] } tag = info.records.length := by
        simp [findRecord, findIdx_append, hfind]
      refine ⟨rfl, hnew.trans hfind.symm, fun r hr => ?_, .inr rfl⟩
      rw [hnew] at hr
      simp only [getElem?_concat_length] at hr
      cases hr
      rfl

theorem completeRecord_spec {old record : FrontendCRecord} {progress : Progress}
    (h : completeRecord target old progress = some record) :
    let align := recordAlign target (old.layout = .packed) old.explicitAlignBits progress.alignBits
    (old.layout ≠ .packed → progress.alignBits ≠ 0 ∧ progress.alignBits ≤ align) ∧
      record = { old with
        members := progress.members, alignBits := align, sizeBits := alignUp progress.sizeBits align, complete := true } := by
  intro align
  by_cases hp : old.layout = .packed
  · simp only [completeRecord, hp] at h
    simp_all [align, recordAlign]
  · simp only [completeRecord, hp, decide_false, Bool.not_false, Bool.true_and, Bool.false_and, Bool.or_false] at h
    simp_all only [align, recordAlign]
    grind

/-- A definition that is accepted completes its record by the rules. -/
theorem completeRecord_laid (ht : target.Regular) (hinfo : WholeRecords info) {d : RecordDefinition}
    {old record : FrontendCRecord} {progress : Progress} {types : List CType}
    (hfits : Fits target info d) (htypes : d.members.mapM (CType.ofMember target) = some types)
    (hmod : parsePrefix target d.modifiers (.default, 0) = some (old.layout, old.explicitAlignBits))
    (hkind : old.isUnion = d.isUnion)
    (hwhole : ∀ c ∈ types, c.size target info ≠ 0 ∧ c.align target info ≠ 0)
    (hnames : progress.members.map (·.name) = d.members.map (·.declarator.identifier))
    (hfields : fieldsOf target info (old.layout = .packed) progress.members types =
      place d.isUnion 0 (types.map (CType.shape target info (old.layout = .packed))))
    (hbits : progress.sizeBits = extent (place d.isUnion 0 (types.map (CType.shape target info (old.layout = .packed)))))
    (haligns : progress.alignBits =
      if old.layout = .packed then 0 else (types.map (CType.align target info)).foldr max 0)
    (h : completeRecord target old progress = some record) : Laid target info d types record := by
  have hpow : ∀ a ∈ types.map (CType.align target info), a.isPowerOfTwo := by
    simp only [mem_map]
    rintro _ ⟨c, hc, rfl⟩
    exact (whole_type ht hinfo c).1 (hwhole c hc).2
  have hexplicit := parsePrefix_isPowerOfTwo ht hmod (fun h => (h rfl).elim)
  obtain ⟨hnatural, hrecord⟩ := completeRecord_spec h
  let align := recordAlign target (old.layout = .packed) old.explicitAlignBits
    ((types.map (CType.align target info)).foldr max 0)
  have hsame : recordAlign target (old.layout = .packed) old.explicitAlignBits progress.alignBits = align := by
    by_cases hp : old.layout = .packed
    · simp [align, recordAlign, hp]
    · rw [haligns, if_neg hp]
  have halign : align.isPowerOfTwo := by
    unfold align recordAlign
    split
    · next hne => exact hexplicit hne
    split
    · exact (ht.rank .char).1
    · next hpacked =>
        rw [decide_eq_true_eq] at hpacked
        rw [haligns, if_neg hpacked] at hnatural
        exact isPowerOfTwo_foldr_max hpow (hnatural hpacked).1
  have hpos := Nat.pos_of_isPowerOfTwo halign
  rw [hsame, hbits, alignUp_eq hpos.ne' (hfits _ _ _ hmod htypes)] at hrecord
  have hshapes : ∀ shape ∈ types.map (CType.shape target info (old.layout = .packed)), 0 < shape.2 := by
    simp only [mem_map]
    rintro _ ⟨c, hc, rfl⟩
    unfold CType.shape
    split
    · exact Nat.one_pos
    · exact Nat.pos_of_ne_zero (hwhole c hc).2
  have hlowest (hu : !old.isUnion) : LowestFrom 0 (record.fields target info types) := by
    rw [Bool.not_eq_true'] at hu
    rw [hrecord, FrontendCRecord.fields, hfields, ← hkind, hu]
    exact lowestFrom_place hshapes 0
  have hfields' : record.fields target info types =
      place d.isUnion 0 (types.map (CType.shape target info (old.layout = .packed))) := by
    rw [hrecord]
    exact hfields
  have hleast : IsLeast {k | record.alignBits ∣ k ∧ ∀ f ∈ record.fields target info types, f.stop ≤ k}
      record.sizeBits := by
    rw [hfields', hrecord]
    exact isLeast_next_extent hpos _
  subst hrecord
  refine ⟨htypes, hmod, hkind, hnames, fun c hc => (hwhole c hc).1, hlowest, fun hu => (hlowest hu).pairwise,
    fun hu => ?_, hleast.1.2, ?_, halign, fun hpacked c hc => ?_, hleast⟩
  · rw [hfields', ← hkind, hu]
    exact offset_of_mem_place
  · by_cases hne : old.explicitAlignBits = 0
    · rw [hne]
      exact Nat.zero_le _
    · exact (if_pos hne).ge
  · have hle : c.align target info ≤ progress.alignBits := by
      rw [haligns, if_neg hpacked]
      exact le_foldr_max _ (mem_map_of_mem hc)
    rw [hsame] at hnatural
    exact dvd_of_le (hpow _ (mem_map_of_mem hc)) halign (hle.trans (hnatural hpacked).2)

end Records

/-! ## Runs -/

/-- What has a size keeps its size and its alignment. -/
def Grows (target : FrontendCTargetInfo) (info info' : FrontendCTypeInfo) : Prop :=
  ∀ type, baseLayout target info type ≠ (0, 0) → baseLayout target info' type = baseLayout target info type

/-- The records and their definitions, by their places, when definitions of this kind have been read in any order -/
inductive Prepared (target : FrontendCTargetInfo) (kind : RecordDefinition → Prop) :
    FrontendCTypeInfo → (Nat → Option RecordDefinition) → Prop where
  | start (enums : List FrontendCEnum) : Prepared target kind { enums } fun _ => none
  /-- Enumerations come between; a complete one stays. -/
  | enumerate {info definitions} (enums : List FrontendCEnum) (h : Prepared target kind info definitions)
      (hkeep : ∀ id e, entryAt? info.enums id = some e → e.complete → entryAt? enums id = some e) :
      Prepared target kind { info with enums } definitions
  | declare {info info' definitions} (isUnion : Bool) (tag : String) (h : Prepared target kind info definitions)
      (hstep : prepareRecordDeclaration info isUnion tag = some info') : Prepared target kind info' definitions
  | define {info info' definitions} (d : RecordDefinition) (h : Prepared target kind info definitions)
      (hkind : kind d) (hfits : Fits target info d) (hstep : prepareRecordDefinition target info d = some info') :
      Prepared target kind info' (Function.update definitions (findRecord info d.tag) (some d))

/-- No member is an array of pointers. -/
def NoPointerArray (target : FrontendCTargetInfo) (d : RecordDefinition) : Prop :=
  ∀ types, d.members.mapM (CType.ofMember target) = some types → ∀ c ∈ types, ¬c.IsPointerArray

/-- Every complete record is laid out by the rules, and the others are empty. -/
structure Sound (target : FrontendCTargetInfo) (info : FrontendCTypeInfo)
    (definitions : Nat → Option RecordDefinition) : Prop where
  fresh : ∀ record ∈ info.records, !record.complete → record.members = []
  laid : ∀ place record, info.records[place]? = some record → record.complete →
    ∃ d types, definitions place = some d ∧ Laid target info d types record

section Runs

variable {target : FrontendCTargetInfo} {info info' : FrontendCTypeInfo}
  {definitions : Nat → Option RecordDefinition}

theorem entryAt?_eq_some {α : Type} {entries : List α} {id : Nat} {e : α} (h : entryAt? entries id = some e) :
    id ≠ 0 ∧ entries[id - 1]? = some e := by
  unfold entryAt? at h
  split at h
  · cases h
  · next hne => exact ⟨hne, h⟩

theorem filter_entryAt? {α : Type} {p : α → Bool} {entries entries' : List α}
    (h : ∀ id e, entryAt? entries id = some e → p e → entryAt? entries' id = some e) (id : Nat) :
    (entryAt? entries id).filter p = none ∨ (entryAt? entries' id).filter p = (entryAt? entries id).filter p := by
  cases hf : (entryAt? entries id).filter p with
  | none => exact .inl rfl
  | some e =>
    obtain ⟨he, hc⟩ := Option.filter_eq_some_iff.mp hf
    exact .inr (by rw [h id e he hc, Option.filter_some, if_pos hc])

theorem grows_of_entries (henums : ∀ id e, entryAt? info.enums id = some e → e.complete → entryAt? info'.enums id = some e)
    (hrecords : ∀ id r, entryAt? info.records id = some r → r.complete → entryAt? info'.records id = some r) :
    Grows target info info' := by
  intro type h
  have he := filter_entryAt? (p := FrontendCEnum.complete) henums type.enumId
  have hr := filter_entryAt? (p := FrontendCRecord.complete) hrecords type.recordId
  unfold baseLayout at h ⊢
  grind

theorem Grows.type (hg : Grows target info info') {c : CType} (h : c.size target info ≠ 0) :
    c.size target info' = c.size target info ∧ c.align target info' = c.align target info := by
  induction c with
  | base type =>
    have heq := hg type fun hz => h (by rw [CType.size, hz])
    exact ⟨congrArg Prod.fst heq, congrArg Prod.snd heq⟩
  | pointer c => exact ⟨rfl, rfl⟩
  | array n c ih =>
    have hc := ih (Nat.ne_zero_of_mul_ne_zero_right h)
    exact ⟨by rw [CType.size, CType.size, hc.1], hc.2⟩

theorem Laid.grows (hg : Grows target info info') {d : RecordDefinition} {types : List CType} {record : FrontendCRecord}
    (h : Laid target info d types record) : Laid target info' d types record := by
  have hfields : record.fields target info' types = record.fields target info types := by
    refine map_congr_left fun ⟨m, c⟩ hmem => ?_
    have heq := hg.type (h.nonempty c (of_mem_zip hmem).2)
    simp only [CType.shape, heq.1, heq.2]
  refine ⟨h.typed, h.modifiers, h.kind, h.names, fun c hc => ?_, ?_, ?_, ?_, ?_, h.explicit, h.power, fun hp c hc => ?_, ?_⟩
  · rw [(hg.type (h.nonempty c hc)).1]
    exact h.nonempty c hc
  · rw [hfields]; exact h.lowest
  · rw [hfields]; exact h.apart
  · rw [hfields]; exact h.overlaid
  · rw [hfields]; exact h.inside
  · rw [(hg.type (h.nonempty c hc)).2]
    exact h.multiple hp c hc
  · rw [hfields]; exact h.size

theorem Sound.whole (h : Sound target info definitions) : WholeRecords info := by
  intro id record hid hcomplete
  obtain ⟨d, types, -, hlaid⟩ := h.laid _ record (entryAt?_eq_some hid).2 hcomplete
  exact ⟨hlaid.power, hlaid.size.1.1⟩

theorem Sound.grows (h : Sound target info definitions) (hg : Grows target info info')
    (hfresh : ∀ record ∈ info'.records, !record.complete → record.members = [])
    (hrecords : ∀ (place : Nat) (record : FrontendCRecord), info'.records[place]? = some record → record.complete →
      info.records[place]? = some record) : Sound target info' definitions := by
  refine ⟨hfresh, fun place record hplace hcomplete => ?_⟩
  obtain ⟨d, types, hd, hlaid⟩ := h.laid place record (hrecords place record hplace hcomplete) hcomplete
  exact ⟨d, types, hd, hlaid.grows hg⟩

/-- A declaration leaves the complete records and the layouts. -/
theorem prepareRecordDeclaration_keeps {isUnion : Bool} {tag : String}
    (h : prepareRecordDeclaration info isUnion tag = some info') :
    (∀ (place : Nat) (record : FrontendCRecord), record.complete →
      (info'.records[place]? = some record ↔ info.records[place]? = some record)) ∧
    baseLayout target info' = baseLayout target info := by
  obtain ⟨henums, -, -, rfl | hrecords⟩ := prepareRecordDeclaration_spec h
  · exact ⟨fun _ _ _ => .rfl, rfl⟩
  · have hkeep : ∀ (place : Nat) (record : FrontendCRecord), record.complete →
        (info'.records[place]? = some record ↔ info.records[place]? = some record) := by
      intro place record hcomplete
      rw [hrecords, getElem?_append]
      split
      · rfl
      · next hge =>
          rw [getElem?_eq_none (Nat.le_of_not_lt hge), getElem?_singleton]
          constructor
          · intro h
            split at h
            · cases h
              cases hcomplete
            · cases h
          · intro h
            cases h
    have hentry (id : Nat) (r : FrontendCRecord) (hc : r.complete) :
        entryAt? info'.records id = some r ↔ entryAt? info.records id = some r := by
      unfold entryAt?
      split
      · rfl
      · exact hkeep _ r hc
    refine ⟨hkeep, funext fun type => ?_⟩
    have hforth : Grows target info info' := grows_of_entries (by rw [henums]; exact fun _ _ h _ => h)
      fun id r hr hc => (hentry id r hc).mpr hr
    have hback : Grows target info' info := grows_of_entries (by rw [henums]; exact fun _ _ h _ => h)
      fun id r hr hc => (hentry id r hc).mp hr
    by_cases h0 : baseLayout target info type = (0, 0)
    · by_contra hne
      rw [h0] at hne
      exact hne (((hback type hne).symm.trans h0))
    · exact hforth type h0

theorem Fits.congr {d : RecordDefinition} (h : Fits target info d)
    (heq : baseLayout target info' = baseLayout target info) : Fits target info' d := by
  have htype (c : CType) : c.size target info' = c.size target info ∧ c.align target info' = c.align target info := by
    induction c with
    | base type => simp [CType.size, CType.align, heq]
    | pointer c => exact ⟨rfl, rfl⟩
    | array n c ih => simp [CType.size, CType.align, ih]
  have halign : CType.align target info' = CType.align target info := funext fun c => (htype c).2
  have hshape : CType.shape target info' = CType.shape target info := by
    funext isPacked c
    rw [CType.shape, (htype c).1, (htype c).2, CType.shape]
  rwa [Fits, halign, hshape]

theorem Sound.declare (h : Sound target info definitions) {isUnion : Bool} {tag : String}
    (hstep : prepareRecordDeclaration info isUnion tag = some info') : Sound target info' definitions := by
  obtain ⟨hkeep, hlayout⟩ := prepareRecordDeclaration_keeps hstep
  refine h.grows (fun type _ => congrFun hlayout type) ?_ fun place record hp hc => (hkeep place record hc).mp hp
  obtain ⟨-, -, -, rfl | hrecords⟩ := prepareRecordDeclaration_spec hstep
  · exact h.fresh
  · rw [hrecords, forall_mem_append, forall_mem_singleton]
    exact ⟨h.fresh, fun _ => rfl⟩

theorem Sound.define (ht : target.Regular) (h : Sound target info definitions) {d : RecordDefinition}
    (hd : NoPointerArray target d) (hfits : Fits target info d)
    (hstep : prepareRecordDefinition target info d = some info') :
    Sound target info' (Function.update definitions (findRecord info d.tag) (some d)) := by
  simp only [prepareRecordDefinition, Option.bind_eq_bind, Option.bind_eq_some_iff, Prod.exists] at hstep
  obtain ⟨layout, explicit, hmod, info₁, hdeclare, old, hold, hstep⟩ := hstep
  split at hstep
  · cases hstep
  rename_i hincomplete
  simp only [Option.bind_eq_some_iff, Option.some.injEq] at hstep
  obtain ⟨progress, hloop, record, hrecord, rfl⟩ := hstep
  have hsound := h.declare hdeclare
  have hfits' := hfits.congr (prepareRecordDeclaration_keeps hdeclare).2
  obtain ⟨-, hfind, hkind, -⟩ := prepareRecordDeclaration_spec hdeclare
  obtain ⟨types, htypes, hlayout⟩ := foldlM_addMember hloop
  have hbound := lt_of_le_of_lt (le_next _ _) (hfits' _ _ _ hmod htypes)
  obtain ⟨hwhole, ⟨members, hmembers, hnames, hfields⟩, hbits, haligns⟩ :=
    hlayout (hd _ htypes) (by rwa [Nat.zero_max])
  rw [hsound.fresh old (mem_of_getElem? hold) (by simpa using hincomplete), nil_append] at hmembers
  have hlaid : Laid target info₁ d types record := by
    have hkind : ({ old with layout, explicitAlignBits := explicit } : FrontendCRecord).isUnion = d.isUnion :=
      hkind old hold
    refine completeRecord_laid ht hsound.whole hfits' htypes ?_ hkind hwhole ?_ ?_ ?_ ?_ hrecord
    · exact hmod
    · rw [hmembers, hnames]
    · rw [hmembers, hfields]
    · rw [hbits, Nat.zero_max]
    · rw [haligns]
      simp
  have hgrows : Grows target info₁ { info₁ with records := info₁.records.set (findRecord info₁ d.tag) record } := by
    refine grows_of_entries (fun _ _ h _ => h) fun id r hr hc => ?_
    obtain ⟨hid, hr⟩ := entryAt?_eq_some hr
    have hne : findRecord info₁ d.tag ≠ id - 1 := by
      rintro heq
      rw [heq, hr] at hold
      cases hold
      exact hincomplete hc
    rw [entryAt?, if_neg hid, getElem?_set_ne hne, hr]
  rw [← hfind]
  refine ⟨fun r hr hc => ?_, fun place r hplace hc => ?_⟩
  · rcases mem_or_eq_of_mem_set hr with hr | rfl
    · exact hsound.fresh r hr hc
    · rw [(completeRecord_spec hrecord).2] at hc
      cases hc
  · by_cases heq : findRecord info₁ d.tag = place
    · subst heq
      rw [List.getElem?_set_self (List.getElem?_eq_some_iff.mp hold).1] at hplace
      cases hplace
      exact ⟨d, types, Function.update_self .., hlaid.grows hgrows⟩
    · rw [getElem?_set_ne heq] at hplace
      obtain ⟨d', types', hd', hlaid'⟩ := hsound.laid place r hplace hc
      exact ⟨d', types', by rw [Function.update_of_ne (Ne.symm heq), hd'], hlaid'.grows hgrows⟩

theorem Prepared.sound (ht : target.Regular) (h : Prepared target (NoPointerArray target) info definitions) :
    Sound target info definitions := by
  induction h with
  | start enums => exact ⟨by simp, by simp⟩
  | enumerate enums h hkeep ih =>
    exact ih.grows (grows_of_entries hkeep fun _ _ h _ => h) ih.fresh fun _ _ h _ => h
  | declare isUnion tag h hstep ih => exact ih.declare hstep
  | define d h hkind hfits hstep ih => exact ih.define ht hkind hfits hstep

/-- In an object of the first type there is one of the second at this offset: an element of an array, or a member of a
record that is not packed, to any depth. -/
inductive Within (target : FrontendCTargetInfo) (info : FrontendCTypeInfo)
    (definitions : Nat → Option RecordDefinition) : CType → Nat → CType → Prop where
  | self (c : CType) : Within target info definitions c 0 c
  | element {n i o : Nat} {e c : CType} (hi : i < n) (h : Within target info definitions e o c) :
      Within target info definitions (.array n e) (i * e.size target info + o) c
  | member {type : FrontendCType} {record : FrontendCRecord} {d : RecordDefinition} {types : List CType}
      {m : FrontendCRecordMember} {e c : CType} {o : Nat} (henum : type.enumId = 0)
      (hrecord : entryAt? info.records type.recordId = some record) (hcomplete : record.complete)
      (hpacked : record.layout ≠ .packed) (hd : definitions (type.recordId - 1) = some d)
      (htypes : d.members.mapM (CType.ofMember target) = some types) (hm : (m, e) ∈ record.members.zip types)
      (h : Within target info definitions e o c) : Within target info definitions (.base type) (m.offsetBits + o) c

/-- A member of a sound record that is not packed is aligned in the record, and the record no less. -/
theorem Laid.dvd {d : RecordDefinition} {types : List CType} {record : FrontendCRecord}
    (h : Laid target info d types record) (hpacked : record.layout ≠ .packed) {m : FrontendCRecordMember} {e : CType}
    (hm : (m, e) ∈ record.members.zip types) :
    e.align target info ∣ m.offsetBits ∧ e.align target info ∣ record.alignBits := by
  refine ⟨?_, h.multiple hpacked e (of_mem_zip hm).2⟩
  have hfield : (⟨m.offsetBits, e.size target info, e.align target info⟩ : Field) ∈ record.fields target info types :=
    mem_map.mpr ⟨(m, e), hm, by simp [CType.shape, hpacked]⟩
  cases hu : record.isUnion with
  | true =>
    have hzero : m.offsetBits = 0 := h.overlaid hu _ hfield
    rw [hzero]
    exact Nat.dvd_zero _
  | false => exact (h.lowest (by rw [hu]; rfl)).dvd _ hfield

theorem Sound.within (ht : target.Regular) (h : Sound target info definitions) {c c' : CType} {o : Nat}
    (hw : Within target info definitions c o c') {start : Nat} (hs : c.align target info ∣ start) :
    c'.align target info ∣ start + o := by
  induction hw generalizing start with
  | self c => exact hs
  | @element n i o e c hi hw ih =>
    rw [← Nat.add_assoc]
    exact ih (Nat.dvd_add hs ((whole_type ht h.whole e).2.trans (Nat.dvd_mul_left _ _)))
  | @member type record d types m e c o henum hrecord hcomplete hpacked hd htypes hm hw ih =>
    obtain ⟨hid, hplace⟩ := entryAt?_eq_some hrecord
    obtain ⟨d', types', hd', hlaid⟩ := h.laid _ record hplace hcomplete
    cases hd.symm.trans hd'
    cases htypes.symm.trans hlaid.typed
    obtain ⟨hoffset, halign⟩ := hlaid.dvd hpacked hm
    have hbase : CType.align target info (.base type) = record.alignBits := by
      simp [CType.align, baseLayout, henum, hid, hrecord, Option.filter_some, hcomplete]
    rw [hbase] at hs
    rw [← Nat.add_assoc]
    exact ih (Nat.dvd_add (halign.trans hs) hoffset)

/-- Records are laid out by the rules of C in every run whose definitions have no arrays of pointers, and what is in
them, to any depth, is aligned. -/
theorem prepared_laid (ht : target.Regular) (h : Prepared target (NoPointerArray target) info definitions) :
    (∀ place record, info.records[place]? = some record → record.complete →
      ∃ d types, definitions place = some d ∧ Laid target info d types record) ∧
    ∀ c o c', Within target info definitions c o c' →
      ∀ start, c.align target info ∣ start → c'.align target info ∣ start + o :=
  ⟨(h.sound ht).laid, fun _ _ _ hw _ hs => (h.sound ht).within ht hw hs⟩

end Runs

/-- `struct s { int *a[3]; int *b; }`, or without the bound -/
def pointersDefinition (declarator : Declarator) : RecordDefinition :=
  ⟨[], false, "s", [{ pointersDeclaration with declarator }, { pointersDeclaration with declarator := .name "b" }]⟩

def pointersRecord (type : FrontendCType) : FrontendCRecord :=
  { tag := "s", isUnion := false, complete := true, sizeBits := 128, alignBits := 64,
    members := [⟨"a", type, 0⟩, ⟨"b", { pointerDepth := 1 }, 64⟩] }

theorem prepared_pointers {kind : RecordDefinition → Prop} {declarator : Declarator} {type : FrontendCType}
    (hkind : kind (pointersDefinition declarator)) (hfits : Fits (fromDataModel 64 64) {} (pointersDefinition declarator))
    (hstep : prepareRecordDefinition (fromDataModel 64 64) {} (pointersDefinition declarator) =
      some ⟨[pointersRecord type], []⟩) :
    Prepared (fromDataModel 64 64) kind ⟨[pointersRecord type], []⟩
      (Function.update (fun _ => none) 0 (some (pointersDefinition declarator))) :=
  .define _ (.start []) hkind hfits hstep

theorem prepared_laid_pointers : ∃ d types,
    Laid (fromDataModel 64 64) ⟨[pointersRecord { pointerDepth := 1 }], []⟩ d types
      (pointersRecord { pointerDepth := 1 }) := by
  have hrun := @prepared_pointers (NoPointerArray (fromDataModel 64 64)) (.name "a") { pointerDepth := 1 }
    (by rintro types ⟨⟩; simp [pointersDeclaration, CType.IsPointerArray])
    (by rintro layout explicit types ⟨⟩ ⟨⟩; decide) (by decide)
  obtain ⟨d, types, -, h⟩ := (prepared_laid (regular_fromDataModel ⟨6, rfl⟩ ⟨6, rfl⟩) hrun).1 0 _ rfl rfl
  exact ⟨d, types, h⟩

/-- `b` comes inside `a`. -/
theorem pointers_overlap : ¬∀ info definitions, Prepared (fromDataModel 64 64) (fun _ => True) info definitions →
    ∀ place record, info.records[place]? = some record → record.complete →
      ∃ d types, definitions place = some d ∧ Laid (fromDataModel 64 64) info d types record := by
  intro h
  have hrun := @prepared_pointers (fun _ => True) (.index (.name "a") ⟨[51], by decide⟩)
    { pointerDepth := 1, arrayDimensions := [3] } trivial (by rintro layout explicit types ⟨⟩ ⟨⟩; decide) (by decide)
  obtain ⟨d, types, hd, hlaid⟩ := h _ _ hrun 0 _ rfl rfl
  cases hd
  cases hlaid.typed
  exact absurd (pairwise_cons.mp (hlaid.apart rfl)) (by decide)

end Unisym.Lango.FrontendC
