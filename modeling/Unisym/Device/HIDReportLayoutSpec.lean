/-
# `HIDReportLayoutSpec` — layouts that are parsed are consistent

What a filling pass keeps from item to item, what `Parse` then gives and gives back, and that every
element of every field can be read from a report.
-/
import Unisym.Device.HIDReportPasses
import Unisym.Library.Steps
import Mathlib.Data.Nat.Bitwise

namespace Unisym.Device.HIDReport

open Tiling List

variable {capacity : Nat} {source : Bytes} {pass pass' : Pass} {item : Item}

/-! ## What a filling pass keeps -/

theorem parseGlobal_fits {global global' : GlobalState} {stack stack' : List GlobalState}
    (hvalue : item.value < 2 ^ 32) (hglobal : global.Fits) (hstack : ∀ g ∈ stack, g.Fits)
    (h : parseGlobal capacity item global stack = .ok (global', stack')) :
    global'.Fits ∧ ∀ g ∈ stack', g.Fits := by
  unfold parseGlobal at h
  split at h
  case h_8 =>
    split at h
    · cases h
    · cases h
      exact ⟨⟨hvalue, hglobal.count⟩, hstack⟩
  case h_9 =>
    split at h
    · cases h
    · cases h
      exact ⟨⟨hglobal.size, hglobal.count⟩, hstack⟩
  case h_10 =>
    split at h
    · cases h
    · cases h
      exact ⟨⟨hglobal.size, hvalue⟩, hstack⟩
  case h_11 =>
    split at h
    · cases h
    · cases h
      exact ⟨hglobal, forall_mem_cons.mpr ⟨hglobal, hstack⟩⟩
  case h_12 =>
    split at h
    · cases h
    · cases h
      exact forall_mem_cons.mp hstack
  case h_13 => cases h
  all_goals
    cases h
    exact ⟨⟨hglobal.size, hglobal.count⟩, hstack⟩

/-- What is written fits together. -/
structure Pass.Laid (pass : Pass) : Prop where
  filled : pass.Filled
  definitions : DefinitionsFit pass.fields pass.output.definitions
  spans : ∀ f ∈ pass.fields, f.usageSpanIndex + f.usageSpanCount ≤ pass.counts.usageSpans
  parents : ∀ (i : Nat) (c : ReportCollection), pass.collections[i]? = some c →
    c.parentIndex = noCollection ∨ c.parentIndex < i
  stack : ∀ i ∈ pass.collectionStack, i < pass.counts.collections
  globals : pass.global.Fits ∧ ∀ g ∈ pass.globalStack, g.Fits

theorem Pass.Laid.currentCollection (h : pass.Laid) :
    pass.currentCollection = noCollection ∨ pass.currentCollection < pass.counts.collections := by
  have hstack := h.stack
  unfold Pass.currentCollection
  cases hcase : pass.collectionStack with
  | nil => exact .inl rfl
  | cons top rest => exact .inr (hstack top (hcase ▸ mem_cons_self))

theorem Pass.Laid.mainStep (h : pass.Laid) (hstep : MainStep capacity pass item pass') :
    pass'.Laid := by
  cases hstep with
  | @field type _ tag added =>
    obtain ⟨-, ds, bitOffset, hbits, hroom, hspans, fields, usageSpans, hstore, rfl⟩ :=
      addField_eq_ok.mp added
    obtain ⟨fields', usageSpans', hstore', hstored⟩ := h.filled.storeField hroom hspans
      (pass.field type pass.currentCollection bitOffset item)
    cases hstore.symm.trans hstore'
    obtain ⟨hfields, -, hfilled⟩ := hstored ds
    refine ⟨hfilled, ?_, ?_, h.parents, h.stack, h.globals⟩
    · rw [hfields]
      exact h.definitions.add (addBits_added hbits) h.globals.1 rfl rfl rfl
    · rw [hfields]
      intro f hf
      rcases mem_append.mp hf with hf | hf
      · exact Nat.le_trans (h.spans f hf) (Nat.le_add_right _ _)
      · obtain rfl := mem_singleton.mp hf
        exact Nat.le_refl _
  | begins tag begun =>
    obtain ⟨-, -, hroom, -, -, collections, hstore, rfl⟩ := beginCollection_eq_ok.mp begun
    obtain ⟨collections', hstore', hcollections, hfilled⟩ := h.filled.storeCollection hroom
      (pass.collection pass.currentCollection item)
    cases hstore.symm.trans hstore'
    have hlength : pass.collections.length = pass.counts.collections := h.filled.collections.length
    refine ⟨hfilled, h.definitions, h.spans, ?_, ?_, h.globals⟩
    · intro i c hc
      rw [hcollections, getElem?_append] at hc
      split at hc
      case isTrue => exact h.parents i c hc
      case isFalse hle =>
        obtain ⟨hlast, rfl⟩ := List.getElem?_eq_some_iff.mp hc
        rw [length_singleton] at hlast
        have hi : i = pass.counts.collections := by omega
        rw [getElem_singleton, hi]
        exact h.currentCollection
    · exact forall_mem_cons.mpr ⟨Nat.lt_succ_self _, fun i hi => Nat.lt_succ_of_lt (h.stack i hi)⟩
  | @ends top rest tag stack =>
    exact ⟨h.filled.keep rfl rfl rfl rfl, h.definitions, h.spans, h.parents,
      fun i hi => h.stack i (stack ▸ mem_cons_of_mem _ hi), h.globals⟩

theorem Pass.Laid.step (h : pass.Laid) (hvalue : item.value < 2 ^ 32)
    (hstep : ItemStep capacity pass item pass') : pass'.Laid := by
  cases hstep with
  | main short type step =>
    have h' := h.mainStep step
    exact ⟨h'.filled.keep rfl rfl rfl rfl, h'.definitions, h'.spans, h'.parents, h'.stack, h'.globals⟩
  | global short type parsed =>
    exact ⟨h.filled.keep rfl rfl rfl rfl, h.definitions, h.spans, h.parents, h.stack,
      parseGlobal_fits hvalue h.globals.1 h.globals.2 parsed⟩
  | long | «local» | reserved =>
    exact ⟨h.filled.keep rfl rfl rfl rfl, h.definitions, h.spans, h.parents, h.stack, h.globals⟩

variable {first : Pass} {l : Layout} {d : ReportDefinition}

theorem Pass.Laid.start {output : PassOutput} (h : output.Room first) :
    Pass.Laid { output } := by
  have hnone : Pass.fields { output } = [] := length_eq_zero_iff.mp h.fields.2.length
  have hcollections : Pass.collections { output } = [] :=
    length_eq_zero_iff.mp h.collections.2.length
  refine ⟨h.filled, ?_, ?_, ?_, nofun, ⟨⟨Nat.two_pow_pos 32, Nat.two_pow_pos 32⟩, nofun⟩⟩
  · show DefinitionsFit _ output.definitions
    rw [hnone, h.definitions]
    exact ⟨nodup_nil, nofun, nofun, nofun, nofun⟩
  · rw [hnone]
    nofun
  · rw [hcollections]
    nofun

/-! ## Memory -/

variable {grant : Nat → Bool} {heap heap' : Heap} {others : List Block}

/-- The block behind a pointer, unless it is null -/
def blocksOf (pointer : Option Nat) (size : Nat) : List Block :=
  match pointer with
  | none => []
  | some address => [⟨address, size⟩]

theorem allocate_live (grant : Nat → Bool) (size : Nat) (heap : Heap) :
    (allocate grant size heap).2.live = blocksOf (allocate grant size heap).1 size ++ heap.live := by
  unfold allocate
  split <;> rfl

theorem deallocate_live {pointer : Option Nat} {size : Nat}
    (h : heap.live.Perm (blocksOf pointer size ++ others)) :
    ∃ heap', deallocate pointer size heap = some heap' ∧ heap'.live.Perm others := by
  cases pointer with
  | none => exact ⟨heap, rfl, h⟩
  | some address =>
    have hmem : (⟨address, size⟩ : Block) ∈ heap.live := h.symm.mem_iff.mp mem_cons_self
    refine ⟨_, if_pos hmem, ?_⟩
    have herase := h.erase (⟨address, size⟩ : Block)
    rw [blocksOf, singleton_append, erase_cons_head] at herase
    exact herase

/-- The blocks of a workspace -/
def Workspace.blocks (w : Workspace) : List Block :=
  blocksOf w.globalStack (w.capacity * sizeofGlobalState) ++
    (blocksOf w.collectionStack (w.capacity * sizeofStduint) ++
      (blocksOf w.definitions (w.capacity * sizeofReportDefinition) ++
        blocksOf w.localSpans (w.capacity * sizeofUsageSpan)))

theorem Workspace.release_live {w : Workspace} (h : heap.live.Perm (w.blocks ++ others)) :
    ∃ heap', w.release heap = some heap' ∧ heap'.live.Perm others := by
  unfold Workspace.blocks at h
  simp only [append_assoc] at h
  obtain ⟨heap₁, hglobal, h⟩ := deallocate_live h
  obtain ⟨heap₂, hcollection, h⟩ := deallocate_live h
  obtain ⟨heap₃, hdefinitions, h⟩ := deallocate_live h
  obtain ⟨heap₄, hspans, h⟩ := deallocate_live h
  exact ⟨heap₄, by rw [Workspace.release, hglobal]; simp only [some_bind,
    hcollection, hdefinitions, hspans], h⟩

theorem Workspace.allocate_live (grant : Nat → Bool) (capacity : Nat) (heap : Heap) :
    (Workspace.allocate grant capacity heap).1.capacity = capacity ∧
      (Workspace.allocate grant capacity heap).2.live.Perm
        ((Workspace.allocate grant capacity heap).1.blocks ++ heap.live) := by
  refine ⟨rfl, perm_iff_count.mpr fun b => ?_⟩
  unfold Workspace.allocate Workspace.blocks
  simp only [HIDReport.allocate_live, count_append]
  omega

/-- The blocks of a layout -/
def Layout.blocks (l : Layout) : List Block :=
  if l.allocator then
    blocksOf l.definitionsAt (l.definitionCount * sizeofReportDefinition) ++
      (blocksOf l.fieldsAt (l.fieldCount * sizeofReportField) ++
        (blocksOf l.collectionsAt (l.collectionCount * sizeofReportCollection) ++
          blocksOf l.usageSpansAt (l.usageSpanCount * sizeofUsageSpan)))
  else []

theorem Layout.clear_live (h : heap.live.Perm (l.blocks ++ others)) :
    ∃ heap', l.clear heap = some ({}, heap') ∧ heap'.live.Perm others := by
  unfold Layout.blocks at h
  unfold Layout.clear
  split at h
  case isTrue hallocator =>
    rw [if_pos hallocator]
    simp only [append_assoc] at h
    obtain ⟨heap₁, hdefinitions, h⟩ := deallocate_live h
    obtain ⟨heap₂, hfields, h⟩ := deallocate_live h
    obtain ⟨heap₃, hcollections, h⟩ := deallocate_live h
    obtain ⟨heap₄, hspans, h⟩ := deallocate_live h
    refine ⟨heap₄, ?_, h⟩
    simp only [hdefinitions, hfields, hcollections, hspans, some_bind]
  case isFalse hallocator =>
    rw [if_neg hallocator]
    exact ⟨heap, rfl, h⟩

/-- An array that is allocated, or why it is not -/
structure ArrayAllocated (count size : Nat) (heap : Heap) (done : Bool) (pointer : Option Nat)
    (heap' : Heap) : Prop where
  live : heap'.live = blocksOf pointer (count * size) ++ heap.live
  null : done = true → pointer = none → count = 0

theorem allocateArray_allocated (grant : Nat → Bool) (count size : Nat) (heap : Heap) :
    ArrayAllocated count size heap (allocateArray grant count size heap).1
      (allocateArray grant count size heap).2.1 (allocateArray grant count size heap).2.2 := by
  unfold allocateArray
  split
  case isTrue hzero => exact ⟨rfl, fun _ _ => hzero⟩
  split
  · exact ⟨rfl, nofun⟩
  · refine ⟨allocate_live grant _ heap, fun hdone hnull => ?_⟩
    have hnull : (allocate grant (count * size) heap).1 = none := hnull
    dsimp only at hdone
    rw [hnull] at hdone
    cases hdone

theorem allocateNext_allocated (grant : Nat → Bool) (done : Bool) (count size : Nat) (heap : Heap) :
    ArrayAllocated count size heap (allocateNext grant done count size heap).1
      (allocateNext grant done count size heap).2.1 (allocateNext grant done count size heap).2.2 ∧
      ((allocateNext grant done count size heap).1 = true → done = true) := by
  unfold allocateNext
  split
  case isTrue hdone => exact ⟨allocateArray_allocated grant count size heap, fun _ => hdone⟩
  case isFalse => exact ⟨⟨rfl, nofun⟩, nofun⟩

/-- What `Layout.allocate` gives -/
structure Layout.Allocated (first : Pass) (heap : Heap) (done : Bool) (l : Layout) (heap' : Heap) :
    Prop where
  live : heap'.live.Perm (l.blocks ++ heap.live)
  counts : l.definitionCount = first.output.definitions.length ∧ l.fieldCount = first.counts.fields ∧
    l.collectionCount = first.counts.collections ∧ l.usageSpanCount = first.counts.usageSpans
  room : done = true → first.counts.usageSpans < 2 ^ 64 → l.secondOutput.Room first

theorem Layout.allocate_allocated (grant : Nat → Bool) (first : Pass) (heap : Heap) :
    Layout.Allocated first heap (Layout.allocate grant first heap).1
      (Layout.allocate grant first heap).2.1 (Layout.allocate grant first heap).2.2 := by
  unfold Layout.allocate
  dsimp only
  have hdefinitions := allocateArray_allocated grant first.output.definitions.length
    sizeofReportDefinition heap
  generalize allocateArray grant first.output.definitions.length sizeofReportDefinition heap = r₁ at *
  obtain ⟨hfields, hdone₂⟩ := allocateNext_allocated grant r₁.1 first.counts.fields sizeofReportField
    r₁.2.2
  generalize allocateNext grant r₁.1 first.counts.fields sizeofReportField r₁.2.2 = r₂ at *
  obtain ⟨hcollections, hdone₃⟩ := allocateNext_allocated grant r₂.1 first.counts.collections
    sizeofReportCollection r₂.2.2
  generalize allocateNext grant r₂.1 first.counts.collections sizeofReportCollection r₂.2.2 = r₃ at *
  obtain ⟨hspans, hdone₄⟩ := allocateNext_allocated grant r₃.1 first.counts.usageSpans
    sizeofUsageSpan r₃.2.2
  generalize allocateNext grant r₃.1 first.counts.usageSpans sizeofUsageSpan r₃.2.2 = r₄ at *
  have harray {α : Type} {count : Nat} {pointer : Option Nat} (h : pointer = none → count = 0) :
      Holds (Layout.array pointer : Option (List α)) count 0 := by
    cases pointer with
    | none => exact ⟨fun _ => h rfl, rfl⟩
    | some => exact ⟨nofun, rfl⟩
  obtain ⟨done₁, definitionsAt, heap₁⟩ := r₁
  obtain ⟨done₂, fieldsAt, heap₂⟩ := r₂
  obtain ⟨done₃, collectionsAt, heap₃⟩ := r₃
  obtain ⟨done₄, usageSpansAt, heap₄⟩ := r₄
  refine ⟨perm_iff_count.mpr fun b => ?_, ⟨rfl, rfl, rfl, rfl⟩, fun hdone hword => ?_⟩
  · dsimp only
    rw [hspans.live, hcollections.live, hfields.live, hdefinitions.live]
    simp only [Layout.blocks, if_true, count_append]
    omega
  · exact ⟨rfl, rfl, ⟨rfl, harray (hfields.null (hdone₃ (hdone₄ hdone)))⟩,
      ⟨rfl, harray (hcollections.null (hdone₄ hdone))⟩, ⟨rfl, harray (hspans.null hdone)⟩, hword⟩

/-! ## Values -/

variable {report : Bytes} {start bitOffset : Nat}

/-- A bit of the payload that begins at `start` in the report -/
def reportBit (report : Bytes) (start index : Nat) : Bool :=
  (report.getD (start + index / 8) 0).toNat.testBit (index % 8)

theorem and_bit_ne_zero (x i : Nat) : x &&& (1 <<< i) ≠ 0 ↔ x.testBit i = true := by
  rw [Nat.one_shiftLeft, Nat.and_two_pow]
  cases x.testBit i with
  | true => simp only [Bool.toNat_true, Nat.one_mul, iff_true]; exact Nat.pos_iff_ne_zero.mp (Nat.two_pow_pos i)
  | false => simp only [Bool.toNat_false, Nat.zero_mul, ne_eq, not_true, Bool.false_eq_true]

theorem extractBits_spec : (bits : Nat) →
    (∀ bit < bits, start + (bitOffset + bit) / 8 < report.length) →
    ∃ value, extractBits report start bitOffset bits = some value ∧ value < 2 ^ bits ∧
      ∀ bit < bits, value.testBit bit = reportBit report start (bitOffset + bit)
  | 0, _ => ⟨0, rfl, Nat.one_pos, nofun⟩
  | bits + 1, h => by
    obtain ⟨value, hvalue, hlt, hbits⟩ := extractBits_spec bits fun bit hbit =>
      h bit (Nat.lt_succ_of_lt hbit)
    have hinside := h bits (Nat.lt_succ_self bits)
    obtain ⟨b, hb⟩ : ∃ b, report[start + (bitOffset + bits) / 8]? = some b :=
      ⟨_, getElem?_eq_getElem hinside⟩
    have hbit : (b.toNat &&& (1 <<< ((bitOffset + bits) &&& 7)) ≠ 0) ↔
        reportBit report start (bitOffset + bits) = true := by
      rw [and_bit_ne_zero, reportBit, getD_eq_getElem?_getD, hb, Option.getD_some,
        show (7 : Nat) = 2 ^ 3 - 1 from rfl, Nat.and_two_pow_sub_one_eq_mod]
    have hextract : extractBits report start bitOffset (bits + 1) =
        some (if b.toNat &&& (1 <<< ((bitOffset + bits) &&& 7)) ≠ 0 then value ||| 1 <<< bits
          else value) := by
      simp only [extractBits, hvalue, hb, some_bind]
    have hwide : value < 2 ^ (bits + 1) :=
      Nat.lt_of_lt_of_le hlt (Nat.pow_le_pow_right (by decide) (Nat.le_succ _))
    have htop := Nat.testBit_lt_two_pow hlt
    refine ⟨_, hextract, ?_, fun bit hlast => ?_⟩
    · split
      · refine Nat.or_lt_two_pow hwide ?_
        rw [Nat.one_shiftLeft]
        exact Nat.pow_lt_pow_right (by decide) (Nat.lt_succ_self _)
      · exact hwide
    · rcases Nat.lt_or_eq_of_le (Nat.le_of_lt_succ hlast) with hlow | rfl
      · rw [← hbits bit hlow]
        split
        · rw [Nat.testBit_or, Nat.one_shiftLeft, Nat.testBit_two_pow_of_ne (Nat.ne_of_gt hlow),
            Bool.or_false]
        · rfl
      · split
        case isTrue hset =>
          rw [Nat.testBit_or, Nat.one_shiftLeft, Nat.testBit_two_pow_self, Bool.or_true,
            hbit.mp hset]
        case isFalse hclear =>
          rw [htop]
          exact (Bool.eq_false_iff.mpr fun h => hclear (hbit.mpr h)).symm

/-- A number of so many bits that is read with a sign -/
def twosComplement (bits value : Nat) : Int :=
  if value < 2 ^ (bits - 1) then value else (value : Int) - 2 ^ bits

theorem testBit_top {bits value : Nat} (hbits : 0 < bits) (h : value < 2 ^ bits) :
    value.testBit (bits - 1) = decide (¬ value < 2 ^ (bits - 1)) := by
  obtain ⟨n, rfl⟩ : ∃ n, bits = n + 1 := ⟨bits - 1, by omega⟩
  rw [Nat.add_sub_cancel]
  by_cases hlow : value < 2 ^ n
  · rw [Nat.testBit_lt_two_pow hlow, decide_eq_false fun hnot => hnot hlow]
  · rw [decide_eq_true hlow]
    exact Nat.testBit_of_two_pow_le_and_two_pow_add_one_gt (Nat.le_of_not_lt hlow) h

/-- Setting the bits above the sign gives the signed number. -/
theorem toInt64_extended {bits value : Nat} (hbits : 0 < bits) (hle : bits ≤ 64) (h : value < 2 ^ bits) :
    toInt64 (if bits < 64 ∧ value &&& (1 <<< (bits - 1)) ≠ 0 then value ||| (2 ^ 64 - 2 ^ bits)
      else value) = twosComplement bits value := by
  have hsign : value &&& (1 <<< (bits - 1)) ≠ 0 ↔ ¬ value < 2 ^ (bits - 1) := by
    rw [and_bit_ne_zero, testBit_top hbits h, decide_eq_true_eq]
  unfold twosComplement
  by_cases hlow : value < 2 ^ (bits - 1)
  · have hsmall : value < 2 ^ 63 :=
      Nat.lt_of_lt_of_le hlow (Nat.pow_le_pow_right (by decide) (by omega))
    rw [if_neg fun hboth => hsign.mp hboth.2 hlow, if_pos hlow, toInt64, if_pos hsmall]
  · rw [if_neg hlow]
    rcases Nat.lt_or_eq_of_le hle with hlt | rfl
    · have hpow : 2 ^ 64 = 2 ^ bits * 2 ^ (64 - bits) := by
        rw [← Nat.pow_add]
        congr 1
        omega
      have hmask : 2 ^ 64 - 2 ^ bits = 2 ^ bits * (2 ^ (64 - bits) - 1) := by
        rw [Nat.mul_sub_one, ← hpow]
      have hor : value ||| (2 ^ 64 - 2 ^ bits) = value + (2 ^ 64 - 2 ^ bits) := by
        rw [hmask, Nat.or_comm, ← Nat.two_pow_add_eq_or_of_lt h, Nat.add_comm]
      have hhalf : 2 ^ bits ≤ 2 ^ 63 := Nat.pow_le_pow_right (by decide) (by omega)
      rw [if_pos ⟨hlt, hsign.mpr hlow⟩, hor, toInt64, if_neg (by omega)]
      have hcast : ((2 ^ bits : Nat) : Int) = 2 ^ bits := Int.natCast_pow 2 bits
      omega
    · rw [if_neg fun hboth => Nat.lt_irrefl _ hboth.1, toInt64, if_neg hlow]

/-! ## Layouts -/

/-- The length of the id before the payload -/
def ReportDefinition.idLength (d : ReportDefinition) : Nat := if d.reportId = 0 then 0 else 1

/-- A report that is long enough and has the right id -/
structure ReportDefinition.Admits (d : ReportDefinition) (report : Bytes) : Prop where
  length : d.idLength + (d.payloadBits + 7) / 8 ≤ report.length
  id : d.reportId ≠ 0 → ∃ b, report[0]? = some b ∧ b.toNat = d.reportId

/-- An element of a field is read from a report. -/
structure Layout.Extracts (l : Layout) (d : ReportDefinition) (f : ReportField) (element : Nat)
    (report : Bytes) (value : Nat) : Prop where
  unsigned : l.extractUnsigned f element (some report) = some (.success, value)
  signed : l.extractSigned f element (some report) = some (.success,
    if f.logicalMinimum < 0 then twosComplement f.reportSize value else toInt64 value)
  range : value < 2 ^ f.reportSize
  bits : ∀ bit < f.reportSize, value.testBit bit =
    reportBit report d.idLength (f.bitOffset + f.reportSize * element + bit)

/-- A layout whose parts fit together -/
structure Layout.Consistent (l : Layout) : Prop where
  definitionCount : l.definitions.length = l.definitionCount
  fieldCount : l.fields.length = l.fieldCount
  collectionCount : l.collections.length = l.collectionCount
  usageSpanCount : l.usageSpans.length = l.usageSpanCount
  once : (l.definitions.map (·.key)).Nodup
  described : ∀ f ∈ l.fields, ∃ d ∈ l.definitions, d.key = f.key
  ranges : ∀ d ∈ l.definitions,
    Tiles (·.bitOffset) (·.bits) 0 (l.fields.filter fun f => f.key = d.key) d.payloadBits
  disjoint : ∀ d ∈ l.definitions, (l.fields.filter fun f => f.key = d.key).Pairwise fun f g =>
    f.bitOffset + f.bits ≤ g.bitOffset
  forest : ∀ (i : Nat) (c : ReportCollection), l.collections[i]? = some c →
    c.parentIndex = noCollection ∨ c.parentIndex < i
  spans : ∀ f ∈ l.fields, f.usageSpanIndex + f.usageSpanCount ≤ l.usageSpanCount
  extracts : ∀ d ∈ l.definitions, ∀ f ∈ l.fields, d.key = f.key → ∀ element < f.reportCount,
    0 < f.reportSize → f.reportSize ≤ 64 → ∀ report, d.Admits report →
    ∃ value, l.Extracts d f element report value

/-- What a pass leaves in a definition -/
structure ReportDefinition.Sized (d : ReportDefinition) : Prop where
  bytes : d.payloadBytes = (d.payloadBits + 7) / 8
  small : d.payloadBits ≤ 8 * maximumPayloadLength
  hasId : d.hasReportId = decide (d.reportId ≠ 0)

theorem ReportDefinition.Sized.idLength (h : d.Sized) :
    (if d.hasReportId then 1 else 0) = d.idLength := by
  rw [h.hasId, ReportDefinition.idLength]
  by_cases hzero : d.reportId = 0
  · rw [if_pos hzero, decide_eq_false fun hne => hne hzero, if_neg Bool.false_ne_true]
  · rw [if_neg hzero, decide_eq_true hzero, if_pos rfl]

theorem element_within {size element count : Nat} (h : element < count) :
    size * element + size ≤ size * count := by
  rw [← Nat.mul_succ]
  exact Nat.mul_le_mul_left size h

theorem Layout.extracts_of_sized {f : ReportField}
    {element : Nat} (hfind : l.findDefinition f.type f.reportId = some d) (hsized : d.Sized)
    (hinside : f.bitOffset + f.bits ≤ d.payloadBits) (helement : element < f.reportCount)
    (hpos : 0 < f.reportSize) (hle : f.reportSize ≤ 64) (hadmits : d.Admits report) :
    ∃ value, l.Extracts d f element report value := by
  have hwithin := @element_within f.reportSize element f.reportCount helement
  have hsmall := hsized.small
  unfold ReportField.bits at hinside
  unfold maximumPayloadLength at hsmall
  have hlength := hadmits.length
  obtain ⟨value, hextract, hlt, hbits⟩ := @extractBits_spec report d.idLength
    (f.bitOffset + f.reportSize * element) f.reportSize (fun bit hbit => by omega)
  have hmod : f.reportSize * element % 2 ^ 64 = f.reportSize * element := Nat.mod_eq_of_lt (by omega)
  have hmatch : (if d.hasReportId then (report[0]?).bind fun b => some (decide (b.toNat ≠ d.reportId))
      else some false) = some false := by
    rw [hsized.hasId]
    by_cases hzero : d.reportId = 0
    · rw [decide_eq_false fun hne => hne hzero, if_neg Bool.false_ne_true]
    · obtain ⟨b, hb, hid⟩ := hadmits.id hzero
      rw [decide_eq_true hzero, if_pos rfl, hb, Option.bind_some, decide_eq_false fun hne => hne hid]
  have hunsigned : l.extractUnsigned f element (some report) = some (.success, value) := by
    unfold Layout.extractUnsigned
    dsimp only
    rw [hfind]
    dsimp only
    rw [if_neg (by omega), if_neg (by omega), hsized.idLength, if_neg (by rw [hsized.bytes]; omega)]
    refine Option.bind_eq_some_iff.mpr ⟨false, hmatch, ?_⟩
    rw [if_neg Bool.false_ne_true, hmod, if_neg (by omega), if_neg (by omega)]
    exact Option.bind_eq_some_iff.mpr ⟨value, hextract, rfl⟩
  refine ⟨value, hunsigned, ?_, hlt, hbits⟩
  refine Option.bind_eq_some_iff.mpr ⟨_, hunsigned, ?_⟩
  dsimp only
  rw [if_neg fun hne => hne rfl]
  by_cases hminimum : f.logicalMinimum < 0
  · rw [if_pos hminimum, ← toInt64_extended hpos hle hlt]
    simp only [hminimum, true_and]
  · rw [if_neg hminimum, if_neg fun hboth => hminimum hboth.1]

/-- Of definitions with different keys the one with the key is found. -/
theorem find_key {definitions : List ReportDefinition} {type : ReportType}
    {reportId : Nat} (honce : (definitions.map (·.key)).Nodup) (hd : d ∈ definitions)
    (hkey : d.key = (type, reportId)) :
    definitions.find? (ReportDefinition.is type reportId) = some d := by
  cases hfind : definitions.find? (ReportDefinition.is type reportId) with
  | none => exact absurd (ReportDefinition.is_key.mpr hkey) (find?_eq_none.mp hfind d hd)
  | some e =>
    have hsame : e.key = d.key :=
      (ReportDefinition.is_key.mp (find?_some hfind)).trans hkey.symm
    rw [inj_on_of_nodup_map honce (mem_of_find?_eq_some hfind) hd hsame]

/-- The layout of a pass that filled its arrays is consistent. -/
theorem Pass.Laid.consistent (h : pass.Laid)
    (hsame : sameCounts l pass.withBytes = true) : (l.filled pass.withBytes).Consistent := by
  simp only [sameCounts, Bool.and_eq_true, decide_eq_true_eq] at hsame
  obtain ⟨⟨⟨hdefinitionCount, hfieldCount⟩, hcollectionCount⟩, husageSpanCount⟩ := hsame
  have hmem : ∀ d ∈ (l.filled pass.withBytes).definitions, ∃ d₀ ∈ pass.output.definitions,
      d.key = d₀.key ∧ d.payloadBits = d₀.payloadBits ∧ d.Sized := by
    intro d hd
    obtain ⟨d₀, hd₀, rfl⟩ := mem_map.mp hd
    have hsmall := h.definitions.small d₀ hd₀
    refine ⟨d₀, hd₀, rfl, rfl, ?_, hsmall, h.definitions.hasId d₀ hd₀⟩
    unfold maximumPayloadLength at hsmall
    dsimp only
    rw [Nat.mod_eq_of_lt (by omega)]
  have hkeys : (l.filled pass.withBytes).definitions.map (·.key) =
      pass.output.definitions.map (·.key) := by
    show (pass.output.definitions.map _).map _ = _
    rw [map_map]
    rfl
  have honce : ((l.filled pass.withBytes).definitions.map (·.key)).Nodup := hkeys ▸ h.definitions.keys
  have hranges : ∀ d ∈ (l.filled pass.withBytes).definitions,
      Tiles (·.bitOffset) (·.bits) 0 (pass.fields.filter fun f => f.key = d.key) d.payloadBits := by
    intro d hd
    obtain ⟨d₀, hd₀, hkey, hbits, -⟩ := hmem d hd
    rw [hkey, hbits]
    exact h.definitions.tiles d₀ hd₀
  refine ⟨hdefinitionCount, h.filled.fields.length.trans hfieldCount,
    h.filled.collections.length.trans hcollectionCount,
    h.filled.usageSpans.length.trans husageSpanCount, honce, ?_, hranges,
    fun d hd => (hranges d hd).disjoint, h.parents, ?_, ?_⟩
  · intro f hf
    obtain ⟨d₀, hd₀, hkey⟩ := h.definitions.defined f hf
    have hmemKey : f.key ∈ (l.filled pass.withBytes).definitions.map (·.key) := by
      rw [hkeys, ← hkey]
      exact mem_map_of_mem hd₀
    exact mem_map.mp hmemKey
  · intro f hf
    exact husageSpanCount ▸ h.spans f hf
  · intro d hd f hf hkey element helement hpos hle report hadmits
    obtain ⟨d₀, hd₀, -, -, hsized⟩ := hmem d hd
    have hfield : f ∈ pass.fields.filter fun f => f.key = d.key :=
      mem_filter.mpr ⟨hf, decide_eq_true hkey.symm⟩
    exact Layout.extracts_of_sized (find_key honce hd hkey) hsized ((hranges d hd).within hfield).2
      helement hpos hle hadmits

/-! ## Parsing -/

section

variable (hcapacity : capacity < 2 ^ 64) (h : runPass capacity source (firstOutput capacity) = .ok first)
include hcapacity h

/-- The first pass keeps the spans within the descriptor. -/
theorem runPass_spans : first.counts.usageSpans < 2 ^ 64 := by
  obtain ⟨pass, hrun, -, rfl⟩ := runPass_eq_ok.mp h
  have hkeeps := @runItems_keeps capacity source
    (fun pass => pass.output.usageSpanCapacity = capacity ∧ pass.counts.usageSpans ≤ capacity) ?_ _ _ _ _
    hrun ⟨rfl, Nat.zero_le _⟩
  · exact Nat.lt_of_le_of_lt hkeeps.2 hcapacity
  · rintro pass pass' item - hstep ⟨hsame, hle⟩
    cases hstep with
    | main short type step =>
      cases step with
      | field tag added =>
        obtain ⟨-, ds, bitOffset, -, -, hspans, fields, usageSpans, -, rfl⟩ := addField_eq_ok.mp added
        refine ⟨hsame, ?_⟩
        unfold Pass.spansLeft at hspans
        rw [hsame] at hspans
        show pass.counts.usageSpans + pass.locals.spans.length ≤ capacity
        omega
      | begins tag begun =>
        obtain ⟨-, -, -, -, -, collections, -, rfl⟩ := beginCollection_eq_ok.mp begun
        exact ⟨hsame, hle⟩
      | ends => exact ⟨hsame, hle⟩
    | long | global | «local» | reserved => exact ⟨hsame, hle⟩

/-- The second pass over the arrays that the first one counted fills a consistent layout. -/
theorem runPass_second (hallocated : Layout.Allocated first heap true l heap') :
    ∃ second, runPass capacity source l.secondOutput = .ok second ∧ sameCounts l second = true ∧
      (l.filled second).Consistent := by
  have hroom := hallocated.room rfl (runPass_spans hcapacity h)
  obtain ⟨hdefinitionCount, hfieldCount, hcollectionCount, husageSpanCount⟩ := hallocated.counts
  obtain ⟨second, hsecond, hdefinitions, hcounts⟩ := runPass_mirrored h hroom
  have hsame : sameCounts l second = true := by
    simp only [sameCounts, Bool.and_eq_true, decide_eq_true_eq, hdefinitions, hcounts]
    exact ⟨⟨⟨hdefinitionCount.symm, hfieldCount.symm⟩, hcollectionCount.symm⟩, husageSpanCount.symm⟩
  refine ⟨second, hsecond, hsame, ?_⟩
  obtain ⟨pass, hrun, -, rfl⟩ := runPass_eq_ok.mp hsecond
  have hlaid : pass.Laid := runItems_keeps (fun hvalue hstep hlaid => hlaid.step hvalue hstep) _ hrun
    (Pass.Laid.start hroom)
  exact hlaid.consistent hsame

end

/-- What `Parse` gives: an empty layout and all memory given back, or a consistent layout whose blocks
are all that is kept -/
structure Parsed (others : List Block) (result : ParseResult) (layout : Layout) (heap : Heap) : Prop where
  failure : result.status ≠ .success → layout = {} ∧ heap.live.Perm others
  success : result.status = .success → layout.Consistent ∧ heap.live.Perm (layout.blocks ++ others)

theorem Parsed.failed {result : ParseResult} (hstatus : result.status ≠ .success)
    (h : heap.live.Perm others) : Parsed others result {} heap :=
  ⟨fun _ => ⟨rfl, h⟩, fun hsuccess => absurd hsuccess hstatus⟩

/-- What `Parse` does with its workspace, from an empty layout -/
theorem parseIn_parsed {w : Workspace} (hcapacity : w.capacity < 2 ^ 64)
    (h : heap.live.Perm others) :
    ∃ result layout heap', parseIn grant source w {} heap = some (result, layout, heap') ∧
      Parsed others result layout heap' := by
  unfold parseIn
  split
  · exact ⟨_, _, _, rfl, .failed nofun h⟩
  have hrefuses := @runPass_refuses w.capacity source
  cases hfirst : runPass w.capacity source (firstOutput w.capacity) with
  | error stop =>
    obtain ⟨status, offset, itemPrefix, rfl, hstatus⟩ := hrefuses stop hfirst
    exact ⟨_, _, _, rfl, .failed hstatus h⟩
  | ok first =>
    have hallocated := Layout.allocate_allocated grant first heap
    dsimp only
    generalize Layout.allocate grant first heap = r at *
    obtain ⟨done, l, heap₁⟩ := r
    have hlive : heap₁.live.Perm (l.blocks ++ others) := hallocated.live.trans (h.append_left _)
    cases done with
    | false =>
      obtain ⟨heap₂, hclear, hheap⟩ := Layout.clear_live hlive
      have hstatus : (failed .allocationFailed 0 0).status ≠ .success := nofun
      refine ⟨failed .allocationFailed 0 0, {}, heap₂, ?_, .failed hstatus hheap⟩
      rw [Bool.not_false, if_pos rfl, hclear]
      rfl
    | true =>
      obtain ⟨second, hsecond, hsame, hconsistent⟩ := runPass_second hcapacity hfirst hallocated
      rw [Bool.not_true, if_neg Bool.false_ne_true, hsecond]
      dsimp only
      rw [hsame, Bool.not_true, if_neg Bool.false_ne_true]
      exact ⟨_, _, _, rfl, fun hne => absurd rfl hne, fun _ => ⟨hconsistent, hlive⟩⟩

/-- `Parse` always ends, inside the descriptor and its arrays; the two passes agree, and the layout is
consistent or everything is given back. -/
theorem parse_consistent (grant : Nat → Bool) (source : Option Bytes) (requestedAllocator : Bool)
    {layout : Layout} {heap : Heap} {others : List Block}
    (hlive : heap.live.Perm (layout.blocks ++ others)) :
    (∃ result layout' heap', parse grant source requestedAllocator layout heap =
        some (result, layout', heap') ∧ Parsed others result layout' heap') ∧
      ∀ bytes first l heap₁ heap₂, bytes.length ≤ descriptorMaximumLength →
        runPass (bytes.length + 1) bytes (firstOutput (bytes.length + 1)) = .ok first →
        Layout.allocate grant first heap₁ = (true, l, heap₂) →
        ∃ second, runPass (bytes.length + 1) bytes l.secondOutput = .ok second ∧
          sameCounts l second = true := by
  constructor
  · obtain ⟨heap₁, hclear, hheap⟩ := Layout.clear_live hlive
    unfold parse
    rw [hclear]
    simp only [Option.bind_eq_bind, Option.bind_some]
    cases source with
    | none => exact ⟨_, _, _, rfl, .failed nofun hheap⟩
    | some source =>
      dsimp only
      split
      case isTrue => exact ⟨_, _, _, rfl, .failed nofun hheap⟩
      case isFalse hvalid =>
      simp only [Bool.or_eq_true, decide_eq_true_eq, not_or] at hvalid
      obtain ⟨-, hlength⟩ := hvalid
      unfold descriptorMaximumLength at hlength
      obtain ⟨hcapacity, hw⟩ := Workspace.allocate_live grant (source.length + 1) heap₁
      generalize Workspace.allocate grant (source.length + 1) heap₁ = r at *
      obtain ⟨w, heap₂⟩ := r
      dsimp only at hcapacity hw ⊢
      obtain ⟨result, layout', heap₃, hparse, hparsed⟩ := @parseIn_parsed source grant heap₂
        (w.blocks ++ others) w (by omega) (hw.trans (hheap.append_left _))
      rw [hparse]
      by_cases hstatus : result.status = .success
      · obtain ⟨hconsistent, hheap₃⟩ := hparsed.success hstatus
        have hswap : heap₃.live.Perm (w.blocks ++ (layout'.blocks ++ others)) :=
          hheap₃.trans (perm_append_comm_assoc _ _ _)
        obtain ⟨heap₄, hrelease, hheap₄⟩ := Workspace.release_live hswap
        refine ⟨result, layout', heap₄, ?_, fun hne => absurd hstatus hne, fun _ =>
          ⟨hconsistent, hheap₄⟩⟩
        simp only [Option.bind_some, hrelease]
      · obtain ⟨rfl, hheap₃⟩ := hparsed.failure hstatus
        obtain ⟨heap₄, hrelease, hheap₄⟩ := Workspace.release_live hheap₃
        refine ⟨result, {}, heap₄, ?_, .failed hstatus hheap₄⟩
        simp only [Option.bind_some, hrelease]
  · intro bytes first l heap₁ heap₂ hlength hfirst hallocate
    have hallocated := Layout.allocate_allocated grant first heap₁
    rw [hallocate] at hallocated
    unfold descriptorMaximumLength at hlength
    obtain ⟨second, hsecond, hsame, -⟩ := runPass_second (by omega) hfirst hallocated
    exact ⟨second, hsecond, hsame⟩

/-- A mouse: three buttons, five bits of padding, and three signed bytes in a collection of a collection -/
def mouseDescriptor : Bytes :=
  [0x05, 0x01, 0x09, 0x02, 0xA1, 0x01, 0x09, 0x01, 0xA1, 0x00, 0x05, 0x09, 0x19, 0x01, 0x29, 0x03, 0x15,
    0x00, 0x25, 0x01, 0x95, 0x03, 0x75, 0x01, 0x81, 0x02, 0x95, 0x01, 0x75, 0x05, 0x81, 0x03, 0x05, 0x01,
    0x09, 0x30, 0x09, 0x31, 0x09, 0x38, 0x15, 0x81, 0x25, 0x7F, 0x75, 0x08, 0x95, 0x03, 0x81, 0x06, 0xC0,
    0xC0]

theorem parse_consistent_mouse :
    ∃ result layout heap, parse (fun _ => true) (some mouseDescriptor) true {} {} =
      some (result, layout, heap) ∧ result.status = .success ∧ layout.Consistent := by
  obtain ⟨⟨result, layout, heap, hparse, hparsed⟩, -⟩ := parse_consistent (fun _ => true)
    (some mouseDescriptor) true (show ({} : Heap).live.Perm (({} : Layout).blocks ++ []) from .refl _)
  have hstatus : (parse (fun _ => true) (some mouseDescriptor) true {} {}).map (·.1.status) =
      some .success := by decide
  rw [hparse] at hstatus
  have hsuccess : result.status = .success := Option.some.inj hstatus
  exact ⟨result, layout, heap, hparse, hsuccess, (hparsed.success hsuccess).1⟩

end Unisym.Device.HIDReport
