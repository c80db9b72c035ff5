/-
# `HIDReportSpec` — what a pass over a report descriptor does

A pass that counts is mirrored by one that fills arrays of the size that was counted, and what is
filled fits together: fields lie one after the other in their report, parents before their
collections, and spans in the table.
-/
import Unisym.Device.HIDReport
import Unisym.Library.Tiling
import Mathlib.Data.List.Nodup

namespace Unisym.Device.HIDReport

open Tiling List

variable {capacity : Nat} {source : Bytes} {pass pass' : Pass} {item : Item} {α β : Type}

theorem bind_eq_ok {x : Run α} {f : α → Run β} {b : β} :
    (x >>= f) = .ok b ↔ ∃ a, x = .ok a ∧ f a = .ok b := by
  cases x with
  | error stop => exact ⟨nofun, fun ⟨_, h, _⟩ => nomatch h⟩
  | ok a => exact ⟨fun h => ⟨a, rfl, h⟩, fun ⟨_, h, h'⟩ => by cases h; exact h'⟩

/-- What ends early does so by an error, not by an access outside. -/
abbrev Refuses (x : Run α) : Prop :=
  ∀ stop, x = .error stop → ∃ status offset itemPrefix,
    stop = .fail status offset itemPrefix ∧ status ≠ .success

theorem Refuses.bind {x : Run α} {f : α → Run β} (hx : Refuses x)
    (hf : ∀ a, x = .ok a → Refuses (f a)) : Refuses (x >>= f) := by
  cases x with
  | error stop =>
    rintro _ ⟨⟩
    exact hx stop rfl
  | ok a => exact hf a rfl

theorem refuses_error {status : DescriptorStatus} (h : status ≠ .success) (offset itemPrefix : Nat) :
    Refuses (.error (.fail status offset itemPrefix) : Run α) := by
  rintro _ ⟨⟩
  exact ⟨status, offset, itemPrefix, rfl, h⟩

theorem refuses_ok (a : α) : Refuses (.ok a : Run α) := by
  rintro _ ⟨⟩

theorem refuses_fail {status : DescriptorStatus} (h : status ≠ .success) :
    Refuses (fail item status : Run α) := refuses_error h _ _

/-! ## Items -/

variable {index reportId : Nat} {type : ReportType} {definitions ds : List ReportDefinition}
  {global : GlobalState} {output : PassOutput}

theorem byteAt_ok (h : index < source.length) : ∃ b, byteAt source index = .ok b := by
  refine ⟨source[index].toNat, ?_⟩
  rw [byteAt, getElem?_eq_getElem h]

theorem byteAt_inside {b : Nat} (h : byteAt source index = .ok b) : index < source.length := by
  unfold byteAt at h
  split at h
  case h_1 hat => exact (List.getElem?_eq_some_iff.mp hat).1
  case h_2 => cases h

theorem byteAt_lt {b : Nat} (h : byteAt source index = .ok b) : b < 256 := by
  unfold byteAt at h
  split at h
  · cases h
    exact UInt8.toNat_lt _
  · cases h

theorem readValue_ok {start : Nat} : (size : Nat) → start + size ≤ source.length →
    ∃ value, readValue source start size = .ok value
  | 0, _ => ⟨0, rfl⟩
  | size + 1, h => by
    obtain ⟨value, hvalue⟩ := @readValue_ok start size (by omega)
    obtain ⟨b, hb⟩ := @byteAt_ok source (start + size) (by omega)
    exact ⟨value ||| b <<< (size * 8), bind_eq_ok.mpr ⟨_, hvalue, bind_eq_ok.mpr ⟨_, hb, rfl⟩⟩⟩

theorem readValue_lt {start : Nat} : (size : Nat) → {value : Nat} →
    readValue source start size = .ok value → value < 2 ^ (size * 8)
  | 0, _, h => by
    cases h
    exact Nat.one_pos
  | size + 1, value, h => by
    obtain ⟨low, hlow, h⟩ := bind_eq_ok.mp h
    obtain ⟨b, hb, h⟩ := bind_eq_ok.mp h
    cases h
    have hlow := readValue_lt size hlow
    have hb := byteAt_lt hb
    refine Nat.or_lt_two_pow (Nat.lt_of_lt_of_le hlow (Nat.pow_le_pow_right (by decide) (by omega))) ?_
    rw [Nat.shiftLeft_eq, Nat.succ_mul, Nat.add_comm, Nat.pow_add]
    exact Nat.mul_lt_mul_of_pos_right (by omega) (Nat.two_pow_pos _)

/-- An item that is read lies in the descriptor, and its value is a word of 32 bits. -/
structure Item.Read (source : Bytes) (offset : Nat) (item : Item) : Prop where
  next : offset < item.nextOffset
  inside : item.nextOffset ≤ source.length
  value : item.value < 2 ^ 32

theorem itemSize_le {sizeCode : Nat} (h : sizeCode ≤ 3) : itemSize sizeCode ≤ 4 := by
  unfold itemSize
  split <;> omega

theorem readItem_read {offset : Nat} (h : readItem source offset = .ok item) :
    item.Read source offset := by
  obtain ⟨itemPrefix, hprefix, h⟩ := bind_eq_ok.mp h
  have hoffset := byteAt_inside hprefix
  split at h
  · split at h
    · cases h
    case isFalse hthree =>
    obtain ⟨payloadLength, -, h⟩ := bind_eq_ok.mp h
    split at h
    · cases h
    case isFalse hpayload =>
    obtain ⟨tag, -, h⟩ := bind_eq_ok.mp h
    cases h
    exact ⟨by dsimp only; omega, by dsimp only; omega, Nat.two_pow_pos 32⟩
  · dsimp only at h
    split at h
    · cases h
    case isFalse hsize =>
    obtain ⟨value, hvalue, h⟩ := bind_eq_ok.mp h
    cases h
    refine ⟨by dsimp only; omega, by dsimp only; omega,
      Nat.lt_of_lt_of_le (readValue_lt _ hvalue) ?_⟩
    have hfour := itemSize_le (Nat.and_le_right : itemPrefix &&& 3 ≤ 3)
    exact Nat.pow_le_pow_right (by decide) (by omega)

theorem readItem_refuses {offset : Nat} (hoffset : offset < source.length) :
    Refuses (readItem source offset) := by
  have hbyte {index : Nat} (h : index < source.length) : Refuses (byteAt source index) := by
    obtain ⟨b, hb⟩ := byteAt_ok h
    rw [hb]
    nofun
  refine (hbyte hoffset).bind fun itemPrefix _ => ?_
  split
  · split
    · exact refuses_error (by decide) _ _
    refine (hbyte (by omega)).bind fun payloadLength _ => ?_
    split
    · exact refuses_error (by decide) _ _
    exact (hbyte (by omega)).bind fun tag _ => nofun
  · dsimp only
    split
    · exact refuses_error (by decide) _ _
    obtain ⟨value, hvalue⟩ := @readValue_ok source (offset + 1) (itemSize (itemPrefix &&& 3)) (by omega)
    rw [hvalue]
    exact Refuses.bind nofun fun value _ => nofun

/-! ## Definitions -/

theorem ReportDefinition.is_iff {d : ReportDefinition} :
    ReportDefinition.is type reportId d = true ↔ d.type = type ∧ d.reportId = reportId := by
  unfold ReportDefinition.is
  rw [Bool.and_eq_true, decide_eq_true_eq, decide_eq_true_eq]

/-- Type and id, which no two definitions share -/
def ReportDefinition.key (d : ReportDefinition) : ReportType × Nat := (d.type, d.reportId)

theorem ReportDefinition.is_key {d : ReportDefinition} :
    ReportDefinition.is type reportId d = true ↔ d.key = (type, reportId) :=
  is_iff.trans (Prod.mk.injEq _ _ _ _ ▸ Iff.rfl)

/-- The definition that is found or made -/
inductive Chosen (definitions : List ReportDefinition) (capacity : Nat) (type : ReportType)
    (reportId : Nat) : List ReportDefinition → Nat → ReportDefinition → Prop
  | found {index : Nat} {d : ReportDefinition} (at_index : definitions[index]? = some d)
      (key : d.key = (type, reportId)) : Chosen definitions capacity type reportId definitions index d
  | added (room : definitions.length < capacity) (absent : ∀ d ∈ definitions, d.key ≠ (type, reportId)) :
      Chosen definitions capacity type reportId
        (definitions ++ [{ type, reportId, hasReportId := reportId ≠ 0 }]) definitions.length
        { type, reportId, hasReportId := reportId ≠ 0 }

theorem findOrAddDefinition_chosen
    (h : findOrAddDefinition definitions capacity type reportId = some (ds, index)) :
    ∃ d, ds[index]? = some d ∧ Chosen definitions capacity type reportId ds index d := by
  unfold findOrAddDefinition at h
  split at h
  case h_1 found hfound =>
    cases h
    obtain ⟨hlt, his, -⟩ := findIdx?_eq_some_iff_getElem.mp hfound
    have hat := getElem?_eq_getElem hlt
    exact ⟨_, hat, .found hat (ReportDefinition.is_key.mp his)⟩
  case h_2 hnone =>
    split at h
    case isTrue => cases h
    case isFalse hroom =>
      cases h
      refine ⟨_, getElem?_concat_length, .added (Nat.lt_of_not_le hroom) fun d hd hkey => ?_⟩
      have hnot := findIdx?_eq_none_iff.mp hnone d hd
      rw [ReportDefinition.is_key.mpr hkey] at hnot
      cases hnot

/-- The bits of the field that the global items describe -/
def GlobalState.bits (g : GlobalState) : Nat := g.reportSize * g.reportCount

/-- What `addBits` does when it does not fail -/
structure BitsAdded (global : GlobalState) (type : ReportType) (output : PassOutput)
    (definitions : List ReportDefinition) (bitOffset : Nat) : Prop where
  chosen : ∃ ds index d, Chosen output.definitions output.definitionCapacity type global.reportId ds
      index d ∧ ds[index]? = some d ∧ bitOffset = d.payloadBits ∧
    definitions = ds.set index
      { d with payloadBits := (d.payloadBits + global.bits % 2 ^ 64) % 2 ^ 64 } ∧
    (d.payloadBits + global.bits % 2 ^ 64 < 2 ^ 64) ∧
    ((d.payloadBits + global.bits % 2 ^ 64) % 2 ^ 64 + 7) % 2 ^ 64 / 8 ≤ maximumPayloadLength

theorem addBits_added {bitOffset : Nat}
    (h : addBits global type output item = .ok (definitions, bitOffset)) :
    BitsAdded global type output definitions bitOffset := by
  unfold addBits at h
  split at h
  · cases h
  dsimp only at h
  split at h
  · cases h
  split at h
  · cases h
  case h_2 ds index hfind =>
  obtain ⟨d, hat, hchosen⟩ := findOrAddDefinition_chosen hfind
  rw [hat] at h
  dsimp only at h
  split at h
  · cases h
  case isFalse hsum =>
  split at h
  · cases h
  case isFalse hbytes =>
  cases h
  refine ⟨ds, index, d, hchosen, hat, rfl, rfl, ?_, Nat.le_of_not_lt hbytes⟩
  unfold GlobalState.bits
  omega

theorem addBits_refuses :
    Refuses (addBits global type output item) := by
  unfold addBits
  split
  · exact refuses_fail nofun
  dsimp only
  split
  · exact refuses_fail nofun
  split
  · exact refuses_fail nofun
  case h_2 ds index hfind =>
  obtain ⟨d, hat, -⟩ := findOrAddDefinition_chosen hfind
  rw [hat]
  dsimp only
  split
  · exact refuses_fail nofun
  split
  · exact refuses_fail nofun
  · nofun

theorem findOrAddDefinition_capacity
    {capacity' : Nat}
    (h : findOrAddDefinition definitions capacity type reportId = some (ds, index))
    (hroom : ds.length ≤ capacity') :
    findOrAddDefinition definitions capacity' type reportId = some (ds, index) := by
  unfold findOrAddDefinition at h ⊢
  split at h
  case h_1 => exact h
  case h_2 =>
    split at h
    case isTrue => cases h
    case isFalse =>
      cases h
      rw [length_append, length_singleton] at hroom
      rw [if_neg (by omega)]

/-- The capacity of the definitions matters only where it is reached. -/
theorem addBits_capacity {output' : PassOutput} {bitOffset : Nat}
    (h : addBits global type output item = .ok (ds, bitOffset))
    (hsame : output'.definitions = output.definitions) (hroom : ds.length ≤ output'.definitionCapacity) :
    addBits global type output' item = .ok (ds, bitOffset) := by
  unfold addBits at h ⊢
  split at h
  · cases h
  case isFalse hproduct =>
  rw [if_neg hproduct]
  dsimp only at h ⊢
  split at h
  · cases h
  split at h
  · cases h
  case h_2 chosen index hfind =>
  split at h
  · cases h
  case h_2 d hat =>
  split at h
  · cases h
  case isFalse hsum =>
  split at h
  · cases h
  case isFalse hbytes =>
  cases h
  rw [length_set] at hroom
  have hlength : output'.definitions.length ≤ chosen.length := by
    obtain ⟨d', -, hchosen⟩ := findOrAddDefinition_chosen hfind
    rw [hsame]
    cases hchosen with
    | found => exact Nat.le_refl _
    | added => exact length_append ▸ Nat.le_add_right _ _
  rw [if_neg (by omega), hsame, findOrAddDefinition_capacity hfind hroom]
  dsimp only
  rw [hat]
  dsimp only
  rw [if_neg hsum, if_neg hbytes]

/-! ## Fields in their reports -/

/-- Type and id of the report that a field belongs to -/
def ReportField.key (f : ReportField) : ReportType × Nat := (f.type, f.reportId)

/-- The bits that a field takes -/
def ReportField.bits (f : ReportField) : Nat := f.reportSize * f.reportCount

/-- The fields of every definition lie one after the other, from the first to the last bit of the
payload. -/
structure DefinitionsFit (fields : List ReportField) (definitions : List ReportDefinition) : Prop where
  keys : (definitions.map (·.key)).Nodup
  tiles : ∀ d ∈ definitions,
    Tiles (·.bitOffset) (·.bits) 0 (fields.filter fun f => f.key = d.key) d.payloadBits
  small : ∀ d ∈ definitions, d.payloadBits ≤ 8 * maximumPayloadLength
  hasId : ∀ d ∈ definitions, d.hasReportId = decide (d.reportId ≠ 0)
  defined : ∀ f ∈ fields, ∃ d ∈ definitions, d.key = f.key

section Definitions

variable {fields : List ReportField} {definitions ds : List ReportDefinition} {type : ReportType}
  {reportId index : Nat} {d : ReportDefinition}

theorem DefinitionsFit.chosen (h : DefinitionsFit fields definitions)
    (hchosen : Chosen definitions capacity type reportId ds index d) : DefinitionsFit fields ds := by
  cases hchosen with
  | found => exact h
  | added room absent =>
    have hnone : fields.filter (fun f => f.key = (type, reportId)) = [] := by
      refine filter_eq_nil_iff.mpr fun f hf hkey => ?_
      obtain ⟨e, he, hsame⟩ := h.defined f hf
      exact absent e he (hsame.trans (of_decide_eq_true hkey))
    refine ⟨?_, ?_, ?_, ?_, fun f hf => ?_⟩
    · rw [map_append, nodup_append]
      refine ⟨h.keys, pairwise_singleton _ _, fun a ha b hb hsame => ?_⟩
      obtain ⟨e, he, rfl⟩ := mem_map.mp ha
      obtain rfl := mem_singleton.mp hb
      exact absent e he hsame
    · refine forall_mem_append.mpr ⟨h.tiles, forall_mem_singleton.mpr ?_⟩
      show Tiles _ _ 0 (fields.filter fun f => f.key = (type, reportId)) 0
      rw [hnone]
      rfl
    · exact forall_mem_append.mpr ⟨h.small, forall_mem_singleton.mpr (Nat.zero_le _)⟩
    · exact forall_mem_append.mpr ⟨h.hasId, forall_mem_singleton.mpr rfl⟩
    · obtain ⟨e, he, hsame⟩ := h.defined f hf
      exact ⟨e, mem_append_left _ he, hsame⟩

theorem mem_set_key {d d' e : ReportDefinition} (hkeys : (definitions.map (·.key)).Nodup)
    (hat : definitions[index]? = some d) (he : e ∈ definitions.set index d') :
    e = d' ∨ (e ∈ definitions ∧ e.key ≠ d.key) := by
  obtain ⟨j, hj, rfl⟩ := getElem_of_mem he
  rw [length_set] at hj
  rw [getElem_set]
  obtain ⟨hindex, rfl⟩ := List.getElem?_eq_some_iff.mp hat
  split
  case isTrue => exact .inl rfl
  case isFalse hne =>
    refine .inr ⟨getElem_mem hj, fun hsame => hne ?_⟩
    have hi : index < (definitions.map (·.key)).length := by rwa [length_map]
    have hj' : j < (definitions.map (·.key)).length := by rwa [length_map]
    have hkey : (definitions.map (·.key))[index] = (definitions.map (·.key))[j] := by
      rw [getElem_map, getElem_map]
      exact hsame.symm
    exact hkeys.getElem_inj_iff.mp hkey

theorem keys_set {d' : ReportDefinition} (hat : definitions[index]? = some d) (hkey : d'.key = d.key) :
    (definitions.set index d').map (·.key) = definitions.map (·.key) := by
  obtain ⟨hindex, rfl⟩ := List.getElem?_eq_some_iff.mp hat
  have hi : index < (definitions.map (·.key)).length := by rwa [length_map]
  have hsame : definitions[index].key = (definitions.map (·.key))[index] :=
    (getElem_map fun d : ReportDefinition => d.key).symm
  rw [map_set, hkey, hsame]
  exact set_getElem_self hi

/-- Sizes and counts are words of 32 bits. -/
structure GlobalState.Fits (g : GlobalState) : Prop where
  size : g.reportSize < 2 ^ 32
  count : g.reportCount < 2 ^ 32

theorem GlobalState.Fits.bits_lt {g : GlobalState} (h : g.Fits) : g.bits ≤ (2 ^ 32 - 1) * (2 ^ 32 - 1) :=
  Nat.mul_le_mul (Nat.le_sub_one_of_lt h.size) (Nat.le_sub_one_of_lt h.count)

/-- The fields with one more, and the definitions with its bits -/
theorem DefinitionsFit.add {global : GlobalState} {output : PassOutput} {bitOffset : Nat}
    {f : ReportField} (h : DefinitionsFit fields output.definitions)
    (hadded : BitsAdded global type output ds bitOffset) (hfits : global.Fits)
    (hkey : f.key = (type, global.reportId)) (hbits : f.bits = global.bits)
    (hoffset : f.bitOffset = bitOffset) : DefinitionsFit (fields ++ [f]) ds := by
  obtain ⟨chosen, index, d, hchosen, hat, rfl, rfl, hsum, hbytes⟩ := hadded.chosen
  have h := h.chosen hchosen
  have hd : d ∈ chosen := mem_of_getElem? hat
  have hdkey : d.key = f.key := by
    rw [hkey]
    cases hchosen with
    | found hfound hdkey => exact hdkey
    | added => rfl
  have hsmall := h.small d hd
  have hword := hfits.bits_lt
  have hbitsMod : global.bits % 2 ^ 64 = f.bits := by
    rw [hbits]
    exact Nat.mod_eq_of_lt (by omega)
  rw [hbitsMod] at hsum hbytes ⊢
  rw [Nat.mod_eq_of_lt hsum] at hbytes ⊢
  unfold maximumPayloadLength at hsmall hbytes
  have hpayload : d.payloadBits + f.bits ≤ 8 * maximumPayloadLength := by
    unfold maximumPayloadLength
    rw [hbits] at hbytes ⊢
    omega
  have hmem := fun e he => @mem_set_key chosen index d
    { d with payloadBits := d.payloadBits + f.bits } e h.keys hat he
  have hkeys := @keys_set chosen index d { d with payloadBits := d.payloadBits + f.bits } hat rfl
  refine ⟨hkeys ▸ h.keys, ?_, ?_, ?_, ?_⟩
  · intro e he
    rw [filter_append]
    rcases hmem e he with rfl | ⟨he, hne⟩
    · have hlast : [f].filter (fun g => g.key = d.key) = [f] := by
        rw [filter_singleton, hdkey, decide_eq_true rfl]
        rfl
      show Tiles _ _ 0 (fields.filter (fun g => g.key = d.key) ++ [f].filter fun g => g.key = d.key) _
      rw [hlast]
      exact (h.tiles d hd).concat hoffset
    · have hnone : [f].filter (fun g => g.key = e.key) = [] := by
        rw [filter_singleton, decide_eq_false fun hsame => hne (hsame.symm.trans hdkey.symm)]
        rfl
      rw [hnone, append_nil]
      exact h.tiles e he
  · intro e he
    rcases hmem e he with rfl | ⟨he, -⟩
    · exact hpayload
    · exact h.small e he
  · intro e he
    rcases hmem e he with rfl | ⟨he, -⟩
    · exact h.hasId d hd
    · exact h.hasId e he
  · intro g hg
    suffices hmem : g.key ∈ chosen.map (·.key) from mem_map.mp (hkeys ▸ hmem)
    rcases mem_append.mp hg with hg | hg
    · obtain ⟨e, he, hsame⟩ := h.defined g hg
      exact mem_map.mpr ⟨e, he, hsame⟩
    · obtain rfl := mem_singleton.mp hg
      exact mem_map.mpr ⟨d, hd, hdkey⟩

end Definitions

/-! ## Main items -/

/-- What `AddField` asks of the state -/
structure Pass.Describes (pass : Pass) : Prop where
  size : pass.global.reportSize ≠ 0
  count : pass.global.reportCount ≠ 0
  range : pass.locals.rangePending = false
  delimiter : pass.locals.delimiterOpen = false

/-- The spans that are left of the table -/
def Pass.spansLeft (pass : Pass) : Nat :=
  (pass.output.usageSpanCapacity + 2 ^ 64 - pass.counts.usageSpans) % 2 ^ 64

/-- The field that an item describes -/
def Pass.field (pass : Pass) (type : ReportType) (currentCollection bitOffset : Nat) (item : Item) :
    ReportField :=
  newField pass.global type (item.value % 2 ^ 16) bitOffset currentCollection pass.counts.usageSpans
    pass.locals.spans.length

/-- The state with the field -/
def Pass.withField (pass : Pass) (definitions : List ReportDefinition)
    (fields : Option (List ReportField)) (usageSpans : Option (List UsageSpan)) : Pass :=
  { pass with
    output := { pass.output with definitions, fields, usageSpans }
    counts := { pass.counts with
      fields := pass.counts.fields + 1
      usageSpans := pass.counts.usageSpans + pass.locals.spans.length } }

theorem addField_eq_ok {currentCollection : Nat} :
    addField pass type currentCollection item = .ok pass' ↔
      pass.Describes ∧ ∃ ds bitOffset,
        addBits pass.global type pass.output item = .ok (ds, bitOffset) ∧
        pass.counts.fields < pass.output.fieldCapacity ∧
        pass.locals.spans.length ≤ pass.spansLeft ∧
        ∃ fields usageSpans, storeField pass.output pass.counts
          (pass.field type currentCollection bitOffset item) pass.locals.spans =
            .ok (fields, usageSpans) ∧ pass' = pass.withField ds fields usageSpans := by
  constructor
  · intro h
    unfold addField at h
    dsimp only at h
    split at h
    · cases h
    case isFalse hsize =>
    split at h
    · cases h
    case isFalse hcount =>
    split at h
    · cases h
    case isFalse hrange =>
    split at h
    · cases h
    case isFalse hdelimiter =>
    obtain ⟨⟨ds, bitOffset⟩, hbits, h⟩ := bind_eq_ok.mp h
    dsimp only at h
    split at h
    · cases h
    case isFalse hfields =>
    split at h
    · cases h
    case isFalse hspans =>
    obtain ⟨⟨fields, usageSpans⟩, hstore, h⟩ := bind_eq_ok.mp h
    cases h
    exact ⟨⟨hsize, hcount, Bool.eq_false_iff.mpr hrange, Bool.eq_false_iff.mpr hdelimiter⟩, ds,
      bitOffset, hbits, Nat.lt_of_not_le hfields, Nat.le_of_not_lt hspans, fields, usageSpans, hstore,
      rfl⟩
  · rintro ⟨⟨hsize, hcount, hrange, hdelimiter⟩, ds, bitOffset, hbits, hfields, hspans, fields,
      usageSpans, hstore, rfl⟩
    unfold addField
    dsimp only
    rw [if_neg hsize, if_neg hcount, hrange, if_neg Bool.false_ne_true, hdelimiter,
      if_neg Bool.false_ne_true]
    refine bind_eq_ok.mpr ⟨_, hbits, ?_⟩
    dsimp only
    rw [if_neg (Nat.not_le_of_lt hfields)]
    unfold Pass.spansLeft at hspans
    rw [if_neg (Nat.not_lt_of_le hspans)]
    exact bind_eq_ok.mpr ⟨_, hstore, rfl⟩

/-- The collection that an item begins -/
def Pass.collection (pass : Pass) (currentCollection : Nat) (item : Item) : ReportCollection :=
  { type := item.value % 2 ^ 8, parentIndex := currentCollection
    usage := match pass.locals.spans with
      | [] => {}
      | span :: _ => span.minimum }

/-- Where `ParseMain` writes the collection -/
def storeCollection (output : PassOutput) (counts : ParseCounts) (collection : ReportCollection) :
    Run (Option (List ReportCollection)) :=
  if output.collections.isSome then
    write output.collections output.collectionCapacity counts.collections collection
  else .ok output.collections

/-- The state with the collection -/
def Pass.withCollection (pass : Pass) (collections : Option (List ReportCollection)) : Pass :=
  { pass with
    output := { pass.output with collections }
    counts := { pass.counts with collections := pass.counts.collections + 1 }
    collectionStack := pass.counts.collections :: pass.collectionStack }

theorem beginCollection_eq_ok {currentCollection : Nat} :
    beginCollection capacity pass currentCollection item = .ok pass' ↔
      pass.locals.rangePending = false ∧ pass.locals.delimiterOpen = false ∧
        pass.counts.collections < pass.output.collectionCapacity ∧
        pass.collectionStack.length < pass.output.collectionCapacity ∧
        pass.collectionStack.length < capacity ∧
        ∃ collections, storeCollection pass.output pass.counts
          (pass.collection currentCollection item) = .ok collections ∧
            pass' = pass.withCollection collections := by
  constructor
  · intro h
    unfold beginCollection at h
    dsimp only at h
    split at h
    · cases h
    case isFalse hrange =>
    split at h
    · cases h
    case isFalse hdelimiter =>
    split at h
    · cases h
    case isFalse hlimit =>
    obtain ⟨collections, hstore, h⟩ := bind_eq_ok.mp h
    split at h
    · cases h
    case isFalse hstack =>
    cases h
    exact ⟨Bool.eq_false_iff.mpr hrange, Bool.eq_false_iff.mpr hdelimiter,
      Nat.lt_of_not_le fun hle => hlimit (.inl hle), Nat.lt_of_not_le fun hle => hlimit (.inr hle),
      Nat.lt_of_not_le hstack, collections, hstore, rfl⟩
  · rintro ⟨hrange, hdelimiter, hcount, hdepth, hstack, collections, hstore, rfl⟩
    unfold beginCollection
    dsimp only
    rw [hrange, if_neg Bool.false_ne_true, hdelimiter, if_neg Bool.false_ne_true,
      if_neg (not_or.mpr ⟨Nat.not_le_of_lt hcount, Nat.not_le_of_lt hdepth⟩)]
    refine bind_eq_ok.mpr ⟨collections, hstore, ?_⟩
    rw [if_neg (Nat.not_le_of_lt hstack)]
    rfl

/-- The type of the report that the tag of a main item names -/
def fieldType : Nat → Option ReportType
  | 8 => some .input
  | 9 => some .output
  | 11 => some .feature
  | _ => none

/-- The innermost collection -/
def Pass.currentCollection (pass : Pass) : Nat := pass.collectionStack.headD noCollection

/-- What a main item does before the local items are forgotten -/
inductive MainStep (capacity : Nat) (pass : Pass) (item : Item) : Pass → Prop
  | field {type : ReportType} {pass' : Pass} (tag : fieldType item.tag = some type)
      (added : addField pass type pass.currentCollection item = .ok pass') :
      MainStep capacity pass item pass'
  | begins {pass' : Pass} (tag : item.tag = 10)
      (begun : beginCollection capacity pass pass.currentCollection item = .ok pass') :
      MainStep capacity pass item pass'
  | ends {top : Nat} {rest : List Nat} (tag : item.tag = 12) (stack : pass.collectionStack = top :: rest) :
      MainStep capacity pass item { pass with collectionStack := rest }

/-- The state without local items -/
def Pass.forgetLocals (pass : Pass) : Pass := { pass with locals := resetLocal pass.locals }

theorem parseMain_eq_ok : parseMain capacity pass item = .ok pass' ↔
    ∃ pass₁, MainStep capacity pass item pass₁ ∧ pass' = pass₁.forgetLocals := by
  constructor
  · intro h
    obtain ⟨pass₁, hstep, h⟩ := bind_eq_ok.mp h
    cases h
    refine ⟨pass₁, ?_, rfl⟩
    split at hstep
    case h_1 htag => exact .field (by rw [htag]; rfl) hstep
    case h_2 htag => exact .field (by rw [htag]; rfl) hstep
    case h_3 htag => exact .begins htag hstep
    case h_4 htag => exact .field (by rw [htag]; rfl) hstep
    case h_5 htag =>
      split at hstep
      · cases hstep
      case h_2 top rest hstack =>
        cases hstep
        exact .ends htag hstack
    case h_6 => cases hstep
  · rintro ⟨pass₁, hstep, rfl⟩
    refine bind_eq_ok.mpr ⟨pass₁, ?_, rfl⟩
    cases hstep with
    | @field type _ tag added =>
      unfold fieldType at tag
      split at tag
      case h_1 htag =>
        cases tag
        rw [htag]
        exact added
      case h_2 htag =>
        cases tag
        rw [htag]
        exact added
      case h_3 htag =>
        cases tag
        rw [htag]
        exact added
      case h_4 => cases tag
    | begins tag begun =>
      rw [tag]
      exact begun
    | ends tag stack =>
      rw [tag, stack]
      rfl

/-! ## Arrays that are filled -/

/-- An array that holds so many entries; one that is null has no room. -/
structure Holds (array : Option (List α)) (capacity count : Nat) : Prop where
  room : array = none → capacity = 0
  length : (array.getD []).length = count

theorem Holds.write {array : Option (List α)} {count : Nat} (h : Holds array capacity count)
    (hroom : count < capacity) (entry : α) :
    ∃ array', HIDReport.write array capacity count entry = .ok array' ∧
      array'.getD [] = array.getD [] ++ [entry] ∧ Holds array' capacity (count + 1) := by
  cases array with
  | none =>
    have := h.room rfl
    omega
  | some entries =>
    have hlength : entries.length = count := h.length
    refine ⟨some (entries ++ [entry]), if_pos ⟨hlength.symm, hroom⟩, rfl, nofun, ?_⟩
    show (entries ++ [entry]).length = _
    rw [length_append, hlength, length_singleton]

theorem Holds.writeAll {array : Option (List α)} {count : Nat} :
    (entries : List α) → Holds array capacity count → count + entries.length ≤ capacity →
    ∃ array', HIDReport.writeAll array capacity count entries = .ok array' ∧
      array'.getD [] = array.getD [] ++ entries ∧ Holds array' capacity (count + entries.length)
  | [], h, _ => ⟨array, rfl, (append_nil _).symm, h⟩
  | entry :: entries, h, hroom => by
    rw [length_cons] at hroom
    obtain ⟨array₁, hwrite, hentries, h₁⟩ := h.write (by omega) entry
    obtain ⟨array₂, hrest, hall, h₂⟩ := h₁.writeAll entries (by omega)
    refine ⟨array₂, bind_eq_ok.mpr ⟨_, hwrite, hrest⟩, ?_, ?_⟩
    · rw [hall, hentries, append_assoc, singleton_append]
    · rw [length_cons, show count + (entries.length + 1) = count + 1 + entries.length by omega]
      exact h₂

namespace Pass

/-- The fields that are written -/
def fields (pass : Pass) : List ReportField := pass.output.fields.getD []

/-- The collections that are written -/
def collections (pass : Pass) : List ReportCollection := pass.output.collections.getD []

/-- The spans that are written -/
def usageSpans (pass : Pass) : List UsageSpan := pass.output.usageSpans.getD []

/-- The arrays hold what is counted. -/
structure Filled (pass : Pass) : Prop where
  fields : Holds pass.output.fields pass.output.fieldCapacity pass.counts.fields
  collections : Holds pass.output.collections pass.output.collectionCapacity pass.counts.collections
  usageSpans : Holds pass.output.usageSpans pass.output.usageSpanCapacity pass.counts.usageSpans
  spansFit : pass.counts.usageSpans ≤ pass.output.usageSpanCapacity
  spansWord : pass.output.usageSpanCapacity < 2 ^ 64

theorem Filled.keep (h : pass.Filled) (houtput : pass'.output = pass.output)
    (hfields : pass'.counts.fields = pass.counts.fields)
    (hcollections : pass'.counts.collections = pass.counts.collections)
    (hspans : pass'.counts.usageSpans = pass.counts.usageSpans) : pass'.Filled := by
  obtain ⟨fields, collections, usageSpans, spansFit, spansWord⟩ := h
  rw [← houtput] at fields collections usageSpans spansFit spansWord
  rw [← hfields] at fields
  rw [← hcollections] at collections
  rw [← hspans] at usageSpans spansFit
  exact ⟨fields, collections, usageSpans, spansFit, spansWord⟩

theorem Filled.spansLeft (h : pass.Filled) :
    pass.spansLeft = pass.output.usageSpanCapacity - pass.counts.usageSpans := by
  have hfit := h.spansFit
  have hword := h.spansWord
  unfold Pass.spansLeft
  omega

/-- What the state is when a field is stored -/
structure FieldStored (pass : Pass) (field : ReportField) (pass' : Pass) : Prop where
  fields : pass'.fields = pass.fields ++ [field]
  usageSpans : pass'.usageSpans = pass.usageSpans ++ pass.locals.spans
  filled : pass'.Filled

theorem Filled.storeField (h : pass.Filled) (hfield : pass.counts.fields < pass.output.fieldCapacity)
    (hspans : pass.locals.spans.length ≤ pass.spansLeft) (field : ReportField) :
    ∃ fields usageSpans, HIDReport.storeField pass.output pass.counts field pass.locals.spans =
        .ok (fields, usageSpans) ∧
      ∀ definitions, pass.FieldStored field (pass.withField definitions fields usageSpans) := by
  have hfit := h.spansFit
  rw [h.spansLeft] at hspans
  obtain ⟨fields, hwrite, hfields, hfilled⟩ := h.fields.write hfield field
  obtain ⟨usageSpans, hwriteAll, hall, hfilledSpans⟩ :=
    h.usageSpans.writeAll pass.locals.spans (by omega)
  refine ⟨fields, usageSpans, ?_, fun definitions => ⟨hfields, hall, hfilled, h.collections,
    hfilledSpans, ?_, h.spansWord⟩⟩
  · have hsome : pass.output.fields.isSome = true := by
      cases hnull : pass.output.fields with
      | none =>
        have := h.fields.room hnull
        omega
      | some => rfl
    rw [HIDReport.storeField, if_pos hsome]
    exact bind_eq_ok.mpr ⟨_, hwrite, bind_eq_ok.mpr ⟨_, hwriteAll, rfl⟩⟩
  · show pass.counts.usageSpans + pass.locals.spans.length ≤ pass.output.usageSpanCapacity
    omega

theorem Filled.storeCollection (h : pass.Filled)
    (hroom : pass.counts.collections < pass.output.collectionCapacity) (collection : ReportCollection) :
    ∃ collections, HIDReport.storeCollection pass.output pass.counts collection = .ok collections ∧
      (pass.withCollection collections).collections = pass.collections ++ [collection] ∧
      (pass.withCollection collections).Filled := by
  obtain ⟨collections, hwrite, hcollections, hfilled⟩ := h.collections.write hroom collection
  refine ⟨collections, ?_, hcollections, h.fields, hfilled, h.usageSpans, h.spansFit, h.spansWord⟩
  have hsome : pass.output.collections.isSome = true := by
    cases hnull : pass.output.collections with
    | none =>
      have := h.collections.room hnull
      omega
    | some => rfl
  rw [HIDReport.storeCollection, if_pos hsome]
  exact hwrite

end Pass

end Unisym.Device.HIDReport
