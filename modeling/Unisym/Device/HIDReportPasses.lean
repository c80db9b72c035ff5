/-
# `HIDReportPasses` — the two passes over a report descriptor

The second pass does what the first one did: its arrays have just the room that the first one counted,
so no check of a capacity fails that did not fail before.
-/
import Unisym.Device.HIDReportSpec
import Unisym.Device.HIDReportLayout

namespace Unisym.Device.HIDReport

open Tiling

variable {capacity : Nat} {source : Bytes} {pass pass' other : Pass} {item : Item}

/-! ## Counts only grow -/

/-- What is counted at first is counted later. -/
structure Pass.Grows (pass pass' : Pass) : Prop where
  definitions : pass.output.definitions.length ≤ pass'.output.definitions.length
  fields : pass.counts.fields ≤ pass'.counts.fields
  collections : pass.counts.collections ≤ pass'.counts.collections
  usageSpans : pass.counts.usageSpans ≤ pass'.counts.usageSpans

theorem Pass.Grows.refl (pass : Pass) : pass.Grows pass :=
  ⟨Nat.le_refl _, Nat.le_refl _, Nat.le_refl _, Nat.le_refl _⟩

theorem Pass.Grows.trans {pass'' : Pass} (h : pass.Grows pass') (h' : pass'.Grows pass'') :
    pass.Grows pass'' :=
  ⟨Nat.le_trans h.definitions h'.definitions, Nat.le_trans h.fields h'.fields,
    Nat.le_trans h.collections h'.collections, Nat.le_trans h.usageSpans h'.usageSpans⟩

variable {global : GlobalState} {output : PassOutput}

theorem BitsAdded.grows {type : ReportType}
    {definitions : List ReportDefinition} {bitOffset : Nat}
    (h : BitsAdded global type output definitions bitOffset) :
    output.definitions.length ≤ definitions.length := by
  obtain ⟨ds, index, d, hchosen, -, -, rfl, -, -⟩ := h.chosen
  rw [List.length_set]
  cases hchosen with
  | found => exact Nat.le_refl _
  | added => exact List.length_append ▸ Nat.le_add_right _ _

theorem MainStep.grows (h : MainStep capacity pass item pass') : pass.Grows pass' := by
  cases h with
  | field tag added =>
    obtain ⟨-, ds, bitOffset, hbits, -, -, fields, usageSpans, -, rfl⟩ := addField_eq_ok.mp added
    exact ⟨(addBits_added hbits).grows, Nat.le_add_right _ _, Nat.le_refl _, Nat.le_add_right _ _⟩
  | begins tag begun =>
    obtain ⟨-, -, -, -, -, collections, -, rfl⟩ := beginCollection_eq_ok.mp begun
    exact ⟨Nat.le_refl _, Nat.le_refl _, Nat.le_add_right _ _, Nat.le_refl _⟩
  | ends => exact ⟨Nat.le_refl _, Nat.le_refl _, Nat.le_refl _, Nat.le_refl _⟩

/-- An item that is no main item leaves the output and, but for the long ones, the counts. -/
inductive ItemStep (capacity : Nat) (pass : Pass) (item : Item) : Pass → Prop
  | long (isLong : item.isLong = true) : ItemStep capacity pass item
      { pass with counts := { pass.counts with longItems := pass.counts.longItems + 1 } }
  | main {pass₁ : Pass} (short : item.isLong = false) (type : item.type = .main)
      (step : MainStep capacity pass item pass₁) : ItemStep capacity pass item pass₁.forgetLocals
  | global {global : GlobalState} {globalStack : List GlobalState} (short : item.isLong = false)
      (type : item.type = .global)
      (parsed : parseGlobal capacity item pass.global pass.globalStack = .ok (global, globalStack)) :
      ItemStep capacity pass item { pass with global, globalStack }
  | «local» {locals : LocalState} (short : item.isLong = false) (type : item.type = .local)
      (parsed : parseLocal capacity item pass.global pass.locals = .ok locals) :
      ItemStep capacity pass item { pass with locals }
  | reserved (short : item.isLong = false) (type : item.type = .reserved) :
      ItemStep capacity pass item pass

theorem runItem_eq_ok : runItem capacity pass item = .ok pass' ↔ ItemStep capacity pass item pass' := by
  constructor
  · intro h
    unfold runItem at h
    split at h
    case isTrue hlong =>
      cases h
      exact .long hlong
    case isFalse hshort =>
    have hshort := Bool.eq_false_iff.mpr hshort
    split at h
    case h_1 htype =>
      obtain ⟨pass₁, hstep, rfl⟩ := parseMain_eq_ok.mp h
      exact .main hshort htype hstep
    case h_2 htype =>
      obtain ⟨⟨global, globalStack⟩, hparsed, h⟩ := bind_eq_ok.mp h
      cases h
      exact .global hshort htype hparsed
    case h_3 htype =>
      obtain ⟨locals, hparsed, h⟩ := bind_eq_ok.mp h
      cases h
      exact .local hshort htype hparsed
    case h_4 htype =>
      cases h
      exact .reserved hshort htype
  · intro h
    unfold runItem
    cases h with
    | long isLong => rw [isLong, if_pos rfl]
    | main short type step =>
      rw [short, if_neg Bool.false_ne_true, type]
      exact parseMain_eq_ok.mpr ⟨_, step, rfl⟩
    | global short type parsed =>
      rw [short, if_neg Bool.false_ne_true, type]
      exact bind_eq_ok.mpr ⟨_, parsed, rfl⟩
    | «local» short type parsed =>
      rw [short, if_neg Bool.false_ne_true, type]
      exact bind_eq_ok.mpr ⟨_, parsed, rfl⟩
    | reserved short type => rw [short, if_neg Bool.false_ne_true, type]

theorem ItemStep.grows (h : ItemStep capacity pass item pass') : pass.Grows pass' := by
  cases h with
  | main _ _ step =>
    obtain ⟨hdefinitions, hfields, hcollections, hspans⟩ := step.grows
    exact ⟨hdefinitions, hfields, hcollections, hspans⟩
  | long | global | «local» | reserved =>
    exact ⟨Nat.le_refl _, Nat.le_refl _, Nat.le_refl _, Nat.le_refl _⟩

/-! ## Runs -/

theorem runItems_keeps {P : Pass → Prop}
    (hstep : ∀ {pass pass' : Pass} {item : Item}, item.value < 2 ^ 32 →
      ItemStep capacity pass item pass' → P pass → P pass') :
    (fuel : Nat) → {offset : Nat} → {pass pass' : Pass} →
      runItems capacity source fuel offset pass = .ok pass' → P pass → P pass'
  | 0, _, _, _, h, _ => by cases h
  | fuel + 1, offset, pass, pass', h, hpass => by
    unfold runItems at h
    split at h
    · obtain ⟨item, hitem, h⟩ := bind_eq_ok.mp h
      obtain ⟨pass₁, hrun, h⟩ := bind_eq_ok.mp h
      exact runItems_keeps hstep fuel h
        (hstep (readItem_read hitem).value (runItem_eq_ok.mp hrun) hpass)
    · cases h
      exact hpass

theorem runItems_grows (fuel : Nat) {offset : Nat}
    (h : runItems capacity source fuel offset pass = .ok pass') : pass.Grows pass' :=
  runItems_keeps (P := fun later => pass.Grows later) (fun _ hstep hgrows => hgrows.trans hstep.grows)
    fuel h (Pass.Grows.refl _)

/-! ## The pass that fills -/

/-- A pass is where another one is, and its arrays hold what is counted. -/
structure Pass.Mirrors (pass other : Pass) : Prop where
  global : other.global = pass.global
  globalStack : other.globalStack = pass.globalStack
  locals : other.locals = pass.locals
  collectionStack : other.collectionStack = pass.collectionStack
  definitions : other.output.definitions = pass.output.definitions
  counts : other.counts = pass.counts
  depth : pass.collectionStack.length ≤ pass.counts.collections
  filled : other.Filled

/-- The room for what a pass counts -/
structure Pass.Within (pass : Pass) (output : PassOutput) : Prop where
  definitions : pass.output.definitions.length ≤ output.definitionCapacity
  fields : pass.counts.fields ≤ output.fieldCapacity
  collections : pass.counts.collections ≤ output.collectionCapacity
  usageSpans : pass.counts.usageSpans ≤ output.usageSpanCapacity

/-- The outputs have the same room. -/
structure PassOutput.SameRoom (output output' : PassOutput) : Prop where
  definitions : output'.definitionCapacity = output.definitionCapacity
  fields : output'.fieldCapacity = output.fieldCapacity
  collections : output'.collectionCapacity = output.collectionCapacity
  usageSpans : output'.usageSpanCapacity = output.usageSpanCapacity

theorem PassOutput.SameRoom.refl (output : PassOutput) : output.SameRoom output := ⟨rfl, rfl, rfl, rfl⟩

theorem PassOutput.SameRoom.within {output' : PassOutput} (h : output.SameRoom output')
    (hpass : pass.Within output) : pass.Within output' :=
  ⟨h.definitions ▸ hpass.definitions, h.fields ▸ hpass.fields, h.collections ▸ hpass.collections,
    h.usageSpans ▸ hpass.usageSpans⟩

theorem MainStep.mirrored (h : MainStep capacity pass item pass') (hmirrors : pass.Mirrors other)
    (hwithin : pass'.Within other.output) :
    ∃ other', MainStep capacity other item other' ∧ pass'.Mirrors other' ∧
      other.output.SameRoom other'.output := by
  have hcurrent : other.currentCollection = pass.currentCollection :=
    congrArg (List.headD · noCollection) hmirrors.collectionStack
  have hcounts := hmirrors.counts
  cases h with
  | @field type _ tag added =>
    obtain ⟨hdescribes, ds, bitOffset, hbits, hfields, hspans, fields, usageSpans, -, rfl⟩ :=
      addField_eq_ok.mp added
    have hroom : pass.counts.fields + 1 ≤ other.output.fieldCapacity := hwithin.fields
    have hspansRoom : pass.counts.usageSpans + pass.locals.spans.length ≤
        other.output.usageSpanCapacity := hwithin.usageSpans
    have hleft : other.locals.spans.length ≤ other.spansLeft := by
      rw [hmirrors.filled.spansLeft, hmirrors.locals, hcounts]
      omega
    obtain ⟨fields', usageSpans', hstore, hstored⟩ := hmirrors.filled.storeField
      (by rw [hcounts]; omega) hleft (other.field type other.currentCollection bitOffset item)
    refine ⟨other.withField ds fields' usageSpans', .field tag (addField_eq_ok.mpr ⟨?_, ds, bitOffset,
      ?_, by rw [hcounts]; omega, hleft, fields', usageSpans', hstore, rfl⟩), ?_, rfl, rfl, rfl, rfl⟩
    · exact ⟨hmirrors.global ▸ hdescribes.size, hmirrors.global ▸ hdescribes.count,
        hmirrors.locals ▸ hdescribes.range, hmirrors.locals ▸ hdescribes.delimiter⟩
    · rw [hmirrors.global]
      exact addBits_capacity hbits hmirrors.definitions hwithin.definitions
    · refine ⟨hmirrors.global, hmirrors.globalStack, hmirrors.locals, hmirrors.collectionStack, rfl, ?_,
        hmirrors.depth, (hstored ds).filled⟩
      show { other.counts with
        fields := other.counts.fields + 1
        usageSpans := other.counts.usageSpans + other.locals.spans.length } = _
      rw [hcounts, hmirrors.locals]
      rfl
  | begins tag begun =>
    obtain ⟨hrange, hdelimiter, -, -, hstack, collections, -, rfl⟩ := beginCollection_eq_ok.mp begun
    have hroom : pass.counts.collections + 1 ≤ other.output.collectionCapacity := hwithin.collections
    have hdepth := hmirrors.depth
    obtain ⟨collections', hstore, -, hfilled⟩ := hmirrors.filled.storeCollection
      (by rw [hcounts]; omega) (other.collection other.currentCollection item)
    refine ⟨other.withCollection collections', .begins tag (beginCollection_eq_ok.mpr
      ⟨hmirrors.locals ▸ hrange, hmirrors.locals ▸ hdelimiter, by rw [hcounts]; omega,
        by rw [hmirrors.collectionStack]; omega, hmirrors.collectionStack ▸ hstack, collections', hstore,
        rfl⟩), ?_, rfl, rfl, rfl, rfl⟩
    refine ⟨hmirrors.global, hmirrors.globalStack, hmirrors.locals, ?_, hmirrors.definitions, ?_, ?_,
      hfilled⟩
    · show other.counts.collections :: other.collectionStack = _
      rw [hcounts, hmirrors.collectionStack]
      rfl
    · show { other.counts with collections := other.counts.collections + 1 } = _
      rw [hcounts]
      rfl
    · exact Nat.succ_le_succ hdepth
  | @ends top rest tag stack =>
    have hdepth := hmirrors.depth
    rw [stack, List.length_cons] at hdepth
    exact ⟨{ other with collectionStack := rest }, .ends tag (hmirrors.collectionStack.trans stack),
      ⟨hmirrors.global, hmirrors.globalStack, hmirrors.locals, rfl, hmirrors.definitions, hcounts,
        Nat.le_of_succ_le hdepth, hmirrors.filled.keep rfl rfl rfl rfl⟩, PassOutput.SameRoom.refl _⟩

/-- Where the arrays have room for what the first pass counts, the other one does the same. -/
theorem ItemStep.mirrored (h : ItemStep capacity pass item pass') (hmirrors : pass.Mirrors other)
    (hwithin : pass'.Within other.output) :
    ∃ other', ItemStep capacity other item other' ∧ pass'.Mirrors other' ∧
      other.output.SameRoom other'.output := by
  cases h with
  | long isLong =>
    refine ⟨_, .long isLong, ⟨hmirrors.global, hmirrors.globalStack, hmirrors.locals,
      hmirrors.collectionStack, hmirrors.definitions, ?_, hmirrors.depth, hmirrors.filled.keep rfl rfl rfl rfl⟩,
      PassOutput.SameRoom.refl _⟩
    show { other.counts with longItems := other.counts.longItems + 1 } = _
    rw [hmirrors.counts]
  | @main pass₁ short type step =>
    obtain ⟨other₁, hstep, hm, hroom⟩ := step.mirrored hmirrors
      ⟨hwithin.definitions, hwithin.fields, hwithin.collections, hwithin.usageSpans⟩
    refine ⟨_, .main short type hstep, ⟨hm.global, hm.globalStack, ?_, hm.collectionStack,
      hm.definitions, hm.counts, hm.depth, hm.filled.keep rfl rfl rfl rfl⟩, hroom⟩
    exact congrArg resetLocal hm.locals
  | @global global globalStack short type parsed =>
    rw [← hmirrors.global, ← hmirrors.globalStack] at parsed
    exact ⟨_, .global short type parsed, ⟨rfl, rfl, hmirrors.locals, hmirrors.collectionStack,
      hmirrors.definitions, hmirrors.counts, hmirrors.depth, hmirrors.filled.keep rfl rfl rfl rfl⟩, PassOutput.SameRoom.refl _⟩
  | @«local» locals short type parsed =>
    rw [← hmirrors.global, ← hmirrors.locals] at parsed
    exact ⟨_, .local short type parsed, ⟨hmirrors.global, hmirrors.globalStack, rfl,
      hmirrors.collectionStack, hmirrors.definitions, hmirrors.counts, hmirrors.depth, hmirrors.filled.keep rfl rfl rfl rfl⟩,
      PassOutput.SameRoom.refl _⟩
  | reserved short type => exact ⟨_, .reserved short type, hmirrors, PassOutput.SameRoom.refl _⟩

theorem runItems_mirrored : (fuel : Nat) → {offset : Nat} → {pass pass' other : Pass} →
    runItems capacity source fuel offset pass = .ok pass' → pass.Mirrors other →
    pass'.Within other.output →
    ∃ other', runItems capacity source fuel offset other = .ok other' ∧ pass'.Mirrors other'
  | 0, _, _, _, _, h, _, _ => by cases h
  | fuel + 1, offset, pass, pass', other, h, hmirrors, hwithin => by
    unfold runItems at h ⊢
    split at h
    case isTrue hoffset =>
      obtain ⟨item, hitem, h⟩ := bind_eq_ok.mp h
      obtain ⟨pass₁, hrun, h⟩ := bind_eq_ok.mp h
      have hgrows := runItems_grows fuel h
      have hwithin₁ : pass₁.Within other.output :=
        ⟨Nat.le_trans hgrows.definitions hwithin.definitions,
          Nat.le_trans hgrows.fields hwithin.fields,
          Nat.le_trans hgrows.collections hwithin.collections,
          Nat.le_trans hgrows.usageSpans hwithin.usageSpans⟩
      obtain ⟨other₁, hstep, hm, hroom⟩ := (runItem_eq_ok.mp hrun).mirrored hmirrors hwithin₁
      obtain ⟨other', hrest, hm'⟩ := runItems_mirrored fuel h hm (hroom.within hwithin)
      rw [if_pos hoffset]
      exact ⟨other', bind_eq_ok.mpr ⟨item, hitem, bind_eq_ok.mpr
        ⟨other₁, runItem_eq_ok.mpr hstep, hrest⟩⟩, hm'⟩
    case isFalse hoffset =>
      cases h
      rw [if_neg hoffset]
      exact ⟨other, rfl, hmirrors⟩

/-! ## The pass that counts -/

/-- A pass that only counts, whose stack of collections has the room that is compared -/
structure Pass.Counting (capacity : Nat) (pass : Pass) : Prop where
  fields : pass.output.fields = none
  collections : pass.output.collections = none
  stack : pass.output.collectionCapacity ≤ capacity

theorem addUsageSpan_refuses {locals : LocalState} {minimum maximum : Usage} :
    Refuses (addUsageSpan capacity locals minimum maximum item) := by
  unfold addUsageSpan
  split
  · exact refuses_fail nofun
  split
  · exact refuses_fail nofun
  · nofun

theorem parseLocal_refuses {locals : LocalState} :
    Refuses (parseLocal capacity item global locals) := by
  unfold parseLocal
  dsimp only
  split
  case h_1 => exact addUsageSpan_refuses
  case h_2 =>
    split
    · exact refuses_fail nofun
    · nofun
  case h_3 =>
    split
    · exact refuses_fail nofun
    · exact addUsageSpan_refuses.bind fun _ _ => nofun
  case h_10 =>
    split
    · split
      · exact refuses_fail nofun
      · nofun
    split
    · split
      · exact refuses_fail nofun
      · nofun
    · exact refuses_fail nofun
  case h_11 => exact refuses_fail nofun
  all_goals nofun

theorem parseGlobal_refuses {stack : List GlobalState} :
    Refuses (parseGlobal capacity item global stack) := by
  unfold parseGlobal
  split
  case h_8 | h_9 | h_10 | h_11 =>
    split
    · exact refuses_fail nofun
    · nofun
  case h_12 =>
    split
    · exact refuses_fail nofun
    · nofun
  case h_13 => exact refuses_fail nofun
  all_goals nofun

theorem Pass.Counting.addField (h : pass.Counting capacity) {type : ReportType}
    {currentCollection : Nat} : Refuses (HIDReport.addField pass type currentCollection item) := by
  unfold HIDReport.addField
  dsimp only
  split
  · exact refuses_fail nofun
  split
  · exact refuses_fail nofun
  split
  · exact refuses_fail nofun
  split
  · exact refuses_fail nofun
  refine addBits_refuses.bind fun bits _ => ?_
  split
  · exact refuses_fail nofun
  split
  · exact refuses_fail nofun
  refine Refuses.bind ?_ fun _ _ => refuses_ok _
  rw [storeField, h.fields]
  exact refuses_ok _

theorem Pass.Counting.beginCollection (h : pass.Counting capacity) {currentCollection : Nat} :
    Refuses (HIDReport.beginCollection capacity pass currentCollection item) := by
  have hstack := h.stack
  unfold HIDReport.beginCollection
  dsimp only
  split
  · exact refuses_fail nofun
  split
  · exact refuses_fail nofun
  split
  · exact refuses_fail nofun
  case isFalse hlimit =>
  refine Refuses.bind ?_ fun _ _ => ?_
  · rw [h.collections]
    nofun
  · rw [if_neg (by omega)]
    nofun

theorem Pass.Counting.runItem (h : pass.Counting capacity) :
    Refuses (HIDReport.runItem capacity pass item) := by
  unfold HIDReport.runItem
  split
  · nofun
  split
  · refine Refuses.bind ?_ fun _ _ => nofun
    split
    case h_1 | h_2 | h_4 => exact h.addField
    case h_3 => exact h.beginCollection
    case h_5 =>
      split
      · exact refuses_fail nofun
      · nofun
    case h_6 => exact refuses_fail nofun
  · exact parseGlobal_refuses.bind fun _ _ => nofun
  · exact parseLocal_refuses.bind fun _ _ => nofun
  · nofun

theorem Pass.Counting.step (h : pass.Counting capacity) (hstep : ItemStep capacity pass item pass') :
    pass'.Counting capacity := by
  cases hstep with
  | main short type step =>
    cases step with
    | field tag added =>
      obtain ⟨-, ds, bitOffset, -, -, -, fields, usageSpans, hstore, rfl⟩ := addField_eq_ok.mp added
      rw [storeField, h.fields] at hstore
      cases hstore
      exact ⟨rfl, h.collections, h.stack⟩
    | begins tag begun =>
      obtain ⟨-, -, -, -, -, collections, hstore, rfl⟩ := beginCollection_eq_ok.mp begun
      rw [storeCollection, h.collections] at hstore
      cases hstore
      exact ⟨h.fields, rfl, h.stack⟩
    | ends => exact ⟨h.fields, h.collections, h.stack⟩
  | long | global | «local» | reserved => exact ⟨h.fields, h.collections, h.stack⟩

/-- The counting pass ends, and stays inside the descriptor and its arrays. -/
theorem Pass.Counting.runItems : (fuel : Nat) → {offset : Nat} → {pass : Pass} →
    pass.Counting capacity → offset ≤ source.length → source.length < offset + fuel →
    Refuses (HIDReport.runItems capacity source fuel offset pass)
  | 0, offset, pass, _, hoffset, hfuel => absurd hfuel (Nat.not_lt_of_le hoffset)
  | fuel + 1, offset, pass, h, _, hfuel => by
    unfold HIDReport.runItems
    split
    case isFalse => nofun
    case isTrue hoffset =>
    refine (readItem_refuses hoffset).bind fun item hitem => ?_
    refine h.runItem.bind fun pass₁ hrun => ?_
    have hread := readItem_read hitem
    have hnext := hread.next
    exact Pass.Counting.runItems fuel (h.step (runItem_eq_ok.mp hrun)) hread.inside (by omega)

/-! ## Both passes -/

/-- The state at the end of a pass, with the lengths of the payloads -/
def Pass.withBytes (pass : Pass) : Pass :=
  { pass with output := { pass.output with
    definitions := pass.output.definitions.map fun definition =>
      { definition with payloadBytes := (definition.payloadBits + 7) % 2 ^ 64 / 8 } } }

/-- Nothing is left open. -/
structure Pass.Closed (pass : Pass) : Prop where
  range : pass.locals.rangePending = false
  delimiter : pass.locals.delimiterOpen = false
  collections : pass.collectionStack = []

theorem runPass_eq_ok : runPass capacity source output = .ok pass' ↔
    ∃ pass, runItems capacity source (source.length + 1) 0 { output } = .ok pass ∧ pass.Closed ∧
      pass' = pass.withBytes := by
  constructor
  · intro h
    obtain ⟨pass, hrun, h⟩ := bind_eq_ok.mp h
    split at h
    · cases h
    case isFalse hrange =>
    split at h
    · cases h
    case isFalse hdelimiter =>
    split at h
    · cases h
    case isFalse hstack =>
    cases h
    exact ⟨pass, hrun, ⟨Bool.eq_false_iff.mpr hrange, Bool.eq_false_iff.mpr hdelimiter,
      Decidable.of_not_not hstack⟩, rfl⟩
  · rintro ⟨pass, hrun, ⟨hrange, hdelimiter, hstack⟩, rfl⟩
    refine bind_eq_ok.mpr ⟨pass, hrun, ?_⟩
    rw [if_neg (Bool.eq_false_iff.mp hrange), if_neg (Bool.eq_false_iff.mp hdelimiter),
      if_neg fun h => h hstack]
    rfl

theorem runPass_refuses : Refuses (runPass capacity source (firstOutput capacity)) := by
  have hcounting : Pass.Counting capacity { output := firstOutput capacity } :=
    ⟨rfl, rfl, Nat.le_refl _⟩
  refine (hcounting.runItems _ (Nat.zero_le _) (by omega)).bind fun pass _ => ?_
  split
  · exact refuses_error (by decide) _ _
  split
  · exact refuses_error (by decide) _ _
  split
  · exact refuses_error (by decide) _ _
  · nofun

/-- Empty arrays with the room that a pass counted -/
structure PassOutput.Room (first : Pass) (output : PassOutput) : Prop where
  definitions : output.definitions = []
  definitionCapacity : output.definitionCapacity = first.output.definitions.length
  fields : output.fieldCapacity = first.counts.fields ∧ Holds output.fields output.fieldCapacity 0
  collections : output.collectionCapacity = first.counts.collections ∧
    Holds output.collections output.collectionCapacity 0
  usageSpans : output.usageSpanCapacity = first.counts.usageSpans ∧
    Holds output.usageSpans output.usageSpanCapacity 0
  spansWord : output.usageSpanCapacity < 2 ^ 64

theorem PassOutput.Room.filled {first : Pass} (h : output.Room first) :
    Pass.Filled { output } :=
  ⟨h.fields.2, h.collections.2, h.usageSpans.2, Nat.zero_le _, h.spansWord⟩

/-- What the first pass does not refuse the second one does not, and it counts the same. -/
theorem runPass_mirrored {first : Pass}
    (h : runPass capacity source (firstOutput capacity) = .ok first) (hroom : output.Room first) :
    ∃ second, runPass capacity source output = .ok second ∧
      second.output.definitions = first.output.definitions ∧ second.counts = first.counts := by
  obtain ⟨pass, hrun, hclosed, rfl⟩ := runPass_eq_ok.mp h
  have hstart : Pass.Mirrors { output := firstOutput capacity } { output } :=
    ⟨rfl, rfl, rfl, rfl, hroom.definitions, rfl, Nat.le_refl _, hroom.filled⟩
  have hwithin : pass.Within output := by
    refine ⟨?_, Nat.le_of_eq hroom.fields.1.symm, Nat.le_of_eq hroom.collections.1.symm,
      Nat.le_of_eq hroom.usageSpans.1.symm⟩
    rw [hroom.definitionCapacity]
    exact Nat.le_of_eq (List.length_map _).symm
  obtain ⟨other, hother, hmirrors⟩ := runItems_mirrored _ hrun hstart hwithin
  refine ⟨other.withBytes, runPass_eq_ok.mpr ⟨other, hother, ⟨?_, ?_, ?_⟩, rfl⟩, ?_, hmirrors.counts⟩
  · exact hmirrors.locals ▸ hclosed.range
  · exact hmirrors.locals ▸ hclosed.delimiter
  · exact hmirrors.collectionStack.trans hclosed.collections
  · show other.output.definitions.map _ = pass.output.definitions.map _
    rw [hmirrors.definitions]

end Unisym.Device.HIDReport
