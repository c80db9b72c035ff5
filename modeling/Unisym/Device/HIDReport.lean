/-
# `HIDReport` — report descriptors of human interface devices

A descriptor is a program of items that a device gives.  It is run twice, first to count and then to
fill arrays of just that size.  Arrays are written from the front, so an array is the list of what is
written; an access outside of one, or of the descriptor, is `Stop.outside`.
-/
import Mathlib.Data.List.Basic
import Mathlib.Algebra.Group.Nat.Defs
import Mathlib.Algebra.Group.Int.Defs

namespace Unisym.Device.HIDReport

abbrev Bytes := List UInt8

/-- `HIDReportNoCollection` -/
def noCollection : Nat := 2 ^ 64 - 1

/-- `HIDReportDescriptorMaximumLength` -/
def descriptorMaximumLength : Nat := 0xFFFF

/-- `HIDReportMaximumPayloadLength` -/
def maximumPayloadLength : Nat := 0xFFFF

inductive ReportType where
  | input | output | feature
deriving DecidableEq, Repr

/-- `HIDReportDescriptorStatus` -/
inductive DescriptorStatus where
  | success | invalidArgument | allocationFailed | truncatedItem | unsupportedMainItem
  | unsupportedGlobalItem | unsupportedLocalItem | invalidReportId | invalidReportSize
  | invalidReportCount | arithmeticOverflow | globalStackUnderflow | globalStackLimit
  | collectionUnderflow | collectionNotClosed | collectionLimit | invalidUsageRange
  | invalidDelimiter | reportTooLarge
deriving DecidableEq, Repr

structure Usage where
  page : Nat := 0
  id : Nat := 0
deriving DecidableEq, Repr

structure UsageSpan where
  minimum : Usage
  maximum : Usage
  delimiterSet : Nat
deriving DecidableEq, Repr

structure ReportDefinition where
  type : ReportType
  reportId : Nat
  payloadBits : Nat := 0
  payloadBytes : Nat := 0
  hasReportId : Bool
deriving DecidableEq, Repr

structure ReportField where
  type : ReportType
  reportId : Nat
  flags : Nat
  bitOffset : Nat
  reportSize : Nat
  reportCount : Nat
  logicalMinimum : Int
  logicalMaximum : Int
  physicalMinimum : Int
  physicalMaximum : Int
  unitExponent : Int
  unit : Nat
  collectionIndex : Nat
  usageSpanIndex : Nat
  usageSpanCount : Nat
deriving DecidableEq, Repr

structure ReportCollection where
  type : Nat
  usage : Usage := {}
  parentIndex : Nat
deriving DecidableEq, Repr

/-- `HIDReportParseResult` -/
structure ParseResult where
  status : DescriptorStatus
  offset : Nat := 0
  itemPrefix : Nat := 0
  definitionCount : Nat := 0
  fieldCount : Nat := 0
  collectionCount : Nat := 0
  usageSpanCount : Nat := 0
  longItemCount : Nat := 0
deriving DecidableEq, Repr

/-! ## Items -/

/-- Why a pass ends early: an error, or an access outside -/
inductive Stop where
  | fail (status : DescriptorStatus) (offset itemPrefix : Nat)
  | outside
deriving DecidableEq, Repr

abbrev Run := Except Stop

/-- The type of an item; what is not `isLong` is a short one. -/
inductive ItemType where
  | main | global | «local» | reserved
deriving DecidableEq, Repr

structure Item where
  offset : Nat
  nextOffset : Nat
  value : Nat := 0
  signedValue : Int := 0
  itemPrefix : Nat
  tag : Nat
  size : Nat := 0
  type : ItemType := .main
  isLong : Bool := false
deriving DecidableEq, Repr

/-- A byte of the descriptor -/
def byteAt (source : Bytes) (index : Nat) : Run Nat :=
  match source[index]? with
  | some b => .ok b.toNat
  | none => .error .outside

/-- A word of 64 bits as a signed one -/
def toInt64 (value : Nat) : Int := if value < 2 ^ 63 then value else value - 2 ^ 64

def signExtend (value size : Nat) : Int :=
  if size = 0 then 0
  else
    let bits := size * 8
    let sign := 1 <<< (bits - 1)
    toInt64 (if value &&& sign ≠ 0 then value ||| (2 ^ 64 - 2 ^ bits) else value)

/-- The value of an item, the lowest byte first -/
def readValue (source : Bytes) (start : Nat) : (size : Nat) → Run Nat
  | 0 => .ok 0
  | index + 1 => do
      let value ← readValue source start index
      let b ← byteAt source (start + index)
      .ok (value ||| b <<< (index * 8))

/-- The type that the two bits of the prefix name -/
def itemType (code : Nat) : ItemType :=
  if code = 0 then .main else if code = 1 then .global else if code = 2 then .local else .reserved

/-- The size that the lowest bits of the prefix code -/
def itemSize (sizeCode : Nat) : Nat := if sizeCode = 3 then 4 else sizeCode

def readItem (source : Bytes) (offset : Nat) : Run Item := do
  let itemPrefix ← byteAt source offset
  if itemPrefix = 0xFE then
    if source.length - offset < 3 then .error (.fail .truncatedItem offset itemPrefix)
    else
      let payloadLength ← byteAt source (offset + 1)
      if payloadLength > source.length - offset - 3 then .error (.fail .truncatedItem offset itemPrefix)
      else
        let tag ← byteAt source (offset + 2)
        .ok { offset, itemPrefix, isLong := true, tag, nextOffset := offset + 3 + payloadLength }
  else
    let size := itemSize (itemPrefix &&& 3)
    if size > source.length - offset - 1 then .error (.fail .truncatedItem offset itemPrefix)
    else
      let value ← readValue source (offset + 1) size
      .ok { offset, itemPrefix, size, type := itemType (itemPrefix >>> 2 &&& 3), tag := itemPrefix >>> 4,
            value, signedValue := signExtend value size, nextOffset := offset + 1 + size }

/-! ## State -/

structure GlobalState where
  usagePage : Nat := 0
  logicalMinimum : Int := 0
  logicalMaximum : Int := 0
  physicalMinimum : Int := 0
  physicalMaximum : Int := 0
  unitExponent : Int := 0
  unit : Nat := 0
  reportSize : Nat := 0
  reportCount : Nat := 0
  reportId : Nat := 0
deriving DecidableEq, Repr

/-- `HIDLocalState`; its spans have the capacity of the workspace. -/
structure LocalState where
  spans : List UsageSpan := []
  rangeMinimum : Usage := {}
  rangePending : Bool := false
  delimiterSet : Nat := 0
  nextDelimiterSet : Nat := 1
  delimiterOpen : Bool := false
deriving DecidableEq, Repr

/-- `HIDParseCounts`; the number of definitions is that of `PassOutput.definitions`. -/
structure ParseCounts where
  fields : Nat := 0
  collections : Nat := 0
  usageSpans : Nat := 0
  longItems : Nat := 0
deriving DecidableEq, Repr

/-- `HIDPassOutput`, with what is written; an array is `none` where its pointer is null. -/
structure PassOutput where
  definitions : List ReportDefinition := []
  definitionCapacity : Nat
  fields : Option (List ReportField)
  fieldCapacity : Nat
  collections : Option (List ReportCollection)
  collectionCapacity : Nat
  usageSpans : Option (List UsageSpan)
  usageSpanCapacity : Nat
deriving DecidableEq, Repr

/-- The variables of `RunPass`; the stacks have their top first. -/
structure Pass where
  global : GlobalState := {}
  globalStack : List GlobalState := []
  locals : LocalState := {}
  collectionStack : List Nat := []
  output : PassOutput
  counts : ParseCounts := {}
deriving DecidableEq, Repr

/-- Writes an entry of an array, from the front. -/
def write {α : Type} (array : Option (List α)) (capacity index : Nat) (entry : α) :
    Run (Option (List α)) :=
  match array with
  | none => .error .outside
  | some entries =>
      if index = entries.length ∧ index < capacity then .ok (some (entries ++ [entry]))
      else .error .outside

/-- Writes entries one after the other. -/
def writeAll {α : Type} (array : Option (List α)) (capacity index : Nat) :
    (entries : List α) → Run (Option (List α))
  | [] => .ok array
  | entry :: rest => do
      let array ← write array capacity index entry
      writeAll array capacity (index + 1) rest

def fail {α : Type} (item : Item) (status : DescriptorStatus) : Run α :=
  .error (.fail status item.offset item.itemPrefix)

/-! ## Local items -/

def decodeUsage (item : Item) (usagePage : Nat) : Usage :=
  if item.size = 4 then ⟨item.value >>> 16, item.value &&& 0xFFFF⟩ else ⟨usagePage, item.value⟩

def resetLocal (locals : LocalState) : LocalState :=
  { locals with
    spans := [], rangePending := false, delimiterSet := 0, nextDelimiterSet := 1, delimiterOpen := false }

def addUsageSpan (capacity : Nat) (locals : LocalState) (minimum maximum : Usage) (item : Item) :
    Run LocalState :=
  if locals.spans.length ≥ capacity then fail item .arithmeticOverflow
  else if minimum.page ≠ maximum.page ∨ minimum.id > maximum.id then fail item .invalidUsageRange
  else .ok { locals with spans := locals.spans ++ [⟨minimum, maximum, locals.delimiterSet⟩] }

def parseLocal (capacity : Nat) (item : Item) (global : GlobalState) (locals : LocalState) :
    Run LocalState :=
  let usage := decodeUsage item global.usagePage
  match item.tag with
  | 0 => addUsageSpan capacity locals usage usage item
  | 1 =>
      if locals.rangePending then fail item .invalidUsageRange
      else .ok { locals with rangeMinimum := usage, rangePending := true }
  | 2 =>
      if !locals.rangePending then fail item .invalidUsageRange
      else do
        let locals ← addUsageSpan capacity locals locals.rangeMinimum usage item
        .ok { locals with rangePending := false }
  | 3 | 4 | 5 | 7 | 8 | 9 => .ok locals
  | 10 =>
      if item.value = 1 then
        if locals.delimiterOpen || locals.nextDelimiterSet = 0 then fail item .invalidDelimiter
        else .ok { locals with
          delimiterOpen := true, delimiterSet := locals.nextDelimiterSet,
          nextDelimiterSet := (locals.nextDelimiterSet + 1) % 2 ^ 8 }
      else if item.value = 0 then
        if !locals.delimiterOpen then fail item .invalidDelimiter
        else .ok { locals with delimiterOpen := false, delimiterSet := 0 }
      else fail item .invalidDelimiter
  | _ => fail item .unsupportedLocalItem

/-! ## Global items -/

def parseGlobal (capacity : Nat) (item : Item) (global : GlobalState) (stack : List GlobalState) :
    Run (GlobalState × List GlobalState) :=
  match item.tag with
  | 0 => .ok ({ global with usagePage := item.value }, stack)
  | 1 => .ok ({ global with logicalMinimum := item.signedValue }, stack)
  | 2 =>
      .ok ({ global with
        logicalMaximum := if global.logicalMinimum < 0 then item.signedValue else item.value }, stack)
  | 3 => .ok ({ global with physicalMinimum := item.signedValue }, stack)
  | 4 =>
      .ok ({ global with
        physicalMaximum := if global.physicalMinimum < 0 then item.signedValue else item.value }, stack)
  | 5 =>
      let exponent := item.value &&& 0x0F
      .ok ({ global with
        unitExponent := if exponent &&& 8 ≠ 0 then (exponent : Int) - 16 else exponent }, stack)
  | 6 => .ok ({ global with unit := item.value }, stack)
  | 7 =>
      if item.value = 0 then fail item .invalidReportSize
      else .ok ({ global with reportSize := item.value }, stack)
  | 8 =>
      if item.value = 0 ∨ item.value > 0xFF then fail item .invalidReportId
      else .ok ({ global with reportId := item.value }, stack)
  | 9 =>
      if item.value = 0 then fail item .invalidReportCount
      else .ok ({ global with reportCount := item.value }, stack)
  | 10 => if stack.length ≥ capacity then fail item .globalStackLimit else .ok (global, global :: stack)
  | 11 =>
      match stack with
      | [] => fail item .globalStackUnderflow
      | saved :: stack => .ok (saved, stack)
  | _ => fail item .unsupportedGlobalItem

/-! ## Main items -/

/-- A definition of this type and id -/
def ReportDefinition.is (type : ReportType) (reportId : Nat) (definition : ReportDefinition) : Bool :=
  definition.type = type && definition.reportId = reportId

/-- `FindOrAddDefinition`: the definitions and which one it is -/
def findOrAddDefinition (definitions : List ReportDefinition) (capacity : Nat) (type : ReportType)
    (reportId : Nat) : Option (List ReportDefinition × Nat) :=
  match definitions.findIdx? (ReportDefinition.is type reportId) with
  | some index => some (definitions, index)
  | none =>
      if definitions.length ≥ capacity then none
      else some (definitions ++ [{ type, reportId, hasReportId := reportId ≠ 0 }], definitions.length)

/-- The field of an item -/
def newField (global : GlobalState) (type : ReportType) (flags bitOffset currentCollection spanIndex
    spanCount : Nat) : ReportField :=
  { type, reportId := global.reportId, flags, bitOffset, reportSize := global.reportSize,
    reportCount := global.reportCount, logicalMinimum := global.logicalMinimum,
    logicalMaximum := global.logicalMaximum, physicalMinimum := global.physicalMinimum,
    physicalMaximum := global.physicalMaximum, unitExponent := global.unitExponent,
    unit := global.unit, collectionIndex := currentCollection, usageSpanIndex := spanIndex,
    usageSpanCount := spanCount }

/-- The part of `AddField` that counts the bits of the report: the definitions and the offset -/
def addBits (global : GlobalState) (type : ReportType) (output : PassOutput) (item : Item) :
    Run (List ReportDefinition × Nat) :=
  if global.reportSize > (2 ^ 64 - 1) / global.reportCount then fail item .arithmeticOverflow
  else
    let fieldBits := global.reportSize * global.reportCount % 2 ^ 64
    if output.definitions.length > output.definitionCapacity then fail item .arithmeticOverflow
    else
      match findOrAddDefinition output.definitions output.definitionCapacity type global.reportId with
      | none => fail item .arithmeticOverflow
      | some (definitions, index) =>
          match definitions[index]? with
          | none => .error .outside
          | some definition =>
              if definition.payloadBits > 2 ^ 64 - 1 - fieldBits then fail item .arithmeticOverflow
              else
                let payloadBits := (definition.payloadBits + fieldBits) % 2 ^ 64
                if (payloadBits + 7) % 2 ^ 64 / 8 > maximumPayloadLength then fail item .reportTooLarge
                else .ok (definitions.set index { definition with payloadBits }, definition.payloadBits)

/-- Where `AddField` writes the field and its spans, if there is an array of fields -/
def storeField (output : PassOutput) (counts : ParseCounts) (field : ReportField)
    (spans : List UsageSpan) : Run (Option (List ReportField) × Option (List UsageSpan)) :=
  if output.fields.isSome then do
    let fields ← write output.fields output.fieldCapacity counts.fields field
    let usageSpans ← writeAll output.usageSpans output.usageSpanCapacity counts.usageSpans spans
    .ok (fields, usageSpans)
  else .ok (output.fields, output.usageSpans)

def addField (pass : Pass) (type : ReportType) (currentCollection : Nat) (item : Item) : Run Pass := do
  let output := pass.output
  let counts := pass.counts
  let spans := pass.locals.spans
  if pass.global.reportSize = 0 then fail item .invalidReportSize
  else if pass.global.reportCount = 0 then fail item .invalidReportCount
  else if pass.locals.rangePending then fail item .invalidUsageRange
  else if pass.locals.delimiterOpen then fail item .invalidDelimiter
  else
    let (definitions, bitOffset) ← addBits pass.global type output item
    if counts.fields ≥ output.fieldCapacity then fail item .arithmeticOverflow
    else if spans.length > (output.usageSpanCapacity + 2 ^ 64 - counts.usageSpans) % 2 ^ 64 then
      fail item .arithmeticOverflow
    else
      let field := newField pass.global type (item.value % 2 ^ 16) bitOffset currentCollection
        counts.usageSpans spans.length
      let (fields, usageSpans) ← storeField output counts field spans
      .ok { pass with
        output := { output with definitions, fields, usageSpans }
        counts := { counts with
          fields := counts.fields + 1, usageSpans := counts.usageSpans + spans.length } }

/-- The collection that begins -/
def beginCollection (capacity : Nat) (pass : Pass) (currentCollection : Nat) (item : Item) :
    Run Pass := do
  let output := pass.output
  let counts := pass.counts
  if pass.locals.rangePending then fail item .invalidUsageRange
  else if pass.locals.delimiterOpen then fail item .invalidDelimiter
  else if counts.collections ≥ output.collectionCapacity ∨
      pass.collectionStack.length ≥ output.collectionCapacity then fail item .collectionLimit
  else
    let collection : ReportCollection :=
      { type := item.value % 2 ^ 8, parentIndex := currentCollection
        usage := match pass.locals.spans with
          | [] => {}
          | span :: _ => span.minimum }
    let collections ←
      (if output.collections.isSome then
        write output.collections output.collectionCapacity counts.collections collection
      else .ok output.collections)
    -- the stack lies in the workspace, whatever the capacity that is compared above
    if pass.collectionStack.length ≥ capacity then .error .outside
    else
      .ok { pass with
        output := { output with collections }
        counts := { counts with collections := counts.collections + 1 }
        collectionStack := counts.collections :: pass.collectionStack }

def parseMain (capacity : Nat) (pass : Pass) (item : Item) : Run Pass := do
  let currentCollection := pass.collectionStack.headD noCollection
  let pass ←
    (match item.tag with
    | 8 => addField pass .input currentCollection item
    | 9 => addField pass .output currentCollection item
    | 10 => beginCollection capacity pass currentCollection item
    | 11 => addField pass .feature currentCollection item
    | 12 =>
        match pass.collectionStack with
        | [] => fail item .collectionUnderflow
        | _ :: stack => .ok { pass with collectionStack := stack }
    | _ => fail item .unsupportedMainItem)
  .ok { pass with locals := resetLocal pass.locals }

/-! ## Passes -/

/-- The body of the loop of `RunPass`, behind `ReadItem` -/
def runItem (capacity : Nat) (pass : Pass) (item : Item) : Run Pass :=
  if item.isLong then
    .ok { pass with counts := { pass.counts with longItems := pass.counts.longItems + 1 } }
  else
    match item.type with
    | .main => parseMain capacity pass item
    | .global => do
        let (global, globalStack) ← parseGlobal capacity item pass.global pass.globalStack
        .ok { pass with global, globalStack }
    | .local => do
        let locals ← parseLocal capacity item pass.global pass.locals
        .ok { pass with locals }
    | .reserved => .ok pass

/-- The loop of `RunPass`; the first argument bounds the number of items. -/
def runItems (capacity : Nat) (source : Bytes) : (fuel : Nat) → Nat → Pass → Run Pass
  | 0, _, _ => .error .outside
  | fuel + 1, offset, pass =>
      if offset < source.length then do
        let item ← readItem source offset
        let pass ← runItem capacity pass item
        runItems capacity source fuel item.nextOffset pass
      else .ok pass

def runPass (capacity : Nat) (source : Bytes) (output : PassOutput) : Run Pass := do
  let pass ← runItems capacity source (source.length + 1) 0 { output }
  if pass.locals.rangePending then .error (.fail .invalidUsageRange source.length 0)
  else if pass.locals.delimiterOpen then .error (.fail .invalidDelimiter source.length 0)
  else if pass.collectionStack ≠ [] then .error (.fail .collectionNotClosed source.length 0)
  else
    .ok { pass with output := { pass.output with
      definitions := pass.output.definitions.map fun definition =>
        { definition with payloadBytes := (definition.payloadBits + 7) % 2 ^ 64 / 8 } } }

end Unisym.Device.HIDReport
