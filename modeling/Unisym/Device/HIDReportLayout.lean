/-
# `HIDReportLayout` — the layout that is parsed, its memory and the values of reports

The allocator is a heap of blocks whose requests may fail at will.  A block that is given back must be
live and have the size that was asked for.
-/
import Unisym.Device.HIDReport

namespace Unisym.Device.HIDReport

/-! ## Memory -/

structure Block where
  address : Nat
  size : Nat
deriving DecidableEq, Repr

/-- `trait::Malloc`: how many requests there were, and the blocks that are not given back -/
structure Heap where
  requests : Nat := 0
  live : List Block := []
deriving Repr

/-- `allocate`; `grant` tells which requests succeed. -/
def allocate (grant : Nat → Bool) (size : Nat) (heap : Heap) : Option Nat × Heap :=
  if grant heap.requests then
    (some heap.requests, ⟨heap.requests + 1, ⟨heap.requests, size⟩ :: heap.live⟩)
  else (none, ⟨heap.requests + 1, heap.live⟩)

/-- `if (pointer) allocator->deallocate(pointer, size)` -/
def deallocate (pointer : Option Nat) (size : Nat) (heap : Heap) : Option Heap :=
  match pointer with
  | none => some heap
  | some address =>
      if ⟨address, size⟩ ∈ heap.live then some { heap with live := heap.live.erase ⟨address, size⟩ }
      else none

/-! `sizeof` of the entries of the arrays -/

def sizeofGlobalState : Nat := 64
def sizeofStduint : Nat := 8
def sizeofReportDefinition : Nat := 32
def sizeofReportField : Nat := 88
def sizeofReportCollection : Nat := 24
def sizeofUsageSpan : Nat := 20

/-- `HIDParserWorkspace` -/
structure Workspace where
  capacity : Nat
  globalStack : Option Nat
  collectionStack : Option Nat
  definitions : Option Nat
  localSpans : Option Nat

namespace Workspace

def allocate (grant : Nat → Bool) (capacity : Nat) (heap : Heap) : Workspace × Heap :=
  let (globalStack, heap) := HIDReport.allocate grant (capacity * sizeofGlobalState) heap
  let (collectionStack, heap) := HIDReport.allocate grant (capacity * sizeofStduint) heap
  let (definitions, heap) := HIDReport.allocate grant (capacity * sizeofReportDefinition) heap
  let (localSpans, heap) := HIDReport.allocate grant (capacity * sizeofUsageSpan) heap
  ({ capacity, globalStack, collectionStack, definitions, localSpans }, heap)

/-- What `HIDParserWorkspace::Allocate` returns -/
def allocated (w : Workspace) : Bool :=
  w.globalStack.isSome && w.collectionStack.isSome && w.definitions.isSome && w.localSpans.isSome

def release (w : Workspace) (heap : Heap) : Option Heap := do
  let heap ← deallocate w.globalStack (w.capacity * sizeofGlobalState) heap
  let heap ← deallocate w.collectionStack (w.capacity * sizeofStduint) heap
  let heap ← deallocate w.definitions (w.capacity * sizeofReportDefinition) heap
  deallocate w.localSpans (w.capacity * sizeofUsageSpan) heap

end Workspace

/-- `AllocateArray`: whether it is done, and the pointer -/
def allocateArray (grant : Nat → Bool) (count size : Nat) (heap : Heap) : Bool × Option Nat × Heap :=
  if count = 0 then (true, none, heap)
  else if count > (2 ^ 64 - 1) / size then (false, none, heap)
  else
    let (destination, heap) := allocate grant (count * size) heap
    (destination.isSome, destination, heap)

/-- `AllocateArray` where no one before it failed -/
def allocateNext (grant : Nat → Bool) (done : Bool) (count size : Nat) (heap : Heap) :
    Bool × Option Nat × Heap :=
  if done then allocateArray grant count size heap else (false, none, heap)

/-! ## Layouts -/

/-- `HIDReportLayout`; the entries stand beside the pointers to them. -/
structure Layout where
  allocator : Bool := false
  definitionsAt : Option Nat := none
  fieldsAt : Option Nat := none
  collectionsAt : Option Nat := none
  usageSpansAt : Option Nat := none
  definitionCount : Nat := 0
  fieldCount : Nat := 0
  collectionCount : Nat := 0
  usageSpanCount : Nat := 0
  definitions : List ReportDefinition := []
  fields : List ReportField := []
  collections : List ReportCollection := []
  usageSpans : List UsageSpan := []
deriving DecidableEq, Repr

namespace Layout

def clear (l : Layout) (heap : Heap) : Option (Layout × Heap) := do
  let heap ←
    (if l.allocator then do
      let heap ← deallocate l.definitionsAt (l.definitionCount * sizeofReportDefinition) heap
      let heap ← deallocate l.fieldsAt (l.fieldCount * sizeofReportField) heap
      let heap ← deallocate l.collectionsAt (l.collectionCount * sizeofReportCollection) heap
      deallocate l.usageSpansAt (l.usageSpanCount * sizeofUsageSpan) heap
    else some heap)
  some ({}, heap)

/-- The arrays of the size that the first pass counted -/
def allocate (grant : Nat → Bool) (first : Pass) (heap : Heap) : Bool × Layout × Heap :=
  let definitionCount := first.output.definitions.length
  let fieldCount := first.counts.fields
  let collectionCount := first.counts.collections
  let usageSpanCount := first.counts.usageSpans
  let (done, definitionsAt, heap) := allocateArray grant definitionCount sizeofReportDefinition heap
  let (done, fieldsAt, heap) := allocateNext grant done fieldCount sizeofReportField heap
  let (done, collectionsAt, heap) := allocateNext grant done collectionCount sizeofReportCollection heap
  let (done, usageSpansAt, heap) := allocateNext grant done usageSpanCount sizeofUsageSpan heap
  let layout : Layout :=
    { allocator := true, definitionsAt, fieldsAt, collectionsAt, usageSpansAt,
      definitionCount, fieldCount, collectionCount, usageSpanCount }
  (done, layout, heap)

/-- An array that is not written yet, where there is one -/
def array {α : Type} (pointer : Option Nat) : Option (List α) := pointer.map fun _ => []

/-- The output of the second pass -/
def secondOutput (l : Layout) : PassOutput :=
  { definitionCapacity := l.definitionCount
    fields := array l.fieldsAt
    fieldCapacity := l.fieldCount
    collections := array l.collectionsAt
    collectionCapacity := l.collectionCount
    usageSpans := array l.usageSpansAt
    usageSpanCapacity := l.usageSpanCount }

/-- The layout with the entries that a pass wrote -/
def filled (l : Layout) (pass : Pass) : Layout :=
  { l with
    definitions := pass.output.definitions
    fields := pass.output.fields.getD []
    collections := pass.output.collections.getD []
    usageSpans := pass.output.usageSpans.getD [] }

end Layout

/-- The output of the first pass: only definitions are kept, all capacities are the workspace's. -/
def firstOutput (capacity : Nat) : PassOutput :=
  { definitionCapacity := capacity
    fields := none
    fieldCapacity := capacity
    collections := none
    collectionCapacity := capacity
    usageSpans := none
    usageSpanCapacity := capacity }

/-- The counts of the two passes that are compared -/
def sameCounts (l : Layout) (second : Pass) : Bool :=
  second.output.definitions.length = l.definitionCount && second.counts.fields = l.fieldCount &&
    second.counts.collections = l.collectionCount && second.counts.usageSpans = l.usageSpanCount

/-- What `Fail` leaves in the result -/
def failed (status : DescriptorStatus) (offset itemPrefix : Nat) : ParseResult :=
  { status, offset, itemPrefix }

/-- The result when all is done -/
def succeeded (l : Layout) (second : Pass) (length : Nat) : ParseResult :=
  { status := .success, offset := length, definitionCount := l.definitionCount,
    fieldCount := l.fieldCount, collectionCount := l.collectionCount,
    usageSpanCount := l.usageSpanCount, longItemCount := second.counts.longItems }

/-- What `Parse` does with its workspace; a read or write outside, or a block that is wrongly given back,
has no result. -/
def parseIn (grant : Nat → Bool) (source : Bytes) (w : Workspace) (layout : Layout) (heap : Heap) :
    Option (ParseResult × Layout × Heap) :=
  if !w.allocated then some (failed .allocationFailed 0 0, layout, heap)
  else
    match runPass w.capacity source (firstOutput w.capacity) with
    | .error .outside => none
    | .error (.fail status offset itemPrefix) => some (failed status offset itemPrefix, layout, heap)
    | .ok first =>
        let (done, layout, heap) := Layout.allocate grant first heap
        if !done then do
          let (layout, heap) ← layout.clear heap
          some (failed .allocationFailed 0 0, layout, heap)
        else
          match runPass w.capacity source layout.secondOutput with
          | .error .outside => none
          | .error (.fail status offset itemPrefix) => do
              let (layout, heap) ← layout.clear heap
              some (failed status offset itemPrefix, layout, heap)
          | .ok second =>
              if !sameCounts layout second then do
                let (layout, heap) ← layout.clear heap
                some (failed .arithmeticOverflow 0 0, layout, heap)
              else some (succeeded layout second source.length, layout.filled second, heap)

def parse (grant : Nat → Bool) (source : Option Bytes) (requestedAllocator : Bool) (layout : Layout)
    (heap : Heap) : Option (ParseResult × Layout × Heap) := do
  let (layout, heap) ← layout.clear heap
  match source with
  | none => some ({ status := .invalidArgument }, layout, heap)
  | some source =>
      if source.length = 0 || !requestedAllocator || source.length > descriptorMaximumLength then
        some ({ status := .invalidArgument }, layout, heap)
      else
        let (w, heap) := Workspace.allocate grant (source.length + 1) heap
        let (result, layout, heap) ← parseIn grant source w layout heap
        let heap ← w.release heap
        some (result, layout, heap)

/-! ## Values -/

/-- `HIDReportValueStatus` -/
inductive ValueStatus where
  | success | invalidArgument | definitionNotFound | reportIdMismatch | bufferTooSmall
  | elementOutOfRange | valueTooWide
deriving DecidableEq, Repr

def Layout.findDefinition (l : Layout) (type : ReportType) (reportId : Nat) : Option ReportDefinition :=
  l.definitions.find? (ReportDefinition.is type reportId)

/-- The loop of `ExtractUnsigned`; `start` is the place of the payload in the report. -/
def extractBits (report : Bytes) (start bitOffset : Nat) : (bits : Nat) → Option Nat
  | 0 => some 0
  | bit + 1 => do
      let value ← extractBits report start bitOffset bit
      let sourceBit := bitOffset + bit
      let b ← report[start + sourceBit / 8]?
      some (if b.toNat &&& (1 <<< (sourceBit &&& 7)) ≠ 0 then value ||| 1 <<< bit else value)

/-- `ExtractUnsigned`: the status and the value; a read outside the report has no result. -/
def Layout.extractUnsigned (l : Layout) (field : ReportField) (element : Nat) (report : Option Bytes) :
    Option (ValueStatus × Nat) :=
  match report with
  | none => some (.invalidArgument, 0)
  | some report =>
      match l.findDefinition field.type field.reportId with
      | none => some (.definitionNotFound, 0)
      | some definition =>
          if element ≥ field.reportCount then some (.elementOutOfRange, 0)
          else if field.reportSize = 0 ∨ field.reportSize > 64 then some (.valueTooWide, 0)
          else
            let prefixLength := if definition.hasReportId then 1 else 0
            if report.length < prefixLength + definition.payloadBytes then some (.bufferTooSmall, 0)
            else do
              let mismatch ←
                (if definition.hasReportId then do
                  let b ← report[0]?
                  some (decide (b.toNat ≠ definition.reportId))
                else some false)
              if mismatch then some (.reportIdMismatch, 0)
              else
                let elementOffset := field.reportSize * element % 2 ^ 64
                if field.bitOffset > 2 ^ 64 - 1 - elementOffset then some (.elementOutOfRange, 0)
                else
                  let bitOffset := field.bitOffset + elementOffset
                  if bitOffset > definition.payloadBits ∨
                      field.reportSize > definition.payloadBits - bitOffset then
                    some (.elementOutOfRange, 0)
                  else do
                    let value ← extractBits report prefixLength bitOffset field.reportSize
                    some (.success, value)

def Layout.extractSigned (l : Layout) (field : ReportField) (element : Nat) (report : Option Bytes) :
    Option (ValueStatus × Int) := do
  let (status, value) ← l.extractUnsigned field element report
  if status ≠ .success then some (status, 0)
  else
    let extended :=
      if field.logicalMinimum < 0 ∧ field.reportSize < 64 ∧
          value &&& (1 <<< (field.reportSize - 1)) ≠ 0 then
        value ||| (2 ^ 64 - 2 ^ field.reportSize)
      else value
    some (.success, toInt64 extended)

end Unisym.Device.HIDReport
