/-
# `RecordLayout` — the layout of structures and unions

`PrepareRecordDefinition` lays out the members of a record while it reads their declarations, with the sizes and
alignments of `FrontendCTypeInfo`.  A member is declared by the specifiers in front, a count of `*` and a declarator;
what C takes it for is stated apart from the type that the frontend makes of it (`CType`).

The syntax tree is a record definition in parts; a definition that is refused gives nothing.
-/
import Unisym.Lango.IntegerLiteral

namespace Unisym.Lango.FrontendC

/-! ## Declarations -/

/-- A declarator: an identifier, `OP@PREMEMB` or `operator[]` -/
inductive Declarator where
  | name (identifier : String)
  | deref (declarator : Declarator)
  | index (declarator : Declarator) (dimension : CString)

/-- What `ParseTypeSpecifiers` gives: a type that is no pointer and no array -/
structure Specifiers where
  type : FrontendCType
  plain : type.pointerDepth = 0 ∧ type.arrayDimensions = []

/-- The declaration of a member -/
structure MemberDeclaration where
  specifiers : Specifiers
  stars : Nat
  declarator : Declarator

/-- The words in front of a definition -/
inductive Modifier where
  | packed | padded | alignb (argument : CString) | aligne (argument : CString)

/-- The definition of a structure or union -/
structure RecordDefinition where
  modifiers : List Modifier
  isUnion : Bool
  tag : String
  members : List MemberDeclaration

/-! ## The records -/

inductive FrontendCRecordLayout where
  | default | padded | packed
deriving DecidableEq, Repr

structure FrontendCRecordMember where
  name : String
  type : FrontendCType
  offsetBits : Nat
deriving DecidableEq, Repr

structure FrontendCRecord where
  tag : String
  members : List FrontendCRecordMember := []
  sizeBits : Nat := 0
  alignBits : Nat := 0
  isUnion : Bool
  layout : FrontendCRecordLayout := .default
  explicitAlignBits : Nat := 0
  complete : Bool := false
deriving DecidableEq, Repr

structure FrontendCEnum where
  tag : String
  integerRank : FrontendCIntegerRank := .int
  complete : Bool := false
deriving DecidableEq, Repr

structure FrontendCTypeInfo where
  records : List FrontendCRecord := []
  enums : List FrontendCEnum := []
deriving DecidableEq, Repr

/-- The entry with this identity, which counts from one -/
def entryAt? {α : Type} (entries : List α) (id : Nat) : Option α := if id = 0 then none else entries[id - 1]?

/-- `FromDataModel`, for `ILP32`, `LP64` and `LLP64` -/
def fromDataModel (longBits pointerBits : Nat) : FrontendCTargetInfo :=
  { longBits, longAlignBits := longBits, pointerBits, pointerAlignBits := pointerBits }

section Sizes

variable (target : FrontendCTargetInfo) (info : FrontendCTypeInfo)

/-- The size and the alignment of an integer of this rank -/
def rankLayout : FrontendCIntegerRank → Nat × Nat
  | .bool => (target.charBits, target.charAlignBits)
  | .char => (target.charBits, target.charAlignBits)
  | .short => (target.shortBits, target.shortAlignBits)
  | .int => (target.intBits, target.intAlignBits)
  | .long => (target.longBits, target.longAlignBits)
  | .longLong => (target.longLongBits, target.longLongAlignBits)

/-- What `SizeBits` and `AlignBits` find for a type without its pointers and arrays: zeros for an incomplete one -/
def baseLayout (type : FrontendCType) : Nat × Nat :=
  if type.enumId ≠ 0 ∧ type.isIncomplete then (0, 0)
  else if type.recordId ≠ 0 then
    match (entryAt? info.records type.recordId).filter (·.complete) with
    | none => (0, 0)
    | some record => (record.sizeBits, record.alignBits)
  else match type.scalarKind with
    | .float => (target.floatBits, target.floatAlignBits)
    | .double => (target.doubleBits, target.doubleAlignBits)
    | .longDouble => (target.longDoubleBits, target.longDoubleAlignBits)
    | .integer =>
        if type.enumId ≠ 0 then
          match (entryAt? info.enums type.enumId).filter (·.complete) with
          | none => (0, 0)
          | some enumeration => rankLayout target enumeration.integerRank
        else rankLayout target type.integerRank

def sizeBits (type : FrontendCType) : Nat :=
  if type.isPointer then target.pointerBits
  else (baseLayout target info type).1 * type.storageElementCount % 2 ^ 64

def alignBits (type : FrontendCType) : Nat :=
  if type.isPointer then target.pointerAlignBits else (baseLayout target info type).2

end Sizes

/-! ## The definition of a record -/

def alignUp (value alignment : Nat) : Nat :=
  if alignment = 0 then value
  else
    let remainder := value % alignment
    if remainder ≠ 0 then (value + (alignment - remainder)) % 2 ^ 64 else value

def parseRecordAlignment (target : FrontendCTargetInfo) (exponent : Bool) (argument : CString) : Option Nat := do
  let (value, _) ← parseIntegerLiteral argument target
  let alignBytes ←
    if exponent then if value < 0 ∨ value > 4 then none else some (2 ^ value.toNat)
    else if value ≤ 0 then none else some value.toNat
  if alignBytes &&& (alignBytes - 1) ≠ 0 ∨ alignBytes > 16 then none else some (alignBytes * target.charBits)

/-- `ParseRecordDefinitionPrefix`: the layout and the explicit alignment -/
def parsePrefix (target : FrontendCTargetInfo) :
    List Modifier → FrontendCRecordLayout × Nat → Option (FrontendCRecordLayout × Nat)
  | [], state => some state
  | modifier :: modifiers, (layout, explicit) =>
      let choose (chosen : FrontendCRecordLayout) : Option (FrontendCRecordLayout × Nat) :=
        if layout ≠ .default then none else some (chosen, explicit)
      let align (exponent : Bool) (argument : CString) : Option (FrontendCRecordLayout × Nat) :=
        if explicit ≠ 0 then none else (parseRecordAlignment target exponent argument).map (layout, ·)
      let state := match modifier with
        | .packed => choose .packed
        | .padded => choose .padded
        | .alignb argument => align false argument
        | .aligne argument => align true argument
      state.bind (parsePrefix target modifiers)

/-- The bound of an array; it is positive. -/
def parseDimension (target : FrontendCTargetInfo) (dimension : CString) : Option Nat :=
  match parseIntegerLiteral dimension target with
  | some (count, _) => if count > 0 then some count.toNat else none
  | none => none

def parseRecordMemberDeclarator (target : FrontendCTargetInfo) (type : FrontendCType) :
    Declarator → Option (String × FrontendCType)
  | .name identifier => some (identifier, type)
  | .deref declarator => (parseRecordMemberDeclarator target type declarator).map fun (name, type) =>
      (name, type.addressType)
  | .index declarator dimension => do
      let (name, type) ← parseRecordMemberDeclarator target type declarator
      let count ← parseDimension target dimension
      (type.appendArrayDimension count).map (name, ·)

/-- The stars in front of a declarator -/
def addStars (type : FrontendCType) : Nat → FrontendCType
  | 0 => type
  | stars + 1 => addStars type.addressType stars

/-- The name and the type of a member -/
def parseMember (target : FrontendCTargetInfo) (d : MemberDeclaration) : Option (String × FrontendCType) :=
  let type := addStars d.specifiers.type d.stars
  if type.isVoidType then none else parseRecordMemberDeclarator target type d.declarator

/-- What the loop over the members carries -/
structure Progress where
  members : List FrontendCRecordMember
  sizeBits : Nat := 0
  alignBits : Nat := 0

/-- The body of the loop over the members -/
def addMember (target : FrontendCTargetInfo) (info : FrontendCTypeInfo) (isUnion isPacked : Bool)
    (progress : Progress) (d : MemberDeclaration) : Option Progress := do
  let (name, type) ← parseMember target d
  if progress.members.any (·.name = name) then none
  else
    let memberSize := sizeBits target info type
    let memberAlign := alignBits target info type
    if memberSize = 0 ∨ memberAlign = 0 then none
    else
      let size := if !isUnion && !isPacked then alignUp progress.sizeBits memberAlign else progress.sizeBits
      some {
        members := progress.members ++ [⟨name, type, if isUnion then 0 else size⟩]
        sizeBits := if isUnion then max size memberSize else (size + memberSize) % 2 ^ 64
        alignBits := if !isPacked then max progress.alignBits memberAlign else progress.alignBits }

/-- `FindRecord`, or the identity of a new record -/
def findRecord (info : FrontendCTypeInfo) (tag : String) : Nat := info.records.findIdx (·.tag = tag)

def prepareRecordDeclaration (info : FrontendCTypeInfo) (isUnion : Bool) (tag : String) : Option FrontendCTypeInfo :=
  if info.enums.any (·.tag = tag) then none
  else match info.records[findRecord info tag]? with
    | some record => if record.isUnion ≠ isUnion then none else some info
    | none => some { info with records := info.records ++ [{ tag, isUnion }] }

/-- What the loop leaves is completed. -/
def completeRecord (target : FrontendCTargetInfo) (record : FrontendCRecord) (progress : Progress) :
    Option FrontendCRecord :=
  let isPacked := record.layout = .packed
  let explicit := record.explicitAlignBits
  if !isPacked && progress.alignBits = 0 || isPacked && progress.sizeBits = 0 then none
  else
    let natural := if isPacked then target.charAlignBits else progress.alignBits
    if explicit ≠ 0 ∧ !isPacked ∧ explicit < natural then none
    else
      let align := if explicit ≠ 0 then explicit else natural
      some { record with
        members := progress.members, alignBits := align, sizeBits := alignUp progress.sizeBits align, complete := true }

def prepareRecordDefinition (target : FrontendCTargetInfo) (info : FrontendCTypeInfo) (d : RecordDefinition) :
    Option FrontendCTypeInfo := do
  let (layout, explicit) ← parsePrefix target d.modifiers (.default, 0)
  let info ← prepareRecordDeclaration info d.isUnion d.tag
  let record ← info.records[findRecord info d.tag]?
  if record.complete then none
  else
    let record := { record with layout, explicitAlignBits := explicit }
    let progress ← d.members.foldlM (addMember target info d.isUnion (layout = .packed)) ⟨record.members, 0, 0⟩
    let record ← completeRecord target record progress
    some { info with records := info.records.set (findRecord info d.tag) record }

/-! ## What C declares -/

/-- A type of C: what the specifiers say, a pointer, or an array -/
inductive CType where
  | base (type : FrontendCType)
  | pointer (type : CType)
  | array (count : Nat) (element : CType)

namespace CType

/-- What a declarator makes of a type -/
def declares (target : FrontendCTargetInfo) : CType → Declarator → Option CType
  | type, .name _ => some type
  | type, .deref declarator => declares target (.pointer type) declarator
  | type, .index declarator dimension =>
      (parseDimension target dimension).bind fun count => declares target (.array count type) declarator

/-- The type of a member -/
def ofMember (target : FrontendCTargetInfo) (d : MemberDeclaration) : Option CType :=
  declares target (Nat.iterate .pointer d.stars (.base d.specifiers.type)) d.declarator

/-- The size of a type -/
def size (target : FrontendCTargetInfo) (info : FrontendCTypeInfo) : CType → Nat
  | base type => (baseLayout target info type).1
  | pointer _ => target.pointerBits
  | array count element => count * element.size target info

/-- The alignment of a type -/
def align (target : FrontendCTargetInfo) (info : FrontendCTypeInfo) : CType → Nat
  | base type => (baseLayout target info type).2
  | pointer _ => target.pointerAlignBits
  | array _ element => element.align target info

/-- An array, in any number of dimensions, of pointers -/
def IsPointerArray : CType → Prop
  | array _ (pointer _) => True
  | array _ element => element.IsPointerArray
  | _ => False

end CType

end Unisym.Lango.FrontendC
