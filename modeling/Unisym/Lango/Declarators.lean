/-
# `Declarators` — what a declarator makes of a type

Of a declared type the frontend keeps the count of its pointers and the bounds of its arrays, and not the order in which
they come (`CType.flatten`).  Pointers are taken for the outer part, so the type is the declared one exactly if no array
has pointers in it and the counts fit (`declares_denoted`).
-/
import Unisym.Lango.ArrayInitializerSpec
import Unisym.Lango.RecordLayout

namespace Unisym.Lango.FrontendC

namespace FrontendCType

def isArray (type : FrontendCType) : Bool := type.pointerDepth = 0 && type.arrayDimensions ≠ []

def decayType (type : FrontendCType) : FrontendCType :=
  { type with arrayDimensions := type.arrayDimensions.tail }.addressType

def dereferenceType (type : FrontendCType) : FrontendCType := { type with pointerDepth := type.pointerDepth - 1 }

end FrontendCType

/-- A declarator at file scope, where a bound may be missing -/
inductive GlobalDeclarator where
  | name (identifier : String)
  | deref (declarator : GlobalDeclarator)
  | index (declarator : GlobalDeclarator) (dimension : Option CString)

/-- `ParseGlobalDeclaratorNode`; its literals are those of `LP64`. -/
def parseGlobalDeclaratorNode (type : FrontendCType) : GlobalDeclarator → Option (String × FrontendCType)
  | .name identifier => some (identifier, type)
  | .deref declarator => (parseGlobalDeclaratorNode type declarator).map fun (name, type) => (name, type.addressType)
  | .index declarator dimension => do
      let (name, type) ← parseGlobalDeclaratorNode type declarator
      let count ← match dimension with
        | none => if type.arrayDimensions ≠ [] then none else some 0
        | some dimension => parseDimension (fromDataModel 64 64) dimension
      (type.appendArrayDimension count).map (name, ·)

/-- The same declarator at file scope -/
def Declarator.global : Declarator → GlobalDeclarator
  | name identifier => .name identifier
  | deref d => .deref d.global
  | index d dimension => .index d.global (some dimension)

theorem parseGlobalDeclaratorNode_global (type : FrontendCType) (d : Declarator) :
    parseGlobalDeclaratorNode type d.global = parseRecordMemberDeclarator (fromDataModel 64 64) type d := by
  induction d with
  | name identifier => rfl
  | deref d ih => rw [Declarator.global, parseGlobalDeclaratorNode, parseRecordMemberDeclarator, ih]
  | index d dimension ih => rw [Declarator.global, parseGlobalDeclaratorNode, parseRecordMemberDeclarator, ih]

def Declarator.identifier : Declarator → String
  | name identifier => identifier
  | deref d => d.identifier
  | index d _ => d.identifier

/-! ## Pointers and bounds -/

namespace CType

/-- How many pointers there are in the type -/
def depth : CType → Nat
  | base _ => 0
  | pointer c => c.depth + 1
  | array _ c => c.depth

/-- The bounds of its arrays, from the outside -/
def bounds : CType → List Nat
  | base _ => []
  | pointer c => c.bounds
  | array n c => n :: c.bounds

/-- What its specifiers say -/
def root : CType → FrontendCType
  | base type => type
  | pointer c => c.root
  | array _ c => c.root

/-- What the frontend keeps of it -/
def flatten (c : CType) : FrontendCType :=
  { c.root with pointerDepth := min 16 c.depth, arrayDimensions := c.bounds }

/-- No array has pointers in it. -/
def IsFlat : CType → Prop
  | base _ => True
  | pointer c => c.IsFlat
  | array _ c => c.depth = 0

/-- The type of the frontend shows this type, at every level of subscripting and indirection. -/
def Denotes : CType → FrontendCType → Prop
  | base b, type => type = b ∧ b.pointerDepth = 0 ∧ b.arrayDimensions = []
  | pointer c, type => type.isPointer ∧ c.Denotes type.dereferenceType
  | array n c, type => type.isArray ∧ type.arrayDimensions.head? = some n ∧ c.Denotes type.decayType.dereferenceType

theorem eq_pointer_of_depth {c : CType} (h : c.depth ≠ 0) (hc : c.IsFlat) : ∃ c', c = pointer c' := by
  cases c with
  | base type => exact absurd rfl h
  | pointer c => exact ⟨c, rfl⟩
  | array n c => exact absurd hc h

theorem depth_iterate (b : FrontendCType) (stars : Nat) :
    (Nat.iterate pointer stars (base b)).depth = stars ∧ (Nat.iterate pointer stars (base b)).bounds = [] ∧
      (Nat.iterate pointer stars (base b)).root = b := by
  induction stars with
  | zero => exact ⟨rfl, rfl, rfl⟩
  | succ stars ih =>
    rw [Function.iterate_succ_apply']
    exact ⟨congrArg (· + 1) ih.1, ih.2⟩

theorem isFlat_of_depth {c : CType} (h : c.depth = 0) : c.IsFlat := by
  cases c with
  | base type => trivial
  | pointer c => exact absurd h (Nat.succ_ne_zero _)
  | array n c => exact h

theorem denotes_iff {c : CType} (hroot : c.root.pointerDepth = 0 ∧ c.root.arrayDimensions = []) {type : FrontendCType} :
    c.Denotes type ↔ c.IsFlat ∧ type = { c.root with pointerDepth := c.depth, arrayDimensions := c.bounds } := by
  obtain ⟨rank, kind, sign, isVoid, isIncomplete, record, enum, k, dims⟩ := type
  induction c generalizing k dims with
  | base b =>
    obtain ⟨brank, bkind, bsign, bvoid, bincomplete, brecord, benum, bk, bdims⟩ := b
    obtain ⟨rfl, rfl⟩ := hroot
    simp [Denotes, IsFlat, root, depth, bounds]
  | pointer c ih =>
    rw [Denotes, FrontendCType.dereferenceType, ih hroot]
    simp only [FrontendCType.isPointer, IsFlat, root, depth, bounds, FrontendCType.mk.injEq, decide_eq_true_eq]
    grind
  | array n c ih =>
    rw [Denotes]
    cases k with
    | succ k =>
      simp only [FrontendCType.isArray, IsFlat, depth, FrontendCType.mk.injEq]
      grind
    | zero =>
      rw [show (FrontendCType.mk rank kind sign isVoid isIncomplete record enum 0 dims).decayType.dereferenceType =
        ⟨rank, kind, sign, isVoid, isIncomplete, record, enum, 0, dims.tail⟩ from rfl, ih hroot]
      cases dims <;>
        simp only [FrontendCType.isArray, IsFlat, root, depth, bounds, FrontendCType.mk.injEq] <;>
        grind [isFlat_of_depth]

theorem Denotes.unique {c c' : CType} {type : FrontendCType} (h : c.Denotes type) (h' : c'.Denotes type) : c = c' := by
  induction c generalizing c' type with
  | base b => cases c' <;> grind [Denotes, FrontendCType.isPointer, FrontendCType.isArray]
  | pointer c ih => cases c' <;> grind [Denotes, FrontendCType.isPointer, FrontendCType.isArray]
  | array n c ih => cases c' <;> grind [Denotes, FrontendCType.isPointer, FrontendCType.isArray]

end CType

/-! ## What is parsed -/

variable {literals target : FrontendCTargetInfo} {info : FrontendCTypeInfo}

theorem addressType_eq {type : FrontendCType} (h : type.pointerDepth ≤ 16) :
    type.addressType = { type with pointerDepth := min 16 (type.pointerDepth + 1) } := by
  rw [FrontendCType.addressType]
  split
  · next hlt =>
      have hle : type.pointerDepth + 1 ≤ 16 := hlt
      rw [Nat.min_eq_right hle]
  · next hge =>
      have heq : type.pointerDepth = 16 := le_antisymm h (Nat.le_of_not_lt hge)
      rw [heq, Nat.min_eq_left (by decide), ← heq]

theorem addStars_eq {type : FrontendCType} (h : type.pointerDepth ≤ 16) (stars : Nat) :
    addStars type stars = { type with pointerDepth := min 16 (type.pointerDepth + stars) } := by
  induction stars generalizing type with
  | zero => rw [addStars, Nat.add_zero, Nat.min_eq_right h]
  | succ stars ih =>
    rw [addStars, addressType_eq h, ih (Nat.min_le_left _ _)]
    simp only [FrontendCType.mk.injEq, true_and, and_true]
    omega

/-- A declarator puts its pointers and its bounds around a type. -/
theorem parseRecordMemberDeclarator_eq {type t : FrontendCType} (htype : type.pointerDepth ≤ 16) {d : Declarator}
    {name : String} (h : parseRecordMemberDeclarator literals type d = some (name, t)) (c : CType) :
    name = d.identifier ∧ ∃ c' k dims, CType.declares literals c d = some c' ∧ c'.depth = c.depth + k ∧
      c'.bounds = dims ++ c.bounds ∧ c'.root = c.root ∧ t = { type with
        pointerDepth := min 16 (type.pointerDepth + k), arrayDimensions := type.arrayDimensions ++ dims } := by
  induction d generalizing t c name with
  | name identifier =>
    cases h
    exact ⟨rfl, c, 0, [], rfl, rfl, rfl, rfl, by rw [Nat.add_zero, Nat.min_eq_right htype, List.append_nil]⟩
  | deref d ih =>
    obtain ⟨⟨name', t'⟩, h', heq⟩ := Option.map_eq_some_iff.mp h
    cases heq
    obtain ⟨hname, c', k, dims, hc, hdepth, hbounds, hroot, rfl⟩ := ih h' (.pointer c)
    refine ⟨hname, c', k + 1, dims, hc, hdepth.trans (Nat.succ_add_eq_add_succ _ _), hbounds, hroot, ?_⟩
    rw [addressType_eq (Nat.min_le_left _ _)]
    simp only [FrontendCType.mk.injEq, true_and, and_true]
    omega
  | index d dimension ih =>
    simp only [parseRecordMemberDeclarator, Option.bind_eq_bind, Option.bind_eq_some_iff, Prod.exists,
      Option.map_eq_some_iff, Prod.mk.injEq] at h
    obtain ⟨name', t', h', n, hn, t'', happend, rfl, rfl⟩ := h
    obtain ⟨hname, c', k, dims, hc, hdepth, hbounds, hroot, rfl⟩ := ih h' (.array n c)
    rw [FrontendCType.appendArrayDimension] at happend
    split at happend
    · cases happend
    · cases happend
      refine ⟨hname, c', k, dims ++ [n], ?_, hdepth, ?_, hroot, ?_⟩
      · rw [CType.declares, hn, Option.bind_some, hc]
      · rw [hbounds, CType.bounds, List.append_assoc, List.singleton_append]
      · rw [List.append_assoc]

theorem declared_flatten (s : Specifiers) {stars : Nat} {d : Declarator} {name : String} {t : FrontendCType}
    (h : parseRecordMemberDeclarator literals (addStars s.type stars) d = some (name, t)) :
    name = d.identifier ∧ ∃ c, CType.declares literals (Nat.iterate .pointer stars (.base s.type)) d = some c ∧
      c.root = s.type ∧ t = c.flatten := by
  obtain ⟨hpointers, hbounds, hroot⟩ := CType.depth_iterate s.type stars
  have hstars := addStars_eq (by rw [s.plain.1]; exact Nat.zero_le _) stars
  rw [s.plain.1, Nat.zero_add] at hstars
  rw [hstars] at h
  obtain ⟨hname, c, k, dims, hc, hd, hb, hr, rfl⟩ :=
    parseRecordMemberDeclarator_eq (Nat.min_le_left _ _) h (Nat.iterate .pointer stars (.base s.type))
  refine ⟨hname, c, hc, hr.trans hroot, ?_⟩
  rw [CType.flatten, hr, hroot, hb, hbounds, hd, hpointers, s.plain.2, List.append_nil, List.nil_append]
  simp only [FrontendCType.mk.injEq, true_and, and_true]
  omega

theorem CType.layout_eq {c : CType} (h : c.depth = 0) : c.size target info =
    (baseLayout target info c.root).1 * c.bounds.prod ∧ c.align target info = (baseLayout target info c.root).2 := by
  induction c with
  | base type => exact ⟨(Nat.mul_one _).symm, rfl⟩
  | pointer c => exact absurd h (Nat.succ_ne_zero _)
  | array n c ih =>
    obtain ⟨hsize, halign⟩ := ih h
    rw [size, hsize, bounds, List.prod_cons, Nat.mul_left_comm]
    exact ⟨rfl, halign⟩

/-- The size and the alignment that the frontend finds for a type -/
theorem layout_flatten (target : FrontendCTargetInfo) (info : FrontendCTypeInfo) (c : CType) :
    (c.depth ≠ 0 → sizeBits target info c.flatten = target.pointerBits ∧
      alignBits target info c.flatten = target.pointerAlignBits) ∧
    (c.depth = 0 → sizeBits target info c.flatten = c.size target info % 2 ^ 64 ∧
      alignBits target info c.flatten = c.align target info) := by
  rw [sizeBits, alignBits]
  refine ⟨fun h => ?_, fun h => ?_⟩
  · have hpointer : c.flatten.isPointer = true := by simpa [FrontendCType.isPointer, CType.flatten] using h
    rw [if_pos hpointer, if_pos hpointer]
    exact ⟨rfl, rfl⟩
  · have hpointer : c.flatten.isPointer = false := by simp [FrontendCType.isPointer, CType.flatten, h]
    have hcount : c.flatten.storageElementCount = c.bounds.prod % 2 ^ 64 := by
      rw [← Nat.one_mul c.bounds.prod]
      exact foldl_word_eq c.bounds (by decide)
    rw [hpointer, if_neg Bool.false_ne_true, if_neg Bool.false_ne_true, hcount, Nat.mul_mod_mod, (CType.layout_eq h).1,
      (CType.layout_eq h).2]
    exact ⟨rfl, rfl⟩

/-! ## Declarations -/

/-- A declaration of the C type `c` which has the type `t` for the frontend: that of a member, or one at file scope -/
inductive Declared (target : FrontendCTargetInfo) : MemberDeclaration → FrontendCType → CType → Prop where
  | member {d : MemberDeclaration} {name : String} {t : FrontendCType} {c : CType}
      (h : parseRecordMemberDeclarator target (addStars d.specifiers.type d.stars) d.declarator = some (name, t))
      (hc : CType.ofMember target d = some c) : Declared target d t c
  | file {d : MemberDeclaration} {name : String} {t : FrontendCType} {c : CType}
      (h : parseGlobalDeclaratorNode (addStars d.specifiers.type d.stars) d.declarator.global = some (name, t))
      (hc : CType.ofMember (fromDataModel 64 64) d = some c) : Declared target d t c

theorem Declared.flatten {d : MemberDeclaration} {t : FrontendCType} {c : CType} (h : Declared target d t c) :
    c.root = d.specifiers.type ∧ t = c.flatten := by
  cases h with
  | member h hc =>
    obtain ⟨-, c', hc', hflatten⟩ := declared_flatten d.specifiers h
    cases hc.symm.trans hc'
    exact hflatten
  | file h hc =>
    rw [parseGlobalDeclaratorNode_global] at h
    obtain ⟨-, c', hc', hflatten⟩ := declared_flatten d.specifiers h
    cases hc.symm.trans hc'
    exact hflatten

/-- No array has pointers in it, there are at most 16 pointers, and the size of an array is a word. -/
def CType.Kept (target : FrontendCTargetInfo) (info : FrontendCTypeInfo) (c : CType) : Prop :=
  c.IsFlat ∧ c.depth ≤ 16 ∧ (c.depth = 0 → c.size target info < 2 ^ 64)

theorem denotes_flatten {c : CType} (hroot : c.root.pointerDepth = 0 ∧ c.root.arrayDimensions = []) :
    c.Denotes c.flatten ↔ c.IsFlat ∧ c.depth ≤ 16 := by
  rw [CType.denotes_iff hroot, CType.flatten, FrontendCType.mk.injEq]
  simp only [true_and, and_true, min_eq_right_iff]

/-- The frontend has the declared type exactly if it is kept, and no other that is kept declares the same. -/
theorem declared_denotes (info : FrontendCTypeInfo) {d : MemberDeclaration} {t : FrontendCType} {c : CType}
    (h : Declared target d t c) :
    (sizeBits target info t = c.size target info ∧ c.Denotes t ↔ c.Kept target info) ∧
    ∀ d' c', Declared target d' t c' → c.Kept target info → c'.Kept target info → c' = c := by
  have hplain {d : MemberDeclaration} {t : FrontendCType} {c : CType} (h : Declared target d t c) :
      c.root.pointerDepth = 0 ∧ c.root.arrayDimensions = [] := by
    rw [h.flatten.1]
    exact d.specifiers.plain
  refine ⟨?_, fun d' c' h' hc hc' => ?_⟩
  · rw [h.flatten.2, denotes_flatten (hplain h), CType.Kept]
    have hlayout := layout_flatten target info c
    constructor
    · rintro ⟨hsize, hflat, hdepth⟩
      refine ⟨hflat, hdepth, fun hzero => ?_⟩
      rw [← hsize, (hlayout.2 hzero).1]
      exact Nat.mod_lt _ (Nat.two_pow_pos 64)
    · rintro ⟨hflat, hdepth, hword⟩
      refine ⟨?_, hflat, hdepth⟩
      by_cases hzero : c.depth = 0
      · rw [(hlayout.2 hzero).1, Nat.mod_eq_of_lt (hword hzero)]
      · obtain ⟨c', rfl⟩ := CType.eq_pointer_of_depth hzero hflat
        exact (hlayout.1 hzero).1
  · have hdenotes := (denotes_flatten (hplain h)).mpr ⟨hc.1, hc.2.1⟩
    have hdenotes' := (denotes_flatten (hplain h')).mpr ⟨hc'.1, hc'.2.1⟩
    rw [← h.flatten.2] at hdenotes
    rw [← h'.flatten.2] at hdenotes'
    exact hdenotes'.unique hdenotes

/-- `int *a[3]` -/
def pointersDeclaration : MemberDeclaration := ⟨⟨{}, rfl, rfl⟩, 1, .index (.name "a") ⟨[51], by decide⟩⟩

/-- `int (*a)[3]` -/
def rowDeclaration : MemberDeclaration := ⟨⟨{}, rfl, rfl⟩, 0, .index (.deref (.name "a")) ⟨[51], by decide⟩⟩

theorem declared_denotes_row :
    sizeBits (fromDataModel 64 64) {} { pointerDepth := 1, arrayDimensions := [3] } = 64 ∧
      (CType.pointer (.array 3 (.base {}))).Denotes { pointerDepth := 1, arrayDimensions := [3] } := by
  have hdeclared : Declared (fromDataModel 64 64) rowDeclaration { pointerDepth := 1, arrayDimensions := [3] }
      (.pointer (.array 3 (.base {}))) := @Declared.member _ _ "a" _ _ (by decide) rfl
  exact (declared_denotes {} hdeclared).1.mpr ⟨rfl, by decide, fun h => absurd h (by decide)⟩

/-- An array of pointers and a pointer to an array have one type. -/
theorem pointers_like_row : ∃ t c c', Declared (fromDataModel 64 64) pointersDeclaration t c ∧
    Declared (fromDataModel 64 64) rowDeclaration t c' ∧ c ≠ c' ∧
    sizeBits (fromDataModel 64 64) {} t ≠ c.size (fromDataModel 64 64) {} :=
  ⟨{ pointerDepth := 1, arrayDimensions := [3] }, .array 3 (.pointer (.base {})), .pointer (.array 3 (.base {})),
    @Declared.member _ _ "a" _ _ (by decide) rfl, @Declared.member _ _ "a" _ _ (by decide) rfl, nofun, by decide⟩

end Unisym.Lango.FrontendC
