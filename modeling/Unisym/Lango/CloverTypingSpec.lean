/-
# `CloverTypingSpec` — which modules the parser admits

Most of the typing is what the rules of the instructions ask.  What they do not ask is here a
condition of its own: the types of `zext`, `sext` and `trunc`, the type of what is returned, and
the arguments of a call.
-/
import Unisym.Lango.CloverModuleSpec

namespace Unisym.Lango

open List

variable {definitions : List Value} {i i' : Instruction} {scope scope' : Scope}

/-! ## One instruction -/

variable {opcode : Opcode} {type : Ty} {operand : Value}

theorem typed_binary {left right : Value}
    (op : opcode ∈ [.add, .sub, .mul, .sdiv, .udiv, .srem, .urem, .and, .or, .xor, .shl, .ashr,
      .lshr])
    (result : i.hasResult = true) (int : type.isInteger = true) (same : left.type = type)
    (sameRight : if opcode.isShift then right.type.isInteger = true else right.type = type) :
    ({ i with opcode, type, operands := [left, right] }.withResult type).Typed := by
  simp only [mem_cons, not_mem_nil, or_false] at op
  rcases op with rfl | rfl | rfl | rfl | rfl | rfl | rfl | rfl | rfl | rfl | rfl | rfl | rfl <;>
    exact ⟨int, same, sameRight, result, rfl⟩

theorem typed_floatBinary {left right : Value}
    (op : opcode ∈ [.fadd, .fsub, .fmul, .fdiv]) (result : i.hasResult = true)
    (float : type.isFloat = true) (same : left.type = type) (sameRight : right.type = type) :
    ({ i with opcode, type, operands := [left, right] }.withResult type).Typed := by
  simp only [mem_cons, not_mem_nil, or_false] at op
  rcases op with rfl | rfl | rfl | rfl <;> exact ⟨float, same, sameRight, result, rfl⟩

theorem typed_integerConversion
    (op : opcode ∈ [.zext, .sext, .trunc]) (result : i.hasResult = true) :
    ({ i with opcode, type, operands := [operand] }.withResult type).Typed ↔
      integerConversionFits opcode operand.type type := by
  simp only [mem_cons, not_mem_nil, or_false] at op
  rcases op with rfl | rfl | rfl <;>
    exact ⟨fun ⟨source, destination, bits, _⟩ => ⟨source, destination, bits⟩,
      fun ⟨source, destination, bits⟩ => ⟨source, destination, bits, result, rfl⟩⟩

theorem typed_pointerConversion
    (op : opcode ∈ [.inttoptr, .ptrtoint]) (result : i.hasResult = true)
    (fits : pointerConversionFits opcode operand.type type = true) :
    ({ i with opcode, type, operands := [operand] }.withResult type).Typed := by
  simp only [mem_cons, not_mem_nil, or_false] at op
  rcases op with rfl | rfl <;>
    simp only [pointerConversionFits, Bool.and_eq_true, decide_eq_true_eq] at fits
  · exact ⟨fits.1, fits.2, result, fits.2⟩
  · exact ⟨fits.1, fits.2, result, rfl⟩

theorem typed_floatConversion
    (op : opcode ∈ [.sitofp, .uitofp, .fptosi, .fptoui, .fpext, .fptrunc])
    (result : i.hasResult = true) (fits : floatConversionFits opcode operand.type type = true) :
    ({ i with opcode, type, operands := [operand] }.withResult type).Typed := by
  simp only [mem_cons, not_mem_nil, or_false] at op
  rcases op with rfl | rfl | rfl | rfl | rfl | rfl <;>
    simp only [floatConversionFits, Bool.and_eq_true, decide_eq_true_eq] at fits
  · exact ⟨fits.1, fits.2, result, rfl⟩
  · exact ⟨fits.1, fits.2, result, rfl⟩
  · exact ⟨fits.1, fits.2, result, rfl⟩
  · exact ⟨fits.1, fits.2, result, rfl⟩
  · exact ⟨fits.1.1, fits.1.2, fits.2, result, rfl⟩
  · exact ⟨fits.1.1, fits.1.2, fits.2, result, rfl⟩

theorem typed_call {callee : Text} {operands : List Value}
    (result : i.hasResult = decide (type ≠ .void)) :
    ({ i with opcode := .call, type, callee, operands }.withResult type).Typed := by
  by_cases hvoid : type = .void
  · have hresult : i.hasResult = false := by rw [result, hvoid]; rfl
    exact .inl ⟨hvoid, hresult⟩
  · have hresult : i.hasResult = true := by rw [result]; exact decide_eq_true hvoid
    exact .inr ⟨hvoid, hresult, rfl⟩

theorem conditions_of_checked {ops : List Opcode} (op : i.opcode ∈ ops)
    (checked : (ops.all fun opcode => opcode ∉ [.zext, .sext, .trunc, .ret]) = true) :
    i.ConversionTyped ∧ i.ReturnTyped := by
  have hne := of_decide_eq_true (all_eq_true.mp checked _ op)
  constructor
  · intro v _
    cases hop : i.opcode <;> first | trivial | exact absurd hne (by rw [hop]; decide)
  · intro hret
    exact absurd hne (by rw [hret]; decide)

/-- The rules ask for the typing, but for conversions between integers and for what is returned. -/
theorem Reads.typed (h : Reads definitions i i') (hi : i.operands = []) :
    i'.Typed ↔ i'.ConversionTyped ∧ i'.ReturnTyped := by
  cases h
  case binary op result _ _ int same sameRight =>
    exact iff_of_true (typed_binary op result int same sameRight)
      (conditions_of_checked op rfl)
  case floatBinary op result _ _ float same sameRight =>
    exact iff_of_true (typed_floatBinary op result float same sameRight)
      (conditions_of_checked op rfl)
  case integerConversion opcode type operand op result _ =>
    refine (typed_integerConversion op result).trans ⟨fun hfits => ⟨?_, ?_⟩, fun h => ?_⟩
    · exact forall_mem_singleton.mpr hfits
    · rintro rfl
      exact absurd op (by decide)
    · exact h.1 operand (mem_singleton_self _)
  case pointerConversion op result _ fits =>
    exact iff_of_true (typed_pointerConversion op result fits)
      (conditions_of_checked op rfl)
  case floatConversion op result _ fits =>
    exact iff_of_true (typed_floatConversion op result fits)
      (conditions_of_checked op rfl)
  case call _ _ result =>
    exact iff_of_true (typed_call result)
      (conditions_of_checked (mem_singleton_self _) rfl)
  case ret type operand result type_ne _ =>
    constructor
    · rintro ⟨-, same, -⟩
      exact ⟨fun _ _ => trivial, fun _ => forall_mem_singleton.mpr same⟩
    · rintro ⟨-, hreturn⟩
      exact ⟨type_ne, hreturn rfl operand (mem_singleton_self _), result⟩
  case fconstHigh result _ _ =>
    refine iff_of_true ?_ (conditions_of_checked (mem_singleton_self _) rfl)
    simp only [Instruction.Typed, Instruction.withResult, hi]
    exact ⟨rfl, result, rfl⟩
  case retVoid result =>
    have hnone (v : Value) : v ∉ i.operands := by
      rw [hi]
      nofun
    refine iff_of_true ?_ ⟨fun _ _ => trivial, fun _ v hv => absurd hv (hnone v)⟩
    simp only [Instruction.Typed, Instruction.YieldsNothing, hi]
    exact ⟨trivial, result⟩
  all_goals
    refine iff_of_true ?_ (conditions_of_checked (mem_singleton_self _) rfl)
    simp only [Instruction.Typed, Instruction.Yields, Instruction.YieldsNothing,
      Instruction.withResult, ne_eq, not_false_eq_true, and_true, *]

theorem Reads.operands (h : Reads definitions i i') (hi : i.operands = []) :
    ∀ v ∈ i'.operands, v ∈ definitions := by
  have hmem {v : Value} (hfound : Found definitions v) : v ∈ definitions :=
    mem_of_find?_eq_some hfound
  have hnone : ∀ v ∈ i.operands, v ∈ definitions := by
    rw [hi]
    nofun
  have one {v : Value} (hv : Found definitions v) : ∀ w ∈ [v], w ∈ definitions :=
    forall_mem_singleton.mpr (hmem hv)
  have two {v w : Value} (hv : Found definitions v) (hw : Found definitions w) :
      ∀ u ∈ [v, w], u ∈ definitions :=
    forall_mem_cons.mpr ⟨hmem hv, one hw⟩
  cases h with
  | const | fconst | fconstHigh | «local» | globaladdr | jmp | retVoid => exact hnone
  | load _ found | mov _ found | integerConversion _ _ found | pointerConversion _ _ found
  | floatConversion _ _ found | conditionalJmp _ found | ret _ _ found => exact one found
  | store _ found foundAddress => exact two found foundAddress
  | binary _ _ found foundRight | floatBinary _ _ found foundRight | ptradd _ found foundRight
  | icmp _ found foundRight | fcmp _ found foundRight => exact two found foundRight
  | call _ found => exact fun v hv => hmem (found v hv)

theorem Reads.targetFalse (h : Reads definitions i i') (hi : i.operands = [])
    (hjmp : i'.opcode = .jmp) (hoperands : i'.operands ≠ []) : i'.targetFalse ≠ [] := by
  cases h <;> cases hjmp
  case conditionalJmp namedFalse => exact namedFalse
  case jmp => exact absurd hi hoperands
  case binary op _ | floatBinary op | integerConversion op | pointerConversion op _
      | floatConversion op _ => exact absurd op (by decide)

/-! ## The instructions of a scope -/

theorem Step.typed (h : Step scope i scope') :
    i.Typed ↔ i.ConversionTyped ∧ i.ReturnTyped := by
  obtain ⟨body, id, hreads, rfl, -, -⟩ := h.reads
  exact hreads.typed rfl

theorem Step.operands (h : Step scope i scope') : ∀ v ∈ i.operands, v ∈ scope.definitions := by
  obtain ⟨body, id, hreads, rfl, -, -⟩ := h.reads
  exact hreads.operands rfl

theorem Step.targetFalse (h : Step scope i scope') (hjmp : i.opcode = .jmp)
    (hoperands : i.operands ≠ []) : i.targetFalse ≠ [] := by
  obtain ⟨body, id, hreads, rfl, -, -⟩ := h.reads
  exact hreads.targetFalse rfl hjmp hoperands

theorem Steps.step {is : List Instruction} (h : Steps scope is scope') (hi : i ∈ is) :
    ∃ scope₁ scope₂, Step scope₁ i scope₂ := by
  obtain ⟨before, after, rfl⟩ := append_of_mem hi
  obtain ⟨scope₁, scope₂, -, hstep, -⟩ := h.split
  exact ⟨scope₁, scope₂, hstep⟩

/-! ## Functions -/

namespace Function.Parsed

variable {f : Function} (h : f.Parsed)
include h

theorem step (hi : i ∈ f.instructions) : ∃ scope₁ scope₂, Step scope₁ i scope₂ := by
  obtain ⟨scope, hsteps⟩ := h.steps
  exact hsteps.step hi

theorem definedOnce : f.DefinedOnce := by
  obtain ⟨scope, hsteps⟩ := h.steps
  have hnodup := hsteps.nodup h.arguments
  rw [hsteps.defines] at hnodup
  exact hnodup

theorem operandsDefined : f.OperandsDefined := by
  intro before i after hsplit v hv
  obtain ⟨scope, hsteps⟩ := h.steps
  rw [hsplit] at hsteps
  obtain ⟨scope₁, scope₂, hbefore, hstep, -⟩ := hsteps.split
  have hmem := hstep.operands v hv
  rw [hbefore.defines] at hmem
  exact hmem

theorem typed : (∀ i ∈ f.instructions, i.Typed) ↔
    ∀ i ∈ f.instructions, i.ConversionTyped ∧ i.ReturnTyped := by
  refine forall₂_congr fun i hi => ?_
  obtain ⟨scope₁, scope₂, hstep⟩ := h.step hi
  exact hstep.typed

end Function.Parsed

theorem sameName_trans {a b c : Text} (hab : sameName a c = true) (hbc : sameName b c = true) :
    sameName a b = true :=
  decide_eq_true ((of_decide_eq_true hab).trans (of_decide_eq_true hbc).symm)

/-- Of blocks with different names at most one has a name; of those that have it, exactly one. -/
theorem filter_name : {blocks : List BasicBlock} → {name : Text} →
    blockNamesDistinct blocks = true → (blocks.any fun block => sameName block.name name) = true →
    (blocks.filter fun block => sameName block.name name).length = 1
  | [], _, _, hany => by cases hany
  | block :: rest, name, hdistinct, hany => by
    obtain ⟨hblock, hrest⟩ := Bool.and_eq_true_iff.mp hdistinct
    cases hsame : sameName block.name name with
    | true =>
      have hnone : rest.filter (fun other => sameName other.name name) = [] := by
        refine filter_eq_nil_iff.mpr fun other hother hname => ?_
        have hother := all_eq_true.mp hblock other hother
        rw [sameName_trans hsame hname] at hother
        cases hother
      rw [filter_cons, if_pos hsame, hnone]
      rfl
    | false =>
      rw [any_cons, hsame, Bool.false_or] at hany
      rw [filter_cons, if_neg (Bool.eq_false_iff.mp hsame)]
      exact filter_name hrest hany

theorem Function.Parsed.jumpsTyped {f : Function} (h : f.Parsed) : f.JumpsTyped := by
  intro i hi hjmp
  obtain ⟨block, hblock, hi'⟩ := mem_flatMap.mp hi
  have htargets := h.targets block hblock i hi'
  obtain ⟨htarget, hfalse⟩ : (f.blocks.any fun block => sameName block.name i.target) = true ∧
      (i.targetFalse.isEmpty || f.blocks.any fun block => sameName block.name i.targetFalse) =
        true := by
    unfold targetsFound at htargets
    rw [hjmp] at htargets
    exact Bool.and_eq_true_iff.mp htargets
  refine ⟨filter_name h.distinct htarget, fun hoperands => ?_⟩
  obtain ⟨scope₁, scope₂, hstep⟩ := h.step hi
  have hnamed := hstep.targetFalse hjmp hoperands
  rcases Bool.or_eq_true_iff.mp hfalse with hempty | hany
  · exact absurd (isEmpty_iff.mp hempty) hnamed
  · exact filter_name h.distinct hany

/-! ## Modules -/

/-- What the parser does not ask: conversions between integers that change the width as they say,
returns of the type that they say and that the function has, and calls of functions of the module
with the arguments that they want. -/
structure Module.Sound (m : Module) : Prop where
  conversions : ∀ f ∈ m.functions, ∀ i ∈ f.instructions, i.ConversionTyped
  returned : ∀ f ∈ m.functions, ∀ i ∈ f.instructions, i.ReturnTyped
  returns : ∀ f ∈ m.functions, f.ReturnsTyped
  calls : m.CallsTyped

/-- A module that is read is well-typed exactly when it keeps what is not asked. -/
theorem Module.Parsed.wellTyped {m : Module} (h : m.Parsed) : m.WellTyped ↔ m.Sound := by
  constructor
  · intro hm
    have htyped := fun f hf => (h.functions f hf).typed.mp (hm.typed f hf)
    exact ⟨fun f hf i hi => (htyped f hf i hi).1, fun f hf i hi => (htyped f hf i hi).2,
      hm.returns, hm.calls⟩
  · intro hm
    exact ⟨fun f hf => (h.functions f hf).definedOnce,
      fun f hf => (h.functions f hf).operandsDefined,
      fun f hf => (h.functions f hf).typed.mpr fun i hi =>
        ⟨hm.conversions f hf i hi, hm.returned f hf i hi⟩,
      hm.returns, hm.calls, fun f hf => (h.functions f hf).jumpsTyped⟩

/-- The text of a module is well-typed exactly when what the parser does not ask is so. -/
theorem parse_wellTyped {text : Text} {m : Module} (h : parse text = some m) :
    m.WellTyped ↔ m.Sound := (parse_parsed h).wellTyped

/-- A function that calls another one, with a conversion on the way -/
def callText : Text :=
  "func @f(i8 %0) -> i64 \x7b ^e: %1 = zext i8 %0 to i64 ret i64 %1 \x7d
   func @g(i8 %0) -> i64 \x7b ^e: %1 = call i64 @f(i8 %0) ret i64 %1 \x7d".toList

set_option maxRecDepth 2000 in
theorem parse_wellTyped_call : ∃ m, parse callText = some m ∧ (m.WellTyped ↔ m.Sound) := by
  have htext : callText = _ := String.toList_ofList
  obtain ⟨m, hm⟩ := Option.isSome_iff_exists.mp
    (show (parse callText).isSome = true from by rewrite [htext]; decide)
  exact ⟨m, hm, parse_wellTyped hm⟩

/-- An extension to a narrower type, and a return of another type than the function's -/
def zextText : Text :=
  "func @f(i64 %0) -> i64 \x7b ^e: %1 = zext i64 %0 to i8 ret i32 %0 \x7d".toList

/-- What the parser makes of it -/
def zextInstruction : Instruction :=
  { opcode := .zext, type := .i8, hasResult := true, result := ⟨.i8, 1⟩, operands := [⟨.i64, 0⟩] }

theorem zextText_not_wellTyped : ∃ m, parse zextText = some m ∧ ¬ m.WellTyped := by
  obtain ⟨m, hm⟩ := Option.isSome_iff_exists.mp
    (show (parse zextText).isSome = true from by decide)
  have hread : (parse zextText).map (·.functions.map (·.instructions.head?)) =
      some [some zextInstruction] := by decide
  rw [hm] at hread
  refine ⟨m, hm, fun hwell => ?_⟩
  have hfunctions : m.functions.map (·.instructions.head?) = [some zextInstruction] :=
    Option.some.inj hread
  obtain ⟨f, hf, hhead⟩ := mem_map.mp (hfunctions ▸ mem_singleton_self _)
  obtain ⟨-, -, hbits, -⟩ := hwell.typed f hf zextInstruction (mem_of_head? hhead)
  exact absurd hbits (by decide)

end Unisym.Lango
