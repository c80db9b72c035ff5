/-
# `CloverModuleSpec` — what the parser makes of a module

The instructions of a function are read one after the other in a scope that grows with every
result.  From there upwards: what holds of every block, function and module that is read.
-/
import Unisym.Lango.CloverParserSpec

namespace Unisym.Lango

open List

variable {definitions : List Value} {i i' : Instruction} {ts ts' : Tokens}

/-! ## Instructions in their scope -/

/-- The instruction with the number of its result -/
def Instruction.withId (i : Instruction) (id : Nat) : Instruction :=
  { i with result := { i.result with id := id } }

/-- What an instruction is read on top of: whether it has a result, and where it stands -/
def instructionStart (hasResult : Bool) (scope : Scope) : Instruction :=
  { hasResult, debugFile := scope.debugFile, debugLine := scope.debugLine }

/-- Positions are words of 32 bits. -/
structure Scope.Fits (scope : Scope) : Prop where
  file : scope.debugFile < 2 ^ 32
  line : scope.debugLine < 2 ^ 32

/-- An instruction is read in a scope and leaves another. -/
structure Step (scope : Scope) (i : Instruction) (scope' : Scope) : Prop where
  reads : ∃ body id, Reads scope.definitions (instructionStart i.hasResult scope') body ∧
    i = body.withId id ∧ id < 2 ^ 32 ∧ (i.hasResult = false → id = 0)
  defines : scope'.definitions = scope.definitions ++ i.definition
  fresh : i.hasResult = true → ∀ v ∈ scope.definitions, v.id ≠ i.result.id
  fits : scope.Fits → scope'.Fits

/-- Instructions one after the other -/
inductive Steps : Scope → List Instruction → Scope → Prop
  | nil {scope : Scope} : Steps scope [] scope
  | cons {scope scope' scope'' : Scope} {i : Instruction} {is : List Instruction}
      (head : Step scope i scope') (tail : Steps scope' is scope'') : Steps scope (i :: is) scope''

variable {scope scope' scope'' : Scope} {is js : List Instruction}

theorem Steps.append (h : Steps scope is scope') (h' : Steps scope' js scope'') :
    Steps scope (is ++ js) scope'' := by
  induction h with
  | nil => exact h'
  | cons head tail ih => exact .cons head (ih h')

theorem Steps.split {before after : List Instruction} (h : Steps scope (before ++ i :: after) scope'') :
    ∃ scope₁ scope₂, Steps scope before scope₁ ∧ Step scope₁ i scope₂ ∧ Steps scope₂ after scope'' := by
  induction before generalizing scope with
  | nil =>
    cases h with
    | cons head tail => exact ⟨_, _, .nil, head, tail⟩
  | cons j before ih =>
    cases h with
    | cons head tail =>
      obtain ⟨scope₁, scope₂, hbefore, hstep, hafter⟩ := ih tail
      exact ⟨scope₁, scope₂, .cons head hbefore, hstep, hafter⟩

theorem Steps.defines (h : Steps scope is scope') :
    scope'.definitions = scope.definitions ++ is.flatMap (·.definition) := by
  induction h with
  | nil => exact (append_nil _).symm
  | cons head tail ih => rw [ih, head.defines, flatMap_cons, append_assoc]

theorem readDebugNumber_lt {n : Nat} (h : readDebugNumber ts = some (n, ts')) : n < 2 ^ 32 := by
  obtain ⟨⟨parsed, ts⟩, -, h⟩ := Option.bind_eq_some_iff.mp h
  obtain ⟨u, -, h⟩ := Option.bind_eq_some_iff.mp h
  cases h
  have hmod := Int.emod_lt_of_pos parsed (show (0 : Int) < 2 ^ 32 by decide)
  omega

theorem readResultID_lt {n : Nat} (h : readResultID ts = some (n, ts')) : n < 2 ^ 32 := by
  obtain ⟨ts, -, h⟩ := Option.bind_eq_some_iff.mp h
  obtain ⟨⟨parsed, ts⟩, -, h⟩ := Option.bind_eq_some_iff.mp h
  obtain ⟨u, -, h⟩ := Option.bind_eq_some_iff.mp h
  cases h
  have hmod := Int.emod_lt_of_pos parsed (show (0 : Int) < 2 ^ 32 by decide)
  omega

theorem parsePositions_scope : (fuel : Nat) → {scope scope' : Scope} → {ts ts' : Tokens} →
    parsePositions scope fuel ts = some (scope', ts') →
    scope'.definitions = scope.definitions ∧ (scope.Fits → scope'.Fits)
  | 0, _, _, _, _, h => by cases h
  | fuel + 1, scope, scope', ts, ts', h => by
    unfold parsePositions at h
    split at h
    · obtain ⟨⟨value, ts⟩, hvalue, h⟩ := Option.bind_eq_some_iff.mp h
      obtain ⟨hdefinitions, hfits⟩ := parsePositions_scope fuel h
      exact ⟨hdefinitions, fun hscope => hfits ⟨readDebugNumber_lt hvalue, hscope.line⟩⟩
    · split at h
      · obtain ⟨⟨value, ts⟩, hvalue, h⟩ := Option.bind_eq_some_iff.mp h
        obtain ⟨hdefinitions, hfits⟩ := parsePositions_scope fuel h
        exact ⟨hdefinitions, fun hscope => hfits ⟨hscope.file, readDebugNumber_lt hvalue⟩⟩
      · cases h
        exact ⟨rfl, id⟩

theorem parseResult_lt {resultId : Option Nat} (h : parseResult ts = some (resultId, ts')) :
    ∀ id, resultId = some id → id < 2 ^ 32 := by
  unfold parseResult at h
  split at h
  · obtain ⟨⟨n, ts⟩, hid, h⟩ := Option.bind_eq_some_iff.mp h
    obtain ⟨ts, -, h⟩ := Option.bind_eq_some_iff.mp h
    cases h
    intro id hsome
    cases hsome
    exact readResultID_lt hid
  · cases h
    nofun

theorem define_eq_some {value : Value} {definitions' : List Value} :
    define definitions value = some definitions' ↔
      (∀ v ∈ definitions, v.id ≠ value.id) ∧ definitions' = definitions ++ [value] := by
  unfold define
  split
  case isTrue hany =>
    obtain ⟨v, hv, hsame⟩ := any_eq_true.mp hany
    exact iff_of_false nofun fun h => h.1 v hv (of_decide_eq_true hsame)
  case isFalse hany =>
    constructor
    · intro h
      cases h
      exact ⟨fun v hv hsame => hany (any_eq_true.mpr ⟨v, hv, decide_eq_true hsame⟩), rfl⟩
    · rintro ⟨-, rfl⟩
      rfl

/-- No rule changes whether there is a result, and its number stays zero. -/
theorem Reads.result (h : Reads definitions i i') :
    i'.hasResult = i.hasResult ∧ i'.result.id = i.result.id := by
  cases h <;> exact ⟨rfl, rfl⟩

theorem parseInstruction_step (h : parseInstruction scope ts = some ((i, scope'), ts')) :
    Step scope i scope' := by
  obtain ⟨⟨scope₁, ts⟩, hpositions, h⟩ := Option.bind_eq_some_iff.mp h
  obtain ⟨⟨resultId, ts⟩, hresult, h⟩ := Option.bind_eq_some_iff.mp h
  obtain ⟨⟨body, ts⟩, hoperation, h⟩ := Option.bind_eq_some_iff.mp h
  obtain ⟨⟨i₁, definitions⟩, hdefine, h⟩ := Option.bind_eq_some_iff.mp h
  cases h
  obtain ⟨hsame, hfits⟩ := parsePositions_scope _ hpositions
  have hreads := parseOperation_reads hoperation
  obtain ⟨hhas, hid⟩ := hreads.result
  rw [hsame] at hreads hdefine
  have hkept (definitions : List Value) : scope.Fits → Scope.Fits { scope₁ with definitions } :=
    fun hscope => ⟨(hfits hscope).file, (hfits hscope).line⟩
  cases resultId with
  | none =>
    obtain ⟨rfl, rfl⟩ := Prod.mk.inj (Option.some.inj hdefine)
    have hhas' : body.hasResult = false := hhas
    have hzero : body.result.id = 0 := hid
    refine ⟨⟨body, 0, ?_, ?_, by decide, fun _ => rfl⟩, ?_, ?_, hkept _⟩
    · rw [hhas']
      exact hreads
    · show body = { body with result := { body.result with id := 0 } }
      rw [← hzero]
    · rw [Instruction.definition, hhas']
      exact (append_nil _).symm
    · rw [hhas']
      nofun
  | some id =>
    obtain ⟨definitions', hdefined, hdefine⟩ := Option.bind_eq_some_iff.mp hdefine
    obtain ⟨hfresh, rfl⟩ := define_eq_some.mp hdefined
    obtain ⟨rfl, rfl⟩ := Prod.mk.inj (Option.some.inj hdefine)
    have hhas' : body.hasResult = true := hhas
    refine ⟨⟨body, id, ?_, rfl, parseResult_lt hresult id rfl, ?_⟩, ?_, fun _ => hfresh, hkept _⟩
    · show Reads scope.definitions (instructionStart body.hasResult _) body
      rw [hhas']
      exact hreads
    · intro hno
      cases hhas'.symm.trans hno
    · show _ = _ ++ Instruction.definition (body.withId id)
      rw [Instruction.definition, if_pos (show (body.withId id).hasResult = true from hhas')]
      rfl

theorem parseInstructions_steps : (fuel : Nat) → {scope scope' : Scope} → {ts ts' : Tokens} →
    {is : List Instruction} → parseInstructions scope fuel ts = some ((is, scope'), ts') →
    Steps scope is scope'
  | 0, _, _, _, _, _, h => by cases h
  | fuel + 1, scope, scope', ts, ts', is, h => by
    unfold parseInstructions at h
    split at h
    · cases h
      exact .nil
    · obtain ⟨⟨⟨i, scope₁⟩, ts⟩, hinstruction, h⟩ := Option.bind_eq_some_iff.mp h
      obtain ⟨⟨⟨rest, scope₂⟩, ts⟩, hrest, h⟩ := Option.bind_eq_some_iff.mp h
      cases h
      exact .cons (parseInstruction_step hinstruction) (parseInstructions_steps fuel hrest)

theorem parseBlock_steps {block : BasicBlock}
    (h : parseBlock scope ts = some ((block, scope'), ts')) :
    Steps scope block.instructions scope' ∧ block.name ≠ [] := by
  obtain ⟨ts, -, h⟩ := Option.bind_eq_some_iff.mp h
  obtain ⟨⟨name, ts⟩, hname, h⟩ := Option.bind_eq_some_iff.mp h
  obtain ⟨ts, -, h⟩ := Option.bind_eq_some_iff.mp h
  obtain ⟨⟨⟨is, scope₁⟩, ts⟩, his, h⟩ := Option.bind_eq_some_iff.mp h
  cases h
  exact ⟨parseInstructions_steps _ his, readName_ne hname⟩

/-- The instructions of all blocks, from the first to the last, are read one after the other. -/
theorem parseBlocks_steps : (fuel : Nat) → {scope : Scope} → {ts ts' : Tokens} →
    {blocks : List BasicBlock} → parseBlocks scope fuel ts = some (blocks, ts') →
    (∃ scope', Steps scope (blocks.flatMap (·.instructions)) scope') ∧
      ∀ block ∈ blocks, block.name ≠ []
  | 0, _, _, _, _, h => by cases h
  | fuel + 1, scope, ts, ts', blocks, h => by
    unfold parseBlocks at h
    split at h
    · cases h
      exact ⟨⟨scope, .nil⟩, nofun⟩
    · obtain ⟨⟨⟨block, scope₁⟩, ts⟩, hblock, h⟩ := Option.bind_eq_some_iff.mp h
      obtain ⟨⟨rest, ts⟩, hrest, h⟩ := Option.bind_eq_some_iff.mp h
      cases h
      obtain ⟨hsteps, hname⟩ := parseBlock_steps hblock
      obtain ⟨⟨scope', hsteps'⟩, hnames⟩ := parseBlocks_steps fuel hrest
      exact ⟨⟨scope', hsteps.append hsteps'⟩, forall_mem_cons.mpr ⟨hname, hnames⟩⟩

/-! ## Functions -/

/-- The numbers of values -/
abbrev numbers (vs : List Value) : List Nat := vs.map (·.id)

theorem nodup_concat {vs : List Value} {v : Value} (hvs : (numbers vs).Nodup)
    (hfresh : ∀ w ∈ vs, w.id ≠ v.id) : (numbers (vs ++ [v])).Nodup := by
  rw [numbers, map_append, nodup_append]
  refine ⟨hvs, nodup_cons.mpr ⟨nofun, nodup_nil⟩, ?_⟩
  intro n hn k hk
  obtain ⟨w, hw, rfl⟩ := mem_map.mp hn
  obtain rfl := mem_singleton.mp hk
  exact hfresh w hw

theorem Step.nodup (h : Step scope i scope') (hscope : (numbers scope.definitions).Nodup) :
    (numbers scope'.definitions).Nodup := by
  rw [h.defines, Instruction.definition]
  split
  case isTrue hresult => exact nodup_concat hscope (h.fresh hresult)
  case isFalse =>
    rw [append_nil]
    exact hscope

theorem Steps.nodup (h : Steps scope is scope') (hscope : (numbers scope.definitions).Nodup) :
    (numbers scope'.definitions).Nodup := by
  induction h with
  | nil => exact hscope
  | cons head tail ih => exact ih (head.nodup hscope)

theorem parseAggregateGroup_lt {n : Nat} (h : parseAggregateGroup ts = some (n, ts')) :
    n < 2 ^ 32 := by
  unfold parseAggregateGroup at h
  split at h
  · obtain ⟨⟨group, ts⟩, -, h⟩ := Option.bind_eq_some_iff.mp h
    obtain ⟨u, -, h⟩ := Option.bind_eq_some_iff.mp h
    cases h
    have hmod := Int.emod_lt_of_pos group (show (0 : Int) < 2 ^ 32 by decide)
    omega
  · cases h
    decide

/-- What is read of a parameter -/
def Parameter.Fits (p : Parameter) : Prop := p.value.id < 2 ^ 32 ∧ p.aggregateGroup < 2 ^ 32

/-- The parameters define their values one after the other. -/
theorem parseParameters_spec : (fuel : Nat) → {definitions definitions' : List Value} →
    {ts ts' : Tokens} → {ps : Parameters} →
    parseParameters definitions fuel ts = some ((ps, definitions'), ts') →
    definitions' = definitions ++ ps.parameters.map (·.value) ∧
      ((numbers definitions).Nodup → (numbers definitions').Nodup) ∧
      ∀ p ∈ ps.parameters, p.Fits
  | 0, _, _, _, _, _, h => by cases h
  | fuel + 1, definitions, definitions', ts, ts', ps, h => by
    unfold parseParameters at h
    split at h
    · cases h
      exact ⟨(append_nil _).symm, id, nofun⟩
    split at h
    · split at h
      · cases h
        exact ⟨(append_nil _).symm, id, nofun⟩
      · cases h
    obtain ⟨⟨type, ts₁⟩, -, h⟩ := Option.bind_eq_some_iff.mp h
    obtain ⟨⟨id, ts₂⟩, hid, h⟩ := Option.bind_eq_some_iff.mp h
    obtain ⟨definitions₁, hdefine, h⟩ := Option.bind_eq_some_iff.mp h
    obtain ⟨⟨group, ts₃⟩, hgroup, h⟩ := Option.bind_eq_some_iff.mp h
    obtain ⟨hfresh, rfl⟩ := define_eq_some.mp hdefine
    have hfits : Parameter.Fits ⟨⟨type, id⟩, group⟩ :=
      ⟨readResultID_lt hid, parseAggregateGroup_lt hgroup⟩
    dsimp only at h
    split at h
    · cases h
      exact ⟨rfl, fun hnodup => nodup_concat hnodup hfresh, forall_mem_singleton.mpr hfits⟩
    · obtain ⟨ts₄, -, h⟩ := Option.bind_eq_some_iff.mp h
      obtain ⟨⟨⟨rest, definitions₂⟩, ts₅⟩, hrest, h⟩ := Option.bind_eq_some_iff.mp h
      cases h
      obtain ⟨hdefinitions, hnodup, hall⟩ := parseParameters_spec fuel hrest
      refine ⟨?_, fun hbefore => hnodup (nodup_concat hbefore hfresh),
        forall_mem_cons.mpr ⟨hfits, hall⟩⟩
      rw [hdefinitions, append_assoc]
      rfl

/-- What holds of a function that is read -/
structure Function.Parsed (f : Function) : Prop where
  named : f.name ≠ []
  parameters : ∀ p ∈ f.parameters, p.Fits
  arguments : (numbers f.arguments).Nodup
  steps : ∃ scope, Steps { definitions := f.arguments } f.instructions scope
  blocksNamed : ∀ block ∈ f.blocks, block.name ≠ []
  distinct : blockNamesDistinct f.blocks = true
  targets : ∀ block ∈ f.blocks, ∀ i ∈ block.instructions, targetsFound f.blocks i = true

theorem parseFunction_parsed {linkage : Linkage} {f : Function}
    (h : parseFunction linkage ts = some (f, ts')) : f.Parsed := by
  obtain ⟨ts₁, -, h⟩ := Option.bind_eq_some_iff.mp h
  obtain ⟨ts₂, -, h⟩ := Option.bind_eq_some_iff.mp h
  obtain ⟨⟨name, ts₃⟩, hname, h⟩ := Option.bind_eq_some_iff.mp h
  obtain ⟨ts₄, -, h⟩ := Option.bind_eq_some_iff.mp h
  obtain ⟨⟨⟨ps, definitions⟩, ts₅⟩, hparameters, h⟩ := Option.bind_eq_some_iff.mp h
  obtain ⟨ts₆, -, h⟩ := Option.bind_eq_some_iff.mp h
  obtain ⟨ts₇, -, h⟩ := Option.bind_eq_some_iff.mp h
  obtain ⟨⟨returnType, ts₈⟩, -, h⟩ := Option.bind_eq_some_iff.mp h
  obtain ⟨ts₉, -, h⟩ := Option.bind_eq_some_iff.mp h
  obtain ⟨⟨blocks, ts₁₀⟩, hblocks, h⟩ := Option.bind_eq_some_iff.mp h
  obtain ⟨ts₁₁, -, h⟩ := Option.bind_eq_some_iff.mp h
  obtain ⟨hdistinct, h⟩ := check_bind h
  obtain ⟨htargets, h⟩ := check_bind h
  cases h
  obtain ⟨rfl, hnodup, hfits⟩ := parseParameters_spec _ hparameters
  obtain ⟨hsteps, hnames⟩ := parseBlocks_steps _ hblocks
  refine ⟨readName_ne hname, hfits, hnodup nodup_nil, hsteps, hnames,
    hdistinct, ?_⟩
  intro block hblock i hi
  exact all_eq_true.mp (all_eq_true.mp htargets block hblock) i hi

/-! ## Modules -/

/-- What holds of a source that is read -/
def SourceFile.Parsed (s : SourceFile) : Prop := s.id < 2 ^ 32 ∧ s.path ≠ []

/-- What an initializer may be: nothing behind a declaration, one number, or as many as there are
elements -/
inductive Global.Initialized (g : Global) : Prop
  | declaration (declares : g.isDeclaration = true) (external : g.linkage = .external)
      (zero : g.initializer = 0) (zeroHigh : g.initializerHigh = 0) (none : g.initializerValues = [])
  | number (defines : g.isDeclaration = false) (range : Signed g.initializer)
      (rangeHigh : Signed g.initializerHigh) (high : g.type ≠ .f128 → g.initializerHigh = 0)
      (none : g.initializerValues = [])
  | values (defines : g.isDeclaration = false) (zero : g.initializer = 0)
      (zeroHigh : g.initializerHigh = 0) (range : ∀ n ∈ g.initializerValues, Signed n)
      (count : (g.initializerValues.length : Int) = g.elementCount)

/-- What holds of a global that is read -/
structure Global.Parsed (g : Global) : Prop where
  named : g.name ≠ []
  type_ne : g.type ≠ .void
  count : Signed g.elementCount ∧ 0 < g.elementCount
  initialized : g.Initialized

/-- What holds of a module that is read -/
structure Module.Parsed (m : Module) : Prop where
  pointers : m.pointerBits = 0 ∨ m.pointerBits = 32 ∨ m.pointerBits = 64
  sources : ∀ s ∈ m.sourceFiles, s.Parsed
  sourcesOnce : (m.sourceFiles.map (·.id)).Nodup
  globals : ∀ g ∈ m.globals, g.Parsed
  functions : ∀ f ∈ m.functions, f.Parsed

variable {m m' : Module}

theorem parseTarget_parsed (hm : m.Parsed) (h : parseTarget m ts = some (m', ts')) : m'.Parsed := by
  obtain ⟨ts₁, -, h⟩ := Option.bind_eq_some_iff.mp h
  obtain ⟨ts₂, -, h⟩ := Option.bind_eq_some_iff.mp h
  obtain ⟨⟨pointerBits, ts₃⟩, -, h⟩ := Option.bind_eq_some_iff.mp h
  obtain ⟨hbits, h⟩ := check_bind h
  obtain ⟨v, -, h⟩ := Option.bind_eq_some_iff.mp h
  cases h
  simp only [Bool.or_eq_true, decide_eq_true_eq] at hbits
  refine ⟨?_, hm.sources, hm.sourcesOnce, hm.globals, hm.functions⟩
  rcases hbits with rfl | rfl
  · exact .inr (.inl rfl)
  · exact .inr (.inr rfl)

theorem parseSource_parsed (hm : m.Parsed) (h : parseSource m ts = some (m', ts')) : m'.Parsed := by
  obtain ⟨ts₁, -, h⟩ := Option.bind_eq_some_iff.mp h
  obtain ⟨⟨id, ts₂⟩, hid, h⟩ := Option.bind_eq_some_iff.mp h
  obtain ⟨⟨path, ts₃⟩, hpath, h⟩ := Option.bind_eq_some_iff.mp h
  obtain ⟨hfresh, h⟩ := check_bind h
  cases h
  refine ⟨hm.pointers, ?_, ?_, hm.globals, hm.functions⟩
  · intro s hs
    rcases mem_append.mp hs with hs | hs
    · exact hm.sources s hs
    · obtain rfl := mem_singleton.mp hs
      exact ⟨readDebugNumber_lt hid, readName_ne hpath⟩
  · show ((m.sourceFiles ++ [_]).map fun s : SourceFile => s.id).Nodup
    rw [map_append, nodup_append]
    refine ⟨hm.sourcesOnce, nodup_cons.mpr ⟨nofun, nodup_nil⟩, ?_⟩
    intro n hn k hk hsame
    obtain ⟨s, hs, rfl⟩ := mem_map.mp hn
    obtain rfl := mem_singleton.mp hk
    rw [Bool.not_eq_true', any_eq_false] at hfresh
    exact hfresh s hs (decide_eq_true hsame)

theorem parseValues_signed : (fuel : Nat) → {ts ts' : Tokens} → {values : List Int} →
    parseValues fuel ts = some (values, ts') → ∀ n ∈ values, Signed n
  | 0, _, _, _, h => by cases h
  | fuel + 1, ts, ts', values, h => by
    unfold parseValues at h
    split at h
    · cases h
      nofun
    obtain ⟨⟨value, ts₁⟩, hvalue, h⟩ := Option.bind_eq_some_iff.mp h
    dsimp only at h
    split at h
    · cases h
      exact forall_mem_singleton.mpr (readNumber_signed hvalue)
    · obtain ⟨ts₂, -, h⟩ := Option.bind_eq_some_iff.mp h
      obtain ⟨⟨rest, ts₃⟩, hrest, h⟩ := Option.bind_eq_some_iff.mp h
      cases h
      exact forall_mem_cons.mpr ⟨readNumber_signed hvalue, parseValues_signed fuel hrest⟩

/-- A global before its initializer is read -/
structure Global.Bare (g : Global) : Prop where
  defines : g.isDeclaration = false
  zero : g.initializer = 0
  zeroHigh : g.initializerHigh = 0
  none : g.initializerValues = []

/-- An initializer is for this global and leaves the rest of it. -/
theorem parseInitializer_parsed {g g' : Global} (hbare : g.Bare) (hnamed : g.name ≠ [])
    (htype : g.type ≠ .void) (hcount : Signed g.elementCount ∧ 0 < g.elementCount)
    (h : parseInitializer g ts = some (g', ts')) : g'.Parsed := by
  have hzero : Signed g.initializerHigh := by
    rw [hbare.zeroHigh]
    exact ⟨by decide, by decide⟩
  obtain ⟨ts₁, -, h⟩ := Option.bind_eq_some_iff.mp h
  split at h
  · obtain ⟨⟨values, ts₂⟩, hvalues, h⟩ := Option.bind_eq_some_iff.mp h
    obtain ⟨ts₃, -, h⟩ := Option.bind_eq_some_iff.mp h
    obtain ⟨hlength, h⟩ := check_bind h
    cases h
    exact ⟨hnamed, htype, hcount, .values hbare.defines hbare.zero hbare.zeroHigh
      (parseValues_signed _ hvalues) (of_decide_eq_true hlength)⟩
  · obtain ⟨⟨initializer, ts₂⟩, hnumber, h⟩ := Option.bind_eq_some_iff.mp h
    dsimp only at h
    split at h
    case isTrue hf128 =>
      obtain ⟨ts₃, -, h⟩ := Option.bind_eq_some_iff.mp h
      obtain ⟨⟨high, ts₄⟩, hhigh, h⟩ := Option.bind_eq_some_iff.mp h
      cases h
      exact ⟨hnamed, htype, hcount, .number hbare.defines (readNumber_signed hnumber)
        (readNumber_signed hhigh) (fun hne => absurd hf128 hne) hbare.none⟩
    case isFalse =>
      cases h
      exact ⟨hnamed, htype, hcount, .number hbare.defines (readNumber_signed hnumber) hzero
        (fun _ => hbare.zeroHigh) hbare.none⟩

theorem Module.Parsed.addGlobal {g : Global} (hm : m.Parsed) (hg : g.Parsed) :
    Module.Parsed { m with globals := m.globals ++ [g] } := by
  refine ⟨hm.pointers, hm.sources, hm.sourcesOnce, ?_, hm.functions⟩
  intro other hother
  rcases mem_append.mp hother with hother | hother
  · exact hm.globals other hother
  · obtain rfl := mem_singleton.mp hother
    exact hg

theorem parseGlobal_parsed {isReadOnly isDeclaration : Bool} {linkage : Linkage}
    (hexternal : isDeclaration = true → linkage = .external) (hm : m.Parsed)
    (h : parseGlobal isReadOnly linkage isDeclaration m ts = some (m', ts')) : m'.Parsed := by
  obtain ⟨ts₁, -, h⟩ := Option.bind_eq_some_iff.mp h
  obtain ⟨ts₂, -, h⟩ := Option.bind_eq_some_iff.mp h
  obtain ⟨⟨name, ts₃⟩, hname, h⟩ := Option.bind_eq_some_iff.mp h
  obtain ⟨⟨type, ts₄⟩, -, h⟩ := Option.bind_eq_some_iff.mp h
  obtain ⟨htype, h⟩ := check_bind h
  obtain ⟨⟨elementCount, ts₅⟩, hcount, h⟩ := Option.bind_eq_some_iff.mp h
  have hnamed := readName_ne hname
  have htype := of_decide_eq_true htype
  have hrange := readElementCount_range hcount
  dsimp only at h
  split at h
  case isTrue hdeclaration =>
    cases h
    exact hm.addGlobal ⟨hnamed, htype, hrange,
      .declaration hdeclaration (hexternal hdeclaration) rfl rfl rfl⟩
  case isFalse hdefinition =>
    obtain ⟨⟨g, ts₆⟩, hinitializer, h⟩ := Option.bind_eq_some_iff.mp h
    cases h
    have hbare : Global.Bare { name, type, elementCount, isDeclaration, isReadOnly, linkage } :=
      ⟨Bool.eq_false_iff.mpr hdefinition, rfl, rfl, rfl⟩
    exact hm.addGlobal (parseInitializer_parsed hbare hnamed htype hrange hinitializer)

theorem parseModuleFunction_parsed {linkage : Linkage} (hm : m.Parsed)
    (h : parseModuleFunction linkage m ts = some (m', ts')) : m'.Parsed := by
  obtain ⟨⟨f, ts₁⟩, hf, h⟩ := Option.bind_eq_some_iff.mp h
  cases h
  refine ⟨hm.pointers, hm.sources, hm.sourcesOnce, hm.globals, ?_⟩
  intro other hother
  rcases mem_append.mp hother with hother | hother
  · exact hm.functions other hother
  · obtain rfl := mem_singleton.mp hother
    exact parseFunction_parsed hf

theorem parseItem_parsed (hm : m.Parsed) (h : parseItem m ts = some (m', ts')) : m'.Parsed := by
  have hdefines (linkage : Linkage) : false = true → linkage = .external := nofun
  unfold parseItem at h
  split at h
  · exact parseTarget_parsed hm h
  split at h
  · exact parseSource_parsed hm h
  split at h
  · split at h
    · exact parseGlobal_parsed (hdefines _) hm h
    split at h
    · exact parseModuleFunction_parsed hm h
    · cases h
  split at h
  · split at h
    · cases h
    · exact parseGlobal_parsed (fun _ => rfl) hm h
  split at h
  · exact parseGlobal_parsed (hdefines _) hm h
  · exact parseModuleFunction_parsed hm h

theorem parseItems_parsed : (fuel : Nat) → {m m' : Module} → {ts : Tokens} → m.Parsed →
    parseItems m fuel ts = some m' → m'.Parsed
  | 0, _, _, _, _, h => by cases h
  | fuel + 1, m, m', ts, hm, h => by
    unfold parseItems at h
    split at h
    · cases h
      exact hm
    · obtain ⟨⟨m₁, ts₁⟩, hitem, h⟩ := Option.bind_eq_some_iff.mp h
      exact parseItems_parsed fuel (parseItem_parsed hm hitem) h

theorem parse_parsed {text : Text} (h : parse text = some m) : m.Parsed := by
  have hempty : Module.Parsed {} := ⟨.inl rfl, nofun, nodup_nil, nofun, nofun⟩
  exact parseItems_parsed _ hempty h

end Unisym.Lango
