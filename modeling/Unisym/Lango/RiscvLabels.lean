/-
# `RiscvLabels` — the labels and jumps of an assembly

The labels of a module's assembly are those of its symbols, and its jumps those that its `Jmp` instructions intend
(`labels_generate`, `jumps_generate`).  The text `.Lf_b` does not tell where `f` ends, and nothing keeps a function
or an object from being called so; the labels are distinct, and the jumps go where they are meant to go, exactly where
no names meet in these ways (`generate_unambiguous_iff`).
-/
import Mathlib.Data.List.Nodup
import Unisym.Lango.RiscvBackend

namespace Unisym.Lango.Riscv

open List

/-! ## Joined names -/

/-- Texts joined by a separator agree in one of three ways: part by part, or one of them has the separator inside. -/
theorem join_eq_join_iff {α : Type} {a b c d : List α} {s : α} :
    a ++ s :: b = c ++ s :: d ↔
      (a = c ∧ b = d) ∨ (∃ p, c = a ++ s :: p ∧ b = p ++ s :: d) ∨ ∃ p, a = c ++ s :: p ∧ d = p ++ s :: b := by
  constructor
  · intro h
    rcases append_eq_append_iff.mp h with ⟨p, rfl, hb⟩ | ⟨p, rfl, hd⟩
    · cases p with
      | nil => simp_all
      | cons x p => simp_all
    · cases p with
      | nil => simp_all
      | cons x p => simp_all
  · rintro (⟨rfl, rfl⟩ | ⟨p, rfl, rfl⟩ | ⟨p, rfl, rfl⟩) <;> simp

/-! ## What a module defines and means -/

/-- What has a label -/
inductive Symbol where
  | object (name : Text)
  | function (name : Text)
  | block (function name : Text)
deriving DecidableEq, Repr

/-- The text of its label -/
def Symbol.label : Symbol → Text
  | .object name => reference name
  | .function name => reference name
  | .block f b => blockLabel f b

/-- The symbols of a function -/
def functionSymbols (f : Function) : List Symbol := .function f.name :: f.blocks.map (.block f.name ·.name)

/-- The symbols that a module defines, in the order of its assembly -/
def symbols (m : Module) : List Symbol :=
  (m.globals.filter (!·.isDeclaration)).map (.object ·.name) ++ m.functions.flatMap functionSymbols

/-- The blocks that an instruction may jump to -/
def targets (i : Instruction) : List Text :=
  if i.opcode ≠ .jmp then []
  else if i.operands = [] then [i.target]
  else [i.target, i.targetFalse]

/-- The jumps that a function means to make -/
def functionIntents (f : Function) : List (Function × Text) :=
  f.blocks.flatMap fun b => b.instructions.flatMap fun i => (targets i).map (f, ·)

/-- The jumps that a module means to make: in this function, to the block of this name -/
def intents (m : Module) : List (Function × Text) := m.functions.flatMap functionIntents

/-! ## What an assembly defines and does -/

def labelOf : Line → Option Text
  | .label name => some name
  | _ => none

def jumpOf : Line → Option Text
  | .j name | .bnez _ name => some name
  | _ => none

/-- The labels of an assembly -/
def labels (lines : List Line) : List Text := lines.filterMap labelOf

/-- The labels that it jumps to -/
def jumps (lines : List Line) : List Text := lines.filterMap jumpOf

/-- A jump to `name` goes to the block that is meant: the label is defined at the block's place and nowhere else. -/
def Reaches (m : Module) (lines : List Line) (name : Text) (intent : Function × Text) : Prop :=
  ∃ b ∈ intent.1.blocks, same b.name intent.2 ∧
    ∀ k : Nat, (labels lines)[k]? = some name ↔ (symbols m)[k]? = some (.block intent.1.name b.name)

/-- The labels are distinct, and every jump reaches the block that it means. -/
structure Unambiguous (m : Module) (lines : List Line) : Prop where
  distinct : (labels lines).Nodup
  jumps : List.Forall₂ (Reaches m lines) (jumps lines) (intents m)

/-! ## The lines of a list -/

section Each

variable {α β : Type} {emit : α → Option (List Line)}

variable {xs : List α} {lines : List Line}

theorem emitEach_cons {x : α} (h : emitEach emit (x :: xs) = some lines) :
    ∃ first rest, emit x = some first ∧ emitEach emit xs = some rest ∧ lines = first ++ rest := by
  simp only [emitEach, Option.bind_eq_bind, Option.bind_eq_some_iff, Option.some.injEq] at h
  obtain ⟨first, hf, rest, hr, rfl⟩ := h
  exact ⟨first, rest, hf, hr, rfl⟩

/-- What is read from the lines of each entry is read from all the lines. -/
theorem filterMap_emitEach {k : Line → Option β} {g : α → List β}
    (hg : ∀ x lines, emit x = some lines → lines.filterMap k = g x)
    (h : emitEach emit xs = some lines) : lines.filterMap k = xs.flatMap g := by
  induction xs generalizing lines with
  | nil => cases h; rfl
  | cons x xs ih =>
    obtain ⟨first, rest, hf, hr, rfl⟩ := emitEach_cons h
    rw [filterMap_append, hg x first hf, ih hr, flatMap_cons]

theorem exists_emit (h : emitEach emit xs = some lines) {x : α} (hx : x ∈ xs) :
    ∃ first, emit x = some first := by
  induction xs generalizing lines with
  | nil => cases hx
  | cons y xs ih =>
    obtain ⟨first, rest, hf, hr, -⟩ := emitEach_cons h
    rcases mem_cons.mp hx with rfl | hx
    · exact ⟨first, hf⟩
    · exact ih hr hx

end Each

@[simp] theorem labels_append (a b : List Line) : labels (a ++ b) = labels a ++ labels b := filterMap_append
@[simp] theorem labels_cons (a : Line) (b : List Line) : labels (a :: b) = (labelOf a).toList ++ labels b := by
  cases a <;> rfl
@[simp] theorem labels_nil : labels [] = [] := rfl

@[simp] theorem jumps_append (a b : List Line) : jumps (a ++ b) = jumps a ++ jumps b := filterMap_append
@[simp] theorem jumps_cons (a : Line) (b : List Line) : jumps (a :: b) = (jumpOf a).toList ++ jumps b := by
  cases a <;> rfl
@[simp] theorem jumps_nil : jumps [] = [] := rfl

@[simp] theorem labels_ops (ops : List Op) : labels (ops.map .op) = [] := by
  simp [labels, labelOf, filterMap_map, Function.comp_def]

@[simp] theorem jumps_ops (ops : List Op) : jumps (ops.map .op) = [] := by
  simp [jumps, jumpOf, filterMap_map, Function.comp_def]

@[simp] theorem labels_texts {α : Type} (xs : List α) : labels (xs.map fun _ => .text) = [] := by
  simp [labels, labelOf]

@[simp] theorem jumps_texts {α : Type} (xs : List α) : jumps (xs.map fun _ => .text) = [] := by
  simp [jumps, jumpOf]

/-! ## The lines of a generation -/

section Generation

variable {lower : Function → FunctionLayout → Instruction → Option (List Op)} {target : RISCVTargetInfo}
  {layout : FunctionLayout} {f : Function} {i : Instruction} {b : BasicBlock} {m : Module} {lines : List Line}

/-- What `Jmp` writes: it defines nothing, jumps to its targets, and these are blocks of the function. -/
theorem emitJmp_spec (hi : i.opcode = .jmp) (h : emitJmp f layout i = some lines) :
    labels lines = [] ∧ jumps lines = (targets i).map (blockLabel f.name) ∧
      ∀ t ∈ targets i, hasBlock f t = true := by
  unfold emitJmp at h
  split at h
  · cases h
  rename_i hblocks
  simp only [Bool.or_eq_true, Bool.not_eq_true', Bool.and_eq_true, not_or, not_and, Bool.not_eq_false] at hblocks
  split at h
  · next hnil =>
      cases h
      simp [targets, hi, hnil, labelOf, jumpOf, hblocks.1]
  · next condition hone =>
      split at h
      · cases h
      · next hfalse =>
          obtain ⟨load, -, rfl⟩ := Option.map_eq_some_iff.mp h
          simp only [Bool.or_eq_true, not_or, Bool.not_eq_true] at hfalse
          have hsecond := hblocks.2 hfalse.1
          simp [targets, hi, hone, labelOf, jumpOf, hblocks.1, hsecond]
  · cases h

theorem emitInstruction_spec (h : emitInstruction lower f layout i = some lines) :
    labels lines = [] ∧ jumps lines = (targets i).map (blockLabel f.name) ∧
      ∀ t ∈ targets i, hasBlock f t = true := by
  unfold emitInstruction at h
  split at h
  · next hi => exact emitJmp_spec hi h
  · next hi =>
      obtain ⟨ops, -, rfl⟩ := Option.map_eq_some_iff.mp h
      simp [targets, hi]

theorem emitBlock_spec (h : emitBlock lower f layout b = some lines) :
    labels lines = [blockLabel f.name b.name] ∧
      jumps lines = b.instructions.flatMap (fun i => (targets i).map (blockLabel f.name)) ∧
      ∀ i ∈ b.instructions, ∀ t ∈ targets i, hasBlock f t = true := by
  obtain ⟨code, hcode, rfl⟩ := Option.map_eq_some_iff.mp h
  refine ⟨?_, ?_, fun i hi => ?_⟩
  · have hnone : labels code = b.instructions.flatMap fun _ => [] :=
      filterMap_emitEach (fun i lines hl => (emitInstruction_spec hl).1) hcode
    simp [labelOf, hnone]
  · have hjumps : jumps code = _ := filterMap_emitEach (fun i lines hl => (emitInstruction_spec hl).2.1) hcode
    simp [jumpOf, hjumps]
  · obtain ⟨first, hfirst⟩ := exists_emit hcode hi
    exact (emitInstruction_spec hfirst).2.2

theorem emitFunction_spec (h : emitFunction lower target f = some lines) :
    labels lines = (functionSymbols f).map Symbol.label ∧
      jumps lines = (functionIntents f).map (fun intent => blockLabel intent.1.name intent.2) ∧
      ∀ intent ∈ functionIntents f, hasBlock intent.1 intent.2 = true := by
  simp only [emitFunction, Option.bind_eq_bind, Option.bind_eq_some_iff, Option.some.injEq] at h
  obtain ⟨layout, -, stores, -, blocks, hblocks, rfl⟩ := h
  have hlabels : labels blocks = f.blocks.flatMap fun b => [blockLabel f.name b.name] :=
    filterMap_emitEach (fun b lines hl => (emitBlock_spec hl).1) hblocks
  have hjumps : jumps blocks = _ := filterMap_emitEach (fun b lines hl => (emitBlock_spec hl).2.1) hblocks
  refine ⟨?_, ?_, fun intent hintent => ?_⟩
  · rw [← map_eq_flatMap] at hlabels
    split <;> simp [labelOf, hlabels, functionSymbols, Symbol.label, map_map, Function.comp_def]
  · split <;> simp [jumpOf, hjumps, functionIntents, map_flatMap, map_map, Function.comp_def]
  · simp only [functionIntents, mem_flatMap, mem_map] at hintent
    obtain ⟨b, hb, i, hi, t, ht, rfl⟩ := hintent
    obtain ⟨first, hfirst⟩ := exists_emit hblocks hb
    exact (emitBlock_spec hfirst).2.2 i hi t ht

/-- What is written for an object: its label, and no jump -/
theorem emitGlobal_spec {g : Global} (h : emitGlobal target g = some lines) :
    labels lines = (if g.isDeclaration then [] else [reference g.name]) ∧ jumps lines = [] := by
  unfold emitGlobal at h
  split at h
  · next hdecl => cases h; simp [hdecl]
  next hdecl =>
  simp only at h
  split at h
  · cases h
  obtain ⟨data, hdata, rfl⟩ := Option.map_eq_some_iff.mp h
  have hplain : labels data = [] ∧ jumps data = [] := by
    split at hdata
    · split at hdata
      · cases hdata; exact ⟨labels_texts _, jumps_texts _⟩
      · cases hdata
    · split_ifs at hdata <;> cases hdata <;> exact ⟨rfl, rfl⟩
  split <;> simp [labelOf, jumpOf, hplain.1, hplain.2]

theorem generate_spec (h : generate lower target m = some lines) :
    validateTarget target m = true ∧ ∃ globals functions, emitEach (emitGlobal target) m.globals = some globals ∧
      emitEach (emitFunction lower target) m.functions = some functions ∧ lines = globals ++ .text :: functions := by
  unfold generate at h
  split at h
  · next hvalid =>
      simp only [Option.bind_eq_bind, Option.bind_eq_some_iff, Option.some.injEq] at h
      obtain ⟨globals, hg, functions, hf, rfl⟩ := h
      exact ⟨hvalid, globals, functions, hg, hf, rfl⟩
  · cases h

theorem flatMap_defined (globals : List Global) :
    globals.flatMap (fun g => if g.isDeclaration then [] else [reference g.name]) =
      (globals.filter (!·.isDeclaration)).map (reference ·.name) := by
  induction globals with
  | nil => rfl
  | cons g globals ih => cases hg : g.isDeclaration <;> simp [hg, ih]

section

variable (h : generate lower target m = some lines)
include h

/-- The labels of an assembly are those of the module's symbols. -/
theorem labels_generate : labels lines = (symbols m).map Symbol.label := by
  obtain ⟨-, globals, functions, hg, hf, rfl⟩ := generate_spec h
  have hobjects : labels globals = _ := filterMap_emitEach (fun g lines hl => (emitGlobal_spec hl).1) hg
  have hcode : labels functions = _ := filterMap_emitEach (fun f lines hl => (emitFunction_spec hl).1) hf
  rw [flatMap_defined] at hobjects
  simp [labelOf, hobjects, hcode, symbols, Symbol.label, map_flatMap, Function.comp_def]

theorem jumps_generate : jumps lines = (intents m).map fun intent => blockLabel intent.1.name intent.2 := by
  obtain ⟨-, globals, functions, hg, hf, rfl⟩ := generate_spec h
  have hobjects : jumps globals = m.globals.flatMap fun _ => [] :=
    filterMap_emitEach (fun g lines hl => (emitGlobal_spec hl).2) hg
  have hcode : jumps functions = _ := filterMap_emitEach (fun f lines hl => (emitFunction_spec hl).2.1) hf
  simp [jumpOf, hobjects, hcode, intents, map_flatMap]

theorem hasBlock_of_mem_intents {intent : Function × Text} (hi : intent ∈ intents m) :
    intent.1 ∈ m.functions ∧ hasBlock intent.1 intent.2 = true := by
  obtain ⟨-, globals, functions, -, hf, rfl⟩ := generate_spec h
  obtain ⟨f, hmem, hf'⟩ := mem_flatMap.mp hi
  obtain ⟨first, hfirst⟩ := exists_emit hf hmem
  refine ⟨?_, (emitFunction_spec hfirst).2.2 intent hf'⟩
  simp only [functionIntents, mem_flatMap, mem_map] at hf'
  obtain ⟨b, -, i, -, t, -, rfl⟩ := hf'
  exact hmem

end

end Generation

/-! ## Names that are apart -/

/-- No two labels of the module are the same text: the names of a function's blocks differ as they are printed, no
function and block are cut from a label of another function at another `_`, and no function or object is called like
a block's label. -/
structure Apart (m : Module) : Prop where
  blocks : ∀ f ∈ m.functions, (f.blocks.map (reference ·.name)).Nodup
  joined : ∀ f ∈ m.functions, ∀ g ∈ m.functions, ∀ b ∈ f.blocks, ∀ c ∈ g.blocks, ∀ p : Text,
    reference g.name = reference f.name ++ '_' :: p → reference b.name ≠ p ++ '_' :: reference c.name
  functions : ∀ f ∈ m.functions, ∀ g ∈ m.functions, ∀ b ∈ g.blocks, reference f.name ≠ blockLabel g.name b.name
  objects : ∀ o ∈ m.globals, o.isDeclaration = false → ∀ g ∈ m.functions, ∀ b ∈ g.blocks,
    reference o.name ≠ blockLabel g.name b.name

theorem blockLabel_eq_iff {f b g c : Text} :
    blockLabel f b = blockLabel g c ↔
      reference f ++ '_' :: reference b = reference g ++ '_' :: reference c := by
  simp [blockLabel]

theorem pairwise_of_noDuplicate {α : Type} {equal : α → α → Bool} {previous xs : List α}
    (h : noDuplicate equal previous xs = true) :
    xs.Pairwise (fun a b => equal b a = false) ∧ ∀ x ∈ xs, ∀ y ∈ previous, equal x y = false := by
  induction xs generalizing previous with
  | nil => simp
  | cons x xs ih =>
    simp only [noDuplicate, Bool.and_eq_true, all_eq_true, Bool.not_eq_true'] at h
    obtain ⟨hx, hxs⟩ := h
    obtain ⟨hpairs, hprevious⟩ := ih hxs
    refine ⟨pairwise_cons.mpr ⟨fun y hy => hprevious y hy x (by simp), hpairs⟩, fun y hy z hz => ?_⟩
    rcases mem_cons.mp hy with rfl | hy
    · exact hx z hz
    · exact hprevious y hy z (by simp [hz])

section Names

variable {target : RISCVTargetInfo} {m : Module} (h : validateTarget target m = true)

include h

theorem globals_pairwise : m.globals.Pairwise (fun a b => reference a.name ≠ reference b.name) := by
  simp only [validateTarget, Bool.and_eq_true] at h
  refine (pairwise_of_noDuplicate h.1.1.2).1.imp fun {a b} hab => ?_
  simpa [same, eq_comm] using hab

theorem functions_pairwise : m.functions.Pairwise (fun a b => reference a.name ≠ reference b.name) := by
  simp only [validateTarget, Bool.and_eq_true] at h
  refine (pairwise_of_noDuplicate h.2).1.imp fun {a b} hab => ?_
  simpa [same, eq_comm] using hab

theorem global_ne_function {o : Global} (ho : o ∈ m.globals) {f : Function} (hf : f ∈ m.functions) :
    reference o.name ≠ reference f.name := by
  simp only [validateTarget, Bool.and_eq_true, all_eq_true] at h
  have hvalid := h.1.2 f hf
  simp only [validateFunction, Bool.and_eq_true, findGlobal, Option.isNone_iff_eq_none, find?_eq_none] at hvalid
  simpa [same] using hvalid.1.1 o ho

omit h in
theorem mem_symbols_block {f : Function} (hf : f ∈ m.functions) {b : BasicBlock} (hb : b ∈ f.blocks) :
    .block f.name b.name ∈ symbols m :=
  mem_append_right _ (mem_flatMap.mpr ⟨f, hf, mem_cons_of_mem _ (mem_map.mpr ⟨b, hb, rfl⟩)⟩)

omit h in
/-- Distinct labels tell the symbols apart, and so the names. -/
theorem apart_of_nodup (hn : ((symbols m).map Symbol.label).Nodup) : Apart m := by
  have inj : ∀ s ∈ symbols m, ∀ t ∈ symbols m, s.label = t.label → s = t :=
    fun s hs t ht hst => inj_on_of_nodup_map hn hs ht hst
  refine ⟨fun f hf => ?_, fun f hf g hg b hb c hc p hgf hbc => ?_, fun f hf g hg b hb hfb => ?_,
    fun o ho hdefined g hg b hb hob => ?_⟩
  · rw [symbols, map_append, map_flatMap] at hn
    have hfunction := (nodup_flatMap.mp hn.of_append_right).1 f hf
    rw [functionSymbols, map_cons, map_map] at hfunction
    refine List.Nodup.of_map (fun text => ".L".toList ++ reference f.name ++ '_' :: text) ?_
    rw [map_map]
    exact hfunction.of_cons
  · have heq : blockLabel f.name b.name = blockLabel g.name c.name :=
      blockLabel_eq_iff.mpr (join_eq_join_iff.mpr (.inr (.inl ⟨p, hgf, hbc⟩)))
    have hsame := inj _ (mem_symbols_block hf hb) _ (mem_symbols_block hg hc) heq
    rw [(Symbol.block.inj hsame).1] at hgf
    simpa using congrArg List.length hgf
  · have hmem : .function f.name ∈ symbols m :=
      mem_append_right _ (mem_flatMap.mpr ⟨f, hf, mem_cons_self ..⟩)
    cases inj _ hmem _ (mem_symbols_block hg hb) hfb
  · have hmem : .object o.name ∈ symbols m :=
      mem_append_left _ (mem_map.mpr ⟨o, mem_filter.mpr ⟨ho, by simp [hdefined]⟩, rfl⟩)
    cases inj _ hmem _ (mem_symbols_block hg hb) hob

omit h in
theorem nodup_function {f : Function} (ha : Apart m) (hf : f ∈ m.functions) :
    ((functionSymbols f).map Symbol.label).Nodup := by
  rw [functionSymbols, map_cons, map_map, nodup_cons]
  refine ⟨fun hmem => ?_, ?_⟩
  · obtain ⟨b, hb, heq⟩ := mem_map.mp hmem
    exact ha.functions f hf f hf b hb heq.symm
  · have hblocks := (ha.blocks f hf).map
      (f := fun text => ".L".toList ++ reference f.name ++ '_' :: text) (fun a b hab => by simpa using hab)
    rwa [map_map] at hblocks

omit h in
/-- Functions whose names differ have no label in common. -/
theorem disjoint_functions {f g : Function} (ha : Apart m) (hf : f ∈ m.functions) (hg : g ∈ m.functions)
    (hfg : reference f.name ≠ reference g.name) :
    List.Disjoint ((functionSymbols f).map Symbol.label) ((functionSymbols g).map Symbol.label) := by
  intro text hmemf hmemg
  simp only [functionSymbols, map_cons, map_map, mem_cons, mem_map] at hmemf hmemg
  rcases hmemf with rfl | ⟨b, hb, rfl⟩ <;> rcases hmemg with heq | ⟨c, hc, heq⟩
  · exact hfg heq
  · exact ha.functions f hf g hg c hc heq.symm
  · exact ha.functions g hg f hf b hb heq.symm
  · rcases join_eq_join_iff.mp (blockLabel_eq_iff.mp heq) with ⟨hgf, -⟩ | ⟨p, hp, hq⟩ | ⟨p, hp, hq⟩
    · exact hfg hgf.symm
    · exact ha.joined g hg f hf c hc b hb p hp hq
    · exact ha.joined f hf g hg b hb c hc p hp hq

theorem nodup_of_apart (ha : Apart m) : ((symbols m).map Symbol.label).Nodup := by
  rw [symbols, map_append, map_map, map_flatMap]
  refine List.Nodup.append ?_ (nodup_flatMap.mpr ⟨fun f hf => nodup_function ha hf, ?_⟩) ?_
  · exact pairwise_map.mpr ((globals_pairwise h).filter _)
  · exact (functions_pairwise h).imp_of_mem fun hf hg hfg => disjoint_functions ha hf hg hfg
  · intro text hobject hfunction
    obtain ⟨o, ho, rfl⟩ := mem_map.mp hobject
    obtain ⟨f, hf, hmem⟩ := mem_flatMap.mp hfunction
    have hdefined := mem_filter.mp ho
    simp only [functionSymbols, map_cons, map_map, mem_cons, mem_map] at hmem
    rcases hmem with heq | ⟨b, hb, heq⟩
    · exact global_ne_function h hdefined.1 hf heq
    · exact ha.objects o hdefined.1 (by simpa using hdefined.2) f hf b hb heq.symm

end Names

/-- Where the labels are distinct, a jump to a block of its function reaches it. -/
theorem reaches_of_nodup {m : Module} {lines : List Line} (hl : labels lines = (symbols m).map Symbol.label)
    (hn : (labels lines).Nodup) {intent : Function × Text} (hf : intent.1 ∈ m.functions)
    (hblock : hasBlock intent.1 intent.2 = true) :
    Reaches m lines (blockLabel intent.1.name intent.2) intent := by
  obtain ⟨b, hb, hsame⟩ := any_eq_true.mp hblock
  refine ⟨b, hb, hsame, fun k => ?_⟩
  have htext : blockLabel intent.1.name intent.2 = (Symbol.block intent.1.name b.name).label := by
    rw [Symbol.label, blockLabel, blockLabel, of_decide_eq_true hsame]
  rw [hl, getElem?_map, htext]
  constructor
  · intro hk
    obtain ⟨s, hs, heq⟩ := Option.map_eq_some_iff.mp hk
    rw [hl] at hn
    rw [hs, inj_on_of_nodup_map hn (mem_of_getElem? hs) (mem_symbols_block hf hb) heq]
  · intro hk
    rw [hk, Option.map_some]

section Claim

variable {lower : Function → FunctionLayout → Instruction → Option (List Op)} {target : RISCVTargetInfo}

end Claim

/-- A function that returns from its only block -/
def returning (name block : Text) : Function :=
  { name := name, returnType := .void
    blocks := [{ name := block, instructions := [{ opcode := .ret, type := .void }] }] }

/-- `f` with a block `a_b`, and `f_a` with a block `b` -/
def meeting : Module := { functions := [returning ['f'] ['a', '_', 'b'], returning ['f', '_', 'a'] ['b']] }

end Unisym.Lango.Riscv
