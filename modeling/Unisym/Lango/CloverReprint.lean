/-
# `CloverReprint` — a printed module is parsed to the module

The declarations of a module are read back one after the other, each in front of what follows it.
-/
import Unisym.Lango.CloverRoundTrip
import Unisym.Lango.CloverTypingSpec

namespace Unisym.Lango

open List

variable {m m' : Module} {ts us : Tokens}

/-! ## Declarations -/

/-- What is behind the `=` of a global -/
def initializerTokens (g : Global) : Tokens :=
  if g.initializerValues.length ≠ 0 then
    [['{']] ++ listTokens (g.initializerValues.map fun value => [outSigned value]) ++ [['}']]
  else [outSigned g.initializer] ++ highTokens g.type g.initializerHigh

/-- A global without its initializer -/
def Global.bare (g : Global) : Global :=
  { g with initializer := 0, initializerHigh := 0, initializerValues := [] }

theorem Global.Initialized.bare {g : Global} (h : g.Initialized) (hdeclares : g.isDeclaration = true) :
    g.bare = g := by
  obtain ⟨name, type, number, numberHigh, count, isDeclaration, isReadOnly, linkage, values⟩ := g
  cases h with
  | declaration declares external zero zeroHigh none =>
    cases zero
    cases zeroHigh
    cases none
    rfl
  | number defines => cases hdeclares.symm.trans defines
  | values defines => cases hdeclares.symm.trans defines

theorem parseGlobal_tokens {g : Global} (h : g.Parsed) (hts : is ts "," = false) :
    parseGlobal g.isReadOnly g.linkage g.isDeclaration m (globalHeadTokens g ++
      ((if g.isDeclaration then [] else [['=']] ++ initializerTokens g) ++ ts)) =
        some ({ m with globals := m.globals ++ [g] }, ts) := by
  have hkeyword (us : Tokens) : expect (if g.isReadOnly then "constant" else "global")
      ((if g.isReadOnly then "constant".toList else "global".toList) :: us) = some us := by
    cases g.isReadOnly <;> rfl
  have hat (us : Tokens) : expect "@" (['@'] :: us) = some us := rfl
  have hvoid : decide (g.type ≠ .void) = true := decide_eq_true h.type_ne
  have hcount (us : Tokens) (hus : is us "," = false) :=
    @readElementCount_back us g.elementCount h.count.1 h.count.2 hus
  simp only [parseGlobal, globalHeadTokens, cons_append, nil_append,
    hkeyword, hat, readName_back h.named, readType_name, hvoid, check_true, Option.bind_eq_bind,
    Option.bind_some]
  by_cases hdeclares : g.isDeclaration = true
  · have hbare := h.initialized.bare hdeclares
    rw [if_pos hdeclares, nil_append, hcount ts hts, Option.bind_some, if_pos hdeclares]
    show some ({ m with globals := m.globals ++ [g.bare] }, ts) = _
    rw [hbare]
  · have hinitializer := @parseInitializer_tokens ts g h.initialized (Bool.eq_false_iff.mpr hdeclares)
      h.count.2
    rw [if_neg hdeclares, hcount _ rfl, Option.bind_some, if_neg hdeclares]
    exact Option.bind_eq_some_iff.mpr ⟨_, hinitializer, rfl⟩

/-- What a declaration begins with -/
def itemWords : List String :=
  ["target", "source", "internal", "declare", "global", "constant", "func"]

/-- Tokens that are empty or begin with a declaration -/
def BeginsItem (ts : Tokens) : Prop := ∀ t us, ts = t :: us → ∃ word ∈ itemWords, t = word.toList

theorem BeginsItem.noComma (h : BeginsItem ts) : is ts "," = false := by
  cases ts with
  | nil => rfl
  | cons t us =>
    obtain ⟨word, hword, rfl⟩ := h t us rfl
    simp only [itemWords, mem_cons, not_mem_nil, or_false] at hword
    rcases hword with rfl | rfl | rfl | rfl | rfl | rfl | rfl <;> rfl

theorem BeginsItem.token_ne {t : Text} (h : BeginsItem (t :: us)) : (token (t :: us)).isEmpty = false := by
  obtain ⟨word, hword, rfl⟩ := h t us rfl
  simp only [itemWords, mem_cons, not_mem_nil, or_false] at hword
  rcases hword with rfl | rfl | rfl | rfl | rfl | rfl | rfl <;> rfl

theorem beginsItem_word {word : String} (h : word ∈ itemWords) (us : Tokens) :
    BeginsItem (word.toList :: us) := by
  rintro t vs ⟨⟩
  exact ⟨word, h, rfl⟩

/-- Declarations that are read one after the other, each in front of another one or the end -/
inductive ItemsRead : Module → Tokens → Module → Prop
  | nil {m : Module} : ItemsRead m [] m
  | cons {m m₁ m' : Module} {item ts : Tokens} (starts : item ≠ [] ∧ BeginsItem item)
      (head : ∀ us, is us "," = false → parseItem m (item ++ us) = some (m₁, us))
      (tail : ItemsRead m₁ ts m') : ItemsRead m (item ++ ts) m'

namespace ItemsRead

theorem begins (h : ItemsRead m ts m') : BeginsItem ts := by
  cases h with
  | nil => nofun
  | @cons _ m₁ _ item ts starts head tail =>
    obtain ⟨hne, hbegins⟩ := starts
    cases item with
    | nil => exact absurd rfl hne
    | cons t us =>
      rintro _ _ ⟨⟩
      exact hbegins t us rfl

theorem append {m₁ : Module} (h : ItemsRead m ts m₁) (h' : ItemsRead m₁ us m') :
    ItemsRead m (ts ++ us) m' := by
  induction h with
  | nil => exact h'
  | cons starts head tail ih =>
    rw [append_assoc]
    exact .cons starts head (ih h')

theorem single {item : Tokens} (starts : item ≠ [] ∧ BeginsItem item)
    (h : ∀ us, is us "," = false → parseItem m (item ++ us) = some (m', us)) : ItemsRead m item m' :=
  append_nil item ▸ .cons starts h .nil

theorem parseItems (h : ItemsRead m ts m') :
    ∀ {fuel : Nat}, ts.length < fuel → Lango.parseItems m fuel ts = some m' := by
  induction h with
  | nil =>
    intro fuel hfuel
    obtain ⟨fuel, rfl⟩ : ∃ k, fuel = k + 1 := ⟨fuel - 1, by omega⟩
    rfl
  | @cons m m₁ m' item ts starts head tail ih =>
    intro fuel hfuel
    obtain ⟨fuel, rfl⟩ : ∃ k, fuel = k + 1 := ⟨fuel - 1, by omega⟩
    obtain ⟨hne, hbegins⟩ := starts
    cases item with
    | nil => exact absurd rfl hne
    | cons t us =>
      have hnonempty : (token (t :: us ++ ts)).isEmpty = false := hbegins.token_ne
      have hrest := @ih fuel (by rw [length_append, length_cons] at hfuel; omega)
      rw [Lango.parseItems, hnonempty, if_neg Bool.false_ne_true, head ts tail.begins.noComma]
      exact hrest

end ItemsRead

/-! ## Modules -/

theorem is_globalHead (g : Global) (us : Tokens) :
    is (globalHeadTokens g ++ us) "constant" = g.isReadOnly ∧
      is (globalHeadTokens g ++ us) "global" = !g.isReadOnly := by
  unfold globalHeadTokens
  cases g.isReadOnly <;> exact ⟨rfl, rfl⟩

theorem globalHead_words (g : Global) (us : Tokens) :
    is (globalHeadTokens g ++ us) "target" = false ∧ is (globalHeadTokens g ++ us) "source" = false ∧
      is (globalHeadTokens g ++ us) "internal" = false ∧
      is (globalHeadTokens g ++ us) "declare" = false := by
  unfold globalHeadTokens
  cases g.isReadOnly <;> exact ⟨rfl, rfl, rfl, rfl⟩

theorem globalTokens_begins (g : Global) : globalTokens g ≠ [] ∧ BeginsItem (globalTokens g) := by
  unfold globalTokens globalHeadTokens linkageTokens
  split
  · exact ⟨nofun, beginsItem_word (show "declare" ∈ itemWords by decide) _⟩
  split
  · exact ⟨nofun, beginsItem_word (show "internal" ∈ itemWords by decide) _⟩
  split
  · exact ⟨nofun, beginsItem_word (show "constant" ∈ itemWords by decide) _⟩
  · exact ⟨nofun, beginsItem_word (show "global" ∈ itemWords by decide) _⟩

theorem global_read {g : Global} (h : g.Parsed) :
    ItemsRead m (globalTokens g) { m with globals := m.globals ++ [g] } := by
  refine .single (globalTokens_begins g) fun us hus => ?_
  have hread := @parseGlobal_tokens m us g h hus
  obtain ⟨hconstant, hglobal⟩ := is_globalHead g
    ((if g.isDeclaration then [] else [['=']] ++ initializerTokens g) ++ us)
  obtain ⟨htarget, hsource, hinternal, hdeclare⟩ := globalHead_words g
    ((if g.isDeclaration then [] else [['=']] ++ initializerTokens g) ++ us)
  have htokens : globalTokens g ++ us =
      (if g.isDeclaration then ["declare".toList] else linkageTokens g.linkage) ++
        (globalHeadTokens g ++
          ((if g.isDeclaration then [] else [['=']] ++ initializerTokens g) ++ us)) := by
    unfold globalTokens initializerTokens
    split <;> simp only [append_assoc, nil_append]
  rw [htokens]
  generalize globalHeadTokens g ++
    ((if g.isDeclaration then [] else [['=']] ++ initializerTokens g) ++ us) = head at *
  by_cases hdeclares : g.isDeclaration = true
  · have hexternal : g.linkage = .external := by
      cases h.initialized with
      | declaration declares external => exact external
      | number defines => cases hdeclares.symm.trans defines
      | values defines => cases hdeclares.symm.trans defines
    have hitem : parseItem m ("declare".toList :: head) =
        if !is head "global" && !is head "constant" then none
        else parseGlobal (is head "constant") .external true m head := rfl
    rw [hexternal, hdeclares] at hread
    rw [if_pos hdeclares, singleton_append, hitem, hconstant, hglobal,
      if_neg (by cases g.isReadOnly <;> nofun)]
    exact hread
  · rw [Bool.eq_false_iff.mpr hdeclares] at hread
    rw [if_neg hdeclares]
    cases hlinkage : g.linkage with
    | internal =>
      have hitem : parseItem m ("internal".toList :: head) =
          if is head "global" || is head "constant" then
            parseGlobal (is head "constant") .internal false m head
          else if is head "func" then parseModuleFunction .internal m head else none := rfl
      show parseItem m ("internal".toList :: head) = _
      rw [hlinkage] at hread
      rw [hitem, hconstant, hglobal, if_pos (by cases g.isReadOnly <;> rfl)]
      exact hread
    | external =>
      show parseItem m head = _
      rw [hlinkage] at hread
      rw [parseItem, htarget, hsource, hinternal, hdeclare, hconstant, hglobal]
      simp only [Bool.false_eq_true, if_false, Bool.not_or_self, if_true]
      exact hread

theorem function_read {f : Function} (h : f.Parsed) (hkept : PositionsKept f.instructions) :
    ItemsRead m (functionTokens f) { m with functions := m.functions ++ [f] } := by
  refine .single ?_ fun us _ => ?_
  · unfold functionTokens linkageTokens
    split
    · exact ⟨nofun, beginsItem_word (show "internal" ∈ itemWords by decide) _⟩
    · exact ⟨nofun, beginsItem_word (show "func" ∈ itemWords by decide) _⟩
  obtain ⟨rest, hrest⟩ : ∃ rest, ["func".toList, ['@'], f.name, ['(']] ++
      parametersTokens f.parameters f.isVariadic ++
      [[')'], "->".toList, typeName f.returnType, ['{']] ++ blocksTokens {} f.blocks ++ [['}']] ++ us =
        "func".toList :: rest := ⟨_, rfl⟩
  have htokens : functionTokens f ++ us = linkageTokens f.linkage ++ "func".toList :: rest := by
    rw [← hrest]
    simp only [functionTokens, parametersTokens, append_assoc]
  have hread := @parseFunction_tokens us f h hkept
  rw [hrest] at hread
  have hfunction : parseModuleFunction f.linkage m ("func".toList :: rest) =
      some ({ m with functions := m.functions ++ [f] }, us) :=
    Option.bind_eq_some_iff.mpr ⟨_, hread, rfl⟩
  rw [htokens]
  cases hlinkage : f.linkage with
  | internal =>
    have hitem : parseItem m ("internal".toList :: "func".toList :: rest) =
        parseModuleFunction .internal m ("func".toList :: rest) := rfl
    rw [hlinkage] at hfunction
    exact hitem.trans hfunction
  | external =>
    have hitem : parseItem m ("func".toList :: rest) =
        parseModuleFunction .external m ("func".toList :: rest) := rfl
    rw [hlinkage] at hfunction
    exact hitem.trans hfunction

theorem source_read {s : SourceFile} (h : s.Parsed) (hid : s.id ≠ 0)
    (hfresh : ∀ previous ∈ m.sourceFiles, previous.id ≠ s.id) :
    ItemsRead m (sourceTokens s) { m with sourceFiles := m.sourceFiles ++ [s] } := by
  refine .single ?_ fun us _ => ?_
  · exact ⟨nofun, beginsItem_word (show "source" ∈ itemWords by decide) _⟩
  · exact parseSource_tokens h hid hfresh

theorem sources_read : (sources : List SourceFile) → {m : Module} →
    (∀ s ∈ sources, s.Parsed ∧ s.id ≠ 0) → ((m.sourceFiles ++ sources).map (·.id)).Nodup →
    ItemsRead m (sources.flatMap sourceTokens) { m with sourceFiles := m.sourceFiles ++ sources }
  | [], m, _, _ => by
    rw [append_nil]
    exact .nil
  | s :: sources, m, h, hnodup => by
    obtain ⟨⟨hs, hid⟩, hrest⟩ := forall_mem_cons.mp h
    have hfresh : ∀ previous ∈ m.sourceFiles, previous.id ≠ s.id := by
      intro previous hprevious
      rw [map_append, nodup_append] at hnodup
      exact hnodup.2.2 _ (mem_map_of_mem hprevious) _ mem_cons_self
    have hmoved : m.sourceFiles ++ s :: sources = m.sourceFiles ++ [s] ++ sources := by
      rw [append_assoc, singleton_append]
    rw [hmoved] at hnodup ⊢
    exact (source_read hs hid hfresh).append
      (@sources_read sources { m with sourceFiles := m.sourceFiles ++ [s] } hrest hnodup)

theorem globals_read : (globals : List Global) → {m : Module} → (∀ g ∈ globals, g.Parsed) →
    ItemsRead m (globals.flatMap globalTokens) { m with globals := m.globals ++ globals }
  | [], m, _ => by
    rw [append_nil]
    exact .nil
  | g :: globals, m, h => by
    obtain ⟨hg, hglobals⟩ := forall_mem_cons.mp h
    have hmoved : m.globals ++ g :: globals = m.globals ++ [g] ++ globals := by
      rw [append_assoc, singleton_append]
    rw [hmoved]
    exact (global_read hg).append (@globals_read globals { m with globals := m.globals ++ [g] } hglobals)

theorem functions_read : (functions : List Function) → {m : Module} →
    (∀ f ∈ functions, f.Parsed ∧ PositionsKept f.instructions) →
    ItemsRead m (functions.flatMap functionTokens) { m with functions := m.functions ++ functions }
  | [], m, _ => by
    rw [append_nil]
    exact .nil
  | f :: functions, m, h => by
    obtain ⟨⟨hf, hkept⟩, hfunctions⟩ := forall_mem_cons.mp h
    have hmoved : m.functions ++ f :: functions = m.functions ++ [f] ++ functions := by
      rw [append_assoc, singleton_append]
    rw [hmoved]
    exact (function_read hf hkept).append
      (@functions_read functions { m with functions := m.functions ++ [f] } hfunctions)

theorem target_read {n : Nat} (hwidth : n = 32 ∨ n = 64) (hm : m.pointerBits = 0) :
    ItemsRead m ["target".toList, "ptrbits".toList, outUnsigned n] { m with pointerBits := n } := by
  refine .single ?_ fun us _ => ?_
  · exact ⟨nofun, beginsItem_word (show "target" ∈ itemWords by decide) _⟩
  · exact parseTarget_tokens hwidth hm

theorem parseModule_tokens (h : m.Parsed) (hsources : ∀ s ∈ m.sourceFiles, s.id ≠ 0)
    (hkept : ∀ f ∈ m.functions, PositionsKept f.instructions) :
    parseModule (moduleTokens m) = some m := by
  have htarget : ItemsRead {} (if m.pointerBits ≠ 0 then
      ["target".toList, "ptrbits".toList, outUnsigned m.pointerBits] else [])
      { pointerBits := m.pointerBits } := by
    by_cases hzero : m.pointerBits = 0
    · rw [if_neg fun hne => hne hzero, hzero]
      exact .nil
    · rw [if_pos hzero]
      exact target_read (h.pointers.resolve_left hzero) rfl
  have hall := ((htarget.append (@sources_read m.sourceFiles { pointerBits := m.pointerBits }
    (fun s hs => ⟨h.sources s hs, hsources s hs⟩) h.sourcesOnce)).append
    (globals_read m.globals h.globals)).append
    (functions_read m.functions fun f hf => ⟨h.functions f hf, hkept f hf⟩)
  exact hall.parseItems (Nat.lt_succ_self _)

/-! ## The round trip -/

/-- What the parser reads but the printer does not write so that it is read again, left out: names that
are not one token without quotes, zero bytes in paths, and numbers that 32 bits make zero. -/
structure Module.Printable (m : Module) : Prop where
  paths : ∀ s ∈ m.sourceFiles, nul ∉ s.path
  sources : ∀ s ∈ m.sourceFiles, s.id ≠ 0
  globals : ∀ g ∈ m.globals, Plain g.name
  functions : ∀ f ∈ m.functions, Plain f.name
  blocks : ∀ f ∈ m.functions, ∀ block ∈ f.blocks, Plain block.name
  names : ∀ f ∈ m.functions, ∀ i ∈ f.instructions, ∀ name ∈ i.names, Plain name
  positions : ∀ f ∈ m.functions, PositionsKept f.instructions

/-- An instruction that is read has no name but that of a global, and no source line. -/
theorem Step.unnamed {scope scope' : Scope} {i : Instruction} (h : Step scope i scope') :
    (i.opcode = .local → i.name = []) ∧ i.debugSource = [] := by
  obtain ⟨body, id, hreads, rfl, -, -⟩ := h.reads
  obtain ⟨-, hsource, hname⟩ := hreads.kept
  exact ⟨fun hop => hname (by rw [show body.opcode = .local from hop]; nofun), hsource⟩

theorem Module.Printable.prints (h : m.Printable) (hparsed : m.Parsed) : m.Prints := by
  refine ⟨h.paths, h.globals, fun f hf => ⟨h.functions f hf, fun block hblock =>
    ⟨h.blocks f hf block hblock, fun i hi => ?_⟩⟩⟩
  have hmem : i ∈ f.instructions := mem_flatMap.mpr ⟨block, hblock, hi⟩
  obtain ⟨scope, scope', hstep⟩ := (hparsed.functions f hf).step hmem
  exact ⟨h.names f hf i hmem, hstep.unnamed.1, hstep.unnamed.2⟩

/-- A module that a text is parsed to is printed to a text that is parsed to it. -/
theorem parse_print {text : Text} (h : parse text = some m) (hprintable : m.Printable) :
    parse (print m) = some m := by
  have hparsed := parse_parsed h
  rw [parse, lex_print (hprintable.prints hparsed)]
  exact parseModule_tokens hparsed hprintable.sources hprintable.positions

/-- A source, a global and a function whose return has a line -/
def returnText : Text :=
  "source 1 \"a b.c\" global @n i32 = -5 func @f() -> i32 \x7b ^e: %1 = const i32 7 line 3 ret i32 %1 \x7d".toList

/-- What the parser makes of it -/
def returnModule : Module :=
  { sourceFiles := [⟨1, "a b.c".toList⟩]
    globals := [{ name := "n".toList, type := .i32, initializer := -5 }]
    functions := [{
      name := "f".toList
      returnType := .i32
      blocks := [⟨"e".toList, [
        { opcode := .const, type := .i32, hasResult := true, result := ⟨.i32, 1⟩, immediate := 7 },
        { opcode := .ret, type := .i32, operands := [⟨.i32, 1⟩], debugLine := 3 }]⟩] }] }

theorem returnModule_printable : returnModule.Printable := by
  have hf : Plain "f".toList := rfl
  have he : Plain "e".toList := rfl
  have hn : Plain "n".toList := rfl
  refine ⟨?_, ?_, ?_, ?_, ?_, ?_, ?_⟩
  · exact forall_mem_singleton.mpr (by decide)
  · exact forall_mem_singleton.mpr (by decide)
  · exact forall_mem_singleton.mpr hn
  · exact forall_mem_singleton.mpr hf
  · exact forall_mem_singleton.mpr (forall_mem_singleton.mpr he)
  · exact forall_mem_singleton.mpr (forall_mem_cons.mpr ⟨nofun,
      forall_mem_singleton.mpr nofun⟩)
  · refine forall_mem_singleton.mpr ?_
    show List.Pairwise _ [_, _]
    exact pairwise_cons.mpr ⟨forall_mem_singleton.mpr ⟨fun _ => rfl, nofun⟩,
      pairwise_singleton _ _⟩

theorem parse_print_return : parse (print returnModule) = some returnModule := by
  have htext : returnText = _ := String.toList_ofList
  have hparse : parse returnText = some returnModule := by rewrite [htext]; decide +kernel
  exact parse_print hparse returnModule_printable

/-- A name with a space -/
def quotedNameText : Text := "func @\"a b\"() -> void \x7b \x7d".toList

theorem parse_print_quotedName :
    ∃ m, parse quotedNameText = some m ∧ parse (print m) ≠ some m := by
  obtain ⟨m, hm⟩ := Option.isSome_iff_exists.mp
    (show (parse quotedNameText).isSome = true from by decide)
  have hprint : (parse quotedNameText).bind (fun m => parse (print m)) = none := by decide
  rw [hm] at hprint
  exact ⟨m, hm, by rw [show parse (print m) = none from hprint]; nofun⟩

end Unisym.Lango
