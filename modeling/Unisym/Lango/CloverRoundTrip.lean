/-
# `CloverRoundTrip` — printing a module and parsing it again

The parser reads the tokens of a module back, step by step of `Steps`.  With the tokens of what is
printed this is the round trip.
-/
import Unisym.Lango.CloverReadBack

namespace Unisym.Lango

open List

variable {definitions : List Value} {i i' : Instruction} {scope scope' : Scope} {ts : Tokens}

/-! ## Instructions -/

theorem readDebugNumber_back {n : Nat} (hne : n ≠ 0) (h : n < 2 ^ 32) :
    readDebugNumber (outUnsigned n :: ts) = some (n, ts) := by
  have hnumber : readNumber (outUnsigned n :: ts) = some ((n : Int), ts) :=
    readNumber_unsigned (by omega)
  have hpos : decide ((0 : Int) < n) = true := decide_eq_true (by omega)
  have hmod : ((n : Int) % 2 ^ 32).toNat = n := by omega
  simp only [readDebugNumber, hnumber, hpos, hmod, check_true, some_bind]

theorem parsePositions_none {fuel : Nat} (hfile : is ts "file" = false) (hline : is ts "line" = false) :
    parsePositions scope (fuel + 1) ts = some (scope, ts) := by
  rw [parsePositions, hfile, hline]
  rfl

theorem parsePositions_line {fuel n line : Nat} (hlt : n < 2 ^ 32) (hkept : n = 0 → line = 0)
    (hscope : scope.debugLine = line) (hfile : is ts "file" = false) (hline : is ts "line" = false)
    (hfuel : (if n ≠ 0 ∧ n ≠ line then ["line".toList, outUnsigned n] else []).length < fuel) :
    parsePositions scope fuel
      ((if n ≠ 0 ∧ n ≠ line then ["line".toList, outUnsigned n] else []) ++ ts) =
        some ({ scope with debugLine := n }, ts) := by
  split at hfuel
  case isTrue h =>
    have hnofile : is ("line".toList :: outUnsigned n :: ts) "file" = false := rfl
    have hisline : is ("line".toList :: outUnsigned n :: ts) "line" = true := rfl
    obtain ⟨fuel, rfl⟩ : ∃ k, fuel = k + 2 := ⟨fuel - 2, by simp only [length_cons] at hfuel; omega⟩
    rw [if_pos h]
    show parsePositions scope (fuel + 2) ("line".toList :: outUnsigned n :: ts) = _
    rw [parsePositions, hnofile, if_neg Bool.false_ne_true, hisline, if_pos rfl, tail_cons,
      readDebugNumber_back h.1 hlt]
    exact parsePositions_none hfile hline
  case isFalse h =>
    have hsame : scope.debugLine = n := by
      by_cases hzero : n = 0
      · rw [hscope, hkept hzero, hzero]
      · rw [hscope]
        exact Decidable.byContradiction fun hne => h ⟨hzero, fun heq => hne heq.symm⟩
    obtain ⟨fuel, rfl⟩ : ∃ k, fuel = k + 1 := ⟨fuel - 1, by omega⟩
    rw [if_neg h, nil_append, parsePositions_none hfile hline, ← hsame]

/-- The position of an instruction is read back: what is not printed is carried over. -/
theorem parsePositions_tokens {fuel : Nat} {p : Position} (hfits : scope'.Fits)
    (hat : scope'.debugFile = i.debugFile ∧ scope'.debugLine = i.debugLine)
    (hscope : scope.debugFile = p.file ∧ scope.debugLine = p.line)
    (hkept : (i.debugFile = 0 → p.file = 0) ∧ (i.debugLine = 0 → p.line = 0))
    (hfile : is ts "file" = false) (hline : is ts "line" = false)
    (hfuel : (positionTokens i p).length < fuel) :
    parsePositions scope fuel (positionTokens i p ++ ts) =
      some ({ scope with debugFile := i.debugFile, debugLine := i.debugLine }, ts) := by
  have hltFile : i.debugFile < 2 ^ 32 := hat.1 ▸ hfits.file
  have hltLine : i.debugLine < 2 ^ 32 := hat.2 ▸ hfits.line
  unfold positionTokens at hfuel ⊢
  rw [length_append] at hfuel
  rw [append_assoc]
  split at hfuel
  case isTrue h =>
    have hisfile (us : Tokens) : is ("file".toList :: outUnsigned i.debugFile :: us) "file" = true := rfl
    simp only [length_cons, length_nil] at hfuel
    obtain ⟨fuel, rfl⟩ : ∃ k, fuel = k + 1 := ⟨fuel - 1, by omega⟩
    rw [if_pos h, cons_append, cons_append, nil_append, parsePositions, hisfile,
      if_pos rfl, tail_cons, readDebugNumber_back h.1 hltFile]
    exact @parsePositions_line { scope with debugFile := i.debugFile } ts fuel _ _ hltLine hkept.2
      hscope.2 hfile hline (by omega)
  case isFalse h =>
    have hsame : scope.debugFile = i.debugFile := by
      by_cases hzero : i.debugFile = 0
      · rw [hscope.1, hkept.1 hzero, hzero]
      · rw [hscope.1]
        exact Decidable.byContradiction fun hne => h ⟨hzero, fun heq => hne heq.symm⟩
    rw [if_neg h, nil_append, ← hsame]
    exact parsePositions_line hltLine hkept.2 hscope.2 hfile hline (by
      rw [length_nil] at hfuel
      omega)

/-- No rule touches the position, the source line, or the name but that of a global. -/
theorem Reads.kept (h : Reads definitions i i') :
    (i'.debugFile = i.debugFile ∧ i'.debugLine = i.debugLine) ∧ i'.debugSource = i.debugSource ∧
      (i'.opcode ≠ .globaladdr → i'.name = i.name) := by
  cases h
  case globaladdr => exact ⟨⟨rfl, rfl⟩, rfl, fun h => absurd rfl h⟩
  all_goals exact ⟨⟨rfl, rfl⟩, rfl, fun _ => rfl⟩

theorem Step.position (h : Step scope i scope') :
    scope'.debugFile = i.debugFile ∧ scope'.debugLine = i.debugLine := by
  obtain ⟨body, id, hreads, rfl, -, -⟩ := h.reads
  exact ⟨hreads.kept.1.1.symm, hreads.kept.1.2.symm⟩

theorem parseResult_tokens (hid : i.result.id < 2 ^ 32) (opcode : Opcode) :
    parseResult (resultTokens i ++ opcodeName opcode :: ts) =
      some (if i.hasResult then some i.result.id else none, opcodeName opcode :: ts) := by
  unfold resultTokens
  cases i.hasResult with
  | true =>
    have hmark (us : Tokens) : is (['%'] :: us) "%" = true := rfl
    have hequals (us : Tokens) : expect "=" (['='] :: us) = some us := rfl
    show parseResult (['%'] :: outUnsigned i.result.id :: ['='] :: opcodeName opcode :: ts) = _
    rw [parseResult, hmark, if_pos rfl, readResultID_back hid]
    simp only [some_bind, hequals, if_true]
  | false =>
    have hmark : is (opcodeName opcode :: ts) "%" = false := by cases opcode <;> rfl
    show parseResult (opcodeName opcode :: ts) = _
    rw [parseResult, hmark]
    rfl

/-- An instruction is read back from its tokens, in the scope that it was read in. -/
theorem parseInstruction_tokens {p : Position} (h : Step scope i scope')
    (hids : ∀ v ∈ scope.definitions, v.id < 2 ^ 32) (hfits : scope.Fits)
    (hscope : scope.debugFile = p.file ∧ scope.debugLine = p.line)
    (hkept : (i.debugFile = 0 → p.file = 0) ∧ (i.debugLine = 0 → p.line = 0)) (hts : Behind ts) :
    parseInstruction scope (instructionTokens i p ++ ts) = some ((i, scope'), ts) := by
  have hposition := h.position
  obtain ⟨body, id, hreads, hbody, hid, hzero⟩ := h.reads
  obtain ⟨hhas, hnumber⟩ := hreads.result
  have htokens : instructionTokens i p ++ ts = positionTokens i p ++
      (resultTokens i ++ (opcodeName body.opcode :: (operationTokens body ++ ts))) := by
    rw [hbody]
    unfold instructionTokens
    simp only [append_assoc, cons_append, nil_append]
    rfl
  have hnext (text : String) (hop : ∀ (opcode : Opcode) (us : Tokens),
      is (opcodeName opcode :: us) text = false) (hmark : ∀ us : Tokens, is (['%'] :: us) text = false) :
      is (resultTokens i ++ (opcodeName body.opcode :: (operationTokens body ++ ts))) text = false := by
    unfold resultTokens
    split
    · exact hmark _
    · exact hop _ _
  have hpositions := @parsePositions_tokens i scope scope' _ ((instructionTokens i p ++ ts).length + 1)
    p (h.fits hfits) hposition hscope hkept
    (hnext "file" (fun opcode _ => by cases opcode <;> rfl) fun _ => rfl)
    (hnext "line" (fun opcode _ => by cases opcode <;> rfl) fun _ => rfl) (by
      rw [htokens, length_append]
      omega)
  have hresult : parseResult (resultTokens i ++ (opcodeName body.opcode :: (operationTokens body ++ ts))) =
      _ := parseResult_tokens (show i.result.id < 2 ^ 32 by rw [hbody]; exact hid) body.opcode
  have hoperation := parseOperation_tokens hreads rfl hids hts
  rw [append_assoc, singleton_append] at hoperation
  have hstart : instructionStart i.hasResult scope' =
      { hasResult := i.hasResult, debugFile := i.debugFile, debugLine := i.debugLine } := by
    rw [instructionStart, hposition.1, hposition.2]
  have hscope' : scope' = ⟨scope.definitions ++ i.definition, i.debugFile, i.debugLine⟩ := by
    rw [← h.defines, ← hposition.1, ← hposition.2]
  rw [hstart] at hoperation
  have hdefine : defineResult scope.definitions body (if i.hasResult then some i.result.id else none) =
      some (i, scope.definitions ++ i.definition) := by
    cases hcase : i.hasResult with
    | true =>
      have hbodyResult : { body.result with id := i.result.id } = i.result := by rw [hbody]; rfl
      have hi : { body with result := { body.result with id := i.result.id } } = i := by
        rw [hbody]
        rfl
      have hfresh : define scope.definitions i.result = some (scope.definitions ++ [i.result]) :=
        define_eq_some.mpr ⟨h.fresh hcase, rfl⟩
      simp only [if_true, defineResult, hbodyResult, hfresh, some_bind,
        Instruction.definition, hcase]
      rw [← hi, ← hbodyResult]
    | false =>
      have hi : i = body := by
        rw [hbody, hzero hcase]
        show { body with result := { body.result with id := 0 } } = body
        rw [← show body.result.id = 0 from hnumber]
      rw [if_neg Bool.false_ne_true, Instruction.definition, hcase, if_neg Bool.false_ne_true,
        append_nil, hi]
      rfl
  have hsome : (if i.hasResult then some i.result.id else none).isSome = i.hasResult := by
    cases i.hasResult <;> rfl
  rw [htokens] at hpositions
  rw [htokens]
  simp only [parseInstruction, hpositions, hresult, hsome, hoperation, hdefine, some_bind]
  rw [← hscope']

/-! ## Blocks -/

/-- An instruction begins with a position, a result or the name of an opcode. -/
theorem instructionTokens_cons (i : Instruction) (p : Position) : ∃ t us,
    instructionTokens i p = t :: us ∧
      (t ∈ ["file".toList, "line".toList, ['%']] ∨ ∃ opcode, t = opcodeName opcode) := by
  unfold instructionTokens positionTokens
  split
  · exact ⟨_, _, rfl, .inl (by decide)⟩
  split
  · exact ⟨_, _, rfl, .inl (by decide)⟩
  unfold resultTokens
  split
  · exact ⟨_, _, rfl, .inl (by decide)⟩
  · exact ⟨_, _, rfl, .inr ⟨_, rfl⟩⟩

/-- So it does not go on with what is before, and does not end a block. -/
theorem is_instructionTokens {text : String} (h : text ∈ ["align", ",", "^", "\x7d"]) (i : Instruction)
    (p : Position) (us : Tokens) : is (instructionTokens i p ++ us) text = false := by
  obtain ⟨t, vs, htokens, ht⟩ := instructionTokens_cons i p
  rw [htokens, cons_append]
  simp only [mem_cons, not_mem_nil, or_false] at h ht
  rcases ht with (rfl | rfl | rfl) | ⟨opcode, rfl⟩
  · rcases h with rfl | rfl | rfl | rfl <;> rfl
  · rcases h with rfl | rfl | rfl | rfl <;> rfl
  · rcases h with rfl | rfl | rfl | rfl <;> rfl
  · rcases h with rfl | rfl | rfl | rfl <;> cases opcode <;> rfl

theorem token_instructionTokens (i : Instruction) (p : Position) (us : Tokens) :
    (token (instructionTokens i p ++ us)).isEmpty = false := by
  obtain ⟨t, vs, htokens, ht⟩ := instructionTokens_cons i p
  rw [htokens, cons_append]
  simp only [mem_cons, not_mem_nil, or_false] at ht
  rcases ht with (rfl | rfl | rfl) | ⟨opcode, rfl⟩
  · rfl
  · rfl
  · rfl
  · cases opcode <;> rfl

/-- Once an instruction has a file or a line, those behind it have one too. -/
def PositionsKept (is : List Instruction) : Prop :=
  is.Pairwise fun i j => (j.debugFile = 0 → i.debugFile = 0) ∧ (j.debugLine = 0 → i.debugLine = 0)

theorem Position.after_kept {p : Position}
    (hkept : (i.debugFile = 0 → p.file = 0) ∧ (i.debugLine = 0 → p.line = 0)) :
    (p.after i).file = i.debugFile ∧ (p.after i).line = i.debugLine := by
  have hone {n k : Nat} (h : n = 0 → k = 0) : (if n ≠ 0 ∧ n ≠ k then n else k) = n := by
    split <;> omega
  exact ⟨hone hkept.1, hone hkept.2⟩

theorem foldl_after_zero : (is : List Instruction) → (p : Position) →
    (p.file = 0 → (∀ i ∈ is, i.debugFile = 0) → (is.foldl Position.after p).file = 0) ∧
      (p.line = 0 → (∀ i ∈ is, i.debugLine = 0) → (is.foldl Position.after p).line = 0)
  | [], _ => ⟨fun h _ => h, fun h _ => h⟩
  | i :: is, p => by
    obtain ⟨hfile, hline⟩ := foldl_after_zero is (p.after i)
    constructor
    · intro hp h
      obtain ⟨hi, his⟩ := forall_mem_cons.mp h
      refine hfile ?_ his
      show (if i.debugFile ≠ 0 ∧ i.debugFile ≠ p.file then i.debugFile else p.file) = 0
      rw [if_neg fun hne => hne.1 hi, hp]
    · intro hp h
      obtain ⟨hi, his⟩ := forall_mem_cons.mp h
      refine hline ?_ his
      show (if i.debugLine ≠ 0 ∧ i.debugLine ≠ p.line then i.debugLine else p.line) = 0
      rw [if_neg fun hne => hne.1 hi, hp]

/-- What ends the instructions of a block -/
structure EndsBlock (ts : Tokens) : Prop where
  ends : ((token ts).isEmpty || is ts "^" || is ts "\x7d") = true
  behind : Behind ts

theorem Step.ids (h : Step scope i scope') (hids : ∀ v ∈ scope.definitions, v.id < 2 ^ 32) :
    ∀ v ∈ scope'.definitions, v.id < 2 ^ 32 := by
  obtain ⟨body, id, -, hbody, hid, -⟩ := h.reads
  intro v hv
  rw [h.defines, mem_append, Instruction.definition] at hv
  rcases hv with hv | hv
  · exact hids v hv
  · split at hv
    · obtain rfl := mem_singleton.mp hv
      rw [hbody]
      exact hid
    · cases hv

theorem parseInstructions_tokens {is : List Instruction} (h : Steps scope is scope') :
    ∀ {fuel : Nat} {p : Position} {ts : Tokens}, is.length < fuel →
      (∀ v ∈ scope.definitions, v.id < 2 ^ 32) → scope.Fits →
      (scope.debugFile = p.file ∧ scope.debugLine = p.line) →
      (∀ i ∈ is, (i.debugFile = 0 → p.file = 0) ∧ (i.debugLine = 0 → p.line = 0)) →
      PositionsKept is → EndsBlock ts →
      parseInstructions scope fuel (instructionsTokens p is ++ ts) = some ((is, scope'), ts) ∧
        scope'.debugFile = (is.foldl Position.after p).file ∧
        scope'.debugLine = (is.foldl Position.after p).line ∧ scope'.Fits ∧
        ∀ v ∈ scope'.definitions, v.id < 2 ^ 32 := by
  induction h with
  | nil =>
    intro fuel p ts hfuel hids hfits hscope _ _ hts
    obtain ⟨fuel, rfl⟩ : ∃ k, fuel = k + 1 := ⟨fuel - 1, by omega⟩
    refine ⟨?_, hscope.1, hscope.2, hfits, hids⟩
    rw [parseInstructions, show instructionsTokens p [] ++ ts = ts from rfl, hts.ends, if_pos rfl]
  | @cons scope scope' scope'' i is head tail ih =>
    intro fuel p ts hfuel hids hfits hscope hkept hpairwise hts
    obtain ⟨fuel, rfl⟩ : ∃ k, fuel = k + 1 := ⟨fuel - 1, by omega⟩
    obtain ⟨hi, his⟩ := forall_mem_cons.mp hkept
    obtain ⟨hbehind, hpairwise⟩ := pairwise_cons.mp hpairwise
    obtain ⟨hfile, hline⟩ := Position.after_kept hi
    have hnext : Behind (instructionsTokens (p.after i) is ++ ts) := by
      cases is with
      | nil => exact hts.behind
      | cons j is =>
        rw [instructionsTokens, append_assoc]
        exact ⟨is_instructionTokens (by decide) _ _ _, is_instructionTokens (by decide) _ _ _⟩
    have hread := parseInstruction_tokens head hids hfits hscope hi hnext
    have hscope' : scope'.debugFile = (p.after i).file ∧ scope'.debugLine = (p.after i).line := by
      rw [hfile, hline]
      exact head.position
    have hkept' : ∀ j ∈ is, (j.debugFile = 0 → (p.after i).file = 0) ∧
        (j.debugLine = 0 → (p.after i).line = 0) := by
      rw [hfile, hline]
      exact hbehind
    obtain ⟨hrest, hafter⟩ := @ih fuel (p.after i) ts (Nat.lt_of_succ_lt_succ hfuel) (head.ids hids)
      (head.fits hfits) hscope' hkept' hpairwise hts
    refine ⟨?_, hafter⟩
    rw [instructionsTokens, append_assoc, parseInstructions, token_instructionTokens,
      is_instructionTokens (by decide), is_instructionTokens (by decide)]
    simp only [Bool.or_self, Bool.false_eq_true, if_false, hread, hrest, some_bind]

theorem instructionsTokens_length : (is : List Instruction) → (p : Position) →
    is.length ≤ (instructionsTokens p is).length
  | [], _ => Nat.le_refl _
  | i :: is, p => by
    obtain ⟨t, us, htokens, -⟩ := instructionTokens_cons i p
    have hrest := instructionsTokens_length is (p.after i)
    rw [instructionsTokens, htokens, length_append, length_cons, length_cons]
    omega

theorem Steps.append_inv {is js : List Instruction} {scope'' : Scope} :
    {scope : Scope} → Steps scope (is ++ js) scope'' →
      ∃ scope', Steps scope is scope' ∧ Steps scope' js scope'' := by
  induction is with
  | nil => exact fun h => ⟨_, .nil, h⟩
  | cons i is ih =>
    intro scope h
    cases h with
    | cons head tail =>
      obtain ⟨scope', hsteps, hrest⟩ := ih tail
      exact ⟨scope', .cons head hsteps, hrest⟩

theorem endsBlock_brace (ts : Tokens) : EndsBlock (['}'] :: ts) := ⟨rfl, rfl, rfl⟩

theorem endsBlock_block (p : Position) (block : BasicBlock) (blocks : List BasicBlock) (ts : Tokens) :
    EndsBlock (blocksTokens p (block :: blocks) ++ ts) := ⟨rfl, rfl, rfl⟩

theorem parseBlocks_tokens : (blocks : List BasicBlock) → {fuel : Nat} → {scope scope' : Scope} →
    {p : Position} → blocks.length < fuel → Steps scope (blocks.flatMap (·.instructions)) scope' →
    (∀ v ∈ scope.definitions, v.id < 2 ^ 32) → scope.Fits →
    (scope.debugFile = p.file ∧ scope.debugLine = p.line) →
    (∀ i ∈ blocks.flatMap (·.instructions),
      (i.debugFile = 0 → p.file = 0) ∧ (i.debugLine = 0 → p.line = 0)) →
    PositionsKept (blocks.flatMap (·.instructions)) → (∀ block ∈ blocks, block.name ≠ []) →
    parseBlocks scope fuel (blocksTokens p blocks ++ ['}'] :: ts) = some (blocks, ['}'] :: ts)
  | [], fuel, scope, scope', p, hfuel, _, _, _, _, _, _, _ => by
    obtain ⟨fuel, rfl⟩ : ∃ k, fuel = k + 1 := ⟨fuel - 1, by omega⟩
    rfl
  | block :: blocks, fuel, scope, scope', p, hfuel, hsteps, hids, hfits, hscope, hkept, hpairwise,
      hnamed => by
      obtain ⟨fuel, rfl⟩ : ∃ k, fuel = k + 1 := ⟨fuel - 1, by omega⟩
      obtain ⟨hname, hnames⟩ := forall_mem_cons.mp hnamed
      rw [flatMap_cons] at hsteps hkept hpairwise
      obtain ⟨scope₁, hfirst, hrest⟩ := hsteps.append_inv
      obtain ⟨hpairFirst, hpairRest, hpairBoth⟩ := pairwise_append.mp hpairwise
      have hends : EndsBlock (blocksTokens (block.instructions.foldl Position.after p) blocks ++
          ['}'] :: ts) := by
        cases blocks with
        | nil => exact endsBlock_brace ts
        | cons next blocks => exact endsBlock_block _ next blocks _
      have hlength := instructionsTokens_length block.instructions p
      obtain ⟨hread, hfile, hline, hfits', hids'⟩ := @parseInstructions_tokens _ _ _ hfirst
        ((instructionsTokens p block.instructions ++
          (blocksTokens (block.instructions.foldl Position.after p) blocks ++ ['}'] :: ts)).length + 1)
        p _ (by rw [length_append]; omega) hids hfits hscope
        (fun i hi => hkept i (mem_append_left _ hi)) hpairFirst hends
      have hkept' : ∀ j ∈ blocks.flatMap (·.instructions),
          (j.debugFile = 0 → (block.instructions.foldl Position.after p).file = 0) ∧
            (j.debugLine = 0 → (block.instructions.foldl Position.after p).line = 0) := by
        intro j hj
        obtain ⟨hfileZero, hlineZero⟩ := foldl_after_zero block.instructions p
        obtain ⟨hjFile, hjLine⟩ := hkept j (mem_append_right _ hj)
        exact ⟨fun h => hfileZero (hjFile h) fun i hi => (hpairBoth i hi j hj).1 h,
          fun h => hlineZero (hjLine h) fun i hi => (hpairBoth i hi j hj).2 h⟩
      have htail := parseBlocks_tokens blocks (Nat.lt_of_succ_lt_succ hfuel) hrest hids' hfits'
        ⟨hfile, hline⟩ hkept' hpairRest hnames
      have hmark (us : Tokens) : is (['^'] :: us) "^" = true := rfl
      have hcaret (us : Tokens) : expect "^" (['^'] :: us) = some us := rfl
      have hcolon (us : Tokens) : expect ":" ([':'] :: us) = some us := rfl
      have hblock : parseBlock scope (['^'] :: block.name :: [':'] ::
          (instructionsTokens p block.instructions ++
            (blocksTokens (block.instructions.foldl Position.after p) blocks ++ ['}'] :: ts))) =
          some ((block, scope₁), blocksTokens (block.instructions.foldl Position.after p) blocks ++
            ['}'] :: ts) := by
        simp only [parseBlock, hcaret, hcolon, readName_back hname, hread, some_bind]
      have htokens : blocksTokens p (block :: blocks) ++ ['}'] :: ts = ['^'] :: block.name :: [':'] ::
          (instructionsTokens p block.instructions ++
            (blocksTokens (block.instructions.foldl Position.after p) blocks ++ ['}'] :: ts)) := by
        simp only [blocksTokens, blockNameTokens, append_assoc, cons_append, nil_append]
      rw [htokens, parseBlocks, hmark]
      simp only [Bool.not_true, Bool.false_eq_true, if_false, hblock, htail, some_bind]

/-! ## Functions -/

theorem define_fresh {value : Value} (h : (numbers (definitions ++ [value])).Nodup) :
    define definitions value = some (definitions ++ [value]) := by
  refine define_eq_some.mpr ⟨fun v hv hsame => ?_, rfl⟩
  rw [numbers, map_append, nodup_append] at h
  exact h.2.2 _ (mem_map_of_mem hv) _ (mem_singleton_self _) hsame

theorem parseAggregateGroup_back {n : Nat} (h : n < 2 ^ 32) (hts : is ts "abiagg" = false) :
    parseAggregateGroup ((if n ≠ 0 then ["abiagg".toList, outUnsigned n] else []) ++ ts) =
      some (n, ts) := by
  by_cases hzero : n = 0
  · subst hzero
    show parseAggregateGroup ts = _
    rw [parseAggregateGroup, hts]
    rfl
  · have hmark : is ("abiagg".toList :: outUnsigned n :: ts) "abiagg" = true := rfl
    have hnumber : readNumber (outUnsigned n :: ts) = some ((n : Int), ts) :=
      readNumber_unsigned (by omega)
    have hpos : decide ((0 : Int) < n) = true := decide_eq_true (by omega)
    have hmod : ((n : Int) % 2 ^ 32).toNat = n := by omega
    rw [if_pos hzero]
    show parseAggregateGroup ("abiagg".toList :: outUnsigned n :: ts) = _
    rw [parseAggregateGroup, hmark, if_pos rfl, tail_cons, hnumber]
    simp only [hpos, hmod, check_true, some_bind]

theorem is_type {text : String} (h : text ∈ [")", "..."]) (type : Ty) (us : Tokens) :
    is (typeName type :: us) text = false := by
  simp only [mem_cons, not_mem_nil, or_false] at h
  rcases h with rfl | rfl <;> cases type <;> rfl

/-- The tokens of the parameters, and of the dots -/
def parametersTokens (parameters : List Parameter) (isVariadic : Bool) : Tokens :=
  listTokens (parameters.map parameterTokens ++ if isVariadic then [["...".toList]] else [])

theorem parseParameters_tokens {isVariadic : Bool} : (ps : List Parameter) → {fuel : Nat} →
    {definitions : List Value} → ps.length < fuel →
    (numbers (definitions ++ ps.map (·.value))).Nodup → (∀ p ∈ ps, p.Fits) →
    parseParameters definitions fuel (parametersTokens ps isVariadic ++ [')'] :: ts) =
      some ((⟨ps, isVariadic⟩, definitions ++ ps.map (·.value)), [')'] :: ts)
  | [], fuel, definitions, hfuel, _, _ => by
    obtain ⟨fuel, rfl⟩ : ∃ k, fuel = k + 1 := ⟨fuel - 1, by omega⟩
    rw [map_nil, append_nil]
    cases isVariadic <;> rfl
  | p :: ps, fuel, definitions, hfuel, hnodup, hfits => by
    obtain ⟨fuel, rfl⟩ : ∃ k, fuel = k + 1 := ⟨fuel - 1, by omega⟩
    obtain ⟨⟨hid, hgroup⟩, hrest⟩ := forall_mem_cons.mp hfits
    have hnodup' : (numbers ((definitions ++ [p.value]) ++ ps.map (·.value))).Nodup := by
      rw [append_assoc]
      exact hnodup
    have hdefine : define definitions p.value = some (definitions ++ [p.value]) := by
      refine define_fresh ?_
      rw [numbers, map_append] at hnodup'
      exact (nodup_append.mp hnodup').1
    have hclose (us : Tokens) : is (typeName p.value.type :: us) ")" = false :=
      is_type (by decide) _ _
    have hdots (us : Tokens) : is (typeName p.value.type :: us) "..." = false :=
      is_type (by decide) _ _
    have hresult (us : Tokens) : readResultID (['%'] :: outUnsigned p.value.id :: us) =
        some (p.value.id, us) := readResultID_back hid
    have hvalue : (⟨p.value.type, p.value.id⟩ : Value) = p.value := rfl
    by_cases hlast : ps = [] ∧ isVariadic = false
    · obtain ⟨rfl, rfl⟩ := hlast
      have htokens : parametersTokens [p] false ++ [')'] :: ts = typeName p.value.type :: ['%'] ::
          outUnsigned p.value.id ::
            ((if p.aggregateGroup ≠ 0 then ["abiagg".toList, outUnsigned p.aggregateGroup] else []) ++
              [')'] :: ts) := rfl
      have hgroup' := @parseAggregateGroup_back ([')'] :: ts) _ hgroup rfl
      have hend : is ([')'] :: ts) ")" = true := rfl
      rw [htokens, parseParameters, hclose, hdots]
      simp only [Bool.false_eq_true, if_false, readType_name, hresult, hvalue, hdefine, hgroup', hend,
        if_true, some_bind, map_cons, map_nil]
    · have hmore : parametersTokens (p :: ps) isVariadic =
          parameterTokens p ++ [[',']] ++ parametersTokens ps isVariadic := by
        cases ps with
        | nil =>
          cases isVariadic with
          | false => exact absurd ⟨rfl, rfl⟩ hlast
          | true => rfl
        | cons q ps => rfl
      have htokens : parametersTokens (p :: ps) isVariadic ++ [')'] :: ts = typeName p.value.type ::
          ['%'] :: outUnsigned p.value.id ::
            ((if p.aggregateGroup ≠ 0 then ["abiagg".toList, outUnsigned p.aggregateGroup] else []) ++
              [','] :: (parametersTokens ps isVariadic ++ [')'] :: ts)) := by
        rw [hmore]
        simp only [parameterTokens, valueTokens, append_assoc, cons_append, nil_append]
      have hgroup' := @parseAggregateGroup_back
        ([','] :: (parametersTokens ps isVariadic ++ [')'] :: ts)) _ hgroup rfl
      have hcomma (us : Tokens) : is ([','] :: us) ")" = false := rfl
      have hexpect (us : Tokens) : expect "," ([','] :: us) = some us := rfl
      have htail := @parseParameters_tokens isVariadic ps fuel _
        (Nat.lt_of_succ_lt_succ hfuel) hnodup' hrest
      rw [htokens, parseParameters, hclose, hdots]
      simp only [Bool.false_eq_true, if_false, readType_name, hresult, hvalue, hdefine, hgroup',
        hcomma, hexpect, htail, some_bind, map_cons,
        append_assoc, cons_append, nil_append]

theorem parametersTokens_length (ps : List Parameter) (isVariadic : Bool) :
    ps.length ≤ (parametersTokens ps isVariadic).length := by
  have hlength := listTokens_length
    (ps.map parameterTokens ++ if isVariadic then [["...".toList]] else []) (by
      intro us hus
      rcases mem_append.mp hus with hus | hus
      · obtain ⟨p, -, rfl⟩ := mem_map.mp hus
        nofun
      · split at hus
        · obtain rfl := mem_singleton.mp hus
          nofun
        · cases hus)
  rw [length_append, length_map] at hlength
  exact Nat.le_trans (Nat.le_add_right _ _) hlength

theorem blocksTokens_length : (blocks : List BasicBlock) → (p : Position) →
    blocks.length ≤ (blocksTokens p blocks).length
  | [], _ => Nat.le_refl _
  | block :: blocks, p => by
    have hrest := blocksTokens_length blocks (block.instructions.foldl Position.after p)
    simp only [blocksTokens, blockNameTokens, length_append, length_cons, length_nil]
    omega

theorem parseFunction_tokens {f : Function} (h : f.Parsed) (hkept : PositionsKept f.instructions) :
    parseFunction f.linkage (["func".toList, ['@'], f.name, ['(']] ++
      parametersTokens f.parameters f.isVariadic ++
      [[')'], "->".toList, typeName f.returnType, ['{']] ++ blocksTokens {} f.blocks ++ [['}']] ++ ts) =
        some (f, ts) := by
  obtain ⟨scope, hsteps⟩ := h.steps
  have hids : ∀ v ∈ f.arguments, v.id < 2 ^ 32 := by
    intro v hv
    obtain ⟨p, hp, rfl⟩ := mem_map.mp hv
    exact (h.parameters p hp).1
  have hlength := parametersTokens_length f.parameters f.isVariadic
  have hlength' := blocksTokens_length f.blocks {}
  have hparameters (us : Tokens) := @parseParameters_tokens us f.isVariadic f.parameters
    ((parametersTokens f.parameters f.isVariadic ++ [')'] :: us).length + 1) []
    (by rw [length_append]; omega) h.arguments h.parameters
  have hblocks := @parseBlocks_tokens ts f.blocks ((blocksTokens {} f.blocks ++ ['}'] :: ts).length + 1)
    { definitions := f.arguments } scope {} (by rw [length_append]; omega) hsteps hids
    ⟨Nat.two_pow_pos 32, Nat.two_pow_pos 32⟩ ⟨rfl, rfl⟩ (fun _ _ => ⟨fun _ => rfl, fun _ => rfl⟩) hkept
    h.blocksNamed
  have hfunc (us : Tokens) : expect "func" ("func".toList :: us) = some us := rfl
  have hat (us : Tokens) : expect "@" (['@'] :: us) = some us := rfl
  have hopening (us : Tokens) : expect "(" (['('] :: us) = some us := rfl
  have hclosing (us : Tokens) : expect ")" ([')'] :: us) = some us := rfl
  have harrow (us : Tokens) : expect "->" ("->".toList :: us) = some us := rfl
  have hbrace (us : Tokens) : expect "\x7b" (['{'] :: us) = some us := rfl
  have hend (us : Tokens) : expect "\x7d" (['}'] :: us) = some us := rfl
  have htargets : (f.blocks.all fun block => block.instructions.all (targetsFound f.blocks)) = true :=
    all_eq_true.mpr fun block hblock => all_eq_true.mpr (h.targets block hblock)
  have harguments : [] ++ f.parameters.map (·.value) = f.arguments := rfl
  simp only [parseFunction, append_assoc, cons_append, nil_append, hfunc, hat,
    readName_back h.named, hopening, hparameters, harguments, hclosing, harrow, readType_name, hbrace,
    hblocks, hend, h.distinct, htargets, check_true, some_bind]

/-! ## Modules -/

variable {m : Module}

theorem parseTarget_tokens {n : Nat} (hwidth : n = 32 ∨ n = 64) (hm : m.pointerBits = 0) :
    parseTarget m ("target".toList :: "ptrbits".toList :: outUnsigned n :: ts) =
      some ({ m with pointerBits := n }, ts) := by
  have htarget (us : Tokens) : expect "target" ("target".toList :: us) = some us := rfl
  have hptrbits (us : Tokens) : expect "ptrbits" ("ptrbits".toList :: us) = some us := rfl
  have hnumber : readNumber (outUnsigned n :: ts) = some ((n : Int), ts) :=
    readNumber_unsigned (by omega)
  have hbits : (decide ((n : Int) = 32) || decide ((n : Int) = 64)) = true := by
    rcases hwidth with rfl | rfl <;> rfl
  simp only [parseTarget, htarget, hptrbits, hnumber, hbits, hm, decide_true, check_true,
    Int.toNat_natCast, some_bind]

theorem parseSource_tokens {s : SourceFile} (h : s.Parsed) (hid : s.id ≠ 0)
    (hfresh : ∀ previous ∈ m.sourceFiles, previous.id ≠ s.id) :
    parseSource m (sourceTokens s ++ ts) =
      some ({ m with sourceFiles := m.sourceFiles ++ [s] }, ts) := by
  have hsource (us : Tokens) : expect "source" ("source".toList :: us) = some us := rfl
  have hnone : (!m.sourceFiles.any fun previous => previous.id = s.id) = true := by
    rw [Bool.not_eq_true', any_eq_false]
    exact fun previous hprevious => fun hsame => hfresh previous hprevious (of_decide_eq_true hsame)
  simp only [parseSource, sourceTokens, cons_append, nil_append, hsource,
    readDebugNumber_back hid h.1, readName_back h.2, hnone, check_true, some_bind]

theorem is_number {text : String} (h : text ∈ ["\x7b", "\x7d"]) (n : Int) (us : Tokens) :
    is (outSigned n :: us) text = false := by
  have hfirst {ch : Char} (w : Text) (hch : ch.isDigit = true ∨ ch = '-') :
      is ((ch :: w) :: us) text = false := by
    have hnul : ch ≠ nul := by
      rintro rfl
      exact absurd hch (by decide)
    have hreference : reference (ch :: w) = ch :: reference w :=
      takeWhile_cons_of_pos (decide_eq_true hnul)
    refine decide_eq_false fun heq => ?_
    rw [token, headD_cons, hreference] at heq
    simp only [mem_cons, not_mem_nil, or_false] at h
    rcases h with rfl | rfl
    · cases (List.cons.inj heq).1
      exact absurd hch (by decide)
    · cases (List.cons.inj heq).1
      exact absurd hch (by decide)
  unfold outSigned
  split
  · exact hfirst _ (.inr rfl)
  · have hdigits := isDigit_toDigits n.natAbs
    cases hd : Nat.toDigits 10 n.natAbs with
    | nil => exact absurd hd Nat.toDigits_ne_nil
    | cons ch w =>
      rw [hd] at hdigits
      exact hfirst w (.inl (hdigits ch mem_cons_self))

theorem parseValues_tokens : (values : List Int) → {fuel : Nat} → values.length < fuel →
    (∀ n ∈ values, Signed n) →
    parseValues fuel (listTokens (values.map fun n => [outSigned n]) ++ ['}'] :: ts) =
      some (values, ['}'] :: ts)
  | [], fuel, hfuel, _ => by
    obtain ⟨fuel, rfl⟩ : ∃ k, fuel = k + 1 := ⟨fuel - 1, by omega⟩
    rfl
  | n :: values, fuel, hfuel, h => by
    obtain ⟨fuel, rfl⟩ : ∃ k, fuel = k + 1 := ⟨fuel - 1, by omega⟩
    obtain ⟨hn, hvalues⟩ := forall_mem_cons.mp h
    have hopen (us : Tokens) : is (outSigned n :: us) "\x7d" = false := is_number (by decide) n us
    have hclose (us : Tokens) : is (['}'] :: us) "\x7d" = true := rfl
    cases values with
    | nil =>
      show parseValues (fuel + 1) (outSigned n :: ['}'] :: ts) = _
      rw [parseValues, hopen]
      simp only [Bool.false_eq_true, if_false, readNumber_signed_back hn, hclose, if_true,
        some_bind]
    | cons k values =>
      have hcomma (us : Tokens) : is ([','] :: us) "\x7d" = false := rfl
      have hexpect (us : Tokens) : expect "," ([','] :: us) = some us := rfl
      have htail := parseValues_tokens (k :: values) (Nat.lt_of_succ_lt_succ hfuel) hvalues
      show parseValues (fuel + 1) (outSigned n :: [','] ::
        (listTokens ((k :: values).map fun n => [outSigned n]) ++ ['}'] :: ts)) = _
      rw [parseValues, hopen]
      simp only [Bool.false_eq_true, if_false, readNumber_signed_back hn, hcomma, hexpect, htail,
        some_bind]

/-- An initializer is read back onto the global without it. -/
theorem parseInitializer_tokens {g : Global} (h : g.Initialized) (hdefines : g.isDeclaration = false)
    (hcount : 0 < g.elementCount) :
    parseInitializer { g with initializer := 0, initializerHigh := 0, initializerValues := [] }
      ([['=']] ++ (if g.initializerValues.length ≠ 0 then
        [['{']] ++ listTokens (g.initializerValues.map fun value => [outSigned value]) ++ [['}']]
      else [outSigned g.initializer] ++ highTokens g.type g.initializerHigh) ++ ts) = some (g, ts) := by
  have hequals (us : Tokens) : expect "=" (['='] :: us) = some us := rfl
  obtain ⟨name, type, number, numberHigh, count, isDeclaration, isReadOnly, linkage, values⟩ := g
  cases h with
  | declaration declares => cases hdefines.symm.trans declares
  | number _ range rangeHigh high none =>
    have hvalues : values = [] := none
    subst hvalues
    have hbrace (us : Tokens) : is (outSigned number :: us) "\x7b" = false := is_number (by decide) _ us
    have hnumber (us : Tokens) : readNumber (outSigned number :: us) = some (number, us) :=
      readNumber_signed_back range
    show parseInitializer _ (['='] :: outSigned number :: (highTokens type numberHigh ++ ts)) = _
    unfold highTokens
    by_cases hf128 : type = .f128
    · subst hf128
      have hcomma (us : Tokens) : expect "," ([','] :: us) = some us := rfl
      have hhigh (us : Tokens) : readNumber (outSigned numberHigh :: us) = some (numberHigh, us) :=
        readNumber_signed_back rangeHigh
      simp only [parseInitializer, cons_append, nil_append, hequals, hbrace,
        Bool.false_eq_true, if_false, hnumber, if_true, hcomma, hhigh, some_bind]
    · have hzero : numberHigh = 0 := high hf128
      subst hzero
      simp only [parseInitializer, nil_append, hequals, hbrace, Bool.false_eq_true, if_false,
        hnumber, hf128, some_bind]
  | values _ zero zeroHigh range hlength =>
    have hnumber : number = 0 := zero
    have hnumberHigh : numberHigh = 0 := zeroHigh
    subst hnumber hnumberHigh
    have hbrace (us : Tokens) : is (['{'] :: us) "\x7b" = true := rfl
    have hend (us : Tokens) : expect "\x7d" (['}'] :: us) = some us := rfl
    have hne : values.length ≠ 0 := by
      have hlength : (values.length : Int) = count := hlength
      have hcount : 0 < count := hcount
      omega
    have hcheck : decide ((values.length : Int) = count) = true := decide_eq_true hlength
    have hfuel : values.length < (['{'] :: (listTokens (values.map fun n => [outSigned n]) ++
        ['}'] :: ts)).length := by
      have hcount := listTokens_length (values.map fun n => [outSigned n]) (by
        intro us hus
        obtain ⟨n, -, rfl⟩ := mem_map.mp hus
        nofun)
      rw [length_map] at hcount
      rw [length_cons, length_append]
      omega
    have hread := @parseValues_tokens ts values _ hfuel range
    rw [if_pos hne]
    simp only [parseInitializer, append_assoc, cons_append, nil_append, hequals, hbrace,
      if_true, tail_cons, hread, hend, hcheck, check_true, some_bind]

end Unisym.Lango
