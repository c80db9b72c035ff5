/-
# `CloverTokens` — the tokens of a printed module

Every part of what is printed is closed, or open up to the space or the mark behind it, with the
tokens that are given here.  So a module whose names are plain is printed to its tokens.
-/
import Unisym.Lango.CloverLexerSpec
import Unisym.Lango.CloverParser

namespace Unisym.Lango

open List

variable {a b : Text} {ts us : Tokens}

/-! ## The tokens -/

def valueTokens (value : Value) : Tokens := [['%'], outUnsigned value.id]

def blockNameTokens (name : Text) : Tokens := [['^'], name]

/-- Lists of tokens with commas between -/
def listTokens : List Tokens → Tokens
  | [] => []
  | [ts] => ts
  | ts :: rest => ts ++ [[',']] ++ listTokens rest

def alignmentTokens (alignment : Nat) : Tokens :=
  if alignment ≠ 0 then ["align".toList, outUnsigned alignment] else []

/-- The number of elements, unless it is one -/
def countTokens (count : Int) : Tokens := if count > 1 then [[','], outSigned count] else []

/-- The second word of a number of 128 bits -/
def highTokens (type : Ty) (high : Int) : Tokens :=
  if type = .f128 then [[','], outSigned high] else []

def pairTokens (i : Instruction) : Tokens :=
  valueTokens (i.operand 0) ++ [[',']] ++ valueTokens (i.operand 1)

def argumentTokens (operand : Value) : Tokens := [typeName operand.type] ++ valueTokens operand

/-- What is behind the name of the operation -/
def operationTokens (i : Instruction) : Tokens :=
  match i.opcode with
  | .const => [typeName i.type, outSigned i.immediate]
  | .fconst => [typeName i.type, outSigned i.immediate] ++ highTokens i.type i.immediateHigh
  | .local => [typeName i.type] ++ countTokens i.immediate ++ alignmentTokens i.alignment
  | .load => [typeName i.type, [',']] ++ valueTokens (i.operand 0) ++ alignmentTokens i.alignment
  | .store => [typeName i.type] ++ pairTokens i ++ alignmentTokens i.alignment
  | .mov | .add | .sub | .mul | .sdiv | .udiv | .srem | .urem | .and | .or | .xor | .shl | .ashr
  | .lshr =>
      [typeName i.type] ++ valueTokens (i.operand 0) ++
        if i.operands.length > 1 then [[',']] ++ valueTokens (i.operand 1) else []
  | .ptradd | .fadd | .fsub | .fmul | .fdiv => [typeName i.type] ++ pairTokens i
  | .icmp => [predicateName i.predicate, typeName i.type] ++ pairTokens i
  | .fcmp => [floatPredicateName i.floatPredicate, typeName i.type] ++ pairTokens i
  | .zext | .sext | .trunc | .inttoptr | .ptrtoint | .sitofp | .uitofp | .fptosi | .fptoui | .fpext
  | .fptrunc =>
      [typeName (i.operand 0).type] ++ valueTokens (i.operand 0) ++ ["to".toList, typeName i.type]
  | .globaladdr => [['@'], i.name]
  | .call =>
      [typeName i.type, ['@'], i.callee, ['(']] ++ listTokens (i.operands.map argumentTokens) ++ [[')']]
  | .jmp =>
      if i.operands.length ≠ 0 then
        ["i1".toList] ++ valueTokens (i.operand 0) ++ [[',']] ++ blockNameTokens i.target ++ [[',']] ++
          blockNameTokens i.targetFalse
      else blockNameTokens i.target
  | .ret => [typeName i.type] ++ if i.type ≠ .void then valueTokens (i.operand 0) else []

def positionTokens (i : Instruction) (p : Position) : Tokens :=
  (if i.debugFile ≠ 0 ∧ i.debugFile ≠ p.file then ["file".toList, outUnsigned i.debugFile] else []) ++
    (if i.debugLine ≠ 0 ∧ i.debugLine ≠ p.line then ["line".toList, outUnsigned i.debugLine] else [])

def resultTokens (i : Instruction) : Tokens :=
  if i.hasResult then valueTokens i.result ++ [['=']] else []

def instructionTokens (i : Instruction) (p : Position) : Tokens :=
  positionTokens i p ++ resultTokens i ++ [opcodeName i.opcode] ++ operationTokens i

def instructionsTokens (p : Position) : List Instruction → Tokens
  | [] => []
  | i :: is => instructionTokens i p ++ instructionsTokens (p.after i) is

def blocksTokens (p : Position) : List BasicBlock → Tokens
  | [] => []
  | block :: blocks =>
      blockNameTokens block.name ++ [[':']] ++ instructionsTokens p block.instructions ++
        blocksTokens (block.instructions.foldl Position.after p) blocks

def parameterTokens (parameter : Parameter) : Tokens :=
  [typeName parameter.value.type] ++ valueTokens parameter.value ++
    if parameter.aggregateGroup ≠ 0 then ["abiagg".toList, outUnsigned parameter.aggregateGroup] else []

def linkageTokens (linkage : Linkage) : Tokens :=
  if linkage = .internal then ["internal".toList] else []

def functionTokens (f : Function) : Tokens :=
  linkageTokens f.linkage ++ ["func".toList, ['@'], f.name, ['(']] ++
    listTokens (f.parameters.map parameterTokens ++ if f.isVariadic then [["...".toList]] else []) ++
    [[')'], "->".toList, typeName f.returnType, ['{']] ++ blocksTokens {} f.blocks ++ [['}']]

def sourceTokens (source : SourceFile) : Tokens :=
  ["source".toList, outUnsigned source.id, source.path]

def globalHeadTokens (g : Global) : Tokens :=
  [if g.isReadOnly then "constant".toList else "global".toList, ['@'], g.name, typeName g.type] ++
    countTokens g.elementCount

def globalTokens (g : Global) : Tokens :=
  if g.isDeclaration then ["declare".toList] ++ globalHeadTokens g
  else
    linkageTokens g.linkage ++ globalHeadTokens g ++ [['=']] ++
      if g.initializerValues.length ≠ 0 then
        [['{']] ++ listTokens (g.initializerValues.map fun value => [outSigned value]) ++ [['}']]
      else [outSigned g.initializer] ++ highTokens g.type g.initializerHigh

def moduleTokens (m : Module) : Tokens :=
  (if m.pointerBits ≠ 0 then ["target".toList, "ptrbits".toList, outUnsigned m.pointerBits] else []) ++
    m.sourceFiles.flatMap sourceTokens ++ m.globals.flatMap globalTokens ++
    m.functions.flatMap functionTokens

/-! ## Words -/

theorem Closed.congr (h : Closed a ts) (heq : ts = us) : Closed a us := heq ▸ h

theorem Open.congr (h : Open a ts) (heq : ts = us) : Open a us := heq ▸ h

theorem closed_text (a : Text) (ts : Tokens) (hends : closes a = true) (hlex : lex a = ts) :
    Closed a ts := hlex ▸ closed_of_closes a hends

theorem closed_space : Closed " ".toList [] := closed_text _ _ rfl rfl

theorem closed_newline : Closed "\n".toList [] := closed_text _ _ rfl rfl

theorem closed_comma : Closed ", ".toList [[',']] := closed_text _ _ rfl rfl

theorem open_type (type : Ty) : Open (typeName type) [typeName type] := by
  have hplain : Plain (typeName type) := by cases type <;> rfl
  exact hplain.open.2

theorem open_opcode (opcode : Opcode) : Open (opcodeName opcode) [opcodeName opcode] := by
  have hplain : Plain (opcodeName opcode) := by unfold Plain; cases opcode <;> decide +kernel
  exact hplain.open.2

theorem open_predicate (predicate : ICmpPredicate) :
    Open (predicateName predicate) [predicateName predicate] := by
  have hplain : Plain (predicateName predicate) := by cases predicate <;> rfl
  exact hplain.open.2

theorem open_floatPredicate (predicate : FCmpPredicate) :
    Open (floatPredicateName predicate) [floatPredicateName predicate] := by
  have hplain : Plain (floatPredicateName predicate) := by cases predicate <;> rfl
  exact hplain.open.2

theorem digit_word {ch : Char} (h : ch.isDigit = true) :
    isWordChar ch = true ∧ ch ≠ nul ∧ ch ≠ '"' := by
  have hne (c : Char) (hc : c.isDigit = false) : ch ≠ c := by
    rintro rfl
    exact absurd (h.symm.trans hc) (by decide)
  refine ⟨isWordChar_iff.mpr ⟨?_, hne _ rfl, ?_, hne _ rfl⟩, hne _ rfl, hne _ rfl⟩
  · simp only [isSpace, hne ' ' rfl, hne '\t' rfl, hne '\r' rfl, hne '\n' rfl, decide_false,
      Bool.or_false]
  · refine Bool.eq_false_iff.mpr fun hmark => ?_
    have hmem := isPunctuation_iff.mp hmark
    simp only [mem_cons, not_mem_nil, or_false] at hmem
    rcases hmem with rfl | rfl | rfl | rfl | rfl | rfl | rfl | rfl | rfl | rfl <;>
      exact absurd h (by decide)

theorem open_digits (n : Nat) :
    Open (Nat.toDigits 10 n) [Nat.toDigits 10 n] ∧
      Open ('-' :: Nat.toDigits 10 n) ['-' :: Nat.toDigits 10 n] := by
  have hdigit : ∀ c ∈ Nat.toDigits 10 n, c.isDigit = true := fun c hc =>
    Nat.isDigit_of_mem_toDigits (by decide) (by decide) hc
  have hword : ∀ c ∈ Nat.toDigits 10 n, isWordChar c = true := fun c hc =>
    (digit_word (hdigit c hc)).1
  have hnul : nul ∉ Nat.toDigits 10 n := fun h => (digit_word (hdigit _ h)).2.1 rfl
  cases hd : Nat.toDigits 10 n with
  | nil => exact absurd hd Nat.toDigits_ne_nil
  | cons c w =>
    rw [hd] at hdigit hword hnul
    have hc := digit_word (hdigit c mem_cons_self)
    obtain ⟨hch, hw⟩ := forall_mem_cons.mp hword
    refine ⟨open_word (.inl hch) hw hnul hc.2.2, open_word (.inr ⟨rfl, ?_⟩) hword ?_ (by decide)⟩
    · rintro h
      cases h
      exact absurd (hdigit '>' mem_cons_self) (by decide)
    · exact not_mem_cons_of_ne_of_not_mem (by decide) hnul

theorem open_unsigned (n : Nat) : Open (outUnsigned n) [outUnsigned n] := (open_digits n).1

theorem open_signed (n : Int) : Open (outSigned n) [outSigned n] := by
  unfold outSigned
  split
  · exact (open_digits _).2
  · exact (open_digits _).1

theorem open_value (value : Value) : Open (printValue value) (valueTokens value) := by
  have hmark : Closed ['%'] [['%']] := closed_text _ _ rfl rfl
  exact hmark.appendOpen (open_unsigned value.id)

theorem open_name {name : Text} (h : Plain name) : Open (reference name) [name] := by
  obtain ⟨hreference, hopen⟩ := h.open
  rw [hreference]
  exact hopen

theorem open_blockName {name : Text} (h : Plain name) :
    Open (printBlockName name) (blockNameTokens name) := by
  have hmark : Closed ['^'] [['^']] := closed_text _ _ rfl rfl
  exact hmark.appendOpen (open_name h)

/-! ## Instructions -/

/-- An optional part that is open, and begins with what ends a word -/
theorem Open.optional {c : Prop} [Decidable c] (h : Open a ts) (h' : Open b us) (hb : ends b = true) :
    Open (a ++ if c then b else []) (ts ++ if c then us else []) := by
  split
  · exact h.appendOpen h' hb
  · rw [append_nil, append_nil]
    exact h

theorem Open.alignment (h : Open a ts) (i : Instruction) :
    Open (a ++ printAlignment i) (ts ++ alignmentTokens i.alignment) := by
  have halign : Closed " align ".toList ["align".toList] := closed_text _ _ rfl rfl
  exact h.optional (halign.appendOpen (open_unsigned _)) rfl

theorem Open.comma (h : Open a ts) (h' : Open b us) :
    Open (a ++ ", ".toList ++ b) (ts ++ [[',']] ++ us) :=
  (h.append closed_comma rfl).appendOpen h'

theorem Open.space (h : Open a ts) (h' : Open b us) : Open (a ++ " ".toList ++ b) (ts ++ us) :=
  ((h.append closed_space rfl).appendOpen h').congr (by rw [append_nil])

theorem Open.newline (h : Open a ts) : Closed (a ++ "\n".toList) ts :=
  (h.append closed_newline rfl).congr (append_nil ts)

theorem open_list : (texts : List (Text × Tokens)) → (∀ entry ∈ texts, Open entry.1 entry.2) →
    Open (printList (texts.map (·.1))) (listTokens (texts.map (·.2)))
  | [], _ => Closed.nil.toOpen
  | [entry], h => h entry (mem_singleton_self _)
  | entry :: next :: texts, h => by
    obtain ⟨hentry, hrest⟩ := forall_mem_cons.mp h
    exact hentry.comma (open_list (next :: texts) hrest)

/-- The names of an instruction that are printed -/
def Instruction.names (i : Instruction) : List Text :=
  match i.opcode with
  | .globaladdr => [i.name]
  | .call => [i.callee]
  | .jmp => if i.operands.length ≠ 0 then [i.target, i.targetFalse] else [i.target]
  | _ => []

theorem open_operand (i : Instruction) :
    Open (opcodeName i.opcode ++ " ".toList ++ typeName i.type ++ " ".toList ++
      printValue (i.operand 0))
      ([opcodeName i.opcode] ++ [typeName i.type] ++ valueTokens (i.operand 0)) :=
  ((open_opcode i.opcode).space (open_type i.type)).space (open_value (i.operand 0))

theorem open_commaValue (value : Value) :
    Open (", ".toList ++ printValue value) ([[',']] ++ valueTokens value) :=
  closed_comma.appendOpen (open_value value)

theorem closed_binary (i : Instruction) :
    Closed (printBinary i) ([opcodeName i.opcode] ++ ([typeName i.type] ++ pairTokens i)) := by
  refine ((open_operand i).comma (open_value (i.operand 1))).newline.congr ?_
  simp only [pairTokens, append_assoc]

theorem closed_comparison {predicate : Text} (h : Open predicate [predicate]) (i : Instruction) :
    Closed (printComparison predicate i)
      ([opcodeName i.opcode] ++ ([predicate, typeName i.type] ++ pairTokens i)) := by
  have hopen := ((((open_opcode i.opcode).space h).space (open_type i.type)).space
    (open_value (i.operand 0))).comma (open_value (i.operand 1))
  refine hopen.newline.congr ?_
  simp only [pairTokens, append_assoc, cons_append, nil_append]

theorem closed_conversion (i : Instruction) :
    Closed (printConversion i) ([opcodeName i.opcode] ++
      ([typeName (i.operand 0).type] ++ valueTokens (i.operand 0) ++ ["to".toList, typeName i.type])) := by
  have hto : Closed " to ".toList ["to".toList] := closed_text _ _ rfl rfl
  have hopen := ((open_opcode i.opcode).space (open_type (i.operand 0).type)).space
    (open_value (i.operand 0))
  refine ((hopen.append hto rfl).appendOpen (open_type i.type)).newline.congr ?_
  simp only [append_assoc, cons_append, nil_append]

theorem closed_operation {i : Instruction} (hnames : ∀ name ∈ i.names, Plain name)
    (hname : i.opcode = .local → i.name = []) :
    Closed (printOperation i) ([opcodeName i.opcode] ++ operationTokens i) := by
  have harithmetic : Closed (opcodeName i.opcode ++ " ".toList ++ typeName i.type ++ " ".toList ++
      printValue (i.operand 0) ++
      (if i.operands.length > 1 then ", ".toList ++ printValue (i.operand 1) else []) ++ "\n".toList)
      ([opcodeName i.opcode] ++ ([typeName i.type] ++ valueTokens (i.operand 0) ++
        if i.operands.length > 1 then [[',']] ++ valueTokens (i.operand 1) else [])) := by
    refine ((open_operand i).optional (open_commaValue (i.operand 1)) rfl).newline.congr ?_
    simp only [append_assoc]
  have hfloat := closed_comparison (open_floatPredicate i.floatPredicate) i
  have hinteger := closed_comparison (open_predicate i.predicate) i
  have hbinary := closed_binary i
  have hconversion := closed_conversion i
  unfold Instruction.names at hnames
  unfold printOperation operationTokens
  cases hop : i.opcode <;> rw [hop] at harithmetic hfloat hinteger hbinary hconversion hnames
  case const =>
    have hconst : Closed "const ".toList ["const".toList] := closed_text _ _ rfl rfl
    exact ((hconst.appendOpen (open_type _)).space (open_signed _)).newline
  case fconst =>
    have hfconst : Closed "fconst ".toList ["fconst".toList] := closed_text _ _ rfl rfl
    have hhigh := closed_comma.appendOpen (open_signed i.immediateHigh)
    exact (((hfconst.appendOpen (open_type _)).space (open_signed _)).optional hhigh rfl).newline
  case «local» =>
    have hlocal : Closed "local ".toList ["local".toList] := closed_text _ _ rfl rfl
    have hcount := closed_comma.appendOpen (open_signed i.immediate)
    have hopen :=
      ((hlocal.appendOpen (open_type i.type)).optional (c := i.immediate > 1) hcount rfl).alignment i
    have hnone : ¬ i.name ≠ [] := fun h => h (hname hop)
    dsimp only
    rw [if_neg hnone, append_nil]
    exact hopen.newline
  case load =>
    have hload : Closed "load ".toList ["load".toList] := closed_text _ _ rfl rfl
    have hopen := (((hload.appendOpen (open_type i.type)).comma (open_value (i.operand 0))).alignment i)
    refine hopen.newline.congr ?_
    simp only [cons_append, nil_append]
    rfl
  case store =>
    have hstore : Closed "store ".toList ["store".toList] := closed_text _ _ rfl rfl
    have hopen := (((hstore.appendOpen (open_type i.type)).space (open_value (i.operand 0))).comma
      (open_value (i.operand 1))).alignment i
    refine hopen.newline.congr ?_
    simp only [pairTokens, append_assoc]
    rfl
  case icmp => exact hinteger
  case fcmp => exact hfloat
  case ptradd | fadd | fsub | fmul | fdiv => exact hbinary
  case zext | sext | trunc | inttoptr | ptrtoint | sitofp | uitofp | fptosi | fptoui | fpext
      | fptrunc => exact hconversion
  case globaladdr =>
    have hglobaladdr : Closed "globaladdr @".toList ["globaladdr".toList, ['@']] :=
      closed_text _ _ rfl rfl
    exact (hglobaladdr.appendOpen (open_name (hnames i.name (mem_singleton_self _)))).newline
  case call =>
    have hcall : Closed "call ".toList ["call".toList] := closed_text _ _ rfl rfl
    have hat : Closed " @".toList [['@']] := closed_text _ _ rfl rfl
    have hopening : Closed "(".toList [['(']] := closed_text _ _ rfl rfl
    have hclosing : Closed ")\n".toList [[')']] := closed_text _ _ rfl rfl
    have hlist := open_list (i.operands.map fun v => (printArgument v, argumentTokens v)) (by
      intro entry hentry
      obtain ⟨v, -, rfl⟩ := mem_map.mp hentry
      exact (open_type v.type).space (open_value v))
    rw [map_map, map_map] at hlist
    have hcallee := open_name (hnames i.callee (mem_singleton_self _))
    exact ((((hcall.appendOpen (open_type i.type)).append hat rfl).appendOpen hcallee).append
      hopening rfl).appendOpen hlist |>.append hclosing rfl
  case jmp =>
    have hjmp : Closed "jmp ".toList ["jmp".toList] := closed_text _ _ rfl rfl
    have hbit : Closed "i1 ".toList ["i1".toList] := closed_text _ _ rfl rfl
    dsimp only at hnames ⊢
    split at hnames
    case isTrue hcondition =>
      rw [if_pos hcondition, if_pos hcondition]
      have htarget := open_blockName (hnames i.target mem_cons_self)
      have hfalse := open_blockName
        (hnames i.targetFalse (mem_cons_of_mem _ (mem_singleton_self _)))
      exact (hjmp.appendOpen
        (((hbit.appendOpen (open_value _)).comma htarget).comma hfalse)).newline
    case isFalse hcondition =>
      rw [if_neg hcondition, if_neg hcondition]
      exact (hjmp.appendOpen
        (open_blockName (hnames i.target (mem_singleton_self _)))).newline
  case ret =>
    have hret : Closed "ret ".toList ["ret".toList] := closed_text _ _ rfl rfl
    have hvalue := closed_space.appendOpen (open_value (i.operand 0))
    exact ((hret.appendOpen (open_type i.type)).optional hvalue rfl).newline
  all_goals exact harithmetic

theorem Closed.optional {c : Prop} [Decidable c] (h : Closed a ts) :
    Closed (if c then a else []) (if c then ts else []) := by
  split
  · exact h
  · exact Closed.nil

/-- What an instruction has that is read, and names that are plain -/
structure Instruction.Prints (i : Instruction) : Prop where
  names : ∀ name ∈ i.names, Plain name
  unnamed : i.opcode = .local → i.name = []
  source : i.debugSource = []

theorem closed_position (i : Instruction) (p : Position) :
    Closed (printPosition i p) (positionTokens i p) := by
  have hfile : Closed "    file ".toList ["file".toList] := closed_text _ _ rfl rfl
  have hline : Closed "    line ".toList ["line".toList] := closed_text _ _ rfl rfl
  exact (hfile.appendOpen (open_unsigned i.debugFile)).newline.optional.append
    (hline.appendOpen (open_unsigned i.debugLine)).newline.optional

theorem closed_instruction {i : Instruction} (h : i.Prints) (p : Position) :
    Closed (printInstruction i p) (instructionTokens i p) := by
  have hindent : Closed "    ".toList [] := closed_text _ _ rfl rfl
  have hequals : Closed " = ".toList [['=']] := closed_text _ _ rfl rfl
  have hresult : Closed (if i.hasResult then printValue i.result ++ " = ".toList else [])
      (resultTokens i) := ((open_value i.result).append hequals rfl).optional
  have hnone : ¬ i.debugSource ≠ [] := fun hne => hne h.source
  have hclosed := (((closed_position i p).append hindent).append hresult).append
    (closed_operation h.names h.unnamed)
  unfold printInstruction instructionTokens
  rw [if_neg hnone, append_nil]
  refine hclosed.congr ?_
  rw [append_nil, ← append_assoc]

/-! ## Functions and modules -/

theorem closed_instructions : (is : List Instruction) → (p : Position) →
    (∀ i ∈ is, i.Prints) → Closed (printInstructions p is) (instructionsTokens p is)
  | [], _, _ => Closed.nil
  | i :: is, p, h => by
    obtain ⟨hi, his⟩ := forall_mem_cons.mp h
    exact (closed_instruction hi p).append (closed_instructions is (p.after i) his)

/-- What a block has that is read, and names that are plain -/
structure BasicBlock.Prints (block : BasicBlock) : Prop where
  name : Plain block.name
  instructions : ∀ i ∈ block.instructions, i.Prints

theorem closed_blocks : (blocks : List BasicBlock) → (p : Position) →
    (∀ block ∈ blocks, block.Prints) → Closed (printBlocks p blocks) (blocksTokens p blocks)
  | [], _, _ => Closed.nil
  | block :: blocks, p, h => by
    obtain ⟨hblock, hblocks⟩ := forall_mem_cons.mp h
    have hcolon : Closed ":\n".toList [[':']] := closed_text _ _ rfl rfl
    exact (((open_blockName hblock.name).append hcolon rfl).append
      (closed_instructions _ p hblock.instructions)).append
        (closed_blocks blocks (block.instructions.foldl Position.after p) hblocks)

theorem open_parameter (parameter : Parameter) :
    Open (printParameter parameter) (parameterTokens parameter) := by
  have hgroup : Closed " abiagg ".toList ["abiagg".toList] := closed_text _ _ rfl rfl
  exact ((open_type _).space (open_value parameter.value)).optional
    (hgroup.appendOpen (open_unsigned parameter.aggregateGroup)) rfl

theorem printList_concat : (texts : List Text) → (text : Text) →
    printList (texts ++ [text]) =
      printList texts ++ if texts.length ≠ 0 then ", ".toList ++ text else text
  | [], _ => rfl
  | [first], text => append_assoc _ _ _
  | first :: next :: texts, text => by
    show first ++ ", ".toList ++ printList (next :: texts ++ [text]) = _
    rw [printList_concat (next :: texts) text, ← append_assoc]
    rfl

theorem closed_linkage (linkage : Linkage) : Closed (printLinkage linkage) (linkageTokens linkage) := by
  have hinternal : Closed "internal ".toList ["internal".toList] := closed_text _ _ rfl rfl
  exact hinternal.optional

/-- The parameters, with the dots of a variadic function behind them -/
theorem open_parameters (f : Function) :
    Open (printList (f.parameters.map printParameter) ++
      (if f.isVariadic then (if f.parameters.length ≠ 0 then ", ...".toList else "...".toList) else []))
      (listTokens (f.parameters.map parameterTokens ++ if f.isVariadic then [["...".toList]] else [])) := by
  have hentries : ∀ entry ∈ f.parameters.map fun p => (printParameter p, parameterTokens p),
      Open entry.1 entry.2 := by
    intro entry hentry
    obtain ⟨parameter, -, rfl⟩ := mem_map.mp hentry
    exact open_parameter parameter
  cases hvariadic : f.isVariadic with
  | false =>
    have hlist := open_list _ hentries
    rw [map_map, map_map] at hlist
    rw [if_neg Bool.false_ne_true, if_neg Bool.false_ne_true, append_nil, append_nil]
    exact hlist
  | true =>
    have hdots : Open "...".toList ["...".toList] :=
      Plain.open (show Plain "...".toList from rfl) |>.2
    have hlist := open_list
      (f.parameters.map (fun p => (printParameter p, parameterTokens p)) ++
        [("...".toList, ["...".toList])])
      fun entry hentry => (mem_append.mp hentry).elim (hentries entry) fun hlast => by
        obtain rfl := mem_singleton.mp hlast
        exact hdots
    rw [map_append, map_append, map_map, map_map] at hlist
    have hconcat := printList_concat (f.parameters.map printParameter) "...".toList
    rw [length_map] at hconcat
    rw [if_pos rfl, if_pos rfl]
    exact hconcat ▸ hlist

theorem closed_function {f : Function} (hname : Plain f.name)
    (hblocks : ∀ block ∈ f.blocks, block.Prints) : Closed (printFunction f) (functionTokens f) := by
  have hfunc : Closed "func @".toList ["func".toList, ['@']] := closed_text _ _ rfl rfl
  have hopening : Closed "(".toList [['(']] := closed_text _ _ rfl rfl
  have harrow : Closed ") -> ".toList [[')'], "->".toList] := closed_text _ _ rfl rfl
  have hbody : Closed " \x7b\n".toList [['{']] := closed_text _ _ rfl rfl
  have hend : Closed "\x7d\n".toList [['}']] := closed_text _ _ rfl rfl
  have hhead := (((closed_linkage f.linkage).append hfunc).appendOpen (open_name hname)).append
    hopening rfl
  have htype := ((hhead.appendOpen (open_parameters f)).append harrow rfl).appendOpen
    (open_type f.returnType)
  have hclosed := ((htype.append hbody rfl).append (closed_blocks f.blocks {} hblocks)).append hend
  unfold printFunction functionTokens
  rw [append_assoc (_ ++ _) (printList _)]
  refine hclosed.congr ?_
  simp only [append_assoc, cons_append, nil_append]

theorem closed_source {source : SourceFile} (h : nul ∉ source.path) :
    Closed (printSource source) (sourceTokens source) := by
  have hreference : reference source.path = source.path :=
    takeWhile_eq_self_iff.mpr fun c hc => decide_eq_true fun hnul => h (hnul ▸ hc)
  have hquoted : Closed (printQuoted source.path) [source.path] := by
    intro rest
    unfold printQuoted
    rw [hreference, cons_append, append_assoc]
    exact lex_quoted h
  have hsource : Closed "source ".toList ["source".toList] := closed_text _ _ rfl rfl
  have hhead := (hsource.appendOpen (open_unsigned source.id)).append closed_space rfl
  exact (hhead.append hquoted).append closed_newline

theorem open_globalHead {g : Global} (h : Plain g.name) :
    Open (printGlobalHead g) (globalHeadTokens g) := by
  have hat : Closed " @".toList [['@']] := closed_text _ _ rfl rfl
  have hkeyword : Open (if g.isReadOnly then "constant".toList else "global".toList)
      [if g.isReadOnly then "constant".toList else "global".toList] := by
    split
    · exact (Plain.open (show Plain "constant".toList from rfl)).2
    · exact (Plain.open (show Plain "global".toList from rfl)).2
  have hcount := closed_comma.appendOpen (open_signed g.elementCount)
  exact (((hkeyword.append hat rfl).appendOpen (open_name h)).space (open_type g.type)).optional
    (c := g.elementCount > 1) hcount rfl

theorem closed_global {g : Global} (h : Plain g.name) : Closed (printGlobal g) (globalTokens g) := by
  have hdeclare : Closed "declare ".toList ["declare".toList] := closed_text _ _ rfl rfl
  have hequals : Closed " = ".toList [['=']] := closed_text _ _ rfl rfl
  have hopening : Closed "\x7b".toList [['{']] := closed_text _ _ rfl rfl
  have hclosing : Closed "\x7d\n".toList [['}']] := closed_text _ _ rfl rfl
  have hhead := open_globalHead h
  unfold printGlobal globalTokens
  split
  · exact (hdeclare.appendOpen hhead).newline
  · have hbefore := ((closed_linkage g.linkage).appendOpen hhead).append hequals rfl
    refine hbefore.append ?_
    split
    · have hlist := open_list (g.initializerValues.map fun n => (outSigned n, [outSigned n])) (by
        intro entry hentry
        obtain ⟨n, -, rfl⟩ := mem_map.mp hentry
        exact open_signed n)
      rw [map_map, map_map] at hlist
      exact (hopening.appendOpen hlist).append hclosing rfl
    · have hhigh := closed_comma.appendOpen (open_signed g.initializerHigh)
      exact ((open_signed g.initializer).optional hhigh rfl).newline

theorem closed_flatMap {α : Type} {text : α → Text} {tokens : α → Tokens} : (xs : List α) →
    (∀ x ∈ xs, Closed (text x) (tokens x)) → Closed (xs.flatMap text) (xs.flatMap tokens)
  | [], _ => Closed.nil
  | x :: xs, h => by
    obtain ⟨hx, hxs⟩ := forall_mem_cons.mp h
    exact hx.append (closed_flatMap xs hxs)

/-- What a module has that is read, and names that are plain -/
structure Module.Prints (m : Module) : Prop where
  sources : ∀ s ∈ m.sourceFiles, nul ∉ s.path
  globals : ∀ g ∈ m.globals, Plain g.name
  functions : ∀ f ∈ m.functions, Plain f.name ∧ ∀ block ∈ f.blocks, block.Prints

theorem lex_print {m : Module} (h : m.Prints) : lex (print m) = moduleTokens m := by
  have htarget : Closed "target ptrbits ".toList ["target".toList, "ptrbits".toList] :=
    closed_text _ _ rfl rfl
  have hhead := (htarget.appendOpen (open_unsigned m.pointerBits)).newline
  have hmodule := (((hhead.optional (c := m.pointerBits ≠ 0)).append
    (closed_flatMap m.sourceFiles fun s hs => closed_source (h.sources s hs))).append
    (closed_flatMap m.globals fun g hg => closed_global (h.globals g hg))).append
    (closed_flatMap m.functions fun f hf =>
      closed_function (h.functions f hf).1 (h.functions f hf).2)
  exact hmodule.tokens

end Unisym.Lango
