/-
# `AMLExecutor` — which objects share their bytes

The values of `AMLExecutor` carry pointers into one storage, from which `AllocateBuffer` takes and to which nothing
is given back.  `CopyObject` copies the bytes of a value, `Store` its pointers.  Of the limits of the workspace the
model has that of this storage.

`write_kept`: where no `Store` takes the bytes of a buffer from one object to another, a write through a buffer field
reaches the buffer that the field was created on, and no other object.
-/
import Mathlib.Data.List.Basic

namespace Unisym.Device.AMLExecutor

open Function List

/-! ## The code -/

inductive ValueType where
  | uninitialized
  | integer
  | string
  | buffer
  | package
  deriving DecidableEq

/-- `Value`, with the text of a string of the bytecode, and the array of a package as the list that it was filled with;
`block` stands for a pointer into the storage. -/
inductive Value where
  | uninitialized
  | integer (n : UInt64)
  | literal (text : List UInt8)
  | string (block length : Nat)
  | buffer (block length : Nat)
  | package (elements : List Value)

def Value.type : Value → ValueType
  | .uninitialized => .uninitialized
  | .integer _ => .integer
  | .literal _ | .string _ _ => .string
  | .buffer _ _ => .buffer
  | .package _ => .package

/-- What was taken from `buffer_storage`, block by block -/
abbrev Storage := List (List UInt8)

/-- `AllocateBuffer`, and the loop that fills the bytes -/
def allocate (capacity : Nat) (content : List UInt8) (value : Nat → Value) (s : Storage) : Option (Value × Storage) :=
  if s.flatten.length + content.length > capacity then none else some (value s.length, s ++ [content])

mutual

def copyValue (capacity : Nat) : Value → Storage → Option (Value × Storage)
  | .literal text, s => allocate capacity (text ++ [0]) (.string · text.length) s
  | .string block length, s => allocate capacity ((s.getD block []).take length ++ [0]) (.string · length) s
  | .buffer block length, s => allocate capacity ((s.getD block []).take length) (.buffer · length) s
  | .package elements, s => (copyValues capacity elements s).map fun (elements, s) => (.package elements, s)
  | .uninitialized, s => some (.uninitialized, s)
  | .integer n, s => some (.integer n, s)

def copyValues (capacity : Nat) : List Value → Storage → Option (List Value × Storage)
  | [], s => some ([], s)
  | v :: vs, s =>
      (copyValue capacity v s).bind fun (v, s) => (copyValues capacity vs s).map fun (vs, s) => (v :: vs, s)

end

/-- The objects of a method's frame, and the `Name`s; a `Name` is without a value until its declaration, or its first
use, stores one. -/
inductive Slot where
  | «local» (index : Fin 8)
  | argument (index : Fin 7)
  | name (object : Nat)
  deriving DecidableEq

/-- A buffer field, and the object that it was created on, which the code does not keep -/
structure Field where
  origin : Option Slot
  block : Nat
  length : Nat
  bitOffset : Nat
  bitLength : Nat

structure State where
  storage : Storage
  slots : Slot → Value
  fields : List Field

/-- Whether a bit of the value is set -/
def valueBit (s : Storage) (value : Value) (bit : Nat) : Bool :=
  match value with
  | .integer n => bit < 64 && n.toNat.testBit bit
  | .buffer block length => bit < length * 8 && ((s.getD block []).getD (bit / 8) 0).toNat.testBit (bit % 8)
  | _ => false

/-- The loops of `ReadBufferField`, which set the bits of a result that was zero -/
def packBits (bits : Nat → Bool) (count : Nat) : Nat :=
  (List.range count).foldl (fun result bit => if bits bit then result ||| 1 <<< bit else result) 0

def readBufferField (capacity : Nat) (f : Field) (s : Storage) : Option (Value × Storage) :=
  let bits := fun bit => valueBit s (.buffer f.block f.length) (f.bitOffset + bit)
  if f.bitOffset + f.bitLength > f.length * 8 then none
  else if f.bitLength ≤ 64 then some (.integer (UInt64.ofNat (packBits bits f.bitLength)), s)
  else
    let length := (f.bitLength + 7) / 8
    let byte := fun i => UInt8.ofNat (packBits (fun bit => bits (8 * i + bit)) (min 8 (f.bitLength - 8 * i)))
    allocate capacity ((List.range length).map byte) (.buffer · length) s

inductive Term where
  | slot (slot : Slot)
  | field (index : Nat)
  | integer (n : UInt64)
  | string (text : List UInt8)
  | buffer (length : Nat) (bytes : List UInt8)
  | package (count : Nat) (terms : List Term)

mutual

def evaluateTerm (capacity : Nat) (st : State) : Term → Storage → Option (Value × Storage)
  | .slot slot, s => some (st.slots slot, s)
  | .field index, s => st.fields[index]?.bind fun f => readBufferField capacity f s
  | .integer n, s => some (.integer n, s)
  | .string text, s => some (.literal text, s)
  | .buffer length bytes, s =>
      let length := if length < bytes.length then bytes.length else length
      allocate capacity (bytes ++ List.replicate (length - bytes.length) 0) (.buffer · length) s
  | .package count terms, s =>
      (evaluateTerms capacity st terms s).bind fun (elements, s) =>
        if elements.length > count then none
        else some (.package (elements ++ List.replicate (count - elements.length) .uninitialized), s)

def evaluateTerms (capacity : Nat) (st : State) : List Term → Storage → Option (List Value × Storage)
  | [], s => some ([], s)
  | t :: ts, s =>
      (evaluateTerm capacity st t s).bind fun (v, s) =>
        (evaluateTerms capacity st ts s).map fun (vs, s) => (v :: vs, s)

end

/-- `DefineBufferField`, with the offset and the length that the opcode makes of its operands -/
def defineBufferField (origin : Option Slot) (source : Value) (bitOffset bitLength : Nat) (s : State) : Option State :=
  match source with
  | .buffer block length =>
      if bitOffset + bitLength > length * 8 then none
      else some { s with fields := s.fields ++ [⟨origin, block, length, bitOffset, bitLength⟩] }
  | _ => none

/-- The loop of `WriteBufferField`, up to `bit` -/
def writeBits (f : Field) (value : Value) (s : Storage) : (bit : Nat) → Storage
  | 0 => s
  | bit + 1 =>
      let s := writeBits f value s bit
      let place := f.bitOffset + bit
      let mask : UInt8 := 1 <<< UInt8.ofNat (place % 8)
      s.modify f.block fun bytes => bytes.modify (place / 8) fun byte =>
        if valueBit s value bit then byte ||| mask else byte &&& ~~~mask

inductive Target where
  | null
  | slot (slot : Slot)
  | field (index : Nat)

def storeTarget (target : Target) (value : Value) (s : State) : Option State :=
  match target with
  | .null => some s
  | .slot (.name object) =>
      let original := s.slots (.name object)
      if original.type ≠ .uninitialized ∧ original.type ≠ value.type then none
      else some { s with slots := update s.slots (.name object) value }
  | .slot slot => some { s with slots := update s.slots slot value }
  | .field index =>
      s.fields[index]?.bind fun f =>
        if value.type ≠ .integer ∧ value.type ≠ .buffer ∨ f.bitOffset + f.bitLength > f.length * 8 then none
        else some { s with storage := writeBits f value s.storage f.bitLength }

inductive Op where
  | store (term : Term) (target : Target)
  | copyObject (term : Term) (target : Target)
  | createField (term : Term) (bitOffset bitLength : Nat)

def Term.origin : Term → Option Slot
  | .slot source => some source
  | _ => none

def step (capacity : Nat) (s : State) : Op → Option State
  | .store term target =>
      (evaluateTerm capacity s term s.storage).bind fun (value, storage) =>
        storeTarget target value { s with storage }
  | .copyObject term target =>
      (evaluateTerm capacity s term s.storage).bind fun (source, storage) =>
        (copyValue capacity source storage).bind fun (value, storage) =>
          storeTarget target value { s with storage }
  | .createField term bitOffset bitLength =>
      (evaluateTerm capacity s term s.storage).bind fun (source, storage) =>
        defineBufferField term.origin source bitOffset bitLength { s with storage }

def initial : State := ⟨[], fun _ => .uninitialized, []⟩

/-! ## What a value reaches -/

mutual

/-- The blocks with its bytes, and whether a field can write them -/
def Value.blocks : Value → List (Bool × Nat)
  | .string block _ => [(false, block)]
  | .buffer block length => if length = 0 then [] else [(true, block)]
  | .package elements => allBlocks elements
  | .uninitialized | .integer _ | .literal _ => []

def allBlocks : List Value → List (Bool × Nat)
  | [] => []
  | v :: vs => v.blocks ++ allBlocks vs

end

mutual

/-- The objects whose values a term takes over -/
def Term.reads : Term → List Slot
  | .slot read => [read]
  | .package _ terms => allReads terms
  | .field _ | .integer _ | .string _ | .buffer _ _ => []

def allReads : List Term → List Slot
  | [] => []
  | t :: ts => t.reads ++ allReads ts

end

def State.contents (s : State) (slot : Slot) : Value × List (Option (List UInt8)) :=
  (s.slots slot, (s.slots slot).blocks.map fun b => s.storage[b.2]?)

def Op.target : Op → Option Target
  | .store _ target | .copyObject _ target => some target
  | .createField _ _ _ => none

/-- No bytes of a buffer are stored from one object to another. -/
def Op.Separates (s : State) : Op → Prop
  | .store term (.slot target) => term = .slot target ∨ ∀ slot ∈ term.reads, ∀ b ∈ (s.slots slot).blocks, b.1 = false
  | _ => True

/-- Runs in which this holds of each operation -/
inductive Reaches (capacity : Nat) : State → Prop where
  | initial : Reaches capacity initial
  | step {s s' : State} (op : Op) (h : Reaches capacity s) (hop : op.Separates s)
      (hstep : step capacity s op = some s') : Reaches capacity s'

/-- Each buffer belongs to one object, and a field to the buffer that it was created on. -/
structure Inv (s : State) : Prop where
  within : ∀ slot, ∀ b ∈ (s.slots slot).blocks, b.2 < s.storage.length
  apart : ∀ slot slot', slot ≠ slot' → ∀ b ∈ (s.slots slot).blocks, ∀ b' ∈ (s.slots slot').blocks, b.1 = true →
    b.2 ≠ b'.2
  fields : ∀ f ∈ s.fields, f.bitLength ≠ 0 → f.block < s.storage.length ∧ ∀ slot, ∀ b ∈ (s.slots slot).blocks,
    b.2 = f.block → f.origin = some slot ∧ s.slots slot = .buffer f.block f.length

/-! ## Terms -/

variable {capacity : Nat} {st : State} {slots : Slot → Value} {reads more : List Slot} {s s₁ s' : Storage}
  {bs bs' : List (Bool × Nat)}

/-- The storage has grown, and these blocks are new in it, or belong to the objects that were read. -/
structure Made (slots : Slot → Value) (reads : List Slot) (s s' : Storage) (bs : List (Bool × Nat)) : Prop where
  grown : s <+: s'
  blocks : ∀ b ∈ bs, s.length ≤ b.2 ∧ b.2 < s'.length ∨ ∃ slot ∈ reads, b ∈ (slots slot).blocks

theorem Made.nil (h : s <+: s') : Made slots reads s s' [] := ⟨h, fun _ hb => absurd hb not_mem_nil⟩

theorem Made.append (h : Made slots reads s s₁ bs) (h' : Made slots more s₁ s' bs') :
    Made slots (reads ++ more) s s' (bs ++ bs') := by
  refine ⟨h.grown.trans h'.grown, fun b hb => ?_⟩
  rcases mem_append.mp hb with hb | hb
  · rcases h.blocks b hb with hnew | ⟨slot, hslot, hb⟩
    · exact .inl ⟨hnew.1, Nat.lt_of_lt_of_le hnew.2 h'.grown.length_le⟩
    · exact .inr ⟨slot, mem_append_left _ hslot, hb⟩
  · rcases h'.blocks b hb with hnew | ⟨slot, hslot, hb⟩
    · exact .inl ⟨Nat.le_trans h.grown.length_le hnew.1, hnew.2⟩
    · exact .inr ⟨slot, mem_append_right _ hslot, hb⟩

theorem allocate_made {content : List UInt8} {value : Nat → Value} {v : Value}
    (h : allocate capacity content value s = some (v, s')) (hvalue : ∀ b ∈ (value s.length).blocks, b.2 = s.length) :
    Made slots reads s s' v.blocks := by
  unfold allocate at h
  split at h
  · cases h
  · cases h
    refine ⟨prefix_append _ _, fun b hb => .inl ?_⟩
    rw [hvalue b hb, length_append]
    exact ⟨Nat.le_refl _, Nat.lt_succ_self _⟩

theorem blocks_string (block length : Nat) : ∀ b ∈ (Value.string block length).blocks, b.2 = block :=
  fun _ hb => congrArg Prod.snd (mem_singleton.mp hb)

theorem blocks_buffer (block length : Nat) : ∀ b ∈ (Value.buffer block length).blocks, b.2 = block := by
  intro b hb
  rw [Value.blocks] at hb
  split at hb
  · cases hb
  · exact congrArg Prod.snd (mem_singleton.mp hb)

mutual

theorem copyValue_made : ∀ {v v' : Value} {s s' : Storage}, copyValue capacity v s = some (v', s') →
    Made slots [] s s' v'.blocks
  | .literal _, _, _, _, h | .string _ _, _, _, _, h => by
    rw [copyValue] at h
    exact allocate_made h (blocks_string _ _)
  | .buffer _ _, _, _, _, h => by
    rw [copyValue] at h
    exact allocate_made h (blocks_buffer _ _)
  | .package _, _, _, _, h => by
    obtain ⟨_, hvs, rfl, rfl⟩ := Option.map_eq_some_iff.mp h
    exact copyValues_made hvs
  | .uninitialized, _, _, _, h | .integer _, _, _, _, h => by
    cases h
    exact .nil (prefix_refl _)

theorem copyValues_made : ∀ {vs vs' : List Value} {s s' : Storage}, copyValues capacity vs s = some (vs', s') →
    Made slots [] s s' (allBlocks vs')
  | [], _, _, _, h => by
    cases h
    exact .nil (prefix_refl _)
  | _ :: _, _, _, _, h => by
    obtain ⟨_, hv, h⟩ := Option.bind_eq_some_iff.mp h
    obtain ⟨_, hvs, rfl, rfl⟩ := Option.map_eq_some_iff.mp h
    exact (copyValue_made hv).append (copyValues_made hvs)

end

theorem allBlocks_uninitialized (vs : List Value) (n : Nat) :
    allBlocks (vs ++ List.replicate n .uninitialized) = allBlocks vs := by
  induction vs with
  | nil =>
    induction n with
    | zero => rfl
    | succ n ih => exact ih
  | cons v vs ih => exact congrArg (v.blocks ++ ·) ih

mutual

theorem evaluateTerm_made : ∀ {t : Term} {v : Value} {s s' : Storage},
    evaluateTerm capacity st t s = some (v, s') → Made st.slots t.reads s s' v.blocks
  | .slot read, _, _, _, h => by
    cases h
    exact ⟨prefix_refl _, fun b hb => .inr ⟨read, mem_singleton_self read, hb⟩⟩
  | .field _, _, _, _, h => by
    obtain ⟨f, -, h⟩ := Option.bind_eq_some_iff.mp h
    unfold readBufferField at h
    dsimp only at h
    split at h
    · cases h
    split at h
    · cases h
      exact .nil (prefix_refl _)
    · exact allocate_made h (blocks_buffer _ _)
  | .integer _, _, _, _, h | .string _, _, _, _, h => by
    cases h
    exact .nil (prefix_refl _)
  | .buffer _ _, _, _, _, h => by
    rw [evaluateTerm] at h
    exact allocate_made h (blocks_buffer _ _)
  | .package _ terms, _, s, _, h => by
    obtain ⟨⟨elements, _⟩, hvs, h⟩ := Option.bind_eq_some_iff.mp h
    dsimp only at h
    split at h
    · cases h
    · cases h
      show Made st.slots (allReads terms) s _ (allBlocks _)
      rw [allBlocks_uninitialized]
      exact evaluateTerms_made hvs

theorem evaluateTerms_made : ∀ {ts : List Term} {vs : List Value} {s s' : Storage},
    evaluateTerms capacity st ts s = some (vs, s') → Made st.slots (allReads ts) s s' (allBlocks vs)
  | [], _, _, _, h => by
    cases h
    exact .nil (prefix_refl _)
  | _ :: _, _, _, _, h => by
    obtain ⟨_, ht, h⟩ := Option.bind_eq_some_iff.mp h
    obtain ⟨_, hts, rfl, rfl⟩ := Option.map_eq_some_iff.mp h
    exact (evaluateTerm_made ht).append (evaluateTerms_made hts)

end

theorem evaluateTerm_buffer {t : Term} {block length : Nat}
    (h : evaluateTerm capacity st t s = some (.buffer block length, s')) :
    (∃ slot, t.origin = some slot ∧ st.slots slot = .buffer block length) ∨ t.reads = [] := by
  cases t with
  | slot source => exact .inl ⟨source, rfl, congrArg Prod.fst (Option.some.inj h)⟩
  | field | integer | string | buffer => exact .inr rfl
  | package =>
    obtain ⟨_, -, h⟩ := Option.bind_eq_some_iff.mp h
    dsimp only at h
    split at h <;> cases h

/-! ## Runs -/

theorem length_writeBits {f : Field} {value : Value} {bit : Nat} : (writeBits f value s bit).length = s.length := by
  induction bit with
  | zero => rfl
  | succ bit ih => exact (length_modify _ _ _).trans ih

theorem writeBits_other {f : Field} {value : Value} {bit i : Nat} (hi : i ≠ f.block) :
    (writeBits f value s bit)[i]? = s[i]? := by
  induction bit with
  | zero => rfl
  | succ bit ih => exact (getElem?_modify_ne _ _ (Ne.symm hi)).trans ih

namespace Inv

variable {s s' : State} {storage : Storage} {v : Value} {target : Target}

theorem grow (h : Inv s) (hgrown : s.storage.length ≤ storage.length) : Inv { s with storage } :=
  ⟨fun slot b hb => Nat.lt_of_lt_of_le (h.within slot b hb) hgrown, h.apart,
    fun f hf hbits => ⟨Nat.lt_of_lt_of_le (h.fields f hf hbits).1 hgrown, (h.fields f hf hbits).2⟩⟩

section Set

variable (h : Inv s) (hv : Made s.slots reads s.storage storage v.blocks)
  (hreads : ∀ source ∈ reads, ∀ b ∈ (s.slots source).blocks, b.1 = false) {slot : Slot}
include h hv

theorem set_within (slot' : Slot) : ∀ b ∈ (update s.slots slot v slot').blocks, b.2 < storage.length := by
  intro b hb
  by_cases hslot : slot' = slot
  · rw [hslot, update_self] at hb
    rcases hv.blocks b hb with hnew | ⟨source, -, hb⟩
    · exact hnew.2
    · exact (h.grow hv.grown.length_le).within source b hb
  · rw [update_of_ne hslot] at hb
    exact (h.grow hv.grown.length_le).within slot' b hb

include hreads

theorem set_apart (a a' : Slot) (hne : a ≠ a') : ∀ b ∈ (update s.slots slot v a).blocks,
    ∀ b' ∈ (update s.slots slot v a').blocks, b.1 = true → b.2 ≠ b'.2 := by
  intro b hb b' hb' hwritable heq
  by_cases ha : a = slot
  · -- what is taken over is no buffer, and what is new is in no other object
    rw [ha, update_self] at hb
    rw [update_of_ne fun ha' => hne (ha.trans ha'.symm)] at hb'
    have hin := h.within a' b' hb'
    rcases hv.blocks b hb with hnew | ⟨source, hsource, hb⟩
    · omega
    · exact absurd ((hreads source hsource b hb).symm.trans hwritable) Bool.false_ne_true
  rw [update_of_ne ha] at hb
  have hin := h.within a b hb
  by_cases ha' : a' = slot
  · rw [ha', update_self] at hb'
    rcases hv.blocks b' hb' with hnew | ⟨source, hsource, hb'⟩
    · omega
    · by_cases hsame : a = source
      · exact absurd ((hreads source hsource b (hsame ▸ hb)).symm.trans hwritable) Bool.false_ne_true
      · exact h.apart a source hsame b hb b' hb' hwritable heq
  · rw [update_of_ne ha'] at hb'
    exact h.apart a a' hne b hb b' hb' hwritable heq

/-- A field reaches a buffer, which is not taken over, and nothing new. -/
theorem set_unreached {f : Field} (hf : f ∈ s.fields) (hbits : f.bitLength ≠ 0) : ∀ b ∈ v.blocks, b.2 ≠ f.block := by
  intro b hb heq
  obtain ⟨hin, hreach⟩ := h.fields f hf hbits
  rcases hv.blocks b hb with hnew | ⟨source, hsource, hb⟩
  · omega
  · have hbuffer := (hreach source b hb heq).2
    have hfalse := hreads source hsource b hb
    rw [hbuffer, Value.blocks] at hb
    split at hb
    · cases hb
    · cases mem_singleton.mp hb
      cases hfalse

theorem set : Inv { s with storage, slots := update s.slots slot v } := by
  refine ⟨h.set_within hv, h.set_apart hv hreads, fun f hf hbits =>
    ⟨((h.grow hv.grown.length_le).fields f hf hbits).1, fun slot' b hb heq => ?_⟩⟩
  dsimp only at hb hf ⊢
  by_cases hslot : slot' = slot
  · rw [hslot, update_self] at hb
    exact absurd heq (h.set_unreached hv hreads hf hbits b hb)
  · rw [update_of_ne hslot] at hb ⊢
    exact (h.fields f hf hbits).2 slot' b hb heq

end Set

theorem storeTarget (h : Inv s) (hv : Made s.slots reads s.storage storage v.blocks)
    (hreads : ∀ slot, target = .slot slot →
      v = s.slots slot ∨ ∀ source ∈ reads, ∀ b ∈ (s.slots source).blocks, b.1 = false)
    (hstep : storeTarget target v { s with storage } = some s') : Inv s' := by
  cases target with
  | null =>
    cases hstep
    exact h.grow hv.grown.length_le
  | slot slot =>
    have hset : Inv { s with storage, slots := update s.slots slot v } := by
      rcases hreads slot rfl with rfl | hreads
      · rw [update_eq_self]
        exact h.grow hv.grown.length_le
      · exact h.set hv hreads
    cases slot with
    | name object =>
      simp only [AMLExecutor.storeTarget] at hstep
      split at hstep
      · cases hstep
      · cases hstep
        exact hset
    | «local» | argument =>
      cases hstep
      exact hset
  | field index =>
    obtain ⟨f, -, hstep⟩ := Option.bind_eq_some_iff.mp hstep
    split at hstep
    · cases hstep
    · cases hstep
      refine h.grow ?_
      rw [length_writeBits]
      exact hv.grown.length_le

theorem createField (h : Inv s) {term : Term} {bitOffset bitLength : Nat}
    (hv : evaluateTerm capacity s term s.storage = some (v, storage))
    (hstep : defineBufferField term.origin v bitOffset bitLength { s with storage } = some s') : Inv s' := by
  have hmade := evaluateTerm_made hv
  have hgrown := h.grow hmade.grown.length_le
  cases v with
  | buffer block length =>
    simp only [defineBufferField] at hstep
    split at hstep
    · cases hstep
    next hfits =>
    cases hstep
    refine ⟨hgrown.within, hgrown.apart, fun f hf hbits => ?_⟩
    rcases mem_append.mp hf with hf | hf
    · exact hgrown.fields f hf hbits
    cases mem_singleton.mp hf
    have hblock : (true, block) ∈ (Value.buffer block length).blocks := by
      rw [Value.blocks, if_neg (by dsimp only at hbits; omega)]
      exact mem_singleton_self _
    rcases evaluateTerm_buffer hv with ⟨source, horigin, hsource⟩ | hnone
    · rw [← hsource] at hblock
      refine ⟨hgrown.within source _ hblock, fun slot b hb heq => ?_⟩
      by_cases hslot : source = slot
      · exact hslot ▸ ⟨horigin, hsource⟩
      · exact absurd heq.symm (h.apart source slot hslot _ hblock b hb rfl)
    · rw [hnone] at hmade
      rcases hmade.blocks _ hblock with hnew | ⟨_, hread, -⟩
      · refine ⟨hnew.2, fun slot b hb heq => ?_⟩
        have hin := h.within slot b hb
        dsimp only at heq hnew
        omega
      · exact absurd hread not_mem_nil
  | _ => cases hstep

theorem step (h : Inv s) {op : Op} (hop : op.Separates s) (hstep : step capacity s op = some s') : Inv s' := by
  cases op with
  | store term target =>
    obtain ⟨⟨v, storage⟩, hv, hstep⟩ := Option.bind_eq_some_iff.mp hstep
    refine h.storeTarget (evaluateTerm_made hv) (fun slot htarget => ?_) hstep
    subst htarget
    rcases hop with rfl | hop
    · cases hv
      exact .inl rfl
    · exact .inr hop
  | copyObject term target =>
    obtain ⟨⟨source, storage₁⟩, hv, hstep⟩ := Option.bind_eq_some_iff.mp hstep
    obtain ⟨⟨v, storage⟩, hcopy, hstep⟩ := Option.bind_eq_some_iff.mp hstep
    have hread : Made s.slots [] s.storage storage₁ [] := .nil (evaluateTerm_made hv).grown
    exact h.storeTarget (hread.append (copyValue_made hcopy)) (fun _ _ => .inr nofun) hstep
  | createField term bitOffset bitLength =>
    obtain ⟨⟨v, storage⟩, hv, hstep⟩ := Option.bind_eq_some_iff.mp hstep
    exact h.createField hv hstep

end Inv

theorem Reaches.inv {s : State} (h : Reaches capacity s) : Inv s := by
  induction h with
  | initial => exact ⟨nofun, nofun, nofun⟩
  | step op _ hop hstep ih => exact ih.step hop hstep

theorem storeTarget_kept {s s' : State} {storage : Storage} {v : Value} {index : Nat} {f : Field} {slot : Slot}
    (h : Inv s) (hgrown : s.storage <+: storage) (hf : s.fields[index]? = some f)
    (hstep : storeTarget (.field index) v { s with storage } = some s')
    (hslot : ¬(f.origin = some slot ∧ s.slots slot = .buffer f.block f.length)) : s'.contents slot = s.contents slot := by
  obtain ⟨f', hf', hstep⟩ := Option.bind_eq_some_iff.mp hstep
  cases hf.symm.trans hf'
  split at hstep
  · cases hstep
  cases hstep
  refine congrArg (Prod.mk _) (map_congr_left fun b hb => ?_)
  have hkept : storage[b.2]? = s.storage[b.2]? := by
    obtain ⟨rest, rfl⟩ := hgrown
    exact getElem?_append_left (h.within slot b hb)
  by_cases hbits : f.bitLength = 0
  · dsimp only
    rw [hbits]
    exact hkept
  · have hne : b.2 ≠ f.block := fun heq => hslot ((h.fields f (mem_of_getElem? hf) hbits).2 slot b hb heq)
    exact (writeBits_other hne).trans hkept

end Unisym.Device.AMLExecutor
