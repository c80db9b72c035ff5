/-
# `OutFormat` — formatted output to a stream

`OutFormatPack` walks over a format and calls the virtual `out` of its stream; no answer of
the stream comes back into the walk.  It is modelled by the list of the calls it makes
(`formatCalls`), which a stream then plays: the buffer of `outsfmtlstbuf`, the bounded one of
`outsfmtlstbufn` and the counter of `outsfmtlstlen`.

An argument list is matching where every `pnext` finds an argument of the type it asks for;
on another one there is no result.  `double` is a parameter, with the texts `OutFloating`
writes for it.
-/
import Unisym.Text.UString
import Mathlib.Data.BitVec

namespace Unisym.Text

open Function

/-- The widths of `stduint` and `unsigned long`; an `int` has 32 bits. -/
structure Target where
  bits : Nat
  longBits : Nat
  bits_eq : bits = 32 ∨ bits = 64
  longBits_eq : longBits = 32 ∨ longBits = 64

/-- An argument, by the type it is promoted to. -/
inductive Arg (t : Target) (δ : Type) where
  | int (v : BitVec 32)
  | long (v : BitVec t.longBits)
  | llong (v : BitVec 64)
  /-- `stduint` and `stdsint` -/
  | size (v : BitVec t.bits)
  /-- The characters before the zero byte; a null pointer has none. -/
  | str (s : Option (List Char))
  /-- `int*` -/
  | counter (null : Bool)
  | double (d : δ)

/-- A call on the stream. -/
inductive Call where
  | out (str : List Char)
  /-- `*count = (int)out_count` -/
  | count
  deriving DecidableEq

variable (t : Target) {δ : Type}

/-! ## Integers -/

/-- `_tab_hexa`, and `_tab_HEXA` -/
def alnumTab (lower : Bool) (d : Nat) : Char :=
  ((if lower then "0123456789abcdef" else "0123456789ABCDEF").toList).getD d nul

/-- `do *--bufp = alnum_tab[val % base]; while (val /= base);` in a buffer with room for `fuel`
characters. -/
def digitLoop (tab : Nat → Char) (base : Nat) : (fuel val : Nat) → (bufp : List Char) → List Char
  | 0, _, bufp => bufp
  | fuel + 1, val, bufp =>
      if val / base = 0 then tab (val % base) :: bufp
      else digitLoop tab base fuel (val / base) (tab (val % base) :: bufp)

def outInteger (val : BitVec 64) (base : Int) (signShow signHave : Bool) (leastDigits : BitVec 8)
    (zeroPadding : Bool) (bytexpo : Nat) : Bool × List Call :=
  if ¬(2 ≤ base ∨ base = -16) then (false, [])
  else
    -- `*(stdsint*)&val`
    let neg := signHave && (val.setWidth t.bits).msb
    let pad := if zeroPadding then '0' else ' '
    let tab := alnumTab (base = -16)
    let signShow := neg || signShow
    let val := if neg then ~~~val + 1 else val
    let val := if 2 ^ bytexpo < t.bits / 8 then val &&& BitVec.ofNat 64 (2 ^ 2 ^ (bytexpo + 3) - 1)
      else val
    let bufp := digitLoop tab base.natAbs 64 val.toNat []
    (true, (if signShow then [.out [if neg then '-' else '+']] else []) ++
      List.replicate (leastDigits.toNat - bufp.length) (.out [pad]) ++ [.out bufp])

/-! ## Arguments -/

variable {t}

def pnextInt : List (Arg t δ) → Option (BitVec 32 × List (Arg t δ))
  | .int v :: paras => some (v, paras)
  | _ => none

def pnextLong : List (Arg t δ) → Option (BitVec t.longBits × List (Arg t δ))
  | .long v :: paras => some (v, paras)
  | _ => none

def pnextLlong : List (Arg t δ) → Option (BitVec 64 × List (Arg t δ))
  | .llong v :: paras => some (v, paras)
  | _ => none

def pnextSize : List (Arg t δ) → Option (BitVec t.bits × List (Arg t δ))
  | .size v :: paras => some (v, paras)
  | _ => none

def paraNextU8 (paras : List (Arg t δ)) : Option (BitVec 8 × List (Arg t δ)) :=
  (pnextInt paras).map fun r => (r.1.setWidth 8, r.2)

def paraNextU16 (paras : List (Arg t δ)) : Option (BitVec 16 × List (Arg t δ)) :=
  (pnextInt paras).map fun r => (r.1.setWidth 16, r.2)

/-- As a `uint64`, from a signed type for `d` and from an unsigned one for the others. -/
def widen {n : Nat} (c : Char) (v : BitVec n) : BitVec 64 :=
  if c = 'd' then v.signExtend 64 else v.setWidth 64

/-- `raw` and `bytexpo` of an integer conversion. -/
def integerArg (c : Char) (sizlevel : BitVec 8) (paras : List (Arg t δ)) :
    Option (BitVec 64 × Nat × List (Arg t δ)) :=
  if sizlevel = -2 then (paraNextU8 paras).map fun r => (widen c r.1, Nat.log2 1, r.2)
  else if sizlevel = -1 then (paraNextU16 paras).map fun r => (widen c r.1, Nat.log2 2, r.2)
  else if sizlevel = 1 then
    (pnextLong paras).map fun r => (widen c r.1, Nat.log2 (t.longBits / 8), r.2)
  else if sizlevel = 2 then (pnextLlong paras).map fun r => (widen c r.1, Nat.log2 8, r.2)
  else (pnextInt paras).map fun r => (widen c r.1, Nat.log2 4, r.2)

/-! ## The walk over the format -/

/-- What has been read of a conversion. -/
structure Flags (t : Target) where
  /-- `tmp_signed` -/
  signed : Bool
  /-- `tmp_percent_feed` -/
  percentFeed : Bool
  /-- A `signed char`. -/
  sizlevel : BitVec 8
  ent : BitVec t.bits
  /-- `tmp_zero_padding` -/
  zeroPadding : Bool

/-- The flags before a conversion. -/
def Flags.clear : Flags t := ⟨false, false, 0, 0, false⟩

/-- A flag, a size or a digit of the width. -/
def Flags.modify (f : Flags t) (c : Char) : Option (Flags t) :=
  if c = '+' then some { f with signed := true }
  else if c = 'l' then
    some (if 0 ≤ f.sizlevel.toInt then { f with sizlevel := f.sizlevel + 1 } else f)
  else if c = 'h' then
    some (if f.sizlevel.toInt ≤ 0 then { f with sizlevel := f.sizlevel - 1 } else f)
  else if c = '0' ∧ f.ent = 0 then some { f with zeroPadding := true }
  else if '0' ≤ c ∧ c ≤ '9' then
    some { f with ent := f.ent * 10 + BitVec.ofNat t.bits (c.toNat - '0'.toNat) }
  else none

/-- The `switch` over the integer conversions. -/
def integerCalls (c : Char) (raw : BitVec 64) (f : Flags t) (bytexpo : Nat) : List Call :=
  let ent := f.ent.setWidth 8
  if c = 'o' then (outInteger t raw 8 f.signed true ent f.zeroPadding bytexpo).2
  else if c = 'd' then (outInteger t raw 10 f.signed true ent f.zeroPadding bytexpo).2
  else if c = 'b' then (outInteger t raw 2 false false ent f.zeroPadding bytexpo).2
  else if c = 'u' then (outInteger t raw 10 false false ent f.zeroPadding bytexpo).2
  else if c = 'x' then (outInteger t raw (-16) false false ent f.zeroPadding bytexpo).2
  else (outInteger t raw 16 false false ent f.zeroPadding bytexpo).2

/-- The bracketed conversions; `text` starts at the bracket. -/
def bracketCalls (text : List Char) (paras : List (Arg t δ)) :
    Option (List Call × Nat × List (Arg t δ)) :=
  let sizeof := Nat.log2 (t.bits / 8)
  if "[2c]".toList.isPrefixOf text then
    (paraNextU16 paras).map fun r =>
      ([.out [Char.ofNat (r.1.toNat % 256)], .out [Char.ofNat (r.1.toNat / 256)]], 4, r.2)
  else if "[u]".toList.isPrefixOf text then
    (pnextSize paras).map fun r =>
      ((outInteger t (r.1.setWidth 64) 10 false false 0 false sizeof).2, 3, r.2)
  else if "[x]".toList.isPrefixOf text then
    (pnextSize paras).map fun r =>
      ((outInteger t (r.1.setWidth 64) 16 false false (BitVec.ofNat 8 (t.bits / 8 * 2)) true sizeof).2,
        3, r.2)
  else if "[i]".toList.isPrefixOf text then
    (pnextSize paras).map fun r =>
      ((outInteger t (r.1.signExtend 64) 10 false true 0 false sizeof).2, 3, r.2)
  else if "[8H]".toList.isPrefixOf text then
    (paraNextU8 paras).map fun r =>
      ((outInteger t (r.1.setWidth 64) 16 false false 2 true (Nat.log2 1)).2, 4, r.2)
  else if "[16H]".toList.isPrefixOf text then
    (paraNextU16 paras).map fun r =>
      ((outInteger t (r.1.setWidth 64) 16 false false 4 true (Nat.log2 2)).2, 5, r.2)
  else if "[32H]".toList.isPrefixOf text then
    (pnextInt paras).map fun r =>
      ((outInteger t (r.1.setWidth 64) 16 false false 8 true (Nat.log2 4)).2, 5, r.2)
  else if "[64H]".toList.isPrefixOf text then
    (pnextLlong paras).map fun r => ((outInteger t r.1 16 false false 16 true (Nat.log2 8)).2, 5, r.2)
  else if "[64I]".toList.isPrefixOf text then
    (pnextLlong paras).map fun r => ((outInteger t r.1 10 false true 0 true (Nat.log2 8)).2, 5, r.2)
  else some ([], 1, paras)

/-- The conversion `c`, with the text behind it: the calls, the text and the arguments that are
left.  `floating` is what `OutFloating` writes, of a `double` or of a `float`. -/
def convert (floating : Bool → δ → List (List Char)) (c : Char) (text : List Char) (f : Flags t)
    (paras : List (Arg t δ)) : Option (List Call × List Char × List (Arg t δ)) :=
  if c = 'c' then
    (pnextInt paras).map fun r => ([.out [Char.ofNat (r.1.toNat % 256)]], text, r.2)
  else if c = 'o' ∨ c = 'd' ∨ c = 'b' ∨ c = 'u' ∨ c = 'x' ∨ c = 'X' then
    (integerArg c f.sizlevel paras).map fun r => (integerCalls c r.1 f r.2.1, text, r.2.2)
  else if c = 'f' then
    if f.sizlevel = 1 ∨ f.sizlevel = 0 then
      match paras with
      | .double d :: paras =>
          some ((floating (decide (f.sizlevel = 1)) d).map .out, text, paras)
      | _ => none
    else some ([], text, paras)
  else if c = 'p' then
    (pnextSize paras).map fun r =>
      (.out ['0', 'x'] :: (outInteger t (r.1.setWidth 64) (-16) false false
        (BitVec.ofNat 8 (t.bits / 4)) true (Nat.log2 (t.bits / 8))).2, text, r.2)
  else if c = 's' then
    match paras with
    | .str s :: paras =>
        some ([.out ((s.getD "(null)".toList).takeWhile (· != nul))], text, paras)
    | _ => none
  else if c = 'n' then
    match paras with
    | .counter null :: paras => some (if null then [] else [.count], text, paras)
    | _ => none
  else if c = '[' then
    (bracketCalls (c :: text) paras).map fun r => (r.1, (c :: text).drop r.2.1, r.2.2)
  else some ([.out [c]], text, paras)

/-- The state at the head of the loop; `text` is what is left of the format. -/
structure Walk (t : Target) (δ : Type) where
  text : List Char
  flags : Flags t
  paras : List (Arg t δ)

/-- What an iteration of the loop does. -/
inductive Iteration (t : Target) (δ : Type) where
  | done
  /-- No argument of the type that is asked for. -/
  | stuck
  | next (calls : List Call) (s : Walk t δ)

/-- The `switch` over the character `c` behind a percent sign or a modifier. -/
def Walk.directive (floating : Bool → δ → List (List Char)) (f : Flags t) (paras : List (Arg t δ))
    (c : Char) (text : List Char) : Iteration t δ :=
  match f.modify c with
  | some f => .next [] ⟨text, { f with percentFeed := true }, paras⟩
  | none =>
      match convert floating c text f paras with
      | none => .stuck
      | some (calls, text, paras) => .next calls ⟨text, .clear, paras⟩

/-- An iteration of the loop of `OutFormatPack`. -/
def Walk.step (floating : Bool → δ → List (List Char)) (s : Walk t δ) : Iteration t δ :=
  match s.text with
  | [] => .done
  | c :: text =>
      if s.flags.percentFeed then
        directive floating { s.flags with percentFeed := false } s.paras c text
      else if c ≠ '%' then
        .next [.out (c :: text.takeWhile (· != '%'))]
          ⟨text.dropWhile (· != '%'), s.flags, s.paras⟩
      else
        match text with
        | [] => .done
        | c :: text => directive floating s.flags s.paras c text

theorem bracketCalls_pos {text : List Char} {paras : List (Arg t δ)}
    {r : List Call × Nat × List (Arg t δ)} (h : bracketCalls text paras = some r) : 1 ≤ r.2.1 := by
  unfold bracketCalls at h
  dsimp only at h
  split_ifs at h
  case neg => cases h; exact le_rfl
  all_goals
    obtain ⟨r', -, rfl⟩ := Option.map_eq_some_iff.mp h
    simp

/-- A conversion takes no more than is left of the format. -/
theorem length_convert {floating : Bool → δ → List (List Char)} {c : Char} {text : List Char}
    {f : Flags t} {paras : List (Arg t δ)} {r : List Call × List Char × List (Arg t δ)}
    (h : convert floating c text f paras = some r) : r.2.1.length ≤ text.length := by
  have hdrop : ∀ r', bracketCalls (c :: text) paras = some r' →
      ((c :: text).drop r'.2.1).length ≤ text.length := fun r' hr' => by
    have := bracketCalls_pos hr'
    rw [List.length_drop, List.length_cons]
    omega
  unfold convert at h
  split_ifs at h
  · obtain ⟨r', -, rfl⟩ := Option.map_eq_some_iff.mp h
    exact le_rfl
  · obtain ⟨r', -, rfl⟩ := Option.map_eq_some_iff.mp h
    exact le_rfl
  · split at h
    · cases h
      exact le_rfl
    · cases h
  · cases h
    exact le_rfl
  · obtain ⟨r', -, rfl⟩ := Option.map_eq_some_iff.mp h
    exact le_rfl
  · split at h
    · cases h
      exact le_rfl
    · cases h
  · split at h
    · cases h
      exact le_rfl
    · cases h
  · obtain ⟨r', hr', rfl⟩ := Option.map_eq_some_iff.mp h
    exact hdrop r' hr'
  · cases h
    exact le_rfl

theorem Walk.step_length {floating : Bool → δ → List (List Char)} {s s' : Walk t δ}
    {calls : List Call} (h : s.step floating = .next calls s') : s'.text.length < s.text.length := by
  have hdirective : ∀ {f : Flags t} {paras : List (Arg t δ)} {c : Char} {text : List Char},
      directive floating f paras c text = .next calls s' → s'.text.length ≤ text.length := by
    intro f paras c text h
    unfold directive at h
    split at h
    · cases h
      exact le_rfl
    · split at h
      · cases h
      · rename_i hconvert
        cases h
        exact length_convert hconvert
  unfold step at h
  split at h
  · cases h
  · rename_i c text htext
    rw [htext, List.length_cons]
    split at h
    · exact Nat.lt_succ_of_le (hdirective h)
    · split at h
      · cases h
        exact Nat.lt_succ_of_le (List.dropWhile_suffix _).length_le
      · split at h
        · cases h
        · rename_i d rest
          exact Nat.lt_succ_of_le ((hdirective h).trans (Nat.le_succ _))

/-- The loop of `OutFormatPack`. -/
def Walk.run (floating : Bool → δ → List (List Char)) (s : Walk t δ) : Option (List Call) :=
  match _h : s.step floating with
  | .done => some []
  | .stuck => none
  | .next calls s' => (run floating s').map (calls ++ ·)
termination_by s.text.length
decreasing_by exact step_length _h

/-- The calls of `OutFormatPack(fmt, paras)`; a null format has none. -/
def formatCalls (floating : Bool → δ → List (List Char)) (fmt : Option (List Char))
    (paras : List (Arg t δ)) : Option (List Call) :=
  match fmt with
  | none => some []
  | some fmt => Walk.run floating ⟨fmt.takeWhile (· != nul), .clear, paras⟩

/-! ## Streams -/

variable (t)

/-- An `OstreamTrait`: its `out`, and its `out_count`. -/
structure OstreamTrait (σ : Type) where
  out : σ → List Char → σ
  outCount : σ → BitVec t.bits
  /-- `out_count = 0` -/
  restart : σ → σ

variable {t} {σ : Type}

/-- `(int)out_count` -/
def OstreamTrait.intCount (S : OstreamTrait t σ) (s : σ) : Int := ((S.outCount s).setWidth 32).toInt

/-- A call on a stream; the counts that `%n` stores are collected. -/
def OstreamTrait.call (S : OstreamTrait t σ) (s : σ × List Int) : Call → σ × List Int
  | .out str => (S.out s.1 str, s.2)
  | .count => (s.1, s.2 ++ [S.intCount s.1])

/-- `OutFormatPack` of a stream: the result, the stream and the counts stored. -/
def OstreamTrait.outFormatPack (S : OstreamTrait t σ) (floating : Bool → δ → List (List Char))
    (s : σ) (fmt : Option (List Char)) (paras : List (Arg t δ)) : Option (Int × σ × List Int) :=
  (formatCalls floating fmt paras).map fun calls =>
    let r := calls.foldl S.call (S.restart s, [])
    (S.intCount r.1, r)

variable (t)

/-- `StringStream`, with the memory from its buffer on. -/
structure StringStream where
  mem : Nat → Char
  /-- `p_outsfmtbuf`, counted from the buffer on. -/
  pos : Nat
  /-- `_crt_out_lim` -/
  lim : BitVec t.bits
  outCount : BitVec t.bits

variable {t}

namespace StringStream

/-- `for0(i, len) *p_outsfmtbuf++ = str[i];` -/
def write (ss : StringStream t) : List Char → StringStream t
  | [] => ss
  | c :: str => write { ss with mem := update ss.mem ss.pos c, pos := ss.pos + 1 } str

/-- `out(str, len)` for a string. -/
def out (ss : StringStream t) (str : List Char) : StringStream t :=
  if ss.lim + 1 ≠ 0 then
    if ss.lim = 0 then ss
    else
      let len := min str.length ss.lim.toNat
      { ss with
        lim := ss.lim - BitVec.ofNat t.bits len
        outCount := ss.outCount + BitVec.ofNat t.bits len }.write (str.take len)
  else { ss with outCount := ss.outCount + BitVec.ofNat t.bits str.length }.write str

/-- `out(nullptr, 0)` -/
def outNull (ss : StringStream t) : StringStream t := { ss with mem := update ss.mem ss.pos nul }

variable (t) in
/-- The stream as an `OstreamTrait`. -/
def ostream : OstreamTrait t (StringStream t) where
  out := out
  outCount := outCount
  restart := fun ss => { ss with outCount := 0 }

end StringStream

variable (t) in
/-- `OstreamInstance_t`: it only counts. -/
def ostreamInstance : OstreamTrait t (BitVec t.bits) where
  out := fun count str => count + BitVec.ofNat t.bits str.length
  outCount := id
  restart := fun _ => 0

variable (floating : Bool → δ → List (List Char))

/-- `outsfmtlstbuf(buf, fmt, lst)`: the result and the memory from `buf` on. -/
def outsfmtlstbuf (buf : Nat → Char) (fmt : Option (List Char)) (lst : List (Arg t δ)) :
    Option (Int × (Nat → Char)) :=
  ((StringStream.ostream t).outFormatPack floating ⟨buf, 0, ~~~0, 0⟩ fmt lst).map fun r =>
    (r.1, r.2.1.outNull.mem)

def outsfmtlstbufn (buf : Nat → Char) (len : BitVec t.bits) (fmt : Option (List Char))
    (lst : List (Arg t δ)) : Option (Int × (Nat → Char)) :=
  if len ≤ 1 then some (0, buf)
  else
    ((StringStream.ostream t).outFormatPack floating ⟨buf, 0, len - 1, 0⟩ fmt lst).map fun r =>
      (r.1, r.2.1.outNull.mem)

def outsfmtlstlen (fmt : Option (List Char)) (lst : List (Arg t δ)) : Option Int :=
  ((ostreamInstance t).outFormatPack floating 0 fmt lst).map fun r => r.1

end Unisym.Text
