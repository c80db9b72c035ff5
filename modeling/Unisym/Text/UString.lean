/-
# `UString` — `uni::String` in the memory character set

A string is a block of `limits` bytes of which the first `counts` are its contents.  The
parser uses two of them: one collects a token, the other is a stack of characters that were
put back.

* `push` (`operator<<`) makes the block larger with `StrCopy`, which stops at the first zero
  byte, and `Refresh`, which counts up to it.
* `innRear` takes the last character off and leaves its byte in the block.

The stale bytes of `innRear` would be copied back by `push` if the last byte of the block were
not zero.  `Holds s xs` says that `s` contains `xs` and that this byte is zero.
-/
import Mathlib.Data.List.TakeWhile

namespace Unisym.Text

open List

/-- The byte that ends a string. -/
def nul : Char := Char.ofNat 0

/-- `StrLength`: the bytes before the first zero byte. -/
def strLength (s : List Char) : Nat := (s.takeWhile (· != nul)).length

/-- `StrCopy`: the bytes of `sors` up to and with the first zero byte go to `dest`. -/
def strCopy (dest sors : List Char) : List Char :=
  sors.takeWhile (· != nul) ++ nul :: dest.drop (strLength sors + 1)

/-- `StrHeapN`: at most `n` bytes, and none after a zero byte. -/
def strHeapN (s : List Char) (n : Nat) : List Char := (s.take n).takeWhile (· != nul)

/-- A `uni::String` whose `charset` is `Memory`.  `addr` is the whole block. -/
structure UString where
  addr : List Char
  counts : Nat
  allocated : Bool
  /-- `true`: first in first out. -/
  innDirection : Bool
  deriving DecidableEq, Repr

namespace UString

def limits (s : UString) : Nat := s.addr.length

/-- `String(Charset::Memory)`: a heap string of 32 zero bytes. -/
def new : UString := ⟨List.replicate 32 nul, 0, true, false⟩

/-- The loop of `Enlarge`; the first argument bounds its iterations. -/
def enlargeFrom (want : Nat) : Nat → Nat → Nat
  | 0, limits => limits
  | n + 1, limits =>
      if want > limits * 2 + 2 then enlargeFrom want n (limits * 2 + 2) else limits * 2 + 2

/-- `Enlarge`: the new size, `want` bytes or more. -/
def enlarge (s : UString) (want : Nat) : Nat := enlargeFrom want (want + 1) s.limits

def refresh (s : UString) : UString := { s with counts := min (strLength s.addr) s.limits }

/-- The larger block of `operator<<`. -/
def regrow (s : UString) : UString :=
  { s with addr := strCopy (List.replicate (s.enlarge (s.counts + 1)) nul) s.addr }.refresh

/-- A character at the end of a string that has room for it. -/
def place (s : UString) (chr : Char) : UString :=
  { s with addr := s.addr.set s.counts chr, counts := s.counts + 1 }

/-- `operator<<`.  A caller's buffer drops what it has no room for. -/
def push (s : UString) (chr : Char) : UString :=
  if s.allocated then
    (if s.limits ≤ s.counts + 1 then s.regrow else s).place chr
  else if s.counts < s.limits then
    let t := s.place chr
    if t.counts ≠ t.limits then { t with addr := t.addr.set t.counts nul } else t
  else s

/-- `operator[]` below `counts`. -/
def at? (s : UString) (i : Nat) : Option Char := if i < s.counts then s.addr[i]? else none

def innRear (s : UString) : Char × UString :=
  (s.addr.getD (s.counts - 1) nul, { s with counts := s.counts - 1 })

def innHead (s : UString) : Char × UString :=
  (s.addr.getD 0 nul,
    { s with
      addr := (s.addr.drop 1).take (s.counts - 1) ++ s.addr.drop (s.counts - 1),
      counts := s.counts - 1 })

/-- `inn`: no character of an empty string. -/
def inn (s : UString) : Option Char × UString :=
  if s.counts = 0 then (none, s)
  else
    let r := if s.innDirection then s.innHead else s.innRear
    (some r.1, r.2)

def clear (s : UString) : UString := { s with addr := s.addr.set 0 nul, counts := 0 }

/-! ## The contents -/

/-- The heap string `s` contains `xs` and ends its block with a zero byte. -/
structure Holds (s : UString) (xs : List Char) : Prop where
  allocated : s.allocated = true
  rear : s.innDirection = false
  counts_eq : s.counts = xs.length
  room : xs.length < s.limits
  bytes : s.addr.take xs.length = xs
  ended : s.addr[s.limits - 1]? = some nul
  plain : ∀ c ∈ xs, c ≠ nul

theorem holds_new : new.Holds [] :=
  ⟨rfl, rfl, rfl, by decide, rfl, by decide, fun _ h => nomatch h⟩

/-- What stands before a zero byte and has none itself is what `StrCopy` copies. -/
theorem takeWhile_plain {xs rest : List Char} (h : ∀ c ∈ xs, c ≠ nul) :
    (xs ++ nul :: rest).takeWhile (· != nul) = xs := by
  rw [takeWhile_append_of_pos fun c hc => bne_iff_ne.mpr (h c hc)]
  simp

theorem enlargeFrom_grows {want : Nat} :
    ∀ {n limits : Nat}, limits + 2 ≤ enlargeFrom want (n + 1) limits
  | 0, limits => by
    unfold enlargeFrom
    by_cases hmore : want > limits * 2 + 2
    · rw [if_pos hmore]
      show limits + 2 ≤ limits * 2 + 2
      omega
    · rw [if_neg hmore]
      omega
  | n + 1, limits => by
    unfold enlargeFrom
    by_cases hmore : want > limits * 2 + 2
    · rw [if_pos hmore]
      have := @enlargeFrom_grows want n (limits * 2 + 2)
      omega
    · rw [if_neg hmore]
      omega

variable {s : UString} {xs : List Char}

theorem Holds.full (h : s.Holds xs) (hfull : s.limits ≤ s.counts + 1) :
    s.addr = xs ++ [nul] := by
  have hlen : s.addr.length = xs.length + 1 := by
    have := h.room
    have := h.counts_eq
    unfold limits at *
    omega
  have hlast : s.addr[xs.length]? = some nul := by
    have := h.ended
    unfold limits at this
    rwa [hlen, Nat.add_sub_cancel] at this
  have hsplit : s.addr = s.addr.take xs.length ++ s.addr.drop xs.length :=
    (take_append_drop _ _).symm
  obtain ⟨hlt, hget⟩ := List.getElem?_eq_some_iff.mp hlast
  have hdrop : s.addr.drop xs.length = [nul] := by
    rw [drop_eq_getElem_cons hlt, hget, drop_of_length_le (Nat.le_of_eq hlen)]
  rw [hsplit, h.bytes, hdrop]

/-- A larger block contains the same and has room for one more. -/
theorem Holds.regrow (h : s.Holds xs) (hfull : s.limits ≤ s.counts + 1) :
    s.regrow.Holds xs ∧ xs.length + 1 < s.regrow.limits := by
  have haddr := h.full hfull
  have hlimits : s.limits = xs.length + 1 := by
    unfold limits
    rw [haddr, length_append]
    rfl
  have hbig : xs.length + 3 ≤ s.enlarge (s.counts + 1) := by
    have := @enlargeFrom_grows (s.counts + 1) (s.counts + 1) s.limits
    unfold enlarge
    omega
  have hcopied : s.addr.takeWhile (· != nul) = xs := by
    rw [haddr]
    exact takeWhile_plain h.plain
  have hblock : strCopy (List.replicate (s.enlarge (s.counts + 1)) nul) s.addr =
      xs ++ nul :: List.replicate (s.enlarge (s.counts + 1) - (xs.length + 1)) nul := by
    unfold strCopy strLength
    rw [hcopied, drop_replicate]
  have hnew : s.regrow.addr =
      xs ++ nul :: List.replicate (s.enlarge (s.counts + 1) - (xs.length + 1)) nul := hblock
  have hnewlen : s.regrow.limits = s.enlarge (s.counts + 1) := by
    unfold limits
    rw [hnew, length_append, length_cons, length_replicate]
    omega
  have hcounts : s.regrow.counts = xs.length := by
    have hlen : strLength s.regrow.addr = xs.length := by
      unfold strLength
      rw [hnew, takeWhile_plain h.plain]
    change min (strLength s.regrow.addr) s.regrow.limits = xs.length
    rw [hlen, hnewlen]
    omega
  refine ⟨⟨h.allocated, h.rear, hcounts, by omega, ?_, ?_, h.plain⟩, by omega⟩
  · rw [hnew, take_left']
    rfl
  · rw [hnewlen, hnew, getElem?_append_right (by omega),
      getElem?_cons, if_neg (by omega), getElem?_replicate, if_pos (by omega)]

theorem Holds.place (h : s.Holds xs) (hroom : xs.length + 1 < s.limits) {c : Char}
    (hc : c ≠ nul) : (s.place c).Holds (xs ++ [c]) := by
  have hlen : xs.length < s.addr.length := by
    unfold limits at hroom
    omega
  have hlimits : (s.place c).limits = s.limits := length_set
  refine ⟨h.allocated, h.rear, ?_, ?_, ?_, ?_, ?_⟩
  · rw [length_append]
    exact congrArg (· + 1) h.counts_eq
  · rw [hlimits, length_append]
    exact hroom
  · change (s.addr.set s.counts c).take (xs ++ [c]).length = xs ++ [c]
    rw [h.counts_eq, length_append, length_singleton,
      take_add_one, take_set_of_le (Nat.le_refl _), h.bytes,
      getElem?_set_self hlen]
    rfl
  · change (s.addr.set s.counts c)[(s.place c).limits - 1]? = some nul
    rw [hlimits, h.counts_eq, getElem?_set_ne (by omega)]
    exact h.ended
  · intro d hd
    rcases mem_append.mp hd with hd | hd
    · exact h.plain d hd
    · cases mem_singleton.mp hd
      exact hc

theorem Holds.push (h : s.Holds xs) {c : Char} (hc : c ≠ nul) :
    (s.push c).Holds (xs ++ [c]) := by
  unfold UString.push
  rw [if_pos h.allocated]
  by_cases hfull : s.limits ≤ s.counts + 1
  · rw [if_pos hfull]
    obtain ⟨hnew, hroom⟩ := h.regrow hfull
    exact hnew.place hroom hc
  · rw [if_neg hfull]
    have := h.counts_eq
    exact h.place (by omega) hc

theorem Holds.clear (h : s.Holds xs) : s.clear.Holds [] := by
  have hlimits : s.clear.limits = s.limits := length_set
  have hroom := h.room
  refine ⟨h.allocated, h.rear, rfl, by rw [hlimits]; exact Nat.zero_lt_of_lt hroom, rfl, ?_,
    fun _ hd => nomatch hd⟩
  change (s.addr.set 0 nul)[s.clear.limits - 1]? = some nul
  rw [hlimits]
  by_cases hone : s.limits = 1
  · rw [hone]
    exact getElem?_set_self (Nat.zero_lt_of_lt hroom)
  · rw [getElem?_set_ne (by omega)]
    exact h.ended

theorem Holds.inn_nil (h : s.Holds []) : s.inn = (none, s) := by
  have hzero : s.counts = 0 := h.counts_eq
  unfold inn
  rw [if_pos hzero]

theorem Holds.inn_append {c : Char} (h : s.Holds (xs ++ [c])) :
    ∃ t, s.inn = (some c, t) ∧ t.Holds xs := by
  have hcounts : s.counts = xs.length + 1 := by
    rw [h.counts_eq, length_append]
    rfl
  have hroom := h.room
  rw [length_append, length_singleton] at hroom
  have hbytes := h.bytes
  rw [length_append, length_singleton] at hbytes
  have hc : s.addr[xs.length]? = some c := by
    rw [← getElem?_take_of_lt (Nat.lt_succ_self _), hbytes]
    exact getElem?_concat_length
  refine ⟨{ s with counts := s.counts - 1 }, ?_, ⟨h.allocated, h.rear, ?_, ?_, ?_, h.ended, ?_⟩⟩
  · have hvalue : s.addr.getD (s.counts - 1) nul = c := by
      rw [hcounts, Nat.add_sub_cancel, getD_eq_getElem?_getD, hc]
      rfl
    have hlifo : ¬ s.innDirection = true := by
      rw [h.rear]
      exact Bool.false_ne_true
    unfold inn
    rw [if_neg (by omega), if_neg hlifo]
    exact congrArg (fun d => (some d, _)) hvalue
  · change s.counts - 1 = xs.length
    omega
  · exact Nat.lt_of_succ_lt hroom
  · have := congrArg (List.take xs.length) hbytes
    rwa [take_take, Nat.min_eq_left (Nat.le_succ _), take_left'] at this
    rfl
  · exact fun d hd => h.plain d (mem_append_left _ hd)

theorem Holds.counts_eq_zero (h : s.Holds xs) : s.counts = 0 ↔ xs = [] := by
  rw [h.counts_eq]
  exact length_eq_zero_iff

theorem Holds.strHeapN (h : s.Holds xs) : strHeapN s.addr s.counts = xs := by
  unfold Text.strHeapN
  rw [h.counts_eq, h.bytes]
  exact takeWhile_eq_self_iff.mpr fun c hc => bne_iff_ne.mpr (h.plain c hc)

end UString

end Unisym.Text
