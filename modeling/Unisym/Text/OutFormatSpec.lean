/-
# `OutFormatSpec` — what the streams make of a format

A list of calls writes one text (`written`).  The buffer of `outsfmtlstbuf` gets all of it,
the bounded one the characters it has room for, and the counter its length.
-/
import Unisym.Text.OutFormat

namespace Unisym.Text

open Function List

variable {t : Target} {δ : Type}

theorem Target.bits_ge (t : Target) : 32 ≤ t.bits := by
  rcases t.bits_eq with h | h
  · exact Nat.le_of_eq h.symm
  · exact h ▸ by decide

theorem Target.toNat_one (t : Target) : (1 : BitVec t.bits).toNat = 1 := by
  have hlt : 1 < 2 ^ t.bits :=
    Nat.one_lt_two_pow (Nat.ne_of_gt (Nat.lt_of_lt_of_le (by decide) t.bits_ge))
  exact (BitVec.toNat_ofNat _ _).trans (Nat.mod_eq_of_lt hlt)

/-- The text of the calls. -/
def written (calls : List Call) : List Char :=
  calls.flatMap fun c => match c with
    | .out str => str
    | .count => []

@[simp] theorem written_nil : written [] = [] := rfl

@[simp] theorem written_out (str : List Char) (calls : List Call) :
    written (.out str :: calls) = str ++ written calls := rfl

@[simp] theorem written_count (calls : List Call) : written (.count :: calls) = written calls := rfl

@[simp] theorem written_append (calls calls' : List Call) :
    written (calls ++ calls') = written calls ++ written calls' := flatMap_append

namespace StringStream

variable (ss : StringStream t)

theorem write_append : ∀ (ss : StringStream t) (a b : List Char),
    ss.write (a ++ b) = (ss.write a).write b
  | _, [], _ => rfl
  | ss, c :: a, b => write_append { ss with mem := update ss.mem ss.pos c, pos := ss.pos + 1 } a b

theorem write_fields : ∀ (str : List Char) (ss : StringStream t), (ss.write str).pos = ss.pos + str.length ∧
    (ss.write str).lim = ss.lim ∧ (ss.write str).outCount = ss.outCount
  | [], _ => ⟨rfl, rfl, rfl⟩
  | c :: str, ss => by
    obtain ⟨hpos, hlim, hcount⟩ :=
      write_fields str { ss with mem := update ss.mem ss.pos c, pos := ss.pos + 1 }
    refine ⟨hpos.trans ?_, hlim, hcount⟩
    rw [length_cons, Nat.add_right_comm, Nat.add_assoc]

theorem write_mem : ∀ (str : List Char) (ss : StringStream t) (k : Nat),
    (ss.write str).mem k =
      if ss.pos ≤ k then (str[k - ss.pos]?).getD (ss.mem k) else ss.mem k
  | [], _, _ => (ite_self _).symm
  | c :: str, ss, k => by
    have ih := write_mem str { ss with mem := update ss.mem ss.pos c, pos := ss.pos + 1 } k
    refine ih.trans ?_
    dsimp only
    rcases Nat.lt_trichotomy k ss.pos with hlt | rfl | hgt
    · rw [if_neg (by omega), if_neg (Nat.not_le_of_lt hlt), update_of_ne (Nat.ne_of_lt hlt)]
    · rw [if_neg (by omega), if_pos le_rfl, Nat.sub_self, update_self]
      rfl
    · rw [if_pos (Nat.succ_le_of_lt hgt), if_pos (Nat.le_of_lt hgt), update_of_ne (Nat.ne_of_gt hgt),
        show k - ss.pos = (k - (ss.pos + 1)) + 1 by omega, getElem?_cons_succ]

theorem write_outCount (n : BitVec t.bits) : ∀ (str : List Char) (ss : StringStream t),
    { ss with outCount := n }.write str = { ss.write str with outCount := n }
  | [], _ => rfl
  | c :: str, ss =>
    write_outCount n str { ss with mem := update ss.mem ss.pos c, pos := ss.pos + 1 }

theorem write_lim (n : BitVec t.bits) : ∀ (str : List Char) (ss : StringStream t),
    { ss with lim := n }.write str = { ss.write str with lim := n }
  | [], _ => rfl
  | c :: str, ss => write_lim n str { ss with mem := update ss.mem ss.pos c, pos := ss.pos + 1 }

theorem write_with (l n : BitVec t.bits) : ∀ (str : List Char) (ss : StringStream t),
    { ss with lim := l, outCount := n }.write str = { ss.write str with lim := l, outCount := n }
  | [], _ => rfl
  | c :: str, ss => write_with l n str { ss with mem := update ss.mem ss.pos c, pos := ss.pos + 1 }

/-- The stream after a text that it has counted. -/
def after (ss : StringStream t) (str : List Char) : StringStream t :=
  { ss.write str with outCount := ss.outCount + BitVec.ofNat t.bits str.length }

theorem after_nil (ss : StringStream t) : ss.after [] = ss := by
  unfold after
  rw [length_nil, show BitVec.ofNat t.bits 0 = 0#t.bits from rfl, BitVec.add_zero]
  rfl

theorem after_append (ss : StringStream t) (a b : List Char) :
    (ss.after a).after b = ss.after (a ++ b) := by
  unfold after
  rw [write_outCount, write_append, length_append, BitVec.ofNat_add, BitVec.add_assoc]

theorem play_unlimited : ∀ (calls : List Call) (ss : StringStream t) (counts : List Int),
    ss.lim + 1 = 0 → (calls.foldl (ostream t).call (ss, counts)).1 = ss.after (written calls)
  | [], ss, _, _ => ss.after_nil.symm
  | .out str :: calls, ss, counts, hlim => by
    have hout : ss.out str = ss.after str := by
      unfold out after
      rw [if_neg (not_not_intro hlim), write_outCount]
    have hrest := play_unlimited calls (ss.after str) counts
      ((congrArg (· + 1) (write_fields str ss).2.1).trans hlim)
    rw [after_append] at hrest
    rw [written_out, ← hrest, ← hout]
    rfl
  | .count :: calls, ss, _, hlim => play_unlimited calls ss _ hlim

/-- The stream after as much of a text as it has room for. -/
def afterRoom (ss : StringStream t) (str : List Char) : StringStream t :=
  { ss.after (str.take ss.lim.toNat) with
    lim := ss.lim - BitVec.ofNat t.bits (str.take ss.lim.toNat).length }

theorem toNat_room {x : BitVec t.bits} {n : Nat} (h : n ≤ x.toNat) :
    (x - BitVec.ofNat t.bits n).toNat = x.toNat - n := by
  have hn : (BitVec.ofNat t.bits n).toNat = n :=
    (BitVec.toNat_ofNat _ _).trans (Nat.mod_eq_of_lt (Nat.lt_of_le_of_lt h x.isLt))
  have hle : BitVec.ofNat t.bits n ≤ x := by
    rw [BitVec.le_def, hn]
    exact h
  rw [BitVec.toNat_sub_of_le hle, hn]

theorem length_kept_le (str : List Char) (n : Nat) : (str.take n).length ≤ n :=
  length_take.trans_le (Nat.min_le_left _ _)

theorem afterRoom_lim (ss : StringStream t) (str : List Char) :
    (ss.afterRoom str).lim.toNat = ss.lim.toNat - (str.take ss.lim.toNat).length :=
  toNat_room (length_kept_le str _)

theorem afterRoom_nil (ss : StringStream t) : ss.afterRoom [] = ss := by
  unfold afterRoom
  rw [take_nil, after_nil, length_nil, show BitVec.ofNat t.bits 0 = 0#t.bits from rfl,
    BitVec.sub_zero]

theorem afterRoom_append (ss : StringStream t) (a b : List Char) :
    (ss.afterRoom a).afterRoom b = ss.afterRoom (a ++ b) := by
  have hkept : (a ++ b).take ss.lim.toNat =
      a.take ss.lim.toNat ++ b.take (ss.afterRoom a).lim.toNat := by
    rw [take_append, afterRoom_lim, length_take]
    congr 2
    omega
  have hafter : ({ ss.after (a.take ss.lim.toNat) with lim := (ss.afterRoom a).lim }).after
      (b.take (ss.afterRoom a).lim.toNat) =
        { ss.after ((a ++ b).take ss.lim.toNat) with lim := (ss.afterRoom a).lim } := by
    rw [hkept, ← after_append]
    unfold after
    rw [write_lim]
  have hlim : (ss.afterRoom a).lim - BitVec.ofNat t.bits (b.take (ss.afterRoom a).lim.toNat).length =
      ss.lim - BitVec.ofNat t.bits ((a ++ b).take ss.lim.toNat).length := by
    rw [hkept, length_append, BitVec.ofNat_add, ← BitVec.sub_sub]
    rfl
  unfold afterRoom at hafter hlim ⊢
  dsimp only at hafter hlim ⊢
  rw [hafter, hlim]

theorem out_limited (ss : StringStream t) (hlim : ss.lim + 1 ≠ 0) (str : List Char) :
    ss.out str = ss.afterRoom str := by
  unfold out
  rw [if_pos hlim]
  by_cases hzero : ss.lim = 0
  · have hkept : str.take ss.lim.toNat = [] := by
      rw [hzero]
      exact take_zero
    unfold afterRoom
    rw [if_pos hzero, hkept, after_nil, length_nil, show BitVec.ofNat t.bits 0 = 0#t.bits from rfl,
      BitVec.sub_zero]
  · rw [if_neg hzero]
    have hsame : str.take (min str.length ss.lim.toNat) = str.take ss.lim.toNat := by
      rcases Nat.le_total str.length ss.lim.toNat with hle | hle
      · rw [Nat.min_eq_left hle, take_length, take_of_length_le hle]
      · rw [Nat.min_eq_right hle]
    unfold afterRoom after
    rw [length_take, Nat.min_comm ss.lim.toNat]
    dsimp only
    rw [hsame]
    exact write_with _ _ _ ss

/-- The limit of a stream without one is the greatest number. -/
theorem lim_eq_max {x : BitVec t.bits} : x + 1 = 0 ↔ x.toNat + 1 = 2 ^ t.bits := by
  have hlt := x.isLt
  rw [← BitVec.toNat_inj, BitVec.toNat_add, t.toNat_one, BitVec.ofNat_eq_ofNat, BitVec.toNat_ofNat,
    Nat.zero_mod]
  refine ⟨fun h => ?_, fun h => by rw [h, Nat.mod_self]⟩
  by_contra hne
  rw [Nat.mod_eq_of_lt (by omega)] at h
  omega

theorem play_limited : ∀ (calls : List Call) (ss : StringStream t) (counts : List Int),
    ss.lim + 1 ≠ 0 → (calls.foldl (ostream t).call (ss, counts)).1 = ss.afterRoom (written calls)
  | [], ss, _, _ => ss.afterRoom_nil.symm
  | .out str :: calls, ss, counts, hlim => by
    have hlim' : (ss.afterRoom str).lim + 1 ≠ 0 := fun heq => by
      have hmax := lim_eq_max.mp heq
      rw [afterRoom_lim] at hmax
      have hlt := ss.lim.isLt
      exact hlim (lim_eq_max.mpr (by omega))
    have hrest := play_limited calls (ss.afterRoom str) counts hlim'
    rw [afterRoom_append] at hrest
    rw [written_out, ← hrest, ← out_limited ss hlim]
    rfl
  | .count :: calls, ss, _, hlim => play_limited calls ss _ hlim

end StringStream

theorem play_count : ∀ (calls : List Call) (n : BitVec t.bits) (counts : List Int),
    (calls.foldl (ostreamInstance t).call (n, counts)).1 =
      n + BitVec.ofNat t.bits (written calls).length
  | [], n, _ => (BitVec.add_zero n).symm
  | .out str :: calls, n, counts => by
    have hrest := play_count calls (n + BitVec.ofNat t.bits str.length) counts
    rw [written_out, length_append, BitVec.ofNat_add, ← BitVec.add_assoc, ← hrest]
    rfl
  | .count :: calls, n, counts => play_count calls n _

/-! ## Buffers -/

/-- `buf'` is `buf` with a string and its terminator from the start on. -/
structure Wrote (buf buf' : Nat → Char) (str : List Char) : Prop where
  chars : ∀ k, ∀ c ∈ str[k]?, buf' k = c
  terminator : buf' str.length = nul
  rest : ∀ k, str.length < k → buf' k = buf k

/-- A string and a terminator written to a stream at its start. -/
theorem wrote_of_write (ss : StringStream t) (hpos : ss.pos = 0) (str : List Char) :
    Wrote ss.mem (update (ss.write str).mem (ss.write str).pos nul) str := by
  have hend : (ss.write str).pos = str.length := by
    rw [(ss.write_fields str).1, hpos, Nat.zero_add]
  have hmem : ∀ k, (ss.write str).mem k = (str[k]?).getD (ss.mem k) := fun k => by
    rw [StringStream.write_mem, hpos, if_pos (Nat.zero_le k), Nat.sub_zero]
  rw [hend]
  refine ⟨fun k c hc => ?_, update_self _ _ _, fun k hk => ?_⟩
  · obtain ⟨hk, -⟩ := List.getElem?_eq_some_iff.mp hc
    rw [update_of_ne (Nat.ne_of_lt hk), hmem, hc]
    rfl
  · rw [update_of_ne (Nat.ne_of_gt hk), hmem, getElem?_eq_none (Nat.le_of_lt hk)]
    rfl

variable {floating : Bool → δ → List (List Char)} {fmt : Option (List Char)} {lst : List (Arg t δ)}
  {calls : List Call}

section

variable (h : formatCalls floating fmt lst = some calls) (buf : Nat → Char)
include h buf

theorem outsfmtlstbuf_eq : ∃ ret, outsfmtlstbuf floating buf fmt lst = some (ret,
      (calls.foldl (StringStream.ostream t).call (⟨buf, 0, ~~~0, 0⟩, [])).1.outNull.mem) := by
  unfold outsfmtlstbuf OstreamTrait.outFormatPack
  rw [h]
  exact ⟨_, rfl⟩

theorem outsfmtlstbufn_eq {len : BitVec t.bits} (hlen : ¬len ≤ 1) :
    ∃ ret, outsfmtlstbufn floating buf len fmt lst = some (ret,
      (calls.foldl (StringStream.ostream t).call (⟨buf, 0, len - 1, 0⟩, [])).1.outNull.mem) := by
  unfold outsfmtlstbufn OstreamTrait.outFormatPack
  rw [if_neg hlen, h]
  exact ⟨_, rfl⟩

theorem outsfmtlstbuf_wrote : ∃ ret buf', outsfmtlstbuf floating buf fmt lst = some (ret, buf') ∧
      Wrote buf buf' (written calls) := by
  obtain ⟨ret, hrun⟩ := outsfmtlstbuf_eq h buf
  have hlim : (~~~0 : BitVec t.bits) + 1 = 0 := by
    rw [StringStream.lim_eq_max, BitVec.toNat_not]
    have := Nat.two_pow_pos t.bits
    simp
    omega
  rw [StringStream.play_unlimited calls _ [] hlim] at hrun
  exact ⟨ret, _, hrun, wrote_of_write ⟨buf, 0, ~~~0, 0⟩ rfl (written calls)⟩

theorem outsfmtlstbufn_wrote {len : BitVec t.bits} (hlen : 1 < len.toNat) :
    ∃ ret buf', outsfmtlstbufn floating buf len fmt lst = some (ret, buf') ∧
      Wrote buf buf' ((written calls).take (len.toNat - 1)) := by
  have hgt : ¬len ≤ 1 := by
    rw [BitVec.le_def, t.toNat_one]
    exact Nat.not_le_of_lt hlen
  obtain ⟨ret, hrun⟩ := outsfmtlstbufn_eq h buf hgt
  have hroom : (len - 1).toNat = len.toNat - 1 := by
    rw [BitVec.toNat_sub_of_le (by rw [BitVec.le_def, t.toNat_one]; exact Nat.le_of_lt hlen), t.toNat_one]
  have hlim : (len - 1) + 1 ≠ 0 := fun heq => by
    have := StringStream.lim_eq_max.mp heq
    have := len.isLt
    omega
  rw [StringStream.play_limited calls _ [] hlim] at hrun
  refine ⟨ret, _, hrun, hroom ▸ ?_⟩
  exact wrote_of_write ⟨buf, 0, len - 1, 0⟩ rfl _

end

/-- The length as an `int` is the length of a text below 2 GiB. -/
theorem outsfmtlstlen_eq (h : formatCalls floating fmt lst = some calls) :
    ∃ n, outsfmtlstlen floating fmt lst = some n ∧
      (n = (written calls).length ↔ (written calls).length < 2 ^ 31) := by
  have hrun : outsfmtlstlen floating fmt lst =
      some ((ostreamInstance t).intCount (calls.foldl (ostreamInstance t).call (0, [])).1) := by
    unfold outsfmtlstlen OstreamTrait.outFormatPack
    rw [h]
    rfl
  rw [play_count, BitVec.ofNat_eq_ofNat, BitVec.zero_add] at hrun
  refine ⟨_, hrun, ?_⟩
  have hcount : (ostreamInstance t).intCount (BitVec.ofNat t.bits (written calls).length) =
      ((written calls).length : Int).bmod (2 ^ 32) := by
    unfold OstreamTrait.intCount ostreamInstance
    dsimp only [id]
    rw [BitVec.setWidth_ofNat_of_le t.bits_ge, BitVec.toInt_ofNat']
  rw [hcount, Int.bmod_def]
  split <;> omega

end Unisym.Text
