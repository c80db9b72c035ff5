/-
# `Queue` — ring queues

`Queue` is a ring in an array, on the heap, where it grows, or in a buffer of
the caller.  `QueueLimited` is a ring of bytes in a slice of memory.  Both tell
an empty queue from a full one by a null read pointer.

A pointer into the array is an index; an access outside the array, and a read
of a cell nothing was written to, is a fault (`none`).  The pointers of
`QueueLimited` are addresses, and `0` is the null pointer.

`queues_fifo`: both are queues, as long as no `Resize` to exactly the number of
values is asked for; such a resize leaves the write pointer at the end of the
new array (`resize_exact_writes_outside`).
-/
import Unisym.Library.Ring
import Unisym.Library.ByteMem
import Unisym.Mempool.SinglePool

namespace Unisym.Datype

open Function Unisym.Ring

/-! ## The code of `Queue` -/

structure Queue (α : Type*) where
  limit : Nat
  offss : List (Option α)
  allocated : Bool
  p : Nat
  q : Option Nat

namespace Queue

variable {α : Type*}

/-- `Queue(limit)`: the array is on the heap. -/
def new (limit : Nat) : Queue α := ⟨limit, List.replicate limit none, true, 0, none⟩

/-- `Queue(offss, limit)`: the array is the caller's. -/
def onBuffer (offss : List (Option α)) : Queue α := ⟨offss.length, offss, false, 0, none⟩

def isEmpty (a : Queue α) : Bool := a.q.isNone

def isFull (a : Queue α) : Bool := a.q == some a.p

def count (a : Queue α) : Nat :=
  match a.q with
  | none => 0
  | some q => if a.p > q then a.p - q else a.limit - (q - a.p)

/-- The value behind a pointer. -/
def cell (offss : List (Option α)) (i : Nat) : Option α := offss[i]?.join

/-- The loop of `Resize`: `n` values from `curr` on to the places from `i` on. -/
def copyLoop (a : Queue α) : Nat → Nat → Nat → List (Option α) → Option (List (Option α))
  | 0, _, _, newOffss => some newOffss
  | n + 1, i, curr, newOffss =>
      match cell a.offss curr with
      | none => none
      | some x =>
          if i < newOffss.length then
            copyLoop a n (i + 1) (next a.limit curr) (newOffss.set i (some x))
          else none

def resize (a : Queue α) (newLimit : Nat) : Option (Bool × Queue α) :=
  if a.allocated = false then some (false, a)
  else
    let count := a.count
    let start := a.q.getD 0
    match copyLoop a count 0 start (List.replicate newLimit none) with
    | none => none
    | some newOffss =>
        if count > 0 then some (true, ⟨newLimit, newOffss, a.allocated, count, some 0⟩)
        else some (true, ⟨newLimit, newOffss, a.allocated, 0, none⟩)

/-- `Enqueue` once there is room. -/
def store (a : Queue α) (item : α) : Option (Bool × Queue α) :=
  let q := a.q.getD a.p
  if a.p < a.offss.length then
    some (true, { a with offss := a.offss.set a.p (some item), p := next a.limit a.p, q := some q })
  else none

def enqueue (a : Queue α) (item : α) : Option (Bool × Queue α) :=
  if a.limit = 0 ∨ a.isFull then
    match a.resize (if a.limit > 0 then (a.limit + 1) * 2 else 4) with
    | none => none
    | some (false, a) => some (false, a)
    | some (true, a) => a.store item
  else a.store item

/-- `Dequeue`: the value, if the answer is true. -/
def dequeue (a : Queue α) : Option (Option α × Queue α) :=
  match a.q with
  | none => some (none, a)
  | some q =>
      match cell a.offss q with
      | none => none
      | some item =>
          let q := next a.limit q
          some (some item, { a with q := if a.p = q then none else some q })

inductive Call (α : Type*) where
  | enqueue (item : α)
  | dequeue
  | resize (newLimit : Nat)

def step (a : Queue α) : Call α → Option (Answer α × Queue α)
  | .enqueue item => (a.enqueue item).map fun r => (.put r.1.toNat, r.2)
  | .dequeue => a.dequeue.map fun r => (.take r.1, r.2)
  | .resize n => (a.resize n).map fun r => (.size r.1, r.2)

def run : Queue α → List (Call α) → Option (List (Answer α) × Queue α)
  | a, [] => some ([], a)
  | a, call :: calls =>
      match a.step call with
      | none => none
      | some (answer, a) => (run a calls).map fun r => (answer :: r.1, r.2)

end Queue

/-! ## The code of `QueueLimited` -/

structure QueueLimited where
  slice : Mempool.Slice
  p : Nat
  q : Nat

namespace QueueLimited

/-- `QueueLimited(slice)`. -/
def new (slice : Mempool.Slice) : QueueLimited := ⟨slice, slice.address, 0⟩

def isFull (a : QueueLimited) : Bool := decide (a.q ≠ 0 ∧ a.p = a.q)

def getNumberInnable (a : QueueLimited) : Nat :=
  if a.q = 0 then 0 else if a.p > a.q then a.p - a.q else a.slice.length - (a.q - a.p)

/-- The pointer after `x`. -/
def wrap (a : QueueLimited) (x : Nat) : Nat :=
  if x + 1 ≥ a.slice.address + a.slice.length then a.slice.address else x + 1

def inn (m : Mem) (a : QueueLimited) : Int × QueueLimited :=
  if a.q = 0 then (-1, a)
  else
    let ret := (m a.q).toNat
    let q := a.wrap a.q
    if a.p = q then (ret, { a with q := 0, p := a.slice.address }) else (ret, { a with q := q })

/-- The loop of `out`; `cnt` is an `int`. -/
def outLoop : Mem → QueueLimited → Int32 → List UInt8 → Int32 × Mem × QueueLimited
  | m, a, cnt, [] => (cnt, m, a)
  | m, a, cnt, b :: str =>
      if a.isFull then (cnt, m, a)
      else
        let q := if a.q = 0 then a.p else a.q
        outLoop (update m a.p b) { a with p := a.wrap a.p, q := q } (cnt + 1) str

def out (m : Mem) (a : QueueLimited) (str : List UInt8) : Int32 × Mem × QueueLimited :=
  outLoop m a 0 str

inductive Call where
  | out (str : List UInt8)
  | inn

/-- One call: the answer, the memory and the queue. -/
def step (m : Mem) (a : QueueLimited) : Call → Int × Mem × QueueLimited
  | .out str =>
      let r := out m a str
      (r.1.toInt, r.2)
  | .inn =>
      let r := inn m a
      (r.1, m, r.2)

def run : Mem → QueueLimited → List Call → List Int × Mem × QueueLimited
  | m, a, [] => ([], m, a)
  | m, a, call :: calls =>
      let r := step m a call
      let rest := run r.2.1 r.2.2 calls
      (r.1 :: rest.1, rest.2)

end QueueLimited

/-! ## `Queue` is a queue -/

namespace Queue

variable {α : Type*}

/-- How many values the queue can have. -/
def bound (a : Queue α) : Option Nat := if a.allocated then none else some a.limit

/-- The call, as one of any queue. -/
def Call.ring : Call α → Ring.Call α
  | .enqueue item => .put [item]
  | .dequeue => .take
  | .resize n => .size n

/-- The queue is in order and has the values `xs`. -/
structure Holds (a : Queue α) (xs : List α) : Prop where
  length : a.offss.length = a.limit
  buffer : a.allocated = false → 0 < a.limit
  values : (a.q = none ∧ xs = [] ∧ (a.limit = 0 ∨ a.p < a.limit)) ∨
    ∃ q, a.q = some q ∧ xs ≠ [] ∧ Held (cell a.offss) a.limit q a.p xs

theorem cell_set {offss : List (Option α)} {p : Nat} (hp : p < offss.length) (x : α) :
    cell (offss.set p (some x)) = update (cell offss) p (some x) := by
  funext i
  unfold cell
  by_cases hi : i = p
  · subst hi
    rw [update_self, List.getElem?_set_self hp]
    rfl
  · rw [update_of_ne hi, List.getElem?_set_ne (Ne.symm hi)]

variable {a : Queue α} {xs : List α}

theorem Holds.count_eq (h : a.Holds xs) : a.count = xs.length := by
  unfold count
  rcases h.values with ⟨hq, rfl, -⟩ | ⟨q, hq, hne, hheld⟩
  · rw [hq]
    rfl
  · have hread := hheld.read
    have hfits := hheld.fits
    have hpos : 0 < xs.length := List.length_pos_of_ne_nil hne
    have hwrite := hheld.write
    rw [hq]
    dsimp only
    unfold place at hwrite
    split at hwrite <;> split <;> omega

theorem Holds.isFull_iff (h : a.Holds xs) :
    a.isFull = true ↔ xs ≠ [] ∧ xs.length = a.limit := by
  unfold isFull
  rcases h.values with ⟨hq, rfl, -⟩ | ⟨q, hq, hne, hheld⟩
  · rw [hq]
    simp
  · rw [hq, beq_iff_eq, Option.some_inj, eq_comm, hheld.meet_iff]
    exact ⟨fun hor => ⟨hne, hor.resolve_left hne⟩, fun hand => Or.inr hand.2⟩

theorem copyLoop_spec (a : Queue α) : ∀ (xs : List α) {i curr p : Nat}
    {newOffss : List (Option α)}, Held (cell a.offss) a.limit curr p xs →
      i + xs.length ≤ newOffss.length →
      ∃ new, copyLoop a xs.length i curr newOffss = some new ∧
        new.length = newOffss.length ∧ (∀ j < i, cell new j = cell newOffss j) ∧
        ∀ j (h : j < xs.length), cell new (i + j) = some xs[j]
  | [], i, curr, p, newOffss, _, _ =>
    ⟨newOffss, rfl, rfl, fun _ _ => rfl, fun j h => absurd h (Nat.not_lt_zero j)⟩
  | x :: xs, i, curr, p, newOffss, h, hroom => by
    rw [List.length_cons] at hroom
    obtain ⟨hfirst, hrest⟩ := h.pop
    have hi : i < newOffss.length := by omega
    obtain ⟨new, hcopy, hlen, hbefore, hvalues⟩ :=
      copyLoop_spec a xs hrest
        (show i + 1 + xs.length ≤ (newOffss.set i (some x)).length by rw [List.length_set]; omega)
    refine ⟨new, ?_, by rw [hlen, List.length_set], fun j hj => ?_, fun j hj => ?_⟩
    · rw [List.length_cons, copyLoop, hfirst]
      dsimp only
      rw [if_pos hi]
      exact hcopy
    · rw [hbefore j (by omega), cell_set hi, update_of_ne (by omega)]
    · cases j with
      | zero => rw [Nat.add_zero, hbefore i (Nat.lt_succ_self i), cell_set hi, update_self]; rfl
      | succ j =>
        rw [List.length_cons] at hj
        rw [show i + (j + 1) = i + 1 + j by omega, hvalues j (by omega)]
        rfl

/-- `Resize` to more than the values, or to nothing where there are none. -/
theorem Holds.resize (h : a.Holds xs) (ha : a.allocated = true) {n : Nat}
    (hn : xs.length ≤ n) (hexact : xs.length = n → n = 0) :
    ∃ a', a.resize n = some (true, a') ∧ a'.Holds xs ∧ a'.limit = n ∧ a'.allocated = true := by
  unfold Queue.resize
  rw [if_neg (by rw [ha]; decide), h.count_eq]
  dsimp only
  rcases h.values with ⟨hq, rfl, -⟩ | ⟨q, hq, hne, hheld⟩
  · refine ⟨_, rfl, ⟨List.length_replicate, fun hb => ?_, Or.inl ⟨rfl, rfl, ?_⟩⟩, rfl, ha⟩
    · rw [ha] at hb
      cases hb
    · change n = 0 ∨ 0 < n
      omega
  · have hpos : 0 < xs.length := List.length_pos_of_ne_nil hne
    obtain ⟨new, hcopy, hlen, -, hvalues⟩ := copyLoop_spec a xs hheld
      (show 0 + xs.length ≤ (List.replicate n none).length by rw [List.length_replicate]; omega)
    rw [List.length_replicate] at hlen
    rw [hq, Option.getD_some, hcopy]
    dsimp only
    rw [if_pos hpos]
    refine ⟨_, rfl, ⟨hlen, fun hb => ?_, Or.inr ⟨0, rfl, hne, ?_⟩⟩, rfl, ha⟩
    · rw [ha] at hb
      cases hb
    · have hlt : xs.length < n := lt_of_le_of_ne hn fun heq => by
        have hzero := hexact heq
        omega
      have hplace : ∀ i, i < n → place n 0 i = i := fun i hi => by
        unfold place
        rw [if_pos (by omega), Nat.zero_add]
      have hnpos : 0 < n := by omega
      refine ⟨hnpos, hn, (hplace _ hlt).symm, fun j hj => ?_⟩
      rw [hplace j (by omega), ← hvalues j hj, Nat.zero_add]

theorem Holds.store (h : a.Holds xs) (hroom : xs.length < a.limit)
    (item : α) :
    ∃ a', a.store item = some (true, a') ∧ a'.Holds (xs ++ [item]) ∧ a'.limit = a.limit ∧
      a'.allocated = a.allocated := by
  have hheld : Held (cell a.offss) a.limit (a.q.getD a.p) a.p xs := by
    rcases h.values with ⟨hq, rfl, hp⟩ | ⟨q, hq, -, hheld⟩
    · rw [hq]
      exact Held.empty (hp.resolve_left (Nat.ne_of_gt hroom))
    · rw [hq]
      exact hheld
  have hp : a.p < a.offss.length := by
    rw [h.length]
    exact hheld.write_lt
  unfold Queue.store
  dsimp only
  rw [if_pos hp]
  refine ⟨_, rfl, ⟨?_, h.buffer, Or.inr ⟨_, rfl, List.append_ne_nil_of_right_ne_nil _ (by simp), ?_⟩⟩, rfl, rfl⟩
  · rw [List.length_set]
    exact h.length
  · dsimp only
    rw [cell_set hp]
    exact hheld.push hroom item

theorem Holds.enqueue (h : a.Holds xs) (item : α) :
    ∃ b a', a.enqueue item = some (b, a') ∧ b.toNat = room xs.length 1 a.bound ∧
      a'.Holds (xs ++ [item].take b.toNat) ∧ a'.bound = a.bound := by
  unfold Queue.enqueue
  by_cases hfull : a.limit = 0 ∨ a.isFull = true
  · have hlen : a.limit ≤ xs.length := by
      rcases hfull with hzero | hfull
      · omega
      · exact (h.isFull_iff.mp hfull).2.ge
    rw [if_pos hfull]
    cases ha : a.allocated with
    | false =>
      have hres : ∀ n, a.resize n = some (false, a) := fun n => if_pos ha
      have hb : a.bound = some a.limit := by rw [Queue.bound, ha]; rfl
      rw [hres]
      refine ⟨false, a, rfl, ?_, ?_, rfl⟩
      · rw [hb, room]
        exact (Nat.min_eq_zero_iff.mpr (Or.inr (by omega))).symm
      · rw [Bool.toNat_false, List.take_zero, List.append_nil]
        exact h
    | true =>
      have hfits : xs.length ≤ a.limit := by
        rcases h.values with ⟨-, rfl, -⟩ | ⟨q, -, -, hheld⟩
        · exact Nat.zero_le _
        · exact hheld.fits
      have hmore : xs.length < if a.limit > 0 then (a.limit + 1) * 2 else 4 := by
        split <;> omega
      obtain ⟨a₁, hres, hholds, hlimit, halloc⟩ := h.resize ha hmore.le (by omega)
      obtain ⟨a₂, hstore, hholds₂, -, halloc₂⟩ := hholds.store (by rw [hlimit]; exact hmore) item
      have hb : a.bound = none := by rw [Queue.bound, ha]; rfl
      rw [hres]
      refine ⟨true, a₂, hstore, ?_, hholds₂, ?_⟩
      · rw [hb]
        rfl
      · rw [hb, Queue.bound, halloc₂, halloc]
        rfl
  · have hroom : xs.length < a.limit := by
      rcases h.values with ⟨-, rfl, -⟩ | ⟨q, -, hne, hheld⟩
      · exact Nat.pos_of_ne_zero fun hzero => hfull (Or.inl hzero)
      · exact lt_of_le_of_ne hheld.fits fun heq => hfull (Or.inr (h.isFull_iff.mpr ⟨hne, heq⟩))
    rw [if_neg hfull]
    obtain ⟨a', hstore, hholds, hlimit, halloc⟩ := h.store hroom item
    refine ⟨true, a', hstore, ?_, hholds, by rw [Queue.bound, Queue.bound, hlimit, halloc]⟩
    unfold Queue.bound
    split
    · rfl
    · have hone : 1 ≤ a.limit - xs.length := by omega
      exact (Nat.min_eq_left hone).symm

theorem Holds.dequeue (h : a.Holds xs) :
    ∃ a', a.dequeue = some (xs.head?, a') ∧ a'.Holds xs.tail ∧ a'.bound = a.bound := by
  unfold Queue.dequeue
  rcases h.values with ⟨hq, rfl, hp⟩ | ⟨q, hq, hne, hheld⟩
  · rw [hq]
    exact ⟨a, rfl, h, rfl⟩
  · obtain ⟨x, xs, rfl⟩ := List.exists_cons_of_ne_nil hne
    obtain ⟨hfirst, hrest⟩ := hheld.pop
    rw [hq]
    dsimp only
    rw [hfirst]
    refine ⟨_, rfl, ⟨h.length, h.buffer, ?_⟩, rfl⟩
    by_cases hmeet : a.p = next a.limit q
    · have hlt : xs.length < a.limit := hheld.fits
      have hxs : xs = [] := (hrest.meet_iff.mp hmeet).resolve_right (by omega)
      exact Or.inl ⟨if_pos hmeet, hxs, Or.inr hrest.write_lt⟩
    · refine Or.inr ⟨_, if_neg hmeet, fun hxs => hmeet ?_, hrest⟩
      exact hrest.meet_iff.mpr (Or.inl hxs)

/-- A resize to no less than the values, and to more if there are any. -/
def Call.Ok (a : Queue α) : Call α → Prop
  | .resize n => a.allocated = true → a.count ≤ n ∧ (a.count = n → n = 0)
  | _ => True

/-- Every call of the sequence is in order. -/
def AllOk : Queue α → List (Call α) → Prop
  | _, [] => True
  | a, call :: calls =>
      call.Ok a ∧
        match a.step call with
        | none => True
        | some (_, a) => AllOk a calls

theorem Holds.step (h : a.Holds xs) {call : Call α} (hok : call.Ok a) :
    ∃ a', a.step call = some ((listStep a.bound xs call.ring).1, a') ∧
      a'.Holds (listStep a.bound xs call.ring).2 ∧ a'.bound = a.bound := by
  cases call with
  | enqueue item =>
    obtain ⟨b, a', henq, hb, hholds, hbound⟩ := h.enqueue item
    refine ⟨a', ?_, ?_, hbound⟩
    · rw [Queue.step, henq, Option.map_some, hb]
      rfl
    · rw [hb] at hholds
      exact hholds
  | dequeue =>
    obtain ⟨a', hdeq, hholds, hbound⟩ := h.dequeue
    refine ⟨a', ?_, hholds, hbound⟩
    rw [Queue.step, hdeq]
    rfl
  | resize n =>
    cases ha : a.allocated with
    | false =>
      have hb : a.bound = some a.limit := by rw [Queue.bound, ha]; rfl
      have hres : a.resize n = some (false, a) := if_pos ha
      refine ⟨a, ?_, h, rfl⟩
      rw [Queue.step, hres, hb]
      rfl
    | true =>
      have hle := hok ha
      rw [h.count_eq] at hle
      obtain ⟨a', hres, hholds, -, halloc⟩ := h.resize ha hle.1 hle.2
      have hb : a.bound = none := by rw [Queue.bound, ha]; rfl
      refine ⟨a', ?_, hholds, ?_⟩
      · rw [Queue.step, hres, hb]
        rfl
      · rw [hb, Queue.bound, halloc]
        rfl

theorem Holds.run : ∀ {calls : List (Call α)} {a : Queue α} {xs : List α}, a.Holds xs →
    a.AllOk calls → ∃ a',
      a.run calls = some ((listRun a.bound xs (calls.map Call.ring)).1, a') ∧
      a'.Holds (listRun a.bound xs (calls.map Call.ring)).2
  | [], a, _, h, _ => ⟨a, rfl, h⟩
  | call :: calls, a, xs, h, hok => by
    obtain ⟨a₁, hstep, hholds, hbound⟩ := h.step hok.1
    have hok₂ := hok.2
    rw [hstep] at hok₂
    obtain ⟨a₂, hrun, hholds₂⟩ := hholds.run hok₂
    rw [hbound] at hrun hholds₂
    refine ⟨a₂, ?_, hholds₂⟩
    rw [Queue.run, hstep]
    dsimp only
    rw [hrun]
    rfl

theorem holds_new (limit : Nat) : (new limit : Queue α).Holds [] where
  length := List.length_replicate
  buffer := fun h => by cases h
  values := Or.inl ⟨rfl, rfl, Nat.eq_zero_or_pos limit⟩

theorem holds_onBuffer {offss : List (Option α)} (h : offss ≠ []) : (onBuffer offss).Holds [] where
  length := rfl
  buffer := fun _ => List.length_pos_of_ne_nil h
  values := Or.inl ⟨rfl, rfl, Or.inr (List.length_pos_of_ne_nil h)⟩

end Queue

/-! ## `QueueLimited` is a queue -/

namespace QueueLimited

/-- The call, as one of any queue. -/
def Call.ring : Call → Ring.Call UInt8
  | .out str => .put str
  | .inn => .take

/-- An answer as an `int`. -/
def answerInt : Answer UInt8 → Int
  | .put k => k
  | .take none => -1
  | .take (some b) => b.toNat
  | .size _ => 0

/-- The bytes of a slice. -/
def bytes (m : Mem) (slice : Mempool.Slice) (i : Nat) : Option UInt8 := some (m (slice.address + i))

/-- The queue is in order and has the bytes `xs`. -/
structure Holds (m : Mem) (a : QueueLimited) (xs : List UInt8) : Prop where
  base : a.slice.address ≠ 0
  values : (a.q = 0 ∧ xs = [] ∧ ∃ p < a.slice.length, a.p = a.slice.address + p) ∨
    ∃ q p, a.q = a.slice.address + q ∧ a.p = a.slice.address + p ∧ xs ≠ [] ∧
      Held (bytes m a.slice) a.slice.length q p xs

theorem wrap_eq (a : QueueLimited) (i : Nat) :
    a.wrap (a.slice.address + i) = a.slice.address + next a.slice.length i := by
  unfold wrap next
  split <;> split <;> omega

theorem bytes_update (m : Mem) (slice : Mempool.Slice) (p : Nat) (b : UInt8) :
    bytes (update m (slice.address + p) b) slice = update (bytes m slice) p (some b) := by
  funext i
  unfold bytes
  by_cases hi : i = p
  · rw [hi, update_self, update_self]
  · rw [update_of_ne hi, update_of_ne (by omega)]

variable {m : Mem} {a : QueueLimited} {xs : List UInt8}

theorem Holds.getNumberInnable_eq
    (h : Holds m a xs) : a.getNumberInnable = xs.length := by
  have hbase := h.base
  unfold getNumberInnable
  rcases h.values with ⟨hq, rfl, -⟩ | ⟨q, p, hq, hp, hne, hheld⟩
  · rw [if_pos hq]
    rfl
  · have hread := hheld.read
    have hfits := hheld.fits
    have hpos : 0 < xs.length := List.length_pos_of_ne_nil hne
    have hwrite := hheld.write
    rw [if_neg (by omega), hq, hp]
    unfold place at hwrite
    split at hwrite <;> split <;> omega

theorem Holds.fits (h : Holds m a xs) :
    xs.length ≤ a.slice.length := by
  rcases h.values with ⟨-, rfl, -⟩ | ⟨q, p, -, -, -, hheld⟩
  · exact Nat.zero_le _
  · exact hheld.fits

theorem Holds.isFull_iff (h : Holds m a xs) :
    a.isFull = true ↔ xs.length = a.slice.length := by
  have hbase := h.base
  unfold isFull
  rw [decide_eq_true_iff]
  rcases h.values with ⟨hq, rfl, p, hp, -⟩ | ⟨q, p, hq, hp, hne, hheld⟩
  · have hlen : ([] : List UInt8).length ≠ a.slice.length := Nat.ne_of_lt (Nat.zero_lt_of_lt hp)
    exact ⟨fun hand => absurd hq hand.1, fun heq => absurd heq hlen⟩
  · have hmeet : a.p = a.q ↔ p = q := by omega
    rw [hmeet, hheld.meet_iff]
    exact ⟨fun hand => hand.2.resolve_left hne, fun heq => ⟨by omega, Or.inr heq⟩⟩

theorem Holds.push (h : Holds m a xs)
    (hroom : xs.length < a.slice.length) (b : UInt8) :
    Holds (update m a.p b) { a with p := a.wrap a.p, q := if a.q = 0 then a.p else a.q }
        (xs ++ [b]) ∧
      Mem.AgreeOn (Set.Ico a.slice.address (a.slice.address + a.slice.length))ᶜ m
        (update m a.p b) := by
  have hbase := h.base
  obtain ⟨q, p, hq, hp, hheld⟩ : ∃ q p, (if a.q = 0 then a.p else a.q) = a.slice.address + q ∧
      a.p = a.slice.address + p ∧ Held (bytes m a.slice) a.slice.length q p xs := by
    rcases h.values with ⟨hq, rfl, p, hlt, hp⟩ | ⟨q, p, hq, hp, -, hheld⟩
    · exact ⟨p, p, (if_pos hq).trans hp, hp, Held.empty hlt⟩
    · exact ⟨q, p, (if_neg (by omega)).trans hq, hp, hheld⟩
  have hwrite := hheld.write_lt
  refine ⟨⟨hbase, Or.inr ⟨q, next a.slice.length p, hq, ?_,
    List.append_ne_nil_of_right_ne_nil _ (by simp), ?_⟩⟩, fun x hx => ?_⟩
  · dsimp only
    rw [hp, wrap_eq]
  · dsimp only
    rw [hp, bytes_update]
    exact hheld.push hroom b
  · refine update_of_ne (fun hxp => hx ⟨?_, ?_⟩) _ _ <;> omega

theorem outLoop_spec : ∀ (str : List UInt8) {m : Mem} {a : QueueLimited} {xs : List UInt8}
    (cnt : Int32), Holds m a xs → ∃ m' a',
      outLoop m a cnt str =
        (cnt + Int32.ofNat (room xs.length str.length (some a.slice.length)), m', a') ∧
      Holds m' a' (xs ++ str.take (room xs.length str.length (some a.slice.length))) ∧
      a'.slice = a.slice ∧
      Mem.AgreeOn (Set.Ico a.slice.address (a.slice.address + a.slice.length))ᶜ m m'
  | [], m, a, xs, cnt, h => by
    refine ⟨m, a, ?_, ?_, rfl, Mem.AgreeOn.refl _ m⟩
    · rw [List.length_nil, room, Nat.zero_min, outLoop]
      exact congrArg (·, m, a) (Int32.add_zero cnt).symm
    · rw [List.take_nil, List.append_nil]
      exact h
  | b :: str, m, a, xs, cnt, h => by
    have hfits := h.fits
    unfold outLoop
    by_cases hfull : a.isFull = true
    · have hlen := h.isFull_iff.mp hfull
      have hroom : room xs.length (b :: str).length (some a.slice.length) = 0 := by
        rw [room, hlen, Nat.sub_self, Nat.min_zero]
      rw [if_pos hfull, hroom]
      refine ⟨m, a, ?_, ?_, rfl, Mem.AgreeOn.refl _ m⟩
      · exact congrArg (·, m, a) (Int32.add_zero cnt).symm
      · rw [List.take_zero, List.append_nil]
        exact h
    · have hlt : xs.length < a.slice.length :=
        lt_of_le_of_ne hfits fun heq => hfull (h.isFull_iff.mpr heq)
      have hroom : room xs.length (b :: str).length (some a.slice.length) =
          room (xs ++ [b]).length str.length (some a.slice.length) + 1 := by
        rw [room, room, List.length_cons, List.length_append, List.length_singleton]
        omega
      rw [if_neg hfull]
      obtain ⟨hpush, hagree⟩ := h.push hlt b
      obtain ⟨m', a', hloop, hholds, hslice, hagree'⟩ := outLoop_spec str (cnt + 1) hpush
      refine ⟨m', a', ?_, ?_, hslice, hagree.trans hagree'⟩
      · rw [hloop, hroom, Int32.ofNat_add, Int32.add_assoc, Int32.add_comm 1]
        rfl
      · rw [hroom, List.take_succ_cons]
        rw [List.append_assoc] at hholds
        exact hholds

theorem Holds.inn (h : Holds m a xs) :
    ∃ a', a.inn m = (answerInt (.take xs.head?), a') ∧ Holds m a' xs.tail ∧ a'.slice = a.slice := by
  have hbase := h.base
  unfold QueueLimited.inn
  rcases h.values with ⟨hq, rfl, -⟩ | ⟨q, p, hq, hp, hne, hheld⟩
  · rw [if_pos hq]
    exact ⟨a, rfl, h, rfl⟩
  · obtain ⟨b, xs, rfl⟩ := List.exists_cons_of_ne_nil hne
    obtain ⟨hfirst, hrest⟩ := hheld.pop
    have hb : m a.q = b := by
      rw [hq]
      exact Option.some_inj.mp hfirst
    rw [if_neg (by omega), hb]
    dsimp only
    by_cases hmeet : p = next a.slice.length q
    · have hlt : xs.length < a.slice.length := hheld.fits
      have hxs : xs = [] := (hrest.meet_iff.mp hmeet).resolve_right (by omega)
      rw [if_pos (by rw [hq, wrap_eq, hp, hmeet])]
      exact ⟨_, rfl, ⟨hbase, Or.inl ⟨rfl, hxs, 0, Nat.zero_lt_of_lt hlt, rfl⟩⟩, rfl⟩
    · have hapart : ¬a.p = a.wrap a.q := by
        rw [hq, wrap_eq, hp]
        omega
      rw [if_neg hapart]
      refine ⟨_, rfl, ⟨hbase, Or.inr ⟨_, p, ?_, hp, fun hxs => hmeet ?_, hrest⟩⟩, rfl⟩
      · dsimp only
        rw [hq, wrap_eq]
      · exact hrest.meet_iff.mpr (Or.inl hxs)

/-- `out` does not accept more bytes than an `int` counts. -/
def Call.Ok (a : QueueLimited) : Call → Prop
  | .out str => min str.length (a.slice.length - a.getNumberInnable) < 2 ^ 31
  | .inn => True

/-- Every call of the sequence is in order. -/
def AllOk : Mem → QueueLimited → List Call → Prop
  | _, _, [] => True
  | m, a, call :: calls =>
      call.Ok a ∧ AllOk (step m a call).2.1 (step m a call).2.2 calls

theorem Holds.step (h : Holds m a xs) {call : Call}
    (hok : call.Ok a) :
    ∃ m' a', step m a call =
        (answerInt (listStep (some a.slice.length) xs call.ring).1, m', a') ∧
      Holds m' a' (listStep (some a.slice.length) xs call.ring).2 ∧ a'.slice = a.slice ∧
      Mem.AgreeOn (Set.Ico a.slice.address (a.slice.address + a.slice.length))ᶜ m m' := by
  cases call with
  | out str =>
    obtain ⟨m', a', hout, hholds, hslice, hagree⟩ := outLoop_spec str 0 h
    refine ⟨m', a', ?_, hholds, hslice, hagree⟩
    have hlt : room xs.length str.length (some a.slice.length) < 2 ^ 31 := by
      rw [← h.getNumberInnable_eq]
      exact hok
    unfold QueueLimited.step out
    dsimp only
    rw [hout, Int32.zero_add]
    dsimp only
    rw [Int32.toInt_ofNat_of_lt hlt]
    rfl
  | inn =>
    obtain ⟨a', hinn, hholds, hslice⟩ := h.inn
    refine ⟨m, a', ?_, hholds, hslice, Mem.AgreeOn.refl _ m⟩
    unfold QueueLimited.step
    dsimp only
    rw [hinn]
    rfl

theorem Holds.run : ∀ {calls : List Call} {m : Mem} {a : QueueLimited} {xs : List UInt8},
    Holds m a xs → AllOk m a calls → ∃ m' a',
      run m a calls =
        ((listRun (some a.slice.length) xs (calls.map Call.ring)).1.map answerInt, m', a') ∧
      Holds m' a' (listRun (some a.slice.length) xs (calls.map Call.ring)).2 ∧
      Mem.AgreeOn (Set.Ico a.slice.address (a.slice.address + a.slice.length))ᶜ m m'
  | [], m, a, _, h, _ => ⟨m, a, rfl, h, Mem.AgreeOn.refl _ m⟩
  | call :: calls, m, a, xs, h, hok => by
    obtain ⟨m₁, a₁, hstep, hholds, hslice, hagree⟩ := h.step hok.1
    have hok₂ := hok.2
    rw [hstep] at hok₂
    obtain ⟨m₂, a₂, hrun, hholds₂, hagree₂⟩ := hholds.run hok₂
    rw [hslice] at hrun hholds₂ hagree₂
    refine ⟨m₂, a₂, ?_, hholds₂, hagree.trans hagree₂⟩
    unfold QueueLimited.run
    rw [hstep]
    dsimp only
    rw [hrun]
    rfl

theorem holds_new (m : Mem) {slice : Mempool.Slice} (haddr : slice.address ≠ 0)
    (hlen : 0 < slice.length) : Holds m (new slice) [] where
  base := haddr
  values := Or.inl ⟨rfl, rfl, 0, hlen, rfl⟩

end QueueLimited

/-! ## Both queues -/

/-- From a new `Queue`, every sequence of calls without a `Resize` to exactly the
number of values is answered as a queue answers, without an access outside the
array.  So is every sequence of calls on a new `QueueLimited` on a slice that is
not at the null pointer, if no `out` accepts more bytes than an `int` counts;
nothing outside the slice is written. -/
theorem queues_fifo {α : Type*} {a : Queue α}
    (ha : (∃ limit, a = Queue.new limit) ∨ ∃ offss, offss ≠ [] ∧ a = Queue.onBuffer offss)
    {calls : List (Queue.Call α)} (hok : a.AllOk calls) {m : Mem} {slice : Mempool.Slice}
    (haddr : slice.address ≠ 0) (hlen : 0 < slice.length) {byteCalls : List QueueLimited.Call}
    (hbytes : QueueLimited.AllOk m (.new slice) byteCalls) :
    (∃ answers a', a.run calls = some (answers, a') ∧
      Fifo a.bound (calls.map Queue.Call.ring) answers a'.count) ∧
    ∃ answers m' b, QueueLimited.run m (.new slice) byteCalls =
        (answers.map QueueLimited.answerInt, m', b) ∧
      Fifo (some slice.length) (byteCalls.map QueueLimited.Call.ring) answers b.getNumberInnable ∧
      Mem.AgreeOn (Set.Ico slice.address (slice.address + slice.length))ᶜ m m' := by
  constructor
  · have hholds : a.Holds [] := by
      rcases ha with ⟨limit, rfl⟩ | ⟨offss, hne, rfl⟩
      · exact Queue.holds_new limit
      · exact Queue.holds_onBuffer hne
    obtain ⟨a', hrun, hend⟩ := hholds.run hok
    refine ⟨_, a', hrun, ?_⟩
    rw [hend.count_eq]
    exact fifo_listRun _ _
  · obtain ⟨m', b, hrun, hend, hagree⟩ := (QueueLimited.holds_new m haddr hlen).run hbytes
    refine ⟨_, m', b, hrun, ?_, hagree⟩
    rw [hend.getNumberInnable_eq]
    exact fifo_listRun _ _

/-- A queue that grows while its values are wrapped, and a slice of two bytes. -/
theorem queues_fifo_wrapped :
    (∃ answers a', (Queue.new 2 : Queue Nat).run
        [.enqueue 1, .enqueue 2, .dequeue, .enqueue 3, .enqueue 4, .resize 9] = some (answers, a') ∧
      Fifo none [.put [1], .put [2], .take, .put [3], .put [4], .size 9] answers a'.count) ∧
    ∃ answers m' b, QueueLimited.run (fun _ => 0) (.new ⟨0x1000, 2⟩) [.out [7, 8, 9], .inn] =
        (answers.map QueueLimited.answerInt, m', b) ∧
      Fifo (some 2) [.put [7, 8, 9], .take] answers b.getNumberInnable ∧
      Mem.AgreeOn (Set.Ico 0x1000 (0x1000 + 2))ᶜ (fun _ => 0) m' := by
  refine @queues_fifo Nat (Queue.new 2) (Or.inl ⟨2, rfl⟩)
    [.enqueue 1, .enqueue 2, .dequeue, .enqueue 3, .enqueue 4, .resize 9] ?_
    (fun _ => 0) ⟨0x1000, 2⟩ (by decide) (by decide) [.out [7, 8, 9], .inn] ⟨?_, trivial, trivial⟩
  · exact ⟨trivial, trivial, trivial, trivial, trivial, fun _ => ⟨by decide, by decide⟩, trivial⟩
  · change min 3 (2 - 0) < 2 ^ 31
    decide

/-- After a `Resize` to exactly the number of values, `Enqueue` writes outside the
array, and the last value comes out twice. -/
theorem resize_exact_writes_outside :
    (Queue.new 2 : Queue Nat).run [.enqueue 1, .resize 1, .enqueue 2] = none ∧
    ((Queue.new 2 : Queue Nat).run [.enqueue 1, .resize 1, .dequeue, .dequeue]).map Prod.fst =
      some [.put 1, .size true, .take (some 1), .take (some 1)] :=
  ⟨rfl, rfl⟩

end Unisym.Datype
