/-
# `RequestQueue` — the life cycle of storage requests

A request is created, queued, started and completed; a queue holds the requests
it owns.  The calls come from the host, a timer and interrupts, in any order.
The world is all requests, all queues and the log of the callbacks that ran.

Every call is a few changes of single requests (`Touched`), and `prune`, which
is a filter (`prune_spec`).  `Sound` is what holds in every reachable world and
`LifeCycle` what a call may do there; `life_cycle` proves both.
-/
import Mathlib.Data.List.Nodup

namespace Unisym.Device

open Function List

/-! ## The code -/

inductive StorageRequestState where
  | created
  | queued
  | active
  | completed
  deriving DecidableEq

inductive StorageRequestStatus where
  | success
  | failed
  | timedOut
  deriving DecidableEq

structure StorageRequestResult where
  status : StorageRequestStatus
  transferred : Nat
  deriving DecidableEq

/-- `StorageRequest`; a callback is a function and its context, and a null
function is no callback. -/
structure StorageRequest (κ : Type*) where
  state : StorageRequestState
  completion : StorageRequestResult
  owner : Option κ
  started : UInt32
  timeoutMs : UInt32
  origin : Nat
  pinned : Bool
  completionContext : Nat
  completed : Option Nat

/-- `StorageRequestQueue`: the elements and the limit of its vector. -/
structure StorageRequestQueue (ρ : Type*) where
  requests : List ρ
  limit : Nat

/-- A callback that ran. -/
structure Notice (ρ : Type*) where
  request : ρ
  completed : Nat
  context : Nat
  origin : Nat

/-- All requests, all queues, the callbacks. -/
structure World (ρ κ : Type*) where
  request : ρ → StorageRequest κ
  queue : κ → StorageRequestQueue ρ
  log : List (Notice ρ)

variable {ρ κ : Type*}

namespace StorageRequest

def isDone (x : StorageRequest κ) : Bool := x.state == .completed

def isQueued (x : StorageRequest κ) : Bool := x.state == .queued

def isActive (x : StorageRequest κ) : Bool := x.state == .active

def hasExpired (x : StorageRequest κ) (now : UInt32) : Bool :=
  (x.isQueued || x.isActive) && decide (now - x.started ≥ x.timeoutMs)

/-- `StorageRequest()`. -/
def fresh : StorageRequest κ := ⟨.created, ⟨.failed, 0⟩, none, 0, 0, 0, false, 0, none⟩

end StorageRequest

/-- `Vector::Enlarge()`; `alloc` says whether the allocation succeeds. -/
def StorageRequestQueue.enlarge (maximum : Nat) (alloc : Bool) (v : StorageRequestQueue ρ) :
    Bool × StorageRequestQueue ρ :=
  if v.limit ≥ maximum then (false, v)
  else
    let toLimit := if v.limit < (maximum - 2) / 2 then (v.limit + 1) * 2 else maximum
    if toLimit ≤ v.limit then (true, v)
    else if toLimit > maximum then (false, v)
    else if alloc = false then (false, v)
    else (true, { v with limit := toLimit })

def StorageRequestQueue.append (maximum : Nat) (alloc : Bool) (v : StorageRequestQueue ρ) (x : ρ) :
    Bool × StorageRequestQueue ρ :=
  if v.requests.length ≥ v.limit then
    match v.enlarge maximum alloc with
    | (false, v) => (false, v)
    | (true, v) => (true, { v with requests := v.requests ++ [x] })
  else (true, { v with requests := v.requests ++ [x] })

/-- `StorageRequestQueue()` and `StorageRequest()` everywhere. -/
def World.init : World ρ κ := ⟨fun _ => .fresh, fun _ => ⟨[], 0⟩, []⟩

variable [DecidableEq ρ] [DecidableEq κ]

/-- The callback of a request, if it has one. -/
def StorageRequest.notice (r : ρ) (x : StorageRequest κ) : List (Notice ρ) :=
  match x.completed with
  | none => []
  | some f => [⟨r, f, x.completionContext, x.origin⟩]

namespace World

def complete (w : World ρ κ) (q : κ) (r : ρ) (result : StorageRequestResult) (quiesced : Bool) :
    Bool × World ρ κ :=
  let x := w.request r
  if x.owner ≠ some q ∨ x.isDone then (false, w)
  else
    (true,
      { w with
        request := update w.request r
          { x with pinned := x.isActive && !quiesced, completion := result, state := .completed }
        log := w.log ++ x.notice r })

def start (w : World ρ κ) (r : ρ) (now : UInt32) : Bool × World ρ κ :=
  let x := w.request r
  match x.owner with
  | none => (false, w)
  | some q =>
      if x.isQueued = false then (false, w)
      else if x.hasExpired now then (false, (w.complete q r ⟨.timedOut, 0⟩ true).2)
      else (true, { w with request := update w.request r { x with state := .active } })

/-- `StorageRequestQueue::Enqueue`; the handle may be null. -/
def enqueue (maximum : Nat) (w : World ρ κ) (q : κ) (request : Option ρ) (now timeoutMs : UInt32)
    (origin context : Nat) (completed : Option Nat) (alloc : Bool) : Bool × World ρ κ :=
  match request with
  | none => (false, w)
  | some r =>
      let x := w.request r
      if x.owner.isSome ∨ x.state ≠ .created ∨ timeoutMs = 0 ∨ timeoutMs > 0x7FFFFFFF then (false, w)
      else
        match (w.queue q).append maximum alloc r with
        | (false, v) => (false, { w with queue := update w.queue q v })
        | (true, v) =>
            (true,
              { w with
                queue := update w.queue q v
                request := update w.request r
                  { x with
                    owner := some q, started := now, timeoutMs := timeoutMs, origin := origin
                    completionContext := context, completed := completed, state := .queued } })

/-- One round of `ExpireQueued`. -/
def expireOne (q : κ) (now : UInt32) (w : World ρ κ) (r : ρ) : World ρ κ :=
  if (w.request r).isQueued && (w.request r).hasExpired now then
    (w.complete q r ⟨.timedOut, 0⟩ true).2
  else w

def expireQueued (w : World ρ κ) (q : κ) (now : UInt32) : World ρ κ :=
  (w.queue q).requests.foldl (expireOne q now) w

/-- The loop of `Prune` over the places below `i`, downwards. -/
def pruneFrom (q : κ) : Nat → World ρ κ → World ρ κ
  | 0, w => w
  | i + 1, w =>
      match (w.queue q).requests[i]? with
      | none => pruneFrom q i w
      | some r =>
          let x := w.request r
          if !x.isDone || x.pinned then pruneFrom q i w
          else
            pruneFrom q i
              { w with
                request := update w.request r { x with owner := none }
                queue := update w.queue q
                  { w.queue q with requests := (w.queue q).requests.eraseIdx i } }

def prune (w : World ρ κ) (q : κ) : World ρ κ := pruneFrom q (w.queue q).requests.length w

/-- `if (quiesced) request->pinned = false`. -/
def unpin (w : World ρ κ) (r : ρ) (quiesced : Bool) : World ρ κ :=
  if quiesced then { w with request := update w.request r { w.request r with pinned := false } }
  else w

/-- One round of `FailAll`. -/
def failOne (q : κ) (quiesced : Bool) (w : World ρ κ) (r : ρ) : World ρ κ :=
  let w := w.unpin r quiesced
  if (w.request r).isDone then w else (w.complete q r ⟨.failed, 0⟩ quiesced).2

def failAll (w : World ρ κ) (q : κ) (quiesced : Bool) : World ρ κ :=
  ((w.queue q).requests.foldl (failOne q quiesced) w).prune q

inductive Call (ρ κ : Type*) where
  | enqueue (q : κ) (request : Option ρ) (now timeoutMs : UInt32) (origin context : Nat)
      (completed : Option Nat) (alloc : Bool)
  | start (r : ρ) (now : UInt32)
  | complete (q : κ) (r : ρ) (result : StorageRequestResult) (quiesced : Bool)
  | expireQueued (q : κ) (now : UInt32)
  | failAll (q : κ) (quiesced : Bool)
  | prune (q : κ)

/-- One call: its answer (true where there is none) and the world after it. -/
def step (maximum : Nat) (w : World ρ κ) : Call ρ κ → Bool × World ρ κ
  | .enqueue q request now timeoutMs origin context completed alloc =>
      w.enqueue maximum q request now timeoutMs origin context completed alloc
  | .start r now => w.start r now
  | .complete q r result quiesced => w.complete q r result quiesced
  | .expireQueued q now => (true, w.expireQueued q now)
  | .failAll q quiesced => (true, w.failAll q quiesced)
  | .prune q => (true, w.prune q)

def run (maximum : Nat) (w : World ρ κ) (calls : List (Call ρ κ)) : World ρ κ :=
  calls.foldl (fun w call => (w.step maximum call).2) w

end World

/-! ## What the calls do -/

open StorageRequest

/-- What `Complete` makes of a request. -/
def StorageRequest.finish (q : κ) (result : StorageRequestResult) (quiesced : Bool)
    (x : StorageRequest κ) : StorageRequest κ :=
  if x.owner ≠ some q ∨ x.isDone then x
  else { x with pinned := x.isActive && !quiesced, completion := result, state := .completed }

/-- The callback that runs when `x` becomes `y`. -/
def StorageRequest.noticeOf (r : ρ) (x y : StorageRequest κ) : List (Notice ρ) :=
  if x.isDone = false ∧ y.isDone = true then x.notice r else []

/-- The requests `rs` are changed by `f`, and their callbacks run in order. -/
structure World.Touched (rs : List ρ) (f : StorageRequest κ → StorageRequest κ) (w w' : World ρ κ) :
    Prop where
  request : ∀ r, w'.request r = if r ∈ rs then f (w.request r) else w.request r
  queue : w'.queue = w.queue
  log : w'.log = w.log ++ rs.flatMap fun r => noticeOf r (w.request r) (f (w.request r))

namespace World

omit [DecidableEq κ] in
theorem touched_update {w w' : World ρ κ} {r : ρ} {f : StorageRequest κ → StorageRequest κ}
    (hrequest : w'.request = update w.request r (f (w.request r))) (hqueue : w'.queue = w.queue)
    (hlog : w'.log = w.log ++ noticeOf r (w.request r) (f (w.request r))) : Touched [r] f w w' where
  request := fun s => by
    rw [hrequest]
    by_cases hs : s = r
    · subst hs
      rw [if_pos mem_cons_self, update_self]
    · rw [if_neg (by simpa using hs), update_of_ne hs]
  queue := hqueue
  log := by rw [hlog, flatMap_singleton]

omit [DecidableEq κ] [DecidableEq ρ] in
theorem noticeOf_nil {r : ρ} {x y : StorageRequest κ} (h : x.isDone = true ∨ y.isDone = false) :
    noticeOf r x y = [] := by
  unfold noticeOf
  rcases h with h | h
  · rw [if_neg (fun hand => by rw [h] at hand; cases hand.1)]
  · rw [if_neg (fun hand => by rw [h] at hand; cases hand.2)]

omit [DecidableEq κ] in
theorem touched_same {w : World ρ κ} {r : ρ} {f : StorageRequest κ → StorageRequest κ}
    (hf : f (w.request r) = w.request r) : Touched [r] f w w := by
  refine touched_update ?_ rfl ?_
  · rw [hf, update_eq_self]
  · rw [hf, noticeOf_nil (Bool.eq_false_or_eq_true _), append_nil]

theorem touched_complete (w : World ρ κ) (q : κ) (r : ρ) (result : StorageRequestResult)
    (quiesced : Bool) :
    Touched [r] (finish q result quiesced) w (w.complete q r result quiesced).2 := by
  unfold complete
  dsimp only
  by_cases hc : (w.request r).owner ≠ some q ∨ (w.request r).isDone = true
  · rw [if_pos hc]
    exact touched_same (if_pos hc)
  · rw [if_neg hc]
    refine touched_update ?_ rfl ?_
    · unfold finish
      rw [if_neg hc]
    · unfold finish noticeOf
      rw [if_neg hc, if_pos ⟨by simpa using fun h => hc (Or.inr h), rfl⟩]

omit [DecidableEq κ] in
theorem touched_foldl {body : World ρ κ → ρ → World ρ κ}
    {f : StorageRequest κ → StorageRequest κ} (hbody : ∀ w r, Touched [r] f w (body w r)) :
    ∀ {rs : List ρ} (w : World ρ κ), rs.Nodup → Touched rs f w (rs.foldl body w)
  | [], w, _ => ⟨fun _ => rfl, rfl, (append_nil _).symm⟩
  | r :: rs, w, hnd => by
    have hr := hbody w r
    have hnot : r ∉ rs := (nodup_cons.mp hnd).1
    have ih := touched_foldl hbody (body w r) (nodup_cons.mp hnd).2
    have hsame : ∀ s, s ≠ r → (body w r).request s = w.request s := fun s hs => by
      rw [hr.request, if_neg (by simpa using hs)]
    refine ⟨fun s => ?_, ih.queue.trans hr.queue, ?_⟩
    · rw [foldl_cons, ih.request]
      by_cases hs : s = r
      · subst hs
        rw [if_neg hnot, if_pos mem_cons_self, hr.request, if_pos mem_cons_self]
      · rw [hsame s hs]
        by_cases hmem : s ∈ rs
        · rw [if_pos hmem, if_pos (mem_cons_of_mem _ hmem)]
        · rw [if_neg hmem, if_neg (by simp [hs, hmem])]
    · have hlog := hr.log
      rw [flatMap_singleton] at hlog
      have hrest : rs.flatMap (fun s =>
            noticeOf s ((body w r).request s) (f ((body w r).request s))) =
          rs.flatMap fun s => noticeOf s (w.request s) (f (w.request s)) :=
        flatMap_congr fun s hs => by
          rw [hsame s (fun heq => hnot (heq ▸ hs))]
      rw [foldl_cons, ih.log, hlog, hrest, flatMap_cons, append_assoc]

end World

/-- What `Start` makes of a request. -/
def StorageRequest.begin (now : UInt32) (x : StorageRequest κ) : StorageRequest κ :=
  match x.owner with
  | none => x
  | some q =>
      if x.isQueued = false then x
      else if x.hasExpired now then finish q ⟨.timedOut, 0⟩ true x
      else { x with state := .active }

/-- What a round of `ExpireQueued` makes of a request. -/
def StorageRequest.expire (q : κ) (now : UInt32) (x : StorageRequest κ) : StorageRequest κ :=
  if x.isQueued && x.hasExpired now then finish q ⟨.timedOut, 0⟩ true x else x

/-- The request without its pin, after a reset. -/
def StorageRequest.unpin (quiesced : Bool) (x : StorageRequest κ) : StorageRequest κ :=
  if quiesced then { x with pinned := false } else x

/-- What a round of `FailAll` makes of a request. -/
def StorageRequest.fail (q : κ) (quiesced : Bool) (x : StorageRequest κ) : StorageRequest κ :=
  let x := x.unpin quiesced
  if x.isDone then x else finish q ⟨.failed, 0⟩ quiesced x

/-- `Prune` keeps the request. -/
def StorageRequest.stays (x : StorageRequest κ) : Bool := !x.isDone || x.pinned

/-- What `Prune` makes of a request. -/
def StorageRequest.release (x : StorageRequest κ) : StorageRequest κ :=
  if x.stays then x else { x with owner := none }

namespace World

omit [DecidableEq κ] in
/-- The change of one request may be given by another function with the same
value there. -/
theorem Touched.congr {w w' : World ρ κ} {r : ρ} {f g : StorageRequest κ → StorageRequest κ}
    (h : Touched [r] f w w') (hfg : g (w.request r) = f (w.request r)) : Touched [r] g w w' where
  request := fun s => by
    rw [h.request]
    by_cases hs : s ∈ [r]
    · rw [if_pos hs, if_pos hs, mem_singleton.mp hs, hfg]
    · rw [if_neg hs, if_neg hs]
  queue := h.queue
  log := by rw [h.log, flatMap_singleton, flatMap_singleton, hfg]

theorem touched_start (w : World ρ κ) (r : ρ) (now : UInt32) :
    Touched [r] (begin now) w (w.start r now).2 := by
  unfold start
  dsimp only
  cases ho : (w.request r).owner with
  | none => exact touched_same (by rw [begin, ho])
  | some q =>
    dsimp only
    by_cases hq : (w.request r).isQueued = false
    · rw [if_pos hq]
      exact touched_same (by rw [begin, ho]; exact if_pos hq)
    · rw [if_neg hq]
      by_cases he : (w.request r).hasExpired now = true
      · have hf : begin now (w.request r) = finish q ⟨.timedOut, 0⟩ true (w.request r) := by
          rw [begin, ho]
          dsimp only
          rw [if_neg hq, if_pos he]
        rw [if_pos he]
        exact (touched_complete w q r ⟨.timedOut, 0⟩ true).congr hf
      · have hf : begin now (w.request r) =
            { w.request r with state := .active, owner := some q } := by
          rw [begin, ho]
          dsimp only
          rw [if_neg hq, if_neg he]
        rw [if_neg he]
        refine touched_update (by rw [hf]) rfl ?_
        rw [noticeOf_nil (Or.inr (by rw [hf]; rfl)), append_nil]

theorem touched_expireOne (q : κ) (now : UInt32) (w : World ρ κ) (r : ρ) :
    Touched [r] (expire q now) w (expireOne q now w r) := by
  unfold expireOne
  by_cases he : ((w.request r).isQueued && (w.request r).hasExpired now) = true
  · rw [if_pos he]
    exact (touched_complete w q r ⟨.timedOut, 0⟩ true).congr (if_pos he)
  · rw [if_neg he]
    exact touched_same (if_neg he)

theorem touched_failOne (q : κ) (quiesced : Bool) (w : World ρ κ) (r : ρ) :
    Touched [r] (fail q quiesced) w (failOne q quiesced w r) := by
  have hrequest : (w.unpin r quiesced).request =
      update w.request r ((w.request r).unpin quiesced) := by
    cases quiesced with
    | true => rfl
    | false => exact (update_eq_self r w.request).symm
  have hqueue : (w.unpin r quiesced).queue = w.queue := by cases quiesced <;> rfl
  have hlog : (w.unpin r quiesced).log = w.log := by cases quiesced <;> rfl
  have hdone : ((w.request r).unpin quiesced).isDone = (w.request r).isDone := by
    cases quiesced <;> rfl
  have hnotice : ∀ y, noticeOf r ((w.request r).unpin quiesced) y = noticeOf r (w.request r) y := by
    cases quiesced <;> exact fun _ => rfl
  unfold failOne
  dsimp only
  generalize w.unpin r quiesced = w₁ at *
  have hself : w₁.request r = (w.request r).unpin quiesced := by rw [hrequest, update_self]
  rw [hself]
  by_cases hd : ((w.request r).unpin quiesced).isDone = true
  · have hf : fail q quiesced (w.request r) = (w.request r).unpin quiesced := if_pos hd
    rw [if_pos hd]
    refine touched_update (by rw [hrequest, hf]) hqueue ?_
    rw [hlog, noticeOf_nil (Or.inl (hdone ▸ hd)), append_nil]
  · have hf : fail q quiesced (w.request r) =
        finish q ⟨.failed, 0⟩ quiesced ((w.request r).unpin quiesced) := if_neg hd
    have hc := touched_complete w₁ q r ⟨.failed, 0⟩ quiesced
    rw [if_neg hd]
    refine touched_update ?_ (hc.queue.trans hqueue) ?_
    · funext s
      rw [hc.request]
      by_cases hs : s = r
      · rw [hs, if_pos mem_cons_self, update_self, hf, hself]
      · rw [if_neg (by simpa using hs), hrequest, update_of_ne hs, update_of_ne hs]
    · rw [hc.log, hlog, flatMap_singleton, hf, hself, hnotice]

omit [DecidableEq κ] [DecidableEq ρ] in
theorem release_stays (x : StorageRequest κ) : x.release.stays = x.stays := by
  unfold release
  split <;> rfl

omit [DecidableEq κ] [DecidableEq ρ] in
theorem release_release (x : StorageRequest κ) : x.release.release = x.release := by
  cases hs : x.stays with
  | true => rw [release, if_pos (by rw [release_stays, hs])]
  | false =>
    have hx : x.release = { x with owner := none } := if_neg (by rw [hs]; decide)
    rw [hx]
    exact if_neg (by change ¬x.stays = true; rw [hs]; decide)

theorem pruneFrom_spec (q : κ) : ∀ (i : Nat) (w : World ρ κ),
    i ≤ (w.queue q).requests.length →
      (∀ r, (pruneFrom q i w).request r =
        if r ∈ (w.queue q).requests.take i then (w.request r).release else w.request r) ∧
      (pruneFrom q i w).queue = update w.queue q
        { w.queue q with
          requests := ((w.queue q).requests.take i).filter (fun r => (w.request r).stays) ++
            (w.queue q).requests.drop i } ∧
      (pruneFrom q i w).log = w.log
  | 0, w, _ => by
    refine ⟨fun r => ?_, ?_, rfl⟩
    · rw [take_zero, if_neg not_mem_nil]
      rfl
    · rw [take_zero, filter_nil, nil_append, drop_zero]
      exact (update_eq_self q w.queue).symm
  | i + 1, w, hi => by
    have hlt : i < (w.queue q).requests.length := hi
    have htake : (w.queue q).requests.take (i + 1) =
        (w.queue q).requests.take i ++ [(w.queue q).requests[i]] :=
      take_succ_eq_append_getElem hlt
    have hdrop : (w.queue q).requests.drop i =
        (w.queue q).requests[i] :: (w.queue q).requests.drop (i + 1) :=
      drop_eq_getElem_cons hlt
    unfold pruneFrom
    rw [getElem?_eq_getElem hlt]
    dsimp only
    generalize hr : (w.queue q).requests[i] = r at htake hdrop
    by_cases hkeep : (!(w.request r).isDone || (w.request r).pinned) = true
    · have hstays : (w.request r).stays = true := hkeep
      rw [if_pos hkeep]
      obtain ⟨hrequest, hqueue, hlog⟩ := pruneFrom_spec q i w (Nat.le_of_lt hlt)
      refine ⟨fun s => ?_, ?_, hlog⟩
      · rw [hrequest s, htake]
        by_cases hs : s ∈ (w.queue q).requests.take i
        · rw [if_pos hs, if_pos (mem_append_left _ hs)]
        · rw [if_neg hs]
          by_cases hsr : s = r
          · rw [hsr, if_pos mem_append_cons_self, release, if_pos hstays]
          · rw [if_neg (by simp [hs, hsr])]
      · rw [hqueue, htake, hdrop, filter_append, filter_cons, if_pos hstays,
          filter_nil, append_assoc, singleton_append]
    · have hleaves : ¬(w.request r).stays = true := hkeep
      rw [if_neg hkeep]
      have hrel : (w.request r).release = { w.request r with owner := none } := if_neg hleaves
      rw [← hrel]
      generalize hw₁ : (⟨update w.request r (w.request r).release, update w.queue q
        { w.queue q with requests := (w.queue q).requests.eraseIdx i }, w.log⟩ : World ρ κ) = w₁
      have hrequest₁ : w₁.request = update w.request r (w.request r).release := by rw [← hw₁]
      have hqueue₁ : w₁.queue = update w.queue q
          { w.queue q with requests := (w.queue q).requests.eraseIdx i } := by rw [← hw₁]
      have hlist : (w₁.queue q).requests =
          (w.queue q).requests.take i ++ (w.queue q).requests.drop (i + 1) := by
        rw [hqueue₁, update_self, eraseIdx_eq_take_drop_succ]
      have hlen : ((w.queue q).requests.take i).length = i :=
        length_take_of_le (Nat.le_of_lt hlt)
      obtain ⟨hrequest, hqueue, hlog⟩ := pruneFrom_spec q i w₁ (by
        rw [hlist, length_append, hlen]
        exact Nat.le_add_right i _)
      rw [hlist, take_left' hlen] at hrequest
      rw [hlist, take_left' hlen, drop_left' hlen] at hqueue
      have hsame : ∀ s, (w₁.request s).stays = (w.request s).stays := fun s => by
        rw [hrequest₁]
        by_cases hs : s = r
        · rw [hs, update_self, release_stays]
        · rw [update_of_ne hs]
      refine ⟨fun s => ?_, ?_, by rw [hlog, ← hw₁]⟩
      · rw [hrequest s, htake, hrequest₁]
        by_cases hs : s = r
        · rw [hs, update_self, release_release, ite_self,
            if_pos mem_append_cons_self]
        · rw [update_of_ne hs]
          by_cases hmem : s ∈ (w.queue q).requests.take i
          · rw [if_pos hmem, if_pos (mem_append_left _ hmem)]
          · rw [if_neg hmem, if_neg (by simp [hs, hmem])]
      · rw [hqueue, hqueue₁, update_idem, update_self, htake, filter_append,
          filter_cons, if_neg hleaves, filter_nil, append_nil]
        simp only [hsame]

theorem prune_spec (w : World ρ κ) (q : κ) :
    (∀ r, (w.prune q).request r =
      if r ∈ (w.queue q).requests then (w.request r).release else w.request r) ∧
    (w.prune q).queue = update w.queue q
      { w.queue q with requests := (w.queue q).requests.filter fun r => (w.request r).stays } ∧
    (w.prune q).log = w.log := by
  have h := pruneFrom_spec q (w.queue q).requests.length w (Nat.le_refl _)
  rw [take_length, drop_length, append_nil] at h
  exact h

end World

/-! ## The life cycle -/

/-- How a state may move. -/
inductive Moves : StorageRequestState → StorageRequestState → Prop
  | stay (s : StorageRequestState) : Moves s s
  | enqueued : Moves .created .queued
  | started : Moves .queued .active
  | finished : Moves .active .completed
  | expired : Moves .queued .completed

/-- What holds in every world: a request is at most once in a queue, that of its
owner; an owned request was queued, a pinned one is completed; and the callback
of a request ran once if it is completed, and not at all before. -/
structure World.Sound (w : World ρ κ) : Prop where
  nodup : ∀ q, (w.queue q).requests.Nodup
  owner : ∀ q r, r ∈ (w.queue q).requests ↔ (w.request r).owner = some q
  owned : ∀ r, (w.request r).owner ≠ none → (w.request r).state ≠ .created
  pinned : ∀ r, (w.request r).pinned = true → (w.request r).isDone = true
  callback : ∀ r, w.log.filter (fun n => n.request = r) =
    if (w.request r).isDone then (w.request r).notice r else []

namespace World

/-- The call tells that the hardware has stopped, or completes no active
request. -/
def Call.quiesced : Call ρ κ → Bool
  | .complete _ _ _ quiesced => quiesced
  | .failAll _ quiesced => quiesced
  | _ => true

def Call.isEnqueue : Call ρ κ → Bool
  | .enqueue .. => true
  | _ => false

/-- What a call does from `w` to `w'`. -/
structure LifeCycle (call : Call ρ κ) (w : World ρ κ) (answer : Bool) (w' : World ρ κ) : Prop where
  state : ∀ r, Moves (w.request r).state (w'.request r).state
  /-- The callback of a request runs in the call that completes it. -/
  callback : ∃ notices, w'.log = w.log ++ notices ∧
    ∀ r, notices.filter (fun n => n.request = r) =
      if (w.request r).isDone = false ∧ (w'.request r).isDone = true then (w'.request r).notice r
      else []
  result : ∀ r, (w.request r).isDone = true → (w'.request r).completion = (w.request r).completion
  /-- A request completed while active without `quiesced` is pinned in its queue. -/
  unsettled : ∀ q r, r ∈ (w.queue q).requests → (w.request r).isActive = true →
    (w'.request r).isDone = true → call.quiesced = false →
      (w'.request r).pinned = true ∧ r ∈ (w'.queue q).requests
  /-- Only `FailAll(true)` takes a pin away. -/
  keeps : ∀ q r, r ∈ (w.queue q).requests → (w.request r).pinned = true →
    call ≠ .failAll q true → (w'.request r).pinned = true ∧ r ∈ (w'.queue q).requests
  order : ∀ q, ∃ new, (w'.queue q).requests =
    (w.queue q).requests.filter (fun r => r ∈ (w'.queue q).requests) ++ new
  leaves : ∀ q r, r ∈ (w.queue q).requests → r ∉ (w'.queue q).requests →
    call = .prune q ∨ ∃ quiesced, call = .failAll q quiesced
  refused : call.isEnqueue = true → answer = false → w' = w

/-- What a call may do to the requests before it prunes. -/
structure Advanced (call : Call ρ κ) (w w' : World ρ κ) : Prop where
  queue : w'.queue = w.queue
  state : ∀ r, Moves (w.request r).state (w'.request r).state
  owner : ∀ r, (w'.request r).owner = (w.request r).owner
  result : ∀ r, (w.request r).isDone = true → (w'.request r).completion = (w.request r).completion
  notice : ∀ r, (w'.request r).notice r = (w.request r).notice r
  pinned : ∀ r, (w'.request r).pinned = true → (w'.request r).isDone = true
  unsettled : ∀ r, (w.request r).isActive = true → (w'.request r).isDone = true →
    call.quiesced = false → (w'.request r).pinned = true
  keeps : ∀ q r, r ∈ (w.queue q).requests → (w.request r).pinned = true →
    call ≠ .failAll q true → (w'.request r).pinned = true
  callback : ∃ notices, w'.log = w.log ++ notices ∧
    ∀ r, notices.filter (fun n => n.request = r) = noticeOf r (w.request r) (w'.request r)

end World

theorem Moves.completed {x y : StorageRequestState} (h : Moves x y) (hx : x = .completed) :
    y = .completed := by
  cases h with
  | stay => exact hx
  | enqueued | started | finished | expired => cases hx

omit [DecidableEq κ] [DecidableEq ρ] in
theorem Moves.isDone {x y : StorageRequest κ} (h : Moves x.state y.state)
    (hx : x.isDone = true) : y.isDone = true :=
  beq_iff_eq.mpr (h.completed (beq_iff_eq.mp hx))

theorem Moves.created {x y : StorageRequestState} (h : Moves x y) (hx : x ≠ .created) :
    y ≠ .created := by
  cases h with
  | stay => exact hx
  | enqueued => exact absurd rfl hx
  | started | finished | expired => exact StorageRequestState.noConfusion

namespace World

omit [DecidableEq κ] in
theorem Advanced.sound {call : Call ρ κ} {w w' : World ρ κ} (ha : Advanced call w w')
    (hs : w.Sound) : w'.Sound where
  nodup := fun q => by rw [ha.queue]; exact hs.nodup q
  owner := fun q r => by rw [ha.queue, ha.owner]; exact hs.owner q r
  owned := fun r hr => by
    rw [ha.owner] at hr
    exact (ha.state r).created (hs.owned r hr)
  pinned := ha.pinned
  callback := fun r => by
    obtain ⟨notices, hlog, hnotices⟩ := ha.callback
    rw [hlog, filter_append, hs.callback, hnotices, ha.notice, noticeOf]
    cases hx : (w.request r).isDone with
    | true => simp [(ha.state r).isDone hx]
    | false => simp

omit [DecidableEq κ] in
theorem Advanced.lifeCycle {call : Call ρ κ} {w w' : World ρ κ} (ha : Advanced call w w')
    (hcall : call.isEnqueue = false) (answer : Bool) : LifeCycle call w answer w' where
  state := ha.state
  callback := by
    obtain ⟨notices, hlog, hnotices⟩ := ha.callback
    refine ⟨notices, hlog, fun r => ?_⟩
    rw [hnotices, ha.notice, noticeOf]
  result := ha.result
  unsettled := fun q r hr hactive hdone hquiesced =>
    ⟨ha.unsettled r hactive hdone hquiesced, by rw [ha.queue]; exact hr⟩
  keeps := fun q r hr hpin hne => ⟨ha.keeps q r hr hpin hne, by rw [ha.queue]; exact hr⟩
  order := fun q => ⟨[], by
    rw [ha.queue, append_nil]
    exact (filter_eq_self.mpr fun r hr => decide_eq_true hr).symm⟩
  leaves := fun q r hr hleft => by
    rw [ha.queue] at hleft
    exact absurd hr hleft
  refused := fun h => by rw [hcall] at h; cases h

omit [DecidableEq κ] [DecidableEq ρ] in
theorem release_eq (x : StorageRequest κ) :
    x.release.state = x.state ∧ x.release.completion = x.completion ∧
      x.release.pinned = x.pinned ∧ (∀ r : ρ, x.release.notice r = x.notice r) ∧
      (x.stays = true → x.release.owner = x.owner) ∧
      (x.stays = false → x.release.owner = none) := by
  unfold release
  cases hs : x.stays with
  | true =>
    rw [if_pos rfl]
    exact ⟨rfl, rfl, rfl, fun _ => rfl, fun _ => rfl, (fun h => by cases h)⟩
  | false =>
    rw [if_neg (by decide)]
    exact ⟨rfl, rfl, rfl, fun _ => rfl, (fun h => by cases h), fun _ => rfl⟩

theorem prune_request (w : World ρ κ) (q : κ) (r : ρ) :
    ((w.prune q).request r).state = (w.request r).state ∧
      ((w.prune q).request r).completion = (w.request r).completion ∧
      ((w.prune q).request r).pinned = (w.request r).pinned ∧
      ((w.prune q).request r).notice r = (w.request r).notice r := by
  rw [(prune_spec w q).1]
  split
  · exact ⟨(release_eq (ρ := ρ) _).1, (release_eq (ρ := ρ) _).2.1, (release_eq (ρ := ρ) _).2.2.1,
      (release_eq _).2.2.2.1 r⟩
  · exact ⟨rfl, rfl, rfl, rfl⟩

theorem mem_prune (w : World ρ κ) (q p : κ) (r : ρ) :
    r ∈ ((w.prune q).queue p).requests ↔
      r ∈ (w.queue p).requests ∧ (p = q → (w.request r).stays = true) := by
  rw [(prune_spec w q).2.1]
  by_cases hp : p = q
  · subst hp
    rw [update_self, mem_filter]
    exact ⟨fun h => ⟨h.1, fun _ => h.2⟩, fun h => ⟨h.1, h.2 rfl⟩⟩
  · rw [update_of_ne hp]
    exact ⟨fun h => ⟨h, fun heq => absurd heq hp⟩, fun h => h.1⟩

theorem Sound.prune {w : World ρ κ} (hs : w.Sound) (q : κ) : (w.prune q).Sound where
  nodup := fun p => by
    rw [(prune_spec w q).2.1]
    by_cases hp : p = q
    · subst hp
      rw [update_self]
      exact (hs.nodup p).filter _
    · rw [update_of_ne hp]
      exact hs.nodup p
  owner := fun p r => by
    rw [mem_prune, (prune_spec w q).1, hs.owner p r]
    have hq := hs.owner q r
    cases hstays : (w.request r).stays with
    | true =>
      have howner := (release_eq (ρ := ρ) (w.request r)).2.2.2.2.1 hstays
      split
      · rw [howner]
        exact ⟨fun h => h.1, fun h => ⟨h, fun _ => rfl⟩⟩
      · exact ⟨fun h => h.1, fun h => ⟨h, fun _ => rfl⟩⟩
    | false =>
      have howner := (release_eq (ρ := ρ) (w.request r)).2.2.2.2.2 hstays
      split
      · rename_i hmem
        rw [howner, hq.mp hmem]
        refine ⟨fun h => ?_, fun h => by cases h⟩
        cases h.2 (Option.some_inj.mp h.1).symm
      · rename_i hmem
        exact ⟨fun h => h.1, fun h => ⟨h, fun hpq => absurd (hq.mpr (hpq ▸ h)) hmem⟩⟩
  owned := fun r hr => by
    rw [(prune_request w q r).1]
    refine hs.owned r fun hnone => hr ?_
    rw [(prune_spec w q).1]
    split
    · cases hstays : (w.request r).stays with
      | true => rw [(release_eq (ρ := ρ) (w.request r)).2.2.2.2.1 hstays, hnone]
      | false => exact (release_eq (ρ := ρ) (w.request r)).2.2.2.2.2 hstays
    · exact hnone
  pinned := fun r hr => by
    rw [(prune_request w q r).2.2.1] at hr
    unfold isDone
    rw [(prune_request w q r).1]
    exact hs.pinned r hr
  callback := fun r => by
    rw [(prune_spec w q).2.2, hs.callback, (prune_request w q r).2.2.2]
    unfold isDone
    rw [(prune_request w q r).1]

theorem Advanced.lifeCycle_prune {call : Call ρ κ} {w w' : World ρ κ} (ha : Advanced call w w')
    {q : κ} (hcall : call = .prune q ∨ ∃ quiesced, call = .failAll q quiesced) :
    LifeCycle call w true (w'.prune q) where
  state := fun r => by
    rw [(prune_request w' q r).1]
    exact ha.state r
  callback := by
    obtain ⟨notices, hlog, hnotices⟩ := ha.callback
    refine ⟨notices, by rw [(prune_spec w' q).2.2, hlog], fun r => ?_⟩
    rw [hnotices, (prune_request w' q r).2.2.2, ha.notice, noticeOf]
    unfold isDone
    rw [(prune_request w' q r).1]
  result := fun r hr => by rw [(prune_request w' q r).2.1, ha.result r hr]
  unsettled := fun p r hr hactive hdone hquiesced => by
    unfold isDone at hdone
    rw [(prune_request w' q r).1] at hdone
    have hpin := ha.unsettled r hactive hdone hquiesced
    rw [(prune_request w' q r).2.2.1, mem_prune, ha.queue]
    exact ⟨hpin, hr, fun _ => by rw [stays, hpin, Bool.or_true]⟩
  keeps := fun p r hr hpin hne => by
    have hpin' := ha.keeps p r hr hpin hne
    rw [(prune_request w' q r).2.2.1, mem_prune, ha.queue]
    exact ⟨hpin', hr, fun _ => by rw [stays, hpin', Bool.or_true]⟩
  order := fun p => by
    refine ⟨[], ?_⟩
    rw [append_nil]
    simp only [mem_prune]
    rw [(prune_spec w' q).2.1, ha.queue]
    by_cases hp : p = q
    · subst hp
      rw [update_self]
      exact filter_congr fun r hr => by simp [hr]
    · rw [update_of_ne hp]
      exact (filter_eq_self.mpr fun r hr => decide_eq_true ⟨hr, fun h => absurd h hp⟩).symm
  leaves := fun p r hr hleft => by
    rw [mem_prune, ha.queue] at hleft
    by_cases hp : p = q
    · rw [hp]
      exact hcall
    · exact absurd ⟨hr, fun h => absurd h hp⟩ hleft
  refused := fun h => by
    rcases hcall with rfl | ⟨quiesced, rfl⟩
    · cases h
    · cases h

/-- What a change of one request respects. -/
structure Progress (quiesced unpins : Bool) (x y : StorageRequest κ) : Prop where
  state : Moves x.state y.state
  owner : y.owner = x.owner
  result : x.isDone = true → y.completion = x.completion
  notice : ∀ r : ρ, y.notice r = x.notice r
  pinned : y.pinned = true → y.isDone = true
  unsettled : x.isActive = true → y.isDone = true → quiesced = false → y.pinned = true
  keeps : x.pinned = true → unpins = false → y.pinned = true

omit [DecidableEq κ] [DecidableEq ρ] in
theorem progress_same {x : StorageRequest κ} (hpinned : x.pinned = true → x.isDone = true)
    (quiesced unpins : Bool) : Progress (ρ := ρ) quiesced unpins x x where
  state := .stay _
  owner := rfl
  result := fun _ => rfl
  notice := fun _ => rfl
  pinned := hpinned
  unsettled := fun hactive hdone => by
    rw [isActive, beq_iff_eq] at hactive
    rw [isDone, hactive] at hdone
    cases hdone
  keeps := fun h _ => h

omit [DecidableEq ρ] in
theorem progress_finish {x : StorageRequest κ} (howned : x.owner ≠ none → x.state ≠ .created)
    (hpinned : x.pinned = true → x.isDone = true) (q : κ) (result : StorageRequestResult)
    (quiesced unpins : Bool) :
    Progress (ρ := ρ) quiesced unpins x (finish q result quiesced x) := by
  unfold finish
  by_cases hc : x.owner ≠ some q ∨ x.isDone = true
  · rw [if_pos hc]
    exact progress_same hpinned quiesced unpins
  · rw [if_neg hc]
    have howner : x.owner = some q := by_contra fun h => hc (Or.inl h)
    have hdone : ¬x.isDone = true := fun h => hc (Or.inr h)
    have hstate : x.state = .queued ∨ x.state = .active := by
      have hnew := howned (by rw [howner]; exact Option.some_ne_none q)
      rw [isDone, beq_iff_eq] at hdone
      revert hnew hdone
      cases x.state <;> simp
    refine ⟨?_, rfl, fun h => absurd h hdone, fun _ => rfl, fun _ => rfl, fun h _ hq => ?_,
      fun h => absurd (hpinned h) hdone⟩
    · rcases hstate with h | h
      · rw [h]
        exact .expired
      · rw [h]
        exact .finished
    · dsimp only
      rw [h, hq]
      rfl

section

variable {w : World ρ κ} (hs : w.Sound) (r : ρ)
include hs r

theorem Sound.progress_begin (now : UInt32) :
    Progress (ρ := ρ) true false (w.request r) (begin now (w.request r)) := by
  have hsame := progress_same (ρ := ρ) (hs.pinned r) true false
  unfold begin
  split
  · exact hsame
  · rename_i q ho
    by_cases hq : (w.request r).isQueued = false
    · rw [if_pos hq]
      exact hsame
    · rw [if_neg hq]
      by_cases he : (w.request r).hasExpired now = true
      · rw [if_pos he]
        exact progress_finish (hs.owned r) (hs.pinned r) _ _ _ _
      · rw [if_neg he]
        have hstate : (w.request r).state = .queued := by
          rw [isQueued, Bool.not_eq_false, beq_iff_eq] at hq
          exact hq
        have hdone : ¬(w.request r).isDone = true := by
          rw [isDone, hstate]
          decide
        refine ⟨by rw [hstate]; exact .started, rfl, fun h => absurd h hdone, fun _ => rfl,
          fun h => absurd (hs.pinned r h) hdone, fun _ h => ?_, fun h _ => h⟩
        cases h

theorem Sound.progress_expire (q : κ) (now : UInt32) :
    Progress (ρ := ρ) true false (w.request r) (expire q now (w.request r)) := by
  unfold expire
  split
  · exact progress_finish (hs.owned r) (hs.pinned r) _ _ _ _
  · exact progress_same (hs.pinned r) _ _

theorem Sound.progress_fail (q : κ) (quiesced : Bool) :
    Progress (ρ := ρ) quiesced quiesced (w.request r) (fail q quiesced (w.request r)) := by
  cases quiesced with
  | false =>
    change Progress false false _ (if (w.request r).isDone then w.request r else _)
    split
    · exact progress_same (hs.pinned r) _ _
    · exact progress_finish (hs.owned r) (hs.pinned r) _ _ _ _
  | true =>
    have hunpin : ∀ y, Progress (ρ := ρ) true true { w.request r with pinned := false } y →
        Progress (ρ := ρ) true true (w.request r) y := fun y hy =>
      ⟨hy.state, hy.owner, hy.result, hy.notice, hy.pinned, hy.unsettled, fun _ h => by cases h⟩
    refine hunpin _ ?_
    have howned : ({ w.request r with pinned := false } : StorageRequest κ).owner ≠ none →
        ({ w.request r with pinned := false } : StorageRequest κ).state ≠ .created := hs.owned r
    unfold StorageRequest.fail StorageRequest.unpin
    rw [if_pos rfl]
    dsimp only
    split
    · exact progress_same (x := { w.request r with pinned := false }) (fun h => by cases h) _ _
    · exact progress_finish howned (fun h => by cases h) _ _ _ _

end

omit [DecidableEq κ] in
theorem filter_notices {w : World ρ κ} (f : StorageRequest κ → StorageRequest κ) (r : ρ) :
    ∀ {rs : List ρ}, rs.Nodup →
      (rs.flatMap fun s => noticeOf s (w.request s) (f (w.request s))).filter
          (fun n => n.request = r) =
        if r ∈ rs then noticeOf r (w.request r) (f (w.request r)) else []
  | [], _ => by simp
  | s :: rs, hnd => by
    have hone : (noticeOf s (w.request s) (f (w.request s))).filter (fun n => n.request = r) =
        if r = s then noticeOf s (w.request s) (f (w.request s)) else [] := by
      unfold noticeOf StorageRequest.notice
      split
      · split
        · simp
        · by_cases hrs : r = s
          · simp [hrs]
          · simp [hrs, Ne.symm hrs]
      · simp
    have hnot := (nodup_cons.mp hnd).1
    rw [flatMap_cons, filter_append, hone,
      filter_notices f r (nodup_cons.mp hnd).2]
    by_cases hrs : r = s
    · subst hrs
      rw [if_pos rfl, if_neg hnot, if_pos mem_cons_self, append_nil]
    · rw [if_neg hrs, nil_append]
      by_cases hmem : r ∈ rs
      · rw [if_pos hmem, if_pos (mem_cons_of_mem _ hmem)]
      · rw [if_neg hmem, if_neg (by simp [hrs, hmem])]

omit [DecidableEq κ] in
theorem Touched.advanced {call : Call ρ κ} {w w' : World ρ κ} {rs : List ρ} {unpins : Bool}
    {f : StorageRequest κ → StorageRequest κ} (ht : Touched rs f w w') (hs : w.Sound)
    (hnd : rs.Nodup)
    (hf : ∀ r ∈ rs, Progress (ρ := ρ) call.quiesced unpins (w.request r) (f (w.request r)))
    (hunpins : unpins = true → ∃ q, call = .failAll q true ∧ rs = (w.queue q).requests) :
    Advanced call w w' := by
  have hstep : ∀ r, Progress (ρ := ρ) call.quiesced (unpins && decide (r ∈ rs)) (w.request r)
      (w'.request r) := fun r => by
    rw [ht.request]
    by_cases hr : r ∈ rs
    · rw [if_pos hr, decide_eq_true hr, Bool.and_true]
      exact hf r hr
    · rw [if_neg hr]
      exact progress_same (hs.pinned r) _ _
  refine ⟨ht.queue, fun r => (hstep r).state, fun r => (hstep r).owner, fun r => (hstep r).result,
    fun r => (hstep r).notice r, fun r => (hstep r).pinned, fun r => (hstep r).unsettled,
    fun q r hr hpin hne => (hstep r).keeps hpin ?_, _, ht.log, fun r => ?_⟩
  · rw [Bool.and_eq_false_iff]
    by_contra hcon
    rw [not_or, Bool.not_eq_false, decide_eq_false_iff_not, not_not] at hcon
    obtain ⟨p, hcall, hrs⟩ := hunpins hcon.1
    have hmem := hcon.2
    rw [hrs, hs.owner, (hs.owner q r).mp hr] at hmem
    cases hmem
    exact hne hcall
  · rw [filter_notices f r hnd, ht.request]
    split
    · rfl
    · exact (noticeOf_nil (Bool.eq_false_or_eq_true _)).symm

omit [DecidableEq ρ] in
theorem enlarge_cases (maximum : Nat) (alloc : Bool) (v : StorageRequestQueue ρ) :
    v.enlarge maximum alloc = (false, v) ∨
      ∃ limit, v.enlarge maximum alloc = (true, ⟨v.requests, limit⟩) := by
  unfold StorageRequestQueue.enlarge
  dsimp only
  generalize (if v.limit < (maximum - 2) / 2 then (v.limit + 1) * 2 else maximum) = toLimit
  split
  · exact Or.inl rfl
  · split
    · exact Or.inr ⟨_, rfl⟩
    · split
      · exact Or.inl rfl
      · split
        · exact Or.inl rfl
        · exact Or.inr ⟨_, rfl⟩

omit [DecidableEq ρ] in
theorem append_cases (maximum : Nat) (alloc : Bool) (v : StorageRequestQueue ρ) (x : ρ) :
    v.append maximum alloc x = (false, v) ∨
      ∃ limit, v.append maximum alloc x = (true, ⟨v.requests ++ [x], limit⟩) := by
  unfold StorageRequestQueue.append
  split
  · rcases enlarge_cases maximum alloc v with h | ⟨limit, h⟩
    · rw [h]
      exact Or.inl rfl
    · rw [h]
      exact Or.inr ⟨limit, rfl⟩
  · exact Or.inr ⟨_, rfl⟩

/-- The created request `r` was put at the end of the queue `q`. -/
structure Enqueued (q : κ) (r : ρ) (w w' : World ρ κ) : Prop where
  unowned : (w.request r).owner = none
  created : (w.request r).state = .created
  owner : (w'.request r).owner = some q
  queued : (w'.request r).state = .queued
  pinned : (w'.request r).pinned = (w.request r).pinned
  other : ∀ s, s ≠ r → w'.request s = w.request s
  queue : ∀ p, (w'.queue p).requests =
    if p = q then (w.queue p).requests ++ [r] else (w.queue p).requests
  log : w'.log = w.log

/-- `Enqueue` changes nothing, or puts a created request at the end of a queue. -/
theorem enqueue_cases (maximum : Nat) (w : World ρ κ) (q : κ) (request : Option ρ)
    (now timeoutMs : UInt32) (origin context : Nat) (completed : Option Nat) (alloc : Bool) :
    w.enqueue maximum q request now timeoutMs origin context completed alloc = (false, w) ∨
      ∃ r w', w.enqueue maximum q request now timeoutMs origin context completed alloc =
        (true, w') ∧ Enqueued q r w w' := by
  unfold enqueue
  split
  · exact Or.inl rfl
  · rename_i r
    dsimp only
    split
    · exact Or.inl rfl
    · rename_i hnot
      push Not at hnot
      rcases append_cases maximum alloc (w.queue q) r with happ | ⟨limit, happ⟩
      · rw [happ]
        dsimp only
        rw [update_eq_self]
        exact Or.inl rfl
      · rw [happ]
        refine Or.inr ⟨r, _, rfl, by simpa using hnot.1, hnot.2.1, ?_, ?_, ?_, fun s hs => ?_,
          fun p => ?_, rfl⟩ <;> dsimp only
        · rw [update_self]
        · rw [update_self]
        · rw [update_self]
        · rw [update_of_ne hs]
        · by_cases hp : p = q
          · rw [if_pos hp, hp, update_self]
          · rw [if_neg hp, update_of_ne hp]

omit [DecidableEq ρ] in
theorem Enqueued.mem_queue {q : κ} {r : ρ} {w w' : World ρ κ} (h : Enqueued q r w w') (p : κ)
    (s : ρ) : s ∈ (w'.queue p).requests ↔ s ∈ (w.queue p).requests ∨ (p = q ∧ s = r) := by
  rw [h.queue]
  by_cases hp : p = q
  · rw [if_pos hp, mem_append, mem_singleton]
    simp [hp]
  · rw [if_neg hp]
    simp [hp]

theorem Enqueued.not_mem {q : κ} {r : ρ} {w w' : World ρ κ} (h : Enqueued q r w w')
    (hs : w.Sound) (p : κ) : r ∉ (w.queue p).requests := fun hmem => by
  rw [hs.owner, h.unowned] at hmem
  cases hmem

omit [DecidableEq ρ] in
theorem Enqueued.not_done {q : κ} {r : ρ} {w w' : World ρ κ} (h : Enqueued q r w w') :
    (w.request r).isDone = false ∧ (w'.request r).isDone = false := by
  rw [isDone, isDone, h.created, h.queued]
  exact ⟨rfl, rfl⟩

theorem Enqueued.sound {q : κ} {r : ρ} {w w' : World ρ κ} (h : Enqueued q r w w') (hs : w.Sound) :
    w'.Sound where
  nodup := fun p => by
    rw [h.queue]
    split
    · exact (hs.nodup p).append (nodup_singleton r)
        (disjoint_singleton.mpr (h.not_mem hs p))
    · exact hs.nodup p
  owner := fun p s => by
    rw [h.mem_queue]
    by_cases hsr : s = r
    · subst hsr
      rw [h.owner, Option.some_inj]
      exact ⟨fun hor => (hor.resolve_left (h.not_mem hs p)).1.symm, fun heq => Or.inr ⟨heq.symm, rfl⟩⟩
    · rw [h.other s hsr, ← hs.owner]
      simp [hsr]
  owned := fun s => by
    by_cases hsr : s = r
    · subst hsr
      rw [h.queued]
      exact fun _ hcon => by cases hcon
    · rw [h.other s hsr]
      exact hs.owned s
  pinned := fun s hpin => by
    by_cases hsr : s = r
    · subst hsr
      rw [h.pinned] at hpin
      have hdone := hs.pinned s hpin
      rw [h.not_done.1] at hdone
      cases hdone
    · rw [h.other s hsr] at hpin ⊢
      exact hs.pinned s hpin
  callback := fun s => by
    rw [h.log, hs.callback]
    by_cases hsr : s = r
    · subst hsr
      rw [h.not_done.1, h.not_done.2]
      rfl
    · rw [h.other s hsr]

theorem Enqueued.lifeCycle {q : κ} {r : ρ} {w w' : World ρ κ} (h : Enqueued q r w w')
    (hs : w.Sound) (call : Call ρ κ) : LifeCycle call w true w' where
  state := fun s => by
    by_cases hsr : s = r
    · subst hsr
      rw [h.created, h.queued]
      exact .enqueued
    · rw [h.other s hsr]
      exact .stay _
  callback := by
    refine ⟨[], by rw [h.log, append_nil], fun s => ?_⟩
    by_cases hsr : s = r
    · subst hsr
      rw [h.not_done.2, if_neg (fun hand => by cases hand.2)]
      rfl
    · rw [h.other s hsr, if_neg (fun hand => by rw [hand.1] at hand; cases hand.2)]
      rfl
  result := fun s hdone => by
    by_cases hsr : s = r
    · subst hsr
      rw [h.not_done.1] at hdone
      cases hdone
    · rw [h.other s hsr]
  unsettled := fun p s hmem hactive hdone => by
    have hsr : s ≠ r := fun heq => h.not_mem hs p (heq ▸ hmem)
    rw [h.other s hsr, isDone] at hdone
    rw [isActive, beq_iff_eq] at hactive
    rw [hactive] at hdone
    cases hdone
  keeps := fun p s hmem hpin _ => by
    have hsr : s ≠ r := fun heq => h.not_mem hs p (heq ▸ hmem)
    rw [h.other s hsr, h.mem_queue]
    exact ⟨hpin, Or.inl hmem⟩
  order := fun p => by
    have hall : (w.queue p).requests.filter (fun s => s ∈ (w'.queue p).requests) =
        (w.queue p).requests :=
      filter_eq_self.mpr fun s hmem => decide_eq_true ((h.mem_queue p s).mpr (Or.inl hmem))
    rw [hall, h.queue]
    split
    · exact ⟨[r], rfl⟩
    · exact ⟨[], (append_nil _).symm⟩
  leaves := fun p s hmem hleft => absurd ((h.mem_queue p s).mpr (Or.inl hmem)) hleft
  refused := fun _ hcon => by cases hcon

omit [DecidableEq κ] in
theorem lifeCycle_refl (w : World ρ κ) (call : Call ρ κ) (answer : Bool) :
    LifeCycle call w answer w where
  state := fun _ => .stay _
  callback := ⟨[], (append_nil _).symm, fun s => by
    rw [if_neg (fun hand => by rw [hand.1] at hand; cases hand.2)]
    rfl⟩
  result := fun _ _ => rfl
  unsettled := fun p s _ hactive hdone => by
    rw [isActive, beq_iff_eq] at hactive
    rw [isDone, hactive] at hdone
    cases hdone
  keeps := fun p s hmem hpin _ => ⟨hpin, hmem⟩
  order := fun p => ⟨[], by
    rw [append_nil]
    exact (filter_eq_self.mpr fun s hmem => decide_eq_true hmem).symm⟩
  leaves := fun p s hmem hleft => absurd hmem hleft
  refused := fun _ _ => rfl

theorem Sound.step {w : World ρ κ} (hs : w.Sound) (maximum : Nat) (call : Call ρ κ) :
    (w.step maximum call).2.Sound ∧
      LifeCycle call w (w.step maximum call).1 (w.step maximum call).2 := by
  cases call with
  | enqueue q request now timeoutMs origin context completed alloc =>
    rcases enqueue_cases maximum w q request now timeoutMs origin context completed alloc with
      h | ⟨r, w', h, henq⟩
    · have hstep : w.step maximum
          (.enqueue q request now timeoutMs origin context completed alloc) = (false, w) := h
      rw [hstep]
      exact ⟨hs, lifeCycle_refl w _ _⟩
    · have hstep : w.step maximum
          (.enqueue q request now timeoutMs origin context completed alloc) = (true, w') := h
      rw [hstep]
      exact ⟨henq.sound hs, henq.lifeCycle hs _⟩
  | start r now =>
    have ha : Advanced (.start r now) w (w.start r now).2 :=
      (touched_start w r now).advanced hs (nodup_singleton r)
        (fun s hmem => by
          rw [mem_singleton.mp hmem]
          exact hs.progress_begin r now)
        (fun h => by cases h)
    exact ⟨ha.sound hs, ha.lifeCycle rfl _⟩
  | complete q r result quiesced =>
    have ha : Advanced (.complete q r result quiesced) w (w.complete q r result quiesced).2 :=
      (touched_complete w q r result quiesced).advanced hs (nodup_singleton r)
        (fun s _ => progress_finish (hs.owned s) (hs.pinned s) q result quiesced false)
        (fun h => by cases h)
    exact ⟨ha.sound hs, ha.lifeCycle rfl _⟩
  | expireQueued q now =>
    have ha : Advanced (.expireQueued q now) w (w.expireQueued q now) :=
      (touched_foldl (touched_expireOne q now) w (hs.nodup q)).advanced hs (hs.nodup q)
        (fun s _ => hs.progress_expire s q now) (fun h => by cases h)
    exact ⟨ha.sound hs, ha.lifeCycle rfl _⟩
  | failAll q quiesced =>
    have ha : Advanced (.failAll q quiesced) w
        ((w.queue q).requests.foldl (failOne q quiesced) w) :=
      (touched_foldl (touched_failOne q quiesced) w (hs.nodup q)).advanced hs (hs.nodup q)
        (fun s _ => hs.progress_fail s q quiesced) (fun h => ⟨q, by rw [h], rfl⟩)
    exact ⟨(ha.sound hs).prune q, ha.lifeCycle_prune (Or.inr ⟨quiesced, rfl⟩)⟩
  | prune q =>
    have hprogress : ∀ s ∈ ([] : List ρ), Progress (ρ := ρ) true false (w.request s)
        (id (w.request s)) := fun s hmem => absurd hmem not_mem_nil
    have ha : Advanced (.prune q) w w :=
      (touched_foldl (fun w r => touched_same (f := id) rfl) w nodup_nil).advanced hs
        nodup_nil hprogress (fun h => by cases h)
    exact ⟨hs.prune q, ha.lifeCycle_prune (Or.inl rfl)⟩

omit [DecidableEq κ] in
theorem sound_init : (World.init : World ρ κ).Sound where
  nodup := fun _ => nodup_nil
  owner := fun q r => ⟨fun h => absurd h not_mem_nil, fun h => by cases h⟩
  owned := fun r h => absurd rfl h
  pinned := fun r h => by cases h
  callback := fun _ => rfl

theorem sound_run (maximum : Nat) (calls : List (Call ρ κ)) :
    ((World.init : World ρ κ).run maximum calls).Sound := by
  have hrun : ∀ (calls : List (Call ρ κ)) (w : World ρ κ), w.Sound → (w.run maximum calls).Sound := by
    intro calls
    induction calls with
    | nil => exact fun w hs => hs
    | cons call calls ih => exact fun w hs => ih _ (hs.step maximum call).1
  exact hrun calls _ sound_init

/-- After any calls, from requests just created and empty queues, the world is
sound, and the next call keeps the life cycle. -/
theorem life_cycle (maximum : Nat) (calls : List (Call ρ κ)) :
    ((World.init : World ρ κ).run maximum calls).Sound ∧
      ∀ call : Call ρ κ, LifeCycle call (World.init.run maximum calls)
        ((World.init.run maximum calls).step maximum call).1
        ((World.init.run maximum calls).step maximum call).2 :=
  ⟨sound_run maximum calls, fun call => ((sound_run maximum calls).step maximum call).2⟩

end World

end Unisym.Device
