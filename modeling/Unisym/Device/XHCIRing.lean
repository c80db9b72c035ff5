/-
# `XHCIRing` — the rings between the xHCI driver and its controller

`Ring` is a command or transfer ring: the driver appends TRBs and the controller takes them; a link TRB in
the last entry leads back to the first.  `EventRing` goes the other way, over segments.  An entry changes
hands by its cycle bit.

A call of the driver is a list of stores, which the controller sees one after the other.
-/
import Mathlib.Logic.Function.Basic
import Mathlib.Algebra.Group.Nat.Defs

namespace Unisym.Device.SpaceUSB3

open Function

/-! ## TRBs -/

/-- `uni::Array<uint32_t, 4>`, the words of a TRB -/
abbrev TRB := Fin 4 → BitVec 32

/-- `sizeof(TRB)` -/
def sizeofTRB : Nat := 16

/-- The entries of all rings, by their addresses. -/
abbrev Memory := Nat → TRB

/-- `bits.cycle_bit` -/
def TRB.cycleBit (trb : TRB) : Bool := trb 3 &&& 1 = 1

/-- `bits.trb_type` -/
def TRB.trbType (trb : TRB) : BitVec 32 := trb 3 >>> 10 &&& 0x3f

/-- The words without the cycle bit. -/
def TRB.content (trb : TRB) : TRB := update trb 3 (trb 3 &&& 0xfffffffe)

/-- `static_cast<uint32_t>(cycle_bit_)` -/
def boolWord (b : Bool) : BitVec 32 := if b then 1 else 0

/-- The words with another cycle bit. -/
def TRB.withCycle (trb : TRB) (b : Bool) : TRB :=
  update trb 3 ((trb 3 &&& 0xfffffffe) ||| boolWord b)

def linkTRBType : BitVec 32 := 6

/-- A `LinkTRB` to `ring_segment_pointer` with `toggle_cycle` and `chain_bit`. -/
def linkTRB (ringSegmentPointer : Nat) (chainBit : Bool) : TRB := fun word =>
  if word = 0 then BitVec.ofNat 32 (ringSegmentPointer / 16 * 16)
  else if word = 1 then BitVec.ofNat 32 (ringSegmentPointer / 2 ^ 32)
  else if word = 2 then 0
  else linkTRBType <<< 10 ||| 1 <<< 1 ||| boolWord chainBit <<< 4

def TRB.pointer (trb : TRB) : Nat := ((trb 0).toNat + 2 ^ 32 * (trb 1).toNat) / 16 * 16

/-- `bits.toggle_cycle` of a link TRB -/
def TRB.toggleCycle (trb : TRB) : Bool := trb 3 &&& 2 ≠ 0

/-- One word that the driver writes into an entry. -/
structure Store where
  address : Nat
  word : Fin 4
  value : BitVec 32

def Store.apply (mem : Memory) (s : Store) : Memory :=
  update mem s.address (update (mem s.address) s.word s.value)

/-! ## `Ring` -/

structure Ring where
  buf : Nat
  bufSize : Nat
  cycleBit : Bool
  writeIndex : Nat

namespace Ring

variable (ring : Ring)

/-- `&buf_[i]` -/
def entry (i : Nat) : Nat := ring.buf + sizeofTRB * i

/-- `Initialize`, when `AllocArray` gives the array at `buf`; it is set to zero. -/
def initializeAt (buf bufSize : Nat) : Option Ring :=
  if bufSize < 16 ∨ bufSize > 4096 then none
  else some { buf := buf, bufSize := bufSize, cycleBit := true, writeIndex := 0 }

def copyToLast (data : TRB) : List Store :=
  [⟨ring.entry ring.writeIndex, 0, data 0⟩, ⟨ring.entry ring.writeIndex, 1, data 1⟩,
    ⟨ring.entry ring.writeIndex, 2, data 2⟩,
    ⟨ring.entry ring.writeIndex, 3, (data 3 &&& 0xfffffffe) ||| boolWord ring.cycleBit⟩]

/-- The lines of `Push` and `PushDeferred` behind the first `CopyToLast`. -/
def advance (data : TRB) : Ring × List Store :=
  let ring := { ring with writeIndex := ring.writeIndex + 1 }
  if ring.writeIndex = ring.bufSize - 1 then
    ({ ring with writeIndex := 0, cycleBit := !ring.cycleBit },
      ring.copyToLast (linkTRB ring.buf (data 3 &&& 1 <<< 4 ≠ 0)))
  else (ring, [])

/-- `Push`: the entry, the ring behind it and the stores. -/
def push (data : TRB) : Nat × Ring × List Store :=
  let trbPtr := ring.entry ring.writeIndex
  let stores := ring.copyToLast data
  let advanced := ring.advance data
  (trbPtr, advanced.1, stores ++ advanced.2)

def pushDeferred (data : TRB) : Nat × Ring × List Store :=
  let trbPtr := ring.entry ring.writeIndex
  let stores := { ring with cycleBit := !ring.cycleBit }.copyToLast data
  let advanced := ring.advance data
  (trbPtr, advanced.1, stores ++ advanced.2)

def commit (mem : Memory) (trb : Nat) (cycleState : Bool) : List Store :=
  if trb = 0 then []
  else [⟨trb, 3, (mem trb 3 &&& 0xfffffffe) ||| boolWord cycleState⟩]

def nextTransferTRB (trb : Nat) : Nat :=
  if ring.buf = 0 ∨ ring.bufSize < 2 ∨ trb = 0 then 0
  else
    let begin_ := ring.buf
    let end_ := ring.entry (ring.bufSize - 1)
    if trb < begin_ ∨ trb ≥ end_ ∨ (trb - begin_) % sizeofTRB ≠ 0 then 0
    else
      let next := trb + sizeofTRB
      if next = ring.entry (ring.bufSize - 1) then ring.buf else next

end Ring

/-! ## The controller at a ring -/

/-- Where the controller takes its next TRB, and its cycle state. -/
structure Consumer where
  dequeue : Nat
  cycleState : Bool

/-- A step of the controller: it takes the TRB, or follows a link; at an entry that is not its own it
stops. -/
def Consumer.step (mem : Memory) (c : Consumer) : Option (Consumer × Option TRB) :=
  let trb := mem c.dequeue
  if trb.cycleBit ≠ c.cycleState then none
  else if trb.trbType = linkTRBType then
    some ({ dequeue := trb.pointer, cycleState := c.cycleState ^^ trb.toggleCycle }, none)
  else some ({ c with dequeue := c.dequeue + sizeofTRB }, some trb)

/-- A TRB that the driver has given to the ring: the entry, the cycle state read just before, and whether
the controller may have it. -/
structure Pushed where
  data : TRB
  trb : Nat
  cycleState : Bool
  committed : Bool

/-- The driver, the memory and the controller; `stores` are what the last call has still to write. -/
structure RingSystem where
  ring : Ring
  mem : Memory
  stores : List Store
  consumer : Consumer
  pushed : List Pushed
  seen : List TRB

namespace RingSystem

/-- Behind `Initialize`. -/
def start (ring : Ring) : RingSystem where
  ring := ring
  mem := fun _ _ => 0
  stores := []
  consumer := ⟨ring.buf, true⟩
  pushed := []
  seen := []

/-- Fewer than `bufSize - 2` TRBs are pushed and not consumed. -/
def HasRoom (s : RingSystem) : Prop := s.pushed.length < s.seen.length + (s.ring.bufSize - 2)

/-- The driver calls, one of its words is written, or the controller goes on. -/
inductive Step : RingSystem → RingSystem → Prop
  | push {s : RingSystem} (data : TRB) : s.stores = [] → s.HasRoom → data.trbType ≠ linkTRBType →
      Step s { s with
        ring := (s.ring.push data).2.1
        stores := (s.ring.push data).2.2
        pushed := s.pushed ++ [⟨data, (s.ring.push data).1, s.ring.cycleBit, true⟩] }
  | pushDeferred {s : RingSystem} (data : TRB) : s.stores = [] → s.HasRoom →
      data.trbType ≠ linkTRBType →
      Step s { s with
        ring := (s.ring.pushDeferred data).2.1
        stores := (s.ring.pushDeferred data).2.2
        pushed := s.pushed ++ [⟨data, (s.ring.pushDeferred data).1, s.ring.cycleBit, false⟩] }
  | commit {s : RingSystem} {k : Nat} {p : Pushed} : s.stores = [] → s.pushed[k]? = some p →
      p.committed = false →
      Step s { s with
        stores := Ring.commit s.mem p.trb p.cycleState
        pushed := s.pushed.set k { p with committed := true } }
  | store {s : RingSystem} {store : Store} {stores : List Store} : s.stores = store :: stores →
      Step s { s with mem := store.apply s.mem, stores := stores }
  | consume {s : RingSystem} {consumer : Consumer} {trb : Option TRB} :
      s.consumer.step s.mem = some (consumer, trb) →
      Step s { s with consumer := consumer, seen := s.seen ++ trb.toList }

/-- What a run from the start reaches. -/
inductive Reachable (ring : Ring) : RingSystem → Prop
  | start : Reachable ring (start ring)
  | step {s s' : RingSystem} : Reachable ring s → Step s s' → Reachable ring s'

end RingSystem

/-! ## `EventRing` -/

/-- `ERDP_t` -/
structure ERDP where
  dequeueERSTSegmentIndex : Nat
  eventRingDequeuePointer : Nat

structure EventRing where
  segments : List Nat
  segmentSize : Nat
  dequeueSegmentIndex : Nat
  cycleBit : Bool
  erdp : ERDP

namespace EventRing

/-- `ReadDequeuePointer`, `Front` -/
def readDequeuePointer (er : EventRing) : Nat := er.erdp.eventRingDequeuePointer <<< 4

/-- `WriteDequeuePointer`, into fields of 3 and 60 bits -/
def writeDequeuePointer (er : EventRing) (p : Nat) : EventRing :=
  { er with erdp := ⟨er.dequeueSegmentIndex % 2 ^ 3, (p % 2 ^ 64) >>> 4⟩ }

/-- `Initialize` behind its checks, when `AllocArray` gives the arrays at `segments`; they are set to
zero. -/
def initializeAt (totalTRBs segmentCount : Nat) (segments : List Nat) : Option EventRing :=
  if totalTRBs < 16 ∨ totalTRBs > 32768 ∨ segmentCount = 0 ∨ segmentCount > 8 ∨
      totalTRBs < segmentCount * 16 then none
  else
    let segmentSize := (totalTRBs + segmentCount - 1) / segmentCount
    if segmentSize > 4096 then none
    else do
      let first ← segments[0]?
      some (writeDequeuePointer
        { segments := segments
          segmentSize := segmentSize
          dequeueSegmentIndex := 0
          cycleBit := true
          erdp := ⟨0, 0⟩ } first)

def hasFront (mem : Memory) (er : EventRing) : Bool :=
  (mem er.readDequeuePointer).cycleBit = er.cycleBit

/-- `Pop`; an index outside of `segments_` has no result. -/
def pop (er : EventRing) : Option EventRing := do
  let p := er.readDequeuePointer + sizeofTRB
  let segmentBegin ← er.segments[er.dequeueSegmentIndex]?
  if p = segmentBegin + sizeofTRB * er.segmentSize then
    let er := { er with dequeueSegmentIndex := er.dequeueSegmentIndex + 1 }
    let er :=
      if er.dequeueSegmentIndex = er.segments.length then
        { er with dequeueSegmentIndex := 0, cycleBit := !er.cycleBit }
      else er
    some (er.writeDequeuePointer (← er.segments[er.dequeueSegmentIndex]?))
  else some (er.writeDequeuePointer p)

end EventRing

/-- Where the controller writes its next event, and its cycle state. -/
structure Producer where
  segment : Nat
  index : Nat
  cycleState : Bool

/-- The controller goes on to the next entry, of the next segment at the end of one. -/
def Producer.next (p : Producer) (segmentCount segmentSize : Nat) : Producer :=
  if p.index + 1 < segmentSize then { p with index := p.index + 1 }
  else if p.segment + 1 < segmentCount then { p with segment := p.segment + 1, index := 0 }
  else ⟨0, 0, !p.cycleState⟩

/-- The controller, the memory and the driver; `popped` are the fronts that were popped. -/
structure EventSystem where
  er : EventRing
  mem : Memory
  producer : Producer
  filled : List TRB
  popped : List TRB

namespace EventSystem

/-- Behind `Initialize`. -/
def start (er : EventRing) : EventSystem where
  er := er
  mem := fun _ _ => 0
  producer := ⟨0, 0, true⟩
  filled := []
  popped := []

/-- The controller fills an entry that is not in front of the driver, or the driver pops a front. -/
inductive Step : EventSystem → EventSystem → Prop
  | fill {s : EventSystem} {segment : Nat} (event : TRB) :
      s.filled.length < s.popped.length + s.er.segments.length * s.er.segmentSize →
      s.er.segments[s.producer.segment]? = some segment →
      Step s { s with
        mem := update s.mem (segment + sizeofTRB * s.producer.index)
          (event.withCycle s.producer.cycleState)
        producer := s.producer.next s.er.segments.length s.er.segmentSize
        filled := s.filled ++ [event] }
  | pop {s : EventSystem} {er : EventRing} : s.er.hasFront s.mem = true → s.er.pop = some er →
      Step s { s with er := er, popped := s.popped ++ [s.mem s.er.readDequeuePointer] }

/-- What a run from the start reaches. -/
inductive Reachable (er : EventRing) : EventSystem → Prop
  | start : Reachable er (start er)
  | step {s s' : EventSystem} : Reachable er s → Step s s' → Reachable er s'

end EventSystem

end Unisym.Device.SpaceUSB3
