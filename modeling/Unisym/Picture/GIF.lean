/-
# `GIF` — the LZW decoder of GIF pictures

`GIFBitStream` reads codes out of the data sub-blocks; `decodeGIFLZW` keeps the strings as chains of a
code and a last byte and unwinds them on a stack.  An access outside of a table, of the stack or of the
input has no result, and neither has a loop that does not end; the tables hold anything at first, and a
shift by a negative count gives any number (`undefinedShift`).
-/
import Mathlib.Logic.Function.Basic
import Mathlib.Algebra.Group.Nat.Defs

namespace Unisym.Picture

open Function

/-! ## `GIFBitStream` -/

structure GIFBitStream where
  data : List UInt8
  pos : Nat
  bitBuf : Nat
  bitsCount : Int
  subBlockRemain : Nat

/-- What a shift by a negative count gives. -/
abbrev UndefinedShift := UInt8 → Int → Nat

def GIFBitStream.init (data : List UInt8) (startOffset : Nat) : GIFBitStream :=
  ⟨data, startOffset, 0, 0, 0⟩

/-- `((uint32)b) << bitsCount` -/
def shiftIn (undefinedShift : UndefinedShift) (b : UInt8) (bitsCount : Int) : Nat :=
  if 0 ≤ bitsCount then b.toNat <<< bitsCount.toNat % 2 ^ 32 else undefinedShift b bitsCount % 2 ^ 32

namespace GIFBitStream

variable (undefinedShift : UndefinedShift)

/-- `bitBuf |= ((uint32)b) << bitsCount; bitsCount += 8` -/
def addByte (bs : GIFBitStream) (b : UInt8) : GIFBitStream :=
  { bs with
    bitBuf := bs.bitBuf ||| shiftIn undefinedShift b bs.bitsCount
    bitsCount := bs.bitsCount + 8 }

/-- The loop of `FillBits`. -/
def fillLoop (n : Nat) : (fuel : Nat) → GIFBitStream → Option (Bool × GIFBitStream)
  | 0, _ => none
  | fuel + 1, bs =>
      if bs.bitsCount < n then
        if bs.subBlockRemain = 0 then
          match bs.data[bs.pos]? with
          | none => some (false, bs)
          | some length =>
              let bs := { bs with pos := bs.pos + 1, subBlockRemain := length.toNat }
              if bs.subBlockRemain = 0 then some (true, bs.addByte undefinedShift 0)
              else match bs.data[bs.pos]? with
                | none => some (false, bs)
                | some b =>
                    fillLoop n fuel ({ bs with
                      pos := bs.pos + 1
                      subBlockRemain := bs.subBlockRemain - 1 }.addByte undefinedShift b)
        else match bs.data[bs.pos]? with
          | none => some (false, bs)
          | some b =>
              fillLoop n fuel ({ bs with
                pos := bs.pos + 1
                subBlockRemain := bs.subBlockRemain - 1 }.addByte undefinedShift b)
      else some (true, bs)

def fillBits (bs : GIFBitStream) (n : Nat) : Option (Bool × GIFBitStream) :=
  fillLoop undefinedShift n (bs.data.length + 1) bs

/-- `ReadBits`; -1 is `none`. -/
def readBits (bs : GIFBitStream) (n : Nat) : Option (Option Nat × GIFBitStream) :=
  if n = 0 then some (some 0, bs)
  else do
    let (filled, bs) ← bs.fillBits undefinedShift n
    if filled then
      some (some (bs.bitBuf &&& (2 ^ n - 1)), { bs with
        bitBuf := bs.bitBuf >>> n
        bitsCount := bs.bitsCount - n })
    else some (none, bs)

/-- The loop of `SkipRemainingSubBlocks`. -/
def skipLoop : (fuel : Nat) → GIFBitStream → Option GIFBitStream
  | 0, _ => none
  | fuel + 1, bs =>
      if bs.subBlockRemain > 0 ∧ bs.pos < bs.data.length then
        let bs := { bs with pos := bs.pos + bs.subBlockRemain, subBlockRemain := 0 }
        match bs.data[bs.pos]? with
        | none => skipLoop fuel bs
        | some length => skipLoop fuel { bs with pos := bs.pos + 1, subBlockRemain := length.toNat }
      else some bs

def skipRemainingSubBlocks (bs : GIFBitStream) : Option GIFBitStream :=
  skipLoop (bs.data.length + 1) bs

end GIFBitStream

/-! ## `DecodeGIF_LZW` -/

/-- The size of the tables and of the stack. -/
def tableSize : Nat := 4096

/-- `GIFLZWContext` without its stack. -/
structure GIFLZWContext where
  prefixCode : Nat → Int
  suffix : Nat → UInt8

/-- `table[i]` -/
def load {α : Type} (table : Nat → α) (i : Int) : Option α :=
  if 0 ≤ i ∧ i < tableSize then some (table i.toNat) else none

/-- `stack[stackPtr++] = b` -/
def pushByte (stack : List UInt8) (b : UInt8) : Option (List UInt8) :=
  if stack.length < tableSize then some (b :: stack) else none

/-- The variables of `DecodeGIF_LZW` that its loop changes; the top of the stack comes first. -/
structure GIFLZWState where
  bs : GIFBitStream
  ctx : GIFLZWContext
  stack : List UInt8
  codeSize : Nat
  maxCode : Nat
  nextCode : Nat
  prevCode : Int
  firstChar : UInt8
  outPixels : List UInt8

/-- The loop along the chain of a code. -/
def unwind (ctx : GIFLZWContext) (clearCode : Nat) :
    (fuel : Nat) → (code : Int) → (stack : List UInt8) → Option (Int × List UInt8)
  | 0, _, _ => none
  | fuel + 1, code, stack =>
      if clearCode ≤ code ∧ code < tableSize then do
        let stack ← pushByte stack (← load ctx.suffix code)
        unwind ctx clearCode fuel (← load ctx.prefixCode code) stack
      else some (code, stack)

namespace GIFLZWState

/-- The branch for a clear code. -/
def clear (st : GIFLZWState) (minCodeSize : Nat) : GIFLZWState :=
  { st with
    codeSize := minCodeSize + 1
    maxCode := 2 ^ (minCodeSize + 1)
    nextCode := 2 ^ minCodeSize + 1 + 1
    prevCode := -1 }

/-- The new entry of the tables. -/
def addEntry (st : GIFLZWState) : GIFLZWState :=
  if st.prevCode ≥ 0 ∧ st.nextCode < tableSize then
    let st := { st with
      ctx :=
        { prefixCode := update st.ctx.prefixCode st.nextCode st.prevCode
          suffix := update st.ctx.suffix st.nextCode st.firstChar }
      nextCode := st.nextCode + 1 }
    if st.nextCode ≥ st.maxCode ∧ st.codeSize < 12 then
      { st with codeSize := st.codeSize + 1, maxCode := 2 ^ (st.codeSize + 1) }
    else st
  else st

/-- The loop that empties the stack. -/
def popAll (st : GIFLZWState) (expectedPixelCount : Nat) : GIFLZWState :=
  { st with
    outPixels := st.outPixels ++ st.stack.take (expectedPixelCount - st.outPixels.length)
    stack := st.stack.drop (expectedPixelCount - st.outPixels.length) }

/-- The loop body from the chain on. -/
def takeChain (st : GIFLZWState) (minCodeSize expectedPixelCount inCode : Nat)
    (start : Int × List UInt8) : Option GIFLZWState := do
  let chain ← unwind st.ctx (2 ^ minCodeSize) (tableSize + 1) start.1 start.2
  let firstChar ← load st.ctx.suffix chain.1
  let stack ← pushByte chain.2 firstChar
  let st := { st with stack := stack, firstChar := firstChar }.addEntry
  some ({ st with prevCode := inCode }.popAll expectedPixelCount)

/-- The loop body for any other code; false is `none`. -/
def takeCode (st : GIFLZWState) (minCodeSize expectedPixelCount inCode : Nat) :
    Option (Option GIFLZWState) :=
  if inCode ≥ st.nextCode then
    if inCode > st.nextCode ∨ st.prevCode < 0 then some none
    else do
      let stack ← pushByte st.stack st.firstChar
      (st.takeChain minCodeSize expectedPixelCount inCode (st.prevCode, stack)).map some
  else (st.takeChain minCodeSize expectedPixelCount inCode (inCode, st.stack)).map some

end GIFLZWState

/-- What `DecodeGIF_LZW` returns, and the `pos` and the pixels it leaves. -/
structure GIFDecoded where
  returned : Bool
  pos : Nat
  outPixels : List UInt8
  deriving DecidableEq

/-- `bs.SkipRemainingSubBlocks(); pos = bs.pos; return returned` -/
def GIFLZWState.finish (st : GIFLZWState) (returned : Bool) : Option GIFDecoded := do
  let bs ← st.bs.skipRemainingSubBlocks
  some ⟨returned, bs.pos, st.outPixels⟩

/-- The loop of `DecodeGIF_LZW`. -/
def lzwLoop (undefinedShift : UndefinedShift) (minCodeSize expectedPixelCount : Nat) :
    (fuel : Nat) → GIFLZWState → Option GIFDecoded
  | 0, _ => none
  | fuel + 1, st =>
      if st.outPixels.length < expectedPixelCount then do
        let (code, bs) ← st.bs.readBits undefinedShift st.codeSize
        let st := { st with bs := bs }
        match code with
        | none => st.finish true
        | some code =>
            if code = 2 ^ minCodeSize + 1 then st.finish true
            else if code = 2 ^ minCodeSize then
              lzwLoop undefinedShift minCodeSize expectedPixelCount fuel (st.clear minCodeSize)
            else match ← st.takeCode minCodeSize expectedPixelCount code with
              | none => st.finish false
              | some st => lzwLoop undefinedShift minCodeSize expectedPixelCount fuel st
      else st.finish true

/-- The variables before the loop. -/
def initialState (ctx : GIFLZWContext) (fileData : List UInt8) (pos minCodeSize : Nat) : GIFLZWState :=
  { bs := GIFBitStream.init fileData pos
    ctx :=
      { prefixCode := fun i => if i < 2 ^ minCodeSize then -1 else ctx.prefixCode i
        suffix := fun i => if i < 2 ^ minCodeSize then UInt8.ofNat i else ctx.suffix i }
    stack := []
    codeSize := minCodeSize + 1
    maxCode := 2 ^ (minCodeSize + 1)
    nextCode := 2 ^ minCodeSize + 1 + 1
    prevCode := -1
    firstChar := 0
    outPixels := [] }

/-- `DecodeGIF_LZW`, when its tables can be allocated; `ctx` is what they hold at first. -/
def decodeGIFLZW (undefinedShift : UndefinedShift) (ctx : GIFLZWContext) (fileData : List UInt8)
    (pos expectedPixelCount : Nat) : Option GIFDecoded :=
  match fileData[pos]? with
  | none => some ⟨false, pos, []⟩
  | some minCodeSize =>
      let pos := pos + 1
      let minCodeSize := minCodeSize.toNat
      if minCodeSize < 2 ∨ minCodeSize > 11 then some ⟨false, pos, []⟩
      else
        lzwLoop undefinedShift minCodeSize expectedPixelCount (20 * fileData.length + 20)
          (initialState ctx fileData pos minCodeSize)

end Unisym.Picture
