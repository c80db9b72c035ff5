/-
# `HTTP` — `HTTP.hpp`

The functions that read a response: its header, its status line, a header line by name.  A
response is a list of bytes; a read outside of it has no result, so `some` says that a function
kept to its input.  A view is a place in the response with a length.

A loop runs on the number of places it has left.
-/
import Unisym.Network.Wire

namespace Unisym.Network

/-- A part of the response: where it begins, and its length. -/
structure HTTPView where
  start : Nat
  length : Nat
  deriving DecidableEq, Repr

structure HTTPStatusLine where
  statusCode : Nat
  reason : HTTPView
  deriving DecidableEq, Repr

/-- `HTTPResponseView`: what is not there is none of its members. -/
structure HTTPResponseView where
  status : Option HTTPStatusLine
  /-- Header and body. -/
  header : Option (HTTPView × HTTPView)
  contentLength : Option Nat
  contentType : Option HTTPView
  deriving DecidableEq, Repr

namespace HTTP

/-- The bytes of a text of ASCII characters. -/
def ascii (text : String) : Bytes := text.toList.map fun c => UInt8.ofNat c.toNat

def isBreak (c : UInt8) : Bool := c == 13 || c == 10

def isBlank (c : UInt8) : Bool := c == 32 || c == 9

def isDigit (c : UInt8) : Bool := 48 ≤ c && c ≤ 57

variable (response : Bytes)

/-- `while (cursor < limit && p(response[cursor])) cursor++`, with `n` places left. -/
def skipFrom (p : UInt8 → Bool) : (n cursor : Nat) → Option Nat
  | 0, cursor => some cursor
  | n + 1, cursor => do
      let c ← response[cursor]?
      if p c then skipFrom p n (cursor + 1) else some cursor

def skip (p : UInt8 → Bool) (limit cursor : Nat) : Option Nat := skipFrom response p (limit - cursor) cursor

/-- `while (finish > cursor && p(response[finish - 1])) finish--`, with `n` places left. -/
def skipBack (p : UInt8 → Bool) (cursor : Nat) : (n : Nat) → Option Nat
  | 0 => some cursor
  | n + 1 => do
      let c ← response[cursor + n]?
      if p c then skipBack p cursor n else some (cursor + (n + 1))

/-- The loop of `HTTPHeaderLength`. -/
def headerLengthFrom : (n i : Nat) → Option Nat
  | 0, _ => some 0
  | n + 1, i => do
      let c0 ← response[i]?
      if c0 = 13 then
        let c1 ← response[i + 1]?
        if c1 = 10 then
          let c2 ← response[i + 2]?
          if c2 = 13 then
            let c3 ← response[i + 3]?
            if c3 = 10 then some (i + 4) else headerLengthFrom n (i + 1)
          else headerLengthFrom n (i + 1)
        else headerLengthFrom n (i + 1)
      else headerLengthFrom n (i + 1)

/-- `HTTPHeaderLength` -/
def headerLength : Option Nat :=
  if response.length < 4 then some 0 else headerLengthFrom response (response.length - 3) 0

/-- `HTTPParseHeader` -/
def parseHeader : Option (Option (HTTPView × HTTPView)) := do
  let n ← headerLength response
  if n = 0 then some none else some (some (⟨0, n⟩, ⟨n, response.length - n⟩))

/-- The first five bytes of a response, `HTTP/`. -/
def protocol : Bytes := [72, 84, 84, 80, 47]

/-- The comparison of the first bytes. -/
def startsFrom : (expected : Bytes) → (i : Nat) → Option Bool
  | [], _ => some true
  | e :: expected, i => do
      let c ← response[i]?
      if c ≠ e then some false else startsFrom expected (i + 1)

/-- Three digits from `cursor` on. -/
def digitsFrom (cursor : Nat) : (n i code : Nat) → Option Nat
  | 0, _, code => some code
  | n + 1, i, code => do
      let digit ← response[cursor + i]?
      if !isDigit digit then some 0 else digitsFrom cursor n (i + 1) (code * 10 + (digit.toNat - 48))

/-- `HTTPParseStatusCode` -/
def parseStatusCode : Option Nat :=
  if response.length < 12 then some 0
  else do
    let starts ← startsFrom response protocol 0
    if !starts then some 0
    else
      let cursor ← skip response (· != 32) response.length 5
      if cursor + 4 > response.length then some 0
      else
        let c ← response[cursor]?
        if c ≠ 32 then some 0 else digitsFrom response (cursor + 1) 3 0 0

/-- One byte, if it is there and is a space. -/
def skipSpace (cursor : Nat) : Option Nat :=
  if cursor < response.length then do
    let c ← response[cursor]?
    some (if c = 32 then cursor + 1 else cursor)
  else some cursor

/-- `HTTPParseStatusLine` -/
def parseStatusLine : Option (Option HTTPStatusLine) := do
  let code ← parseStatusCode response
  if code = 0 then some none
  else
    let cursor ← skip response (fun c => c != 32 && !isBreak c) response.length 0
    let cursor ← skipSpace response cursor
    let cursor ← skip response isDigit response.length cursor
    let cursor ← skipSpace response cursor
    let reasonEnd ← skip response (fun c => !isBreak c) response.length cursor
    some (some ⟨code % 2 ^ 16, ⟨cursor, reasonEnd - cursor⟩⟩)

/-- A capital letter as a small one. -/
def lower (c : UInt8) : UInt8 := if 65 ≤ c && c ≤ 90 then c - 65 + 97 else c

/-- `HTTPAsciiEqual` -/
def asciiEqual (lhs rhs : UInt8) : Bool := lower lhs == lower rhs

/-- `HTTPHeaderNameMatch` on the line at `line`, from byte `i` on. -/
def nameMatchFrom (line lineLength : Nat) : (name : Bytes) → (i : Nat) → Option Bool
  | [], i =>
      if i < lineLength then do
        let c ← response[line + i]?
        some (c == 58)
      else some false
  | e :: name, i =>
      if i ≥ lineLength then some false
      else do
        let c ← response[line + i]?
        if !asciiEqual c e then some false else nameMatchFrom line lineLength name (i + 1)

/-- The loop of `HTTPFindHeader`; the first argument bounds its iterations. -/
def findHeaderFrom (headerLength : Nat) (name : Bytes) : (fuel line : Nat) → Option (Option HTTPView)
  | 0, _ => none
  | fuel + 1, line =>
      if line < headerLength then do
        let last ← skip response (fun c => !isBreak c) headerLength line
        let found ← nameMatchFrom response line (last - line) name 0
        if found then
          let cursor ← skip response isBlank last (line + name.length + 1)
          let finish ← skipBack response isBlank cursor (last - cursor)
          some (some ⟨cursor, finish - cursor⟩)
        else
          let next ← skip response isBreak headerLength last
          findHeaderFrom headerLength name fuel next
      else some none

/-- `HTTPFindHeader` -/
def findHeader (name : Bytes) : Option (Option HTTPView) := do
  let n ← headerLength response
  if n = 0 ∨ name = [] then some none else findHeaderFrom response n name (n + 1) 0

/-- The loop of `HTTPContentLength`; `stduint` has `bits` bits. -/
def valueFrom (bits start : Nat) : (n i value : Nat) → Option (Option Nat)
  | 0, _, value => some (some value)
  | n + 1, i, value => do
      let digit ← response[start + i]?
      if !isDigit digit then some none
      else valueFrom bits start n (i + 1) ((value * 10 + (digit.toNat - 48)) % 2 ^ bits)

/-- `"content-length"` -/
def contentLengthName : Bytes := ascii "content-length"

/-- `"content-type"` -/
def contentTypeName : Bytes := ascii "content-type"

/-- `HTTPContentLength` -/
def contentLength (bits : Nat) : Option (Option Nat) := do
  let value ← findHeader response contentLengthName
  match value with
  | none => some none
  | some view => if view.length = 0 then some none else valueFrom response bits view.start view.length 0 0

/-- `HTTPParseResponse`: its members, without the result. -/
def parseResponse (bits : Nat) : Option HTTPResponseView := do
  let status ← parseStatusLine response
  let header ← parseHeader response
  let length ← contentLength response bits
  let type ← findHeader response contentTypeName
  some ⟨status, header, length, type⟩

/-- The result of `HTTPParseResponse`. -/
def parses (view : HTTPResponseView) : Bool := view.status.isSome || view.header.isSome

/-- `HTTPResponseComplete` -/
def responseComplete (bits : Nat) : Option Bool := do
  let view ← parseResponse response bits
  if !parses view then some false
  else
    match view.header, view.contentLength with
    | some (_, body), some declared => some (decide (body.length ≥ declared))
    | _, _ => some false

end HTTP

end Unisym.Network
