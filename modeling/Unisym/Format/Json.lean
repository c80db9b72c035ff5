/-
# `Json` — `ConfigJSON`

The parser of the source moves a pointer over a string; here a text is what stands from the
pointer to the zero byte, and a function that moves it gives back what is left.  A null pointer
for a node is no result.

The functions for values, objects and arrays call each other.  The fuel bounds the depth of
their calls and the rounds of their loops, which are no more than two for a character.
-/
import Unisym.Lango.CloverParser

namespace Unisym.Format

open Lango (Text atoins)

inductive JSONType where
  | null | boolean | number | string | array | object
  deriving DecidableEq

/-- The lists of the source are linked by `next`. -/
structure JSONNode where
  type : JSONType
  strVal : Text := []
  numVal : Int := 0
  boolVal : Bool := false
  objectHead : List (Text × JSONNode) := []
  arrayHead : List JSONNode := []

namespace JSONNode

def addObjectMember (obj : JSONNode) (key : Text) (child : JSONNode) : JSONNode :=
  { obj with objectHead := obj.objectHead ++ [(key, child)] }

def addArrayElement (arr : JSONNode) (child : JSONNode) : JSONNode :=
  { arr with arrayHead := arr.arrayHead ++ [child] }

end JSONNode

/-! ## Tokens -/

def isJsonWhitespace (c : Char) : Bool := c = ' ' ∨ c = '\t' ∨ c = '\r' ∨ c = '\n'

def skipJsonWhitespace (p : Text) : Text := p.dropWhile isJsonWhitespace

/-- The character that is staged for the one behind a backslash. -/
def unescape (ch : Char) : Char :=
  if ch = '"' then '"'
  else if ch = '\\' then '\\'
  else if ch = '/' then '/'
  else if ch = 'b' then '\x08'
  else if ch = 'f' then '\x0c'
  else if ch = 'n' then '\n'
  else if ch = 'r' then '\r'
  else if ch = 't' then '\t'
  else ch

/-- `buf[len++] = ch`; a full `buf` goes to `out_str`. -/
def stage (buf outStr : Text) (ch : Char) : Text × Text :=
  let buf := buf ++ [ch]
  if 1024 - 1 ≤ buf.length then ([], outStr ++ buf) else (buf, outStr)

/-- The loop of `parse_json_string`: `out_str`, and what is behind the closing quote. -/
def stringLoop : (p buf outStr : Text) → Option (Text × Text)
  | [], _, _ => none
  | c :: p, buf, outStr =>
      if c = '"' then some (outStr ++ buf, p)
      else if c = '\\' then
        match p with
        | [] => none
        | ch :: p =>
            let s := stage buf outStr (unescape ch)
            stringLoop p s.1 s.2
      else
        let s := stage buf outStr c
        stringLoop p s.1 s.2

/-- `parse_json_string` into an empty string. -/
def parseJsonString (p : Text) : Option (Text × Text) :=
  match p with
  | '"' :: p => stringLoop p [] []
  | _ => none

/-- The branch of `parse_json_value` for a number. -/
def parseJsonNumber (start : Text) : JSONNode × Text :=
  let sign := if start.head? = some '-' then 1 else 0
  let p := (start.drop sign).dropWhile Char.isDigit
  let len := start.length - p.length
  let numBuf := start.take (if 64 ≤ len then 64 - 1 else len)
  ({ type := .number, numVal := atoins numBuf, strVal := numBuf }, p)

/-! ## Values -/

mutual

/-- The loop of `parse_json_object`. -/
def objectLoop : (fuel : Nat) → Text → JSONNode → Option (JSONNode × Text)
  | 0, _, _ => none
  | fuel + 1, p, obj => do
      let (key, p) ← parseJsonString (skipJsonWhitespace p)
      match skipJsonWhitespace p with
      | ':' :: p =>
          let (val, p) ← parseJsonValue fuel (skipJsonWhitespace p)
          let obj := obj.addObjectMember key val
          match skipJsonWhitespace p with
          | ',' :: p => objectLoop fuel p obj
          | '}' :: p => some (obj, p)
          | _ => none
      | _ => none

/-- The loop of `parse_json_array`. -/
def arrayLoop : (fuel : Nat) → Text → JSONNode → Option (JSONNode × Text)
  | 0, _, _ => none
  | fuel + 1, p, arr => do
      let (val, p) ← parseJsonValue fuel (skipJsonWhitespace p)
      let arr := arr.addArrayElement val
      match skipJsonWhitespace p with
      | ',' :: p => arrayLoop fuel p arr
      | ']' :: p => some (arr, p)
      | _ => none

/-- `parse_json_value`, with `parse_json_object` and `parse_json_array`. -/
def parseJsonValue : (fuel : Nat) → Text → Option (JSONNode × Text)
  | 0, _ => none
  | fuel + 1, p =>
      match skipJsonWhitespace p with
      | [] => none
      | c :: p =>
          if c = '{' then
            match skipJsonWhitespace p with
            | '}' :: p => some ({ type := .object }, p)
            | p => objectLoop fuel p { type := .object }
          else if c = '[' then
            match skipJsonWhitespace p with
            | ']' :: p => some ({ type := .array }, p)
            | p => arrayLoop fuel p { type := .array }
          else if c = '"' then do
            let (str, p) ← parseJsonString (c :: p)
            some ({ type := .string, strVal := str }, p)
          else if c = 't' then
            if "true".toList.isPrefixOf (c :: p) then
              some ({ type := .boolean, boolVal := true, strVal := "true".toList }, p.drop 3)
            else none
          else if c = 'f' then
            if "false".toList.isPrefixOf (c :: p) then
              some ({ type := .boolean, boolVal := false, strVal := "false".toList }, p.drop 4)
            else none
          else if c = 'n' then
            if "null".toList.isPrefixOf (c :: p) then some ({ type := .null }, p.drop 3) else none
          else if c = '-' ∨ c.isDigit then some (parseJsonNumber (c :: p))
          else none

end

/-! ## The object -/

structure ConfigJSON where
  rootNode : Option JSONNode
  isValid : Bool

namespace ConfigJSON

/-- Before the constructor parses the text of its file. -/
def new : ConfigJSON := ⟨none, false⟩

def parseJson (c : ConfigJSON) (text : Option Text) : ConfigJSON :=
  match text with
  | none => { c with isValid := false }
  | some text =>
      let p := skipJsonWhitespace text
      if p = [] then { c with isValid := false }
      else
        let invalid : ConfigJSON := ⟨some { type := .object }, false⟩
        match parseJsonValue (2 * text.length + 1) p with
        | some (parsed, p) => if skipJsonWhitespace p = [] then ⟨some parsed, true⟩ else invalid
        | none => invalid

def Probe (c : ConfigJSON) : Bool := c.isValid

end ConfigJSON

end Unisym.Format
