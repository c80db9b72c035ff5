/-
# `JsonGrammar` — JSON texts

`Doc` is the structure of a JSON text, with the strings and numbers as they are written, and
`Spells` its grammar.  What may stand in a string or in a number is left open there: a JSON text
with integers has `JsonChars` and `JsonInt` (`IsJson`), and what the parser tells apart is any
`Delimited` string and any `DigitRun` (`IsLax`).

The value of a text is a tree whose strings are bytes of UTF-8.
-/
import Unisym.Format.Json
import Unisym.Text.Utf8

namespace Unisym.Format

open Lango (Text)

/-- A value, with its strings and numbers as they are written. -/
inductive Doc where
  | null
  | bool (b : Bool)
  | num (raw : Text)
  | str (raw : Text)
  | arr (elements : List Doc)
  | obj (members : List (Text × Doc))

/-! ## Structure -/

/-- Whitespace. -/
def Ws (w : Text) : Prop := ∀ c ∈ w, isJsonWhitespace c = true

def boolText (b : Bool) : Text := if b then "true".toList else "false".toList

def quoted (raw : Text) : Text := '"' :: (raw ++ ['"'])

namespace Doc

mutual

inductive Spells : Doc → Text → Prop where
  | null : Spells .null "null".toList
  | bool (b : Bool) : Spells (.bool b) (boolText b)
  | num (raw : Text) : Spells (.num raw) raw
  | str (raw : Text) : Spells (.str raw) (quoted raw)
  | arr {es : List Doc} {t : Text} (h : SpellsElements es t) : Spells (.arr es) ('[' :: (t ++ [']']))
  | obj {ms : List (Text × Doc)} {t : Text} (h : SpellsMembers ms t) :
      Spells (.obj ms) ('{' :: (t ++ ['}']))

/-- What stands between the brackets of an array. -/
inductive SpellsElements : List Doc → Text → Prop where
  | nil {w : Text} (hw : Ws w) : SpellsElements [] w
  | one {d : Doc} {w t w' : Text} (hw : Ws w) (h : Spells d t) (hw' : Ws w') :
      SpellsElements [d] (w ++ (t ++ w'))
  | cons {d e : Doc} {es : List Doc} {w t w' ts : Text} (hw : Ws w) (h : Spells d t) (hw' : Ws w')
      (hs : SpellsElements (e :: es) ts) : SpellsElements (d :: e :: es) (w ++ (t ++ (w' ++ ',' :: ts)))

/-- What stands between the braces of an object. -/
inductive SpellsMembers : List (Text × Doc) → Text → Prop where
  | nil {w : Text} (hw : Ws w) : SpellsMembers [] w
  | one {key : Text} {d : Doc} {w w₁ w₂ t w' : Text} (hw : Ws w) (hw₁ : Ws w₁) (hw₂ : Ws w₂)
      (h : Spells d t) (hw' : Ws w') :
      SpellsMembers [(key, d)] (w ++ (quoted key ++ (w₁ ++ ':' :: (w₂ ++ (t ++ w')))))
  | cons {key : Text} {d : Doc} {m : Text × Doc} {ms : List (Text × Doc)} {w w₁ w₂ t w' ts : Text}
      (hw : Ws w) (hw₁ : Ws w₁) (hw₂ : Ws w₂) (h : Spells d t) (hw' : Ws w')
      (hs : SpellsMembers (m :: ms) ts) :
      SpellsMembers ((key, d) :: m :: ms)
        (w ++ (quoted key ++ (w₁ ++ ':' :: (w₂ ++ (t ++ (w' ++ ',' :: ts))))))

end

/-- A text with nothing but whitespace around the value. -/
def SpellsText (d : Doc) (text : Text) : Prop :=
  ∃ w t w', Ws w ∧ d.Spells t ∧ Ws w' ∧ text = w ++ (t ++ w')

end Doc

section

variable (S N : Text → Prop)

mutual

/-- Every string of the value, with the keys of its objects, satisfies `S`, and every number
`N`. -/
def Doc.All : Doc → Prop
  | .null | .bool _ => True
  | .num raw => N raw
  | .str raw => S raw
  | .arr es => allElements es
  | .obj ms => allMembers ms

def allElements : List Doc → Prop
  | [] => True
  | d :: es => d.All ∧ allElements es

def allMembers : List (Text × Doc) → Prop
  | [] => True
  | (key, d) :: ms => S key ∧ d.All ∧ allMembers ms

end

end

section

variable (str : Text → Text) (num : Text → Text × Int)

mutual

/-- The tree for a value, with the string and the number of what is written. -/
def Doc.tree : Doc → JSONNode
  | .null => { type := .null }
  | .bool b => { type := .boolean, boolVal := b, strVal := boolText b }
  | .num raw => { type := .number, numVal := (num raw).2, strVal := (num raw).1 }
  | .str raw => { type := .string, strVal := str raw }
  | .arr es => { type := .array, arrayHead := elementTrees es }
  | .obj ms => { type := .object, objectHead := memberTrees ms }

def elementTrees : List Doc → List JSONNode
  | [] => []
  | d :: es => d.tree :: elementTrees es

def memberTrees : List (Text × Doc) → List (Text × JSONNode)
  | [] => []
  | (key, d) :: ms => (str key, d.tree) :: memberTrees ms

end

end

/-! ## Strings -/

/-- No quote but behind a backslash, and no backslash at the end. -/
inductive Delimited : Text → Prop where
  | nil : Delimited []
  | char {c : Char} {raw : Text} (hquote : c ≠ '"') (hslash : c ≠ '\\') (h : Delimited raw) :
      Delimited (c :: raw)
  | escape {ch : Char} {raw : Text} (h : Delimited raw) : Delimited ('\\' :: ch :: raw)

/-- The bytes of UTF-8 for a code point. -/
def utf8 (cp : Nat) : Text := (Utf8.runeBytes cp).map fun b => Char.ofNat b.toNat

/-- The characters behind the backslash of a simple escape. -/
def simpleEscapes : Text := ['"', '\\', '/', 'b', 'f', 'n', 'r', 't']

def isHexDigit (c : Char) : Bool := c.isDigit ∨ ('a' ≤ c ∧ c ≤ 'f') ∨ ('A' ≤ c ∧ c ≤ 'F')

/-- What may stand between the quotes of a string. -/
inductive JsonChars : Text → Prop where
  | nil : JsonChars []
  | unescaped {c : Char} {raw : Text} (hspace : 0x20 ≤ c.toNat) (hquote : c ≠ '"')
      (hslash : c ≠ '\\') (h : JsonChars raw) : JsonChars (utf8 c.toNat ++ raw)
  | simple {ch : Char} {raw : Text} (hch : ch ∈ simpleEscapes) (h : JsonChars raw) :
      JsonChars ('\\' :: ch :: raw)
  | unicode {a b c d : Char} {raw : Text} (ha : isHexDigit a = true) (hb : isHexDigit b = true)
      (hc : isHexDigit c = true) (hd : isHexDigit d = true) (h : JsonChars raw) :
      JsonChars ('\\' :: 'u' :: a :: b :: c :: d :: raw)

/-- The character of a simple escape. -/
def simpleChar (ch : Char) : Char :=
  if ch = 'b' then '\x08'
  else if ch = 'f' then '\x0c'
  else if ch = 'n' then '\n'
  else if ch = 'r' then '\r'
  else if ch = 't' then '\t'
  else ch

def hexDigit (c : Char) : Nat :=
  if c.isDigit then c.toNat - '0'.toNat
  else if 'a' ≤ c then c.toNat - 'a'.toNat + 10
  else c.toNat - 'A'.toNat + 10

/-- A byte, or the code unit of a `\u` escape. -/
inductive Piece where
  | byte (c : Char)
  | unit (u : Nat)

def pieces : Text → List Piece
  | [] => []
  | c :: raw =>
      if c ≠ '\\' then .byte c :: pieces raw
      else
        match raw with
        | [] => []
        | ch :: raw =>
            if ch ≠ 'u' then .byte (simpleChar ch) :: pieces raw
            else
              match raw with
              | a :: b :: c :: d :: raw =>
                  .unit (((hexDigit a * 16 + hexDigit b) * 16 + hexDigit c) * 16 + hexDigit d) ::
                    pieces raw
              | _ => []

/-- The bytes of the pieces.  A high surrogate and a low one behind it are one code point; a
surrogate without its other half stays a code point of its own. -/
def pieceBytes : List Piece → Text
  | [] => []
  | .byte c :: ps => c :: pieceBytes ps
  | .unit u :: .unit u' :: ps =>
      if 0xD800 ≤ u ∧ u < 0xDC00 ∧ 0xDC00 ≤ u' ∧ u' < 0xE000 then
        utf8 (0x10000 + (u - 0xD800) * 0x400 + (u' - 0xDC00)) ++ pieceBytes ps
      else utf8 u ++ pieceBytes (.unit u' :: ps)
  | .unit u :: ps => utf8 u ++ pieceBytes ps

/-- The string that is written, in UTF-8. -/
def stringValue (raw : Text) : Text := pieceBytes (pieces raw)

/-! ## Numbers -/

/-- Digits, with a minus sign or without; a minus sign alone is one too. -/
def DigitRun (raw : Text) : Prop :=
  raw ≠ [] ∧ ∃ ds, (∀ c ∈ ds, c.isDigit = true) ∧ (raw = ds ∨ raw = '-' :: ds)

/-- A number without fraction and exponent: no zero before other digits. -/
def JsonInt (raw : Text) : Prop :=
  ∃ ds, ds ≠ [] ∧ (∀ c ∈ ds, c.isDigit = true) ∧ (ds.head? = some '0' → ds = ['0']) ∧
    (raw = ds ∨ raw = '-' :: ds)

def numberValue (raw : Text) : Int :=
  match raw with
  | '-' :: ds => -(Nat.ofDigitChars 10 ds 0 : Nat)
  | ds => (Nat.ofDigitChars 10 ds 0 : Nat)

/-! ## Texts -/

/-- The text is a JSON document whose numbers are integers, with this structure. -/
def IsJson (d : Doc) (text : Text) : Prop := d.SpellsText text ∧ d.All JsonChars JsonInt

/-- The structure of the text when anything may stand in its strings and numbers. -/
def IsLax (d : Doc) (text : Text) : Prop := d.SpellsText text ∧ d.All Delimited DigitRun

/-- The value that a document denotes. -/
def Doc.value (d : Doc) : JSONNode := d.tree stringValue fun raw => (raw, numberValue raw)

end Unisym.Format
