/-
# `CloverLexer` — the tokens of a text

A token is one mark, an arrow, a quoted text or a word.  Quotes are taken off, so that a quoted
text is a word like any other, and a quoted text of nothing is the empty token that the parser
finds at the end.
-/
import Unisym.Lango.Clover

namespace Unisym.Lango

/-- A token while it is filled: its contents and the size of its block. -/
structure Filling where
  contents : Text := []
  limits : Nat := 0

/-- `operator<<`; a larger block gets the contents up to the first zero byte. -/
def Filling.push (s : Filling) (chr : Char) : Filling :=
  if s.limits ≤ s.contents.length + 1 then ⟨reference s.contents ++ [chr], s.limits * 2 + 2⟩
  else ⟨s.contents ++ [chr], s.limits⟩

def isSpace (ch : Char) : Bool := ch = ' ' || ch = '\t' || ch = '\r' || ch = '\n'

def isPunctuation (ch : Char) : Bool :=
  ch = '@' || ch = '%' || ch = '^' || ch = '(' || ch = ')' ||
    ch = '{' || ch = '}' || ch = ',' || ch = '=' || ch = ':'

/-- `SkipIgnored`; `comment` is set behind a semicolon, up to the end of the line. -/
def skipIgnored (comment : Bool) : Text → Text
  | [] => []
  | ch :: rest =>
      if comment then skipIgnored (ch ≠ '\n') rest
      else if isSpace ch then skipIgnored false rest
      else if ch = ';' then skipIgnored true rest
      else ch :: rest

/-- The rest of a quoted text -/
def quoted (token : Filling) : Text → Filling × Text
  | [] => (token, [])
  | '"' :: rest => (token, rest)
  | ['\\'] => (token, [])
  | '\\' :: ch :: rest => quoted (token.push ch) rest
  | ch :: rest => quoted (token.push ch) rest

/-- What a word goes on with -/
def isWordChar (ch : Char) : Bool := !isSpace ch && ch ≠ ';' && !isPunctuation ch && ch ≠ '-'

/-- The rest of a word -/
def word (token : Filling) : Text → Filling × Text
  | [] => (token, [])
  | ch :: rest => if isWordChar ch then word (token.push ch) rest else (token, ch :: rest)

/-- `Next`, or nothing at the end of the text -/
def next (text : Text) : Option (Text × Text) :=
  match skipIgnored false text with
  | [] => none
  | ch :: rest =>
      let (token, rest) :=
        if ch = '"' then quoted {} rest
        else if isPunctuation ch then (Filling.push {} ch, rest)
        else if ch = '-' then
          match rest with
          | '>' :: rest => ((Filling.push {} '-').push '>', rest)
          | rest => word (Filling.push {} '-') rest
        else word {} (ch :: rest)
      some (token.contents, rest)

/-- The tokens one after the other; every one takes a character or more. -/
def tokensOf : (fuel : Nat) → Text → List Text
  | 0, _ => []
  | fuel + 1, text =>
      match next text with
      | none => []
      | some (token, rest) => token :: tokensOf fuel rest

/-- The tokens that the parser gets -/
def lex (text : Text) : List Text := tokensOf text.length text

end Unisym.Lango
