/-
# `Lexing` — the parser as a lexer on lists

What `Parse` does is a matter of the text that is left, the line, its type and the string it is
in (`Local`).  `Lexes` says which tokens come of a text, one rule for each kind of iteration,
and `Lexes.loop` that the parser finds them.  The positions of tokens are left out.

A comment has its own rule, by what the handler is to find.
-/
import Unisym.Text.LinearParserSpec
import Unisym.Text.Comment

namespace Unisym.Text

/-- A byte other than those that stand for the end of a string and of a file. -/
structure TextByte (c : Char) : Prop where
  ne_nul : c ≠ nul
  ne_eof : c ≠ charEOF
  lt : c.toNat < 256

/-- The text and the type of a token. -/
abbrev Key := List Char × Toktype

def keys (dc : List Tnode) : List Key := dc.map fun t => (t.text, t.type)

/-- What `Parse` keeps from one character to the next. -/
structure Local where
  line : List Char
  type : Toktype
  /-- In a string: its quote, and whether a backslash was the last character. -/
  str : Option (Char × Bool)

namespace Local

/-- Behind a token. -/
def fresh : Local := ⟨[], .any, none⟩

variable (m : Methods) (l : Local)

/-- The tokens of `apd`. -/
def flush : List Key :=
  if m.omitSpaces && l.type = .spaces || m.omitComment && l.type = .comment then []
  else if l.line = [] ∧ l.type ≠ .string ∧ l.str = none then []
  else [(l.line, l.type)]

/-- The tokens of an `apd` that an empty line does not reach. -/
def last : List Key := if l.line = [] then [] else l.flush m

end Local

/-! ## What is taken off the text -/

/-- Behind the line break `c`. -/
def dropFeed (c : Char) : List Char → List Char
  | [] => []
  | cc :: rem => if (cc = '\n' ∨ cc = '\r') ∧ c ≠ cc then rem else cc :: rem

/-- The characters of a number, and what is left behind it. -/
def scanNumber : NumScan → List Char → List Char × List Char
  | s, [] => ([], s.putBack [])
  | s, c :: cs =>
      match s.accept c with
      | none => ([], s.putBack (c :: cs))
      | some s' => (c :: (scanNumber s' cs).1, (scanNumber s' cs).2)

/-- The character of an escape behind its backslash, and what is left.  Nothing where the text
ends in the escape. -/
def escaped : List Char → Option (Char × List Char)
  | [] => none
  | c :: rem =>
      if asciiIsdigit c then
        match rem with
        | [] => none
        | nest1 :: rem =>
            if asciiIsdigit nest1 then
              match rem with
              | [] => none
              | nest2 :: rem =>
                  if asciiIsdigit nest2 then
                    some (charOf (bytdif nest2 '0' + bytdif nest1 '0' * 8 + bytdif c '0' * 8 * 8), rem)
                  else some (charOf (bytdif nest1 '0' + bytdif c '0'), nest2 :: rem)
            else some (charOf (bytdif c '0'), nest1 :: rem)
      else if c = 'x' then
        match rem with
        | [] => none
        | d :: rem =>
            if asciiIsxdigit d then
              match rem with
              | [] => none
              | nest1 :: rem =>
                  if asciiIsxdigit nest1 then some (charOf (hexOf d * 16 + hexOf nest1), rem)
                  else some (charOf (hexOf d), nest1 :: rem)
            else some (nul, d :: rem)
      else some ((escSeq.lookup c).getD c, rem)

/-! ## Iterations -/

namespace Local

variable (m : Methods) (l : Local) (c : Char) (rem : List Char)

/-- Inside a string with the quote `q`; nothing is the `break`. -/
def string (q : Char) (raw : Bool) : Option (Local × List Char × List Key) :=
  if !m.stringEscapeSequence && raw then
    some ({ l with line := l.line ++ [c], str := some (q, false) }, rem, [])
  else if q = c then some (fresh, rem, l.flush m)
  else if m.stringEscapeSequence && c = '\\' then
    (escaped rem).map fun r => ({ l with line := l.line ++ [r.1] }, r.2, [])
  else if c = '\\' then some ({ l with line := l.line ++ [c], str := some (q, true) }, rem, [])
  else some ({ l with line := l.line ++ [c] }, rem, [])

/-- `c` begins a string. -/
def quotes : Bool := m.stringDoubleQuote && c = '"' || m.stringSingleQuote && c = '\''

/-- At a character of plain text. -/
def text : Local × List Char × List Key :=
  if quotes m c then
    (⟨[], if c = '\'' then m.stringSingleQuoteType else .string, some (c, false)⟩, rem, l.flush m)
  else if asciiIsdigit c && m.handlerNumchk && l.type ≠ .identy then
    let r := scanNumber .start (c :: rem)
    let l' : Local := if l.type ≠ .any then fresh else l
    (fresh, r.2, (if l.type ≠ .any then l.flush m else []) ++
      flush m { l' with line := l'.line ++ r.1, type := .number })
  else if Parsing.isIdenty m c then
    if l.type = .identy ∨ l.type = .any then ({ l with line := l.line ++ [c], type := .identy }, rem, [])
    else
      (⟨[c], if m.treatidenUnderscore && c = '_' then .identy else getctype c, none⟩, rem, l.flush m)
  else if l.type = getctype c ∨ l.type = .any then
    ({ l with line := l.line ++ [c], type := getctype c }, rem, [])
  else (⟨[c], getctype c, none⟩, rem, l.flush m)

end Local

/-- A comment, by what stands behind its opener. -/
inductive Comment where
  | line (body : List Char)
  | block (body : List Char)

namespace Comment

/-- The characters of the comment. -/
def text (style : CommentStyle) : Comment → List Char
  | line body => match style with
    | .sharp => '#' :: body
    | _ => '/' :: '/' :: body
  | block body => '/' :: '*' :: (body ++ ['*', '/'])

/-- The text of its token. -/
def token (style : CommentStyle) : Comment → List Char
  | line body => match style with
    | .cpp => '/' :: body
    | _ => body
  | block body => body

/-- A comment that the handler reads as a whole, with `rest` behind it: a line comment of no
characters makes no token, and a star or a slash ends a block comment. -/
inductive Fits : CommentStyle → Comment → (rest : List Char) → Prop
  | sharp {body rest : List Char} (hne : body ≠ []) (hbody : ∀ c ∈ body, isBreak c = false)
      (hrest : ∀ c, rest.head? = some c → isBreak c = true) : Fits .sharp (line body) rest
  | cpp {body rest : List Char} (hbody : ∀ c ∈ body, isBreak c = false)
      (hrest : ∀ c, rest.head? = some c → isBreak c = true) : Fits .cpp (line body) rest
  | line {body rest : List Char} (hne : body ≠ []) (hbody : ∀ c ∈ body, isBreak c = false)
      (hrest : ∀ c, rest.head? = some c → isBreak c = true) : Fits .cCpp (line body) rest
  | block {body : List Char} (hne : body ≠ []) (hbody : ∀ c ∈ body, c ≠ '*' ∧ c ≠ '/')
      (rest : List Char) : Fits .cCpp (block body) rest

end Comment

/-- The tokens of a text from the state `l` on, with comments of the style. -/
inductive Lexes (m : Methods) (style : Option CommentStyle) : Local → List Char → List Key → Prop
  | done (l : Local) : Lexes m style l [] (l.last m)
  | string {l l' : Local} {q c : Char} {raw : Bool} {rem rem' : List Char} {ks out : List Key}
      (hstr : l.str = some (q, raw)) (hstep : l.string m c rem q raw = some (l', rem', ks))
      (hline : ∀ x ∈ l'.line, x ≠ nul) (h : Lexes m style l' rem' out) :
      Lexes m style l (c :: rem) (ks ++ out)
  | cut {l : Local} {q c : Char} {raw : Bool} {rem : List Char} (hstr : l.str = some (q, raw))
      (hstep : l.string m c rem q raw = none) : Lexes m style l (c :: rem) (l.last m)
  | feed {l : Local} {c : Char} {rem : List Char} {out : List Key} (hstr : l.str = none)
      (hc : c = '\n' ∨ c = '\r') (h : Lexes m style .fresh (dropFeed c rem) out) :
      Lexes m style l (c :: rem) (l.last m ++ out)
  | text {l : Local} {c : Char} {rem : List Char} {out : List Key} (hstr : l.str = none)
      (hc : ¬(c = '\n' ∨ c = '\r')) (hopens : ∀ s, style = some s → s.opens (c :: rem) = false)
      (h : Lexes m style (l.text m c rem).1 (l.text m c rem).2.1 out) :
      Lexes m style l (c :: rem) ((l.text m c rem).2.2 ++ out)
  | comment {l : Local} {s : CommentStyle} {com : Comment} {rest : List Char} {out : List Key}
      (hstr : l.str = none) (hstyle : style = some s) (hcom : com.Fits s rest)
      (h : Lexes m style .fresh rest out) :
      Lexes m style l (com.text s ++ rest)
        (l.flush m ++ (Local.flush m ⟨com.token s, .comment, none⟩ ++ out))

end Unisym.Text
