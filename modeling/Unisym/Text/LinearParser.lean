/-
# `LinearParser` — the token parser of `parse.cpp`

`Parse` reads one character after the other and collects a token in `linebuf`; when a token
ends (`apd`) its text goes to the chain.  A character that was read too far is put back on the
stack `tobuf`, and `getChar` takes from this stack before it asks the source.

The number scanner `LineParse_NumChk_Default` reads ahead on its own: it puts what it accepts
into `linebuf` and puts the character it stops at back.

Comments are a parameter (`handlerComment`).  The parser is built by its first constructor,
with two heap strings.  The loops take a bound on their iterations, and a run that exceeds it
has no result.
-/
import Unisym.Text.UString

namespace Unisym.Text

/-! ## Classes of characters -/

/-- The difference as an `unsigned char`. -/
def bytdif (c v : Char) : Nat := (c.toNat + 256 - v.toNat) % 256

def asciiIsdigit (c : Char) : Bool := decide (bytdif c '0' < 10)

def asciiIslower (c : Char) : Bool := decide (bytdif c 'a' < 26)

def asciiIsupper (c : Char) : Bool := decide (bytdif c 'A' < 26)

def asciiIsalpha (c : Char) : Bool := asciiIslower c || asciiIsupper c

def asciiIsalnum (c : Char) : Bool := asciiIsalpha c || asciiIsdigit c

def asciiIsxdigit (c : Char) : Bool :=
  asciiIsdigit c || decide (bytdif c 'A' < 6) || decide (bytdif c 'a' < 6)

def asciiIsspace (c : Char) : Bool :=
  c = ' ' || c = '\t' || c = '\n' || c = '\r' || c = Char.ofNat 11 || c = Char.ofNat 12

def asciiIspunct (c : Char) : Bool := !asciiIsspace c && decide ('!' ≤ c) && decide (c ≤ '~')

/-- `StrIndexChar`: the terminator is a character of the string. -/
def strIndexChar (s : String) (c : Char) : Bool := s.toList.contains c || c = nul

inductive Toktype where
  | none | any | symbol | spaces | number | identy | others | comment | direct | string | EOF
  deriving DecidableEq, Repr

/-- `getctype`: the type of a token by its first character, numbers excluded. -/
def getctype (chr : Char) : Toktype :=
  if asciiIsalnum chr then .identy
  else if asciiIsspace chr then .spaces
  else if asciiIspunct chr then .symbol
  else .others

/-- A token of the chain, a `Tnode` with its copied text. -/
structure Tnode where
  text : List Char
  type : Toktype
  row : Int
  col : Int
  deriving DecidableEq, Repr

/-! ## Characters from the source and back -/

/-- A place in the text; a negative number stands for the wrapped one. -/
structure Point where
  x : Int
  y : Int
  deriving DecidableEq, Repr

/-- The characters under a parser: `src` is what the stream has left. -/
structure LinearParser where
  src : List Char
  linebuf : UString
  todobuf : UString
  pos : Point
  deriving DecidableEq, Repr

/-- The character whose `char` value is `EOF`. -/
def charEOF : Char := Char.ofNat 255

/-- The flags and handlers of a parser. -/
structure Methods where
  GHT : Bool
  /-- Whether the number scanner is installed. -/
  handlerNumchk : Bool
  /-- With `just_chk`, whether a comment begins here; without, the comment is read. -/
  handlerComment : Option (Bool → LinearParser → Option (Bool × LinearParser))
  omitComment : Bool
  lineContinuation : Bool
  stringSingleQuote : Bool
  stringDoubleQuote : Bool
  stringEscapeSequence : Bool
  directive : Char
  omitSpaces : Bool
  treatidenUnderscore : Bool
  stringSingleQuoteType : Toktype

namespace LinearParser

/-- A new parser on the stream `src`. -/
def new (src : List Char) : LinearParser := ⟨src, .new, .new, ⟨1, 1⟩⟩

def askChar (lp : LinearParser) : Option Char × LinearParser :=
  (lp.src.head?, { lp with src := lp.src.tail })

/-- The last character that was put back, else the next of the source; `none` is `EOF`. -/
def getChar (lp : LinearParser) : Option Char × LinearParser :=
  let ch := lp.todobuf.inn
  let moved := { lp with todobuf := ch.2, pos := { lp.pos with x := lp.pos.x + 1 } }
  if ch.1 = none ∨ ch.1 = some charEOF then moved.askChar else (ch.1, moved)

def setChar (lp : LinearParser) (c : Char) : LinearParser :=
  { lp with linebuf := lp.linebuf.push c }

def backChar (lp : LinearParser) (c : Char) : LinearParser :=
  { lp with todobuf := lp.todobuf.push c, pos := { lp.pos with x := lp.pos.x - 1 } }

/-- `EatLinefeed`: the second character of a line break that begins with `c`. -/
def eatLinefeed (lp : LinearParser) (c : Char) : LinearParser :=
  match lp.getChar with
  | (none, lp) => lp
  | (some cc, lp) =>
      if cc = '\n' ∨ cc = '\r' then (if c = cc then lp.backChar cc else lp) else lp.backChar cc

/-- Whether the line ends in a backslash that continues it. -/
def continued (m : Methods) (lp : LinearParser) : Bool :=
  m.lineContinuation && lp.linebuf.at? (lp.linebuf.counts - 1) = some '\\'

end LinearParser

/-! ## Numbers -/

/-- What the number scanner remembers: the length so far, the last character, and which of
the characters that occur once have occurred. -/
structure NumScan where
  res : Nat
  lastc : Char
  lastZoNum : Bool
  bodx : Bool
  e : Bool
  dot : Bool
  sign : Bool
  deriving DecidableEq, Repr

namespace NumScan

def start : NumScan := ⟨0, nul, false, false, false, false, false⟩

/-- One more character. -/
def took (s : NumScan) (c : Char) : NumScan := { s with res := s.res + 1, lastc := c }

/-- The scanner after `c`, or `none` where the number ends before it. -/
def accept (s : NumScan) (c : Char) : Option NumScan :=
  if strIndexChar "bodxij" c then
    if s.bodx then none else some ({ s with lastZoNum := false, bodx := true }.took c)
  else if c = 'e' then
    if s.e || !s.lastZoNum then none else some ({ s with lastZoNum := false, e := true }.took c)
  else if c = '.' then
    if s.dot then none else some ({ s with lastZoNum := false, dot := true }.took c)
  else if c = '+' ∨ c = '-' then
    if s.sign || !s.e || s.lastc ≠ 'e' then none
    else some ({ s with lastZoNum := false, sign := true }.took c)
  else if '0' ≤ c ∧ c ≤ '9' then some ({ s with lastZoNum := true }.took c)
  else none

/-- The number is longer than one character and ends in a dot or a sign. -/
def dangling (s : NumScan) : Bool :=
  decide (s.res > 1) && (s.lastc = '+' || s.lastc = '-' || s.lastc = '.')

/-- The end of `LineParse_NumChk_Default`.  A dangling character is put back, then the
character the scanner stopped at. -/
def finish (s : NumScan) (c : Option Char) (lp : LinearParser) : Nat × LinearParser :=
  let (res, lp) := if s.dangling then (s.res - 1, lp.backChar s.lastc) else (s.res, lp)
  match c with
  | none => (res, lp)
  | some c => (res, lp.backChar c)

end NumScan

/-- The loop of `LineParse_NumChk_Default`. -/
def numChkLoop (m : Methods) : Nat → NumScan → LinearParser → Option (Nat × LinearParser)
  | 0, _, _ => none
  | fuel + 1, s, lp =>
      match lp.getChar with
      | (none, lp) => some (s.finish none lp)
      | (some c, lp) =>
          match s.accept c with
          | some s => numChkLoop m fuel s (lp.setChar c)
          | none =>
              if m.lineContinuation && c = '\\' then
                match lp.getChar with
                | (none, lp) => some (s.res, (lp.backChar charEOF).backChar '\\')
                | (some ch0, lp) =>
                    if ch0 = '\n' ∨ ch0 = '\r' then
                      let lp := lp.eatLinefeed ch0
                      numChkLoop m fuel s { lp with pos := { lp.pos with y := lp.pos.y + 1 } }
                    else some (s.res, (lp.backChar ch0).backChar '\\')
              else some (s.finish (some c) lp)

def lineParseNumChkDefault (m : Methods) (fuel : Nat) (lp : LinearParser) :
    Option (Nat × LinearParser) :=
  numChkLoop m fuel .start lp

/-! ## Escape sequences -/

def escSeq : List (Char × Char) :=
  [('n', '\n'), ('r', '\r'), ('a', Char.ofNat 7), ('b', Char.ofNat 8), ('f', Char.ofNat 12),
    ('t', '\t'), ('v', Char.ofNat 11)]

/-- The value of a hexadecimal digit. -/
def hexOf (c : Char) : Nat :=
  if asciiIsdigit c then c.toNat - '0'.toNat
  else if asciiIsupper c then c.toNat - 'A'.toNat + 10
  else c.toNat - 'a'.toNat + 10

/-- A number cut to a `char`. -/
def charOf (n : Nat) : Char := Char.ofNat (n % 256)

/-- After a backslash and the octal digit `c`. -/
def escapeOctal (c : Char) (lp : LinearParser) : Bool × LinearParser :=
  match lp.getChar with
  | (none, lp) => (false, lp)
  | (some nest1, lp) =>
      if asciiIsdigit nest1 then
        match lp.getChar with
        | (none, lp) => (false, lp)
        | (some nest2, lp) =>
            if asciiIsdigit nest2 then
              (true, lp.setChar (charOf
                (bytdif nest2 '0' + bytdif nest1 '0' * 8 + bytdif c '0' * 8 * 8)))
            else
              (true, (lp.setChar (charOf (bytdif nest1 '0' + bytdif c '0'))).backChar nest2)
      else (true, (lp.setChar (charOf (bytdif c '0'))).backChar nest1)

/-- After a backslash and an `x`. -/
def escapeHex (lp : LinearParser) : Bool × LinearParser :=
  match lp.getChar with
  | (none, lp) => (false, lp)
  | (some c, lp) =>
      if asciiIsxdigit c then
        match lp.getChar with
        | (none, lp) => (false, lp)
        | (some nest1, lp) =>
            if asciiIsxdigit nest1 then (true, lp.setChar (charOf (hexOf c * 16 + hexOf nest1)))
            else (true, (lp.setChar (charOf (hexOf c))).backChar nest1)
      else (true, (lp.setChar nul).backChar c)

/-- `handler_escape_sequence`, after the backslash; `false` where the source ends in it. -/
def handlerEscapeSequence (lp : LinearParser) : Bool × LinearParser :=
  match lp.getChar with
  | (none, lp) => (false, lp)
  | (some c, lp) =>
      if asciiIsdigit c then escapeOctal c lp
      else if c = 'x' then escapeHex lp
      else (true, lp.setChar ((escSeq.lookup c).getD c))

/-! ## The parser -/

/-- The local variables of `Parse`. -/
structure Parsing where
  lp : LinearParser
  dc : List Tnode
  crtTType : Toktype
  crtlineEnto : Int
  crtcolEnto : Int
  yoString : Bool
  yoStringRawEscape : Bool
  strtok : Char

/-- `TokenAppend`: an empty text is a token of a string only. -/
def tokenAppend (dc : List Tnode) (content : List Char) (contlen : Nat) (ttype : Toktype)
    (row col : Int) (allowEmpty : Bool) : List Tnode :=
  if contlen = 0 ∧ ttype ≠ .string ∧ ¬ allowEmpty then dc
  else dc ++ [⟨strHeapN content contlen, ttype, row, col⟩]

namespace Parsing

/-- The macro `apd`: the collected token goes to the chain. -/
def apd (m : Methods) (st : Parsing) : Parsing :=
  { st with
    dc :=
      if m.omitSpaces && st.crtTType = .spaces || m.omitComment && st.crtTType = .comment then
        st.dc
      else
        tokenAppend st.dc st.lp.linebuf.addr st.lp.linebuf.counts st.crtTType st.crtlineEnto
          st.crtcolEnto st.yoString
    lp := { st.lp with linebuf := st.lp.linebuf.clear } }

/-- The next token begins at the character just read. -/
def mark (st : Parsing) : Parsing :=
  { st with crtlineEnto := st.lp.pos.y, crtcolEnto := st.lp.pos.x - 1 }

def setChar (st : Parsing) (c : Char) : Parsing := { st with lp := st.lp.setChar c }

/-- Inside a string; `false` is the `break` of a string that the source ends in. -/
def stringStep (m : Methods) (c : Char) (st : Parsing) : Bool × Parsing :=
  if !m.stringEscapeSequence && st.yoStringRawEscape then
    (true, { st.setChar c with yoStringRawEscape := false })
  else if st.strtok = c then
    (true, { (st.apd m).mark with yoString := false, crtTType := .any })
  else if m.stringEscapeSequence && c = '\\' then
    let r := handlerEscapeSequence st.lp
    (r.1, { st with lp := r.2 })
  else if c = '\\' then (true, { st.setChar c with yoStringRawEscape := true })
  else (true, st.setChar c)

/-- The last token of the chain goes back to the line that continues it. -/
def reopen (st : Parsing) : Parsing :=
  match st.dc.getLast? with
  | none => st
  | some t =>
      let lp := { st.lp with linebuf := st.lp.linebuf.clear }
      { st with lp := t.text.foldl LinearParser.setChar lp, crtTType := t.type, dc := st.dc.dropLast }

/-- At a line break. -/
def linefeedStep (m : Methods) (c : Char) (st : Parsing) : Parsing :=
  let eaten := st.lp.eatLinefeed c
  let continues := eaten.continued m
  let lp := { eaten with pos := { eaten.pos with y := eaten.pos.y + 1 } }
  let st := { st with lp := lp }
  if !continues then
    let st := if st.lp.linebuf.counts ≠ 0 then st.apd m else st
    { st with
      crtTType := .any
      lp := { st.lp with pos := { st.lp.pos with x := 1 } }
      crtlineEnto := st.lp.pos.y
      crtcolEnto := 1 }
  else if st.lp.linebuf.counts > 1 then
    { st with lp := { st.lp with linebuf := st.lp.linebuf.innRear.2 } }
  else st.reopen

/-- Whether a directive begins at `c`; the chain must have a last token to compare its row. -/
def atDirective (m : Methods) (c : Char) (st : Parsing) : Option Bool :=
  if st.crtTType = .direct then some true
  else if m.directive ≠ nul ∧ c = m.directive then
    if st.crtTType = .any then some true
    else st.dc.getLast?.map fun t => decide (t.row ≠ st.lp.pos.y)
  else some false

/-- The characters of a line go to `linebuf`. -/
def restOfLine : Nat → LinearParser → Option (Option Char × LinearParser)
  | 0, _ => none
  | fuel + 1, lp =>
      match lp.getChar with
      | (none, lp) => some (none, lp)
      | (some c, lp) =>
          if c = '\n' ∨ c = '\r' then some (some c, lp) else restOfLine fuel (lp.setChar c)

/-- The lines of a directive. -/
def directiveLines (m : Methods) : Nat → Parsing → Option (Option Char × Parsing)
  | 0, _ => none
  | fuel + 1, st =>
      (restOfLine (fuel + 1) st.lp).bind fun (c, lp) =>
        if lp.continued m then
          let st := { st with lp := { lp with linebuf := lp.linebuf.innRear.2 } }.apd m
          let lp := st.lp.eatLinefeed (c.getD charEOF)
          let lp := { lp with pos := ⟨1, lp.pos.y + 1⟩ }
          directiveLines m fuel { st with lp := lp, crtlineEnto := lp.pos.y, crtcolEnto := 1 }
        else some (c, { st with lp := lp }.apd m)

/-- A directive, whose first character was read. -/
def directiveStep (m : Methods) (fuel : Nat) (st : Parsing) : Option Parsing :=
  (directiveLines m fuel { (st.apd m).mark with crtTType := .direct }).map fun (c, st) =>
    { st.mark with crtTType := .any, lp := st.lp.backChar (c.getD charEOF) }

/-- At a digit that begins a number. -/
def numberStep (m : Methods) (fuel : Nat) (c : Char) (st : Parsing) : Option Parsing :=
  let st := if st.crtTType ≠ .any then (st.apd m).mark else st
  (lineParseNumChkDefault m fuel (st.lp.backChar c)).map fun (_, lp) =>
    let st := { st with lp := lp, crtTType := .number }.apd m
    { st with crtlineEnto := st.lp.pos.y, crtcolEnto := st.lp.pos.x, crtTType := .any }

/-- `c` begins or continues an identifier. -/
def isIdenty (m : Methods) (c : Char) : Bool :=
  asciiIsalnum c || m.treatidenUnderscore && c = '_'

/-- A character of plain text. -/
def textStep (m : Methods) (fuel : Nat) (c : Char) (st : Parsing) : Option Parsing :=
  if m.stringDoubleQuote && c = '"' || m.stringSingleQuote && c = '\'' then
    some { (st.apd m).mark with
      crtTType := if c = '\'' then m.stringSingleQuoteType else .string
      yoString := true, yoStringRawEscape := false, strtok := c }
  else if asciiIsdigit c && m.handlerNumchk && st.crtTType ≠ .identy then numberStep m fuel c st
  else if isIdenty m c then
    if st.crtTType = .identy ∨ st.crtTType = .any then
      some { st.setChar c with crtTType := .identy }
    else
      some { (st.apd m).mark.setChar c with
        crtTType := if m.treatidenUnderscore && c = '_' then .identy else getctype c }
  else if st.crtTType = getctype c ∨ st.crtTType = .any then
    some { st.setChar c with crtTType := getctype c }
  else some { (st.apd m).mark.setChar c with crtTType := getctype c }

/-- A comment, which `comment` has found. -/
def commentStep (m : Methods) (comment : Bool → LinearParser → Option (Bool × LinearParser))
    (st : Parsing) : Option Parsing :=
  let st := (st.apd m).mark
  (comment false st.lp).map fun (_, lp) =>
    { ({ st with lp := lp, crtTType := .comment }.apd m).mark with crtTType := .any }

/-- What `Parse` does with the character `c`; `false` is its `break`. -/
def step (m : Methods) (fuel : Nat) (c : Char) (st : Parsing) : Option (Bool × Parsing) :=
  if st.yoString then some (st.stringStep m c)
  else if c = '\n' ∨ c = '\r' then some (true, st.linefeedStep m c)
  else
    (st.atDirective m c).bind fun direct =>
      if direct then (st.directiveStep m fuel).map (true, ·)
      else
        match m.handlerComment with
        | none => (st.textStep m fuel c).map (true, ·)
        | some comment =>
            (comment true (st.lp.backChar c)).bind fun (begins, lp) =>
              if begins then (commentStep m comment { st with lp := lp }).map (true, ·)
              else ({ st with lp := lp }.textStep m fuel c).map (true, ·)

/-- The main loop. -/
def loop (m : Methods) : Nat → Parsing → Option Parsing
  | 0, _ => none
  | fuel + 1, st =>
      match st.lp.getChar with
      | (none, lp) => some { st with lp := lp }
      | (some c, lp) =>
          (step m (fuel + 1) c { st with lp := lp }).bind fun (goes, st) =>
            if goes then loop m fuel st else some st

/-- The state before the first character; the chain may begin with the sentinel. -/
def enter (m : Methods) (lp : LinearParser) (dc : List Tnode) : Parsing where
  lp :=
    { lp with
      linebuf := { lp.linebuf with innDirection := false }
      todobuf := { lp.todobuf with innDirection := false } }
  dc := if m.GHT then tokenAppend dc "GHTANIRA".toList 1 .any 0 0 false else dc
  crtTType := .any
  crtlineEnto := lp.pos.x
  crtcolEnto := lp.pos.y
  yoString := false
  yoStringRawEscape := false
  strtok := nul

end Parsing

/-- `Parse`: the chain and the parser after it. -/
def LinearParser.parse (m : Methods) (fuel : Nat) (lp : LinearParser) (dc : List Tnode) :
    Option (List Tnode × LinearParser) :=
  (Parsing.loop m fuel (.enter m lp dc)).map fun st =>
    let st := if st.lp.linebuf.counts ≠ 0 then st.apd m else st
    (st.dc, st.lp)

/-! ## Comments -/

def lineParseCommentSharp (fuel : Nat) (justChk : Bool) (lp : LinearParser) : Option (Bool × LinearParser) :=
  let ret := decide (lp.getChar.1 = some '#')
  if justChk then some (ret, lp.getChar.2)
  else
    (Parsing.restOfLine fuel lp).map fun (c, lp) =>
      match c with
      | none => (ret, lp)
      | some c => (ret, lp.backChar c)

/-- The members of a new parser. -/
def Methods.defaults (fuel : Nat) : Methods where
  GHT := true
  handlerNumchk := true
  handlerComment := some (lineParseCommentSharp fuel)
  omitComment := false
  lineContinuation := true
  stringSingleQuote := false
  stringDoubleQuote := false
  stringEscapeSequence := true
  directive := nul
  omitSpaces := true
  treatidenUnderscore := true
  stringSingleQuoteType := .string

end Unisym.Text
