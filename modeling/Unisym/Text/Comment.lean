/-
# `Comment` — the comment handlers

The handlers of `comment.cpp`.  `Parse` puts the character in hand back and asks a handler
whether a comment begins there (`just_chk`); if so the handler is called again and reads the
comment.  The question itself takes the first character.

The loops take a bound on their iterations, as those of the parser do.
-/
import Unisym.Text.LinearParser

namespace Unisym.Text

open LinearParser

/-- The loop of `LineParse_Comment_C`: `c` is in hand and `last` was before it. -/
def commentCLoop : (fuel : Nat) → (c : Option Char) → (last : Char) → LinearParser → Option LinearParser
  | 0, _, _, _ => none
  | fuel + 1, c, last, lp =>
      match c with
      | none => some lp
      | some ch =>
          if last = '*' ∨ ch = '/' then some lp
          else
            let lp := if last ≠ nul then lp.setChar last else lp
            commentCLoop fuel lp.getChar.1 ch lp.getChar.2

def lineParseCommentC (fuel : Nat) (justChk : Bool) (lp : LinearParser) : Option (Bool × LinearParser) :=
  let c1 := lp.getChar.1
  let lp := lp.getChar.2
  if justChk then
    if c1 ≠ some '/' then some (false, lp)
    else
      let c2 := lp.getChar.1
      some (decide (c2 = some '*'), lp.getChar.2.backChar (c2.getD charEOF))
  else (commentCLoop fuel c1 nul lp).map fun lp => (true, lp)

/-- The loop of `LineParse_Comment_Cpp`, with what it ends at.  Nothing is `last` before the first
character. -/
def commentCppLoop (m : Methods) : (fuel : Nat) → (c last : Option Char) → LinearParser →
    Option (Option Char × LinearParser)
  | 0, _, _, _ => none
  | fuel + 1, c, last, lp =>
      match c with
      | none => some (none, lp)
      | some ch =>
          if ch = '\n' ∨ ch = '\r' then
            if m.lineContinuation && last = some '\\' then
              let lp := { lp with linebuf := lp.linebuf.innRear.2 }.eatLinefeed ch
              let lp := { lp with pos := { lp.pos with y := lp.pos.y + 1 } }.setChar ch
              commentCppLoop m fuel lp.getChar.1 (some ch) lp.getChar.2
            else some (some ch, lp)
          else
            let lp := lp.setChar ch
            commentCppLoop m fuel lp.getChar.1 (some ch) lp.getChar.2

def lineParseCommentCpp (m : Methods) (fuel : Nat) (justChk : Bool) (lp : LinearParser) :
    Option (Bool × LinearParser) :=
  let c1 := lp.getChar.1
  let lp := lp.getChar.2
  if justChk then
    if c1 ≠ some '/' then some (false, lp)
    else
      let c2 := lp.getChar.1
      some (decide (c2 = some '/'), lp.getChar.2.backChar (c2.getD charEOF))
  else
    (commentCppLoop m fuel c1 none lp).map fun r =>
      match r.1 with
      | none => (true, r.2)
      | some c => (true, r.2.backChar c)

def lineParseCommentCCpp (m : Methods) (fuel : Nat) (justChk : Bool) (lp : LinearParser) :
    Option (Bool × LinearParser) :=
  let c1 := lp.getChar.1
  let lp := lp.getChar.2
  if justChk then
    if c1 ≠ some '/' then some (false, lp)
    else
      let c2 := lp.getChar.1
      some (decide (c2 = some '/' ∨ c2 = some '*'), lp.getChar.2.backChar (c2.getD charEOF))
  else if c1 = some '*' then (lineParseCommentC fuel false lp).map fun r => (true, r.2)
  else if c1 = some '/' then (lineParseCommentCpp m fuel false lp).map fun r => (true, r.2)
  else some (true, lp)

/-- The handlers. -/
inductive CommentStyle where
  | sharp | c | cpp | cCpp
  deriving DecidableEq

namespace CommentStyle

/-- The handler of a style; `m` is where it asks for the line continuation. -/
def handler (m : Methods) (fuel : Nat) : CommentStyle → Bool → LinearParser → Option (Bool × LinearParser)
  | sharp => lineParseCommentSharp fuel
  | c => lineParseCommentC fuel
  | cpp => lineParseCommentCpp m fuel
  | cCpp => lineParseCommentCCpp m fuel

/-- The parser with a handler for comments. -/
def install (style : CommentStyle) (fuel : Nat) (m : Methods) : Methods :=
  { m with handlerComment := some (style.handler m fuel) }

/-- A comment of the style begins here. -/
def opens : CommentStyle → List Char → Bool
  | sharp, '#' :: _ => true
  | c, '/' :: '*' :: _ => true
  | cpp, '/' :: '/' :: _ => true
  | cCpp, '/' :: '/' :: _ => true
  | cCpp, '/' :: '*' :: _ => true
  | _, _ => false

end CommentStyle

end Unisym.Text
