/-
# `LayerManager` — sheets on a screen

`Video.cpp` and `_Video.hpp`.  A layer manager has a chain of sheets, the top one first; a
sheet has an area and pixels, and its node of the chain is a part of it.  `evaluateColor` mixes
the pixels over a point from the top down to the first opaque one, with the colour of the
window under the last.  `update` draws a rectangle of the screen anew, and `domove` moves a
sheet: it draws the old area, made wider by hand, and then the new one.

The manager is a root that draws into its own buffer of pixels: it has no `sheet_parent`, and
no video interface is used.  Sheets are known by their place in `sheets`.  A write outside the
buffer and an access to a sheet that is not there have no result.
-/
import Mathlib.Data.List.Basic
import Mathlib.Algebra.Group.Nat.Defs
import Mathlib.Algebra.Group.Int.Defs

namespace Unisym.Video

/-- The values of a `stduint`. -/
def wordSize : Nat := 2 ^ 64

/-- The number as a `stdsint`. -/
def toSigned (n : Nat) : Int := if n < 2 ^ 63 then n else (n : Int) - 2 ^ 64

/-- A sum cut to a `stdsint`. -/
def wrapSigned (z : Int) : Int := toSigned (z % 2 ^ 64).toNat

structure Point where
  x : Nat
  y : Nat
  deriving DecidableEq, Repr

/-- `Color`, in the order of its bytes. -/
structure Color where
  b : UInt8
  g : UInt8
  r : UInt8
  a : UInt8
  deriving DecidableEq, Repr

structure Rectangle where
  x : Nat
  y : Nat
  width : Nat
  height : Nat
  deriving DecidableEq, Repr

/-- `ifContain`; the sums wrap around. -/
def Rectangle.ifContain (r : Rectangle) (p : Point) : Bool :=
  decide (r.x ≤ p.x) && decide (p.x < (r.x + r.width) % wordSize) &&
    decide (r.y ≤ p.y) && decide (p.y < (r.y + r.height) % wordSize)

/-! ## Colours -/

namespace Color

/-- `col` over the opaque colour `pp`. -/
def overOpaque (col pp : Color) : Color :=
  let invA := 0xFF - col.a.toNat
  { b := col.b + UInt8.ofNat (pp.b.toNat * invA / 0xFF)
    g := col.g + UInt8.ofNat (pp.g.toNat * invA / 0xFF)
    r := col.r + UInt8.ofNat (pp.r.toNat * invA / 0xFF)
    a := 0xFF }

/-- `col` over the translucent colour `pp`. -/
def overTranslucent (col pp : Color) : Color :=
  let factor := pp.a.toNat * (0xFF - col.a.toNat)
  let dv := 0xFF * 0xFF
  { b := col.b + UInt8.ofNat (pp.b.toNat * factor / dv)
    g := col.g + UInt8.ofNat (pp.g.toNat * factor / dv)
    r := col.r + UInt8.ofNat (pp.r.toNat * factor / dv)
    a := col.a + UInt8.ofNat (pp.a.toNat * (0xFF - col.a.toNat) / 0xFF) }

/-- The end of `EvaluateColor`: `col` over the colour of the window. -/
def overWindow (col win : Color) : Color :=
  if col.a ≠ 0xFF then
    let invA := 0xFF - col.a.toNat
    { b := col.b + UInt8.ofNat (win.b.toNat * invA / 0xFF)
      g := col.g + UInt8.ofNat (win.g.toNat * invA / 0xFF)
      r := col.r + UInt8.ofNat (win.r.toNat * invA / 0xFF)
      a := 0xFF }
  else { col with a := 0xFF }

end Color

/-! ## Sheets and their manager -/

/-- A sheet; `getPoint` is its virtual function, `parent` whether `sheet_parent` is this
manager. -/
structure Sheet where
  area : Rectangle
  buffer : Option (Nat → Color)
  getPoint : Point → Color
  next : Option Nat
  left : Option Nat
  parent : Bool

/-- The pixel of a sheet at a point of its area. -/
def Sheet.pixel (s : Sheet) (p : Point) : Color :=
  let pt : Point := ⟨p.x - s.area.x, p.y - s.area.y⟩
  match s.buffer with
  | none => s.getPoint pt
  | some rbuf => rbuf ((pt.y * s.area.width + pt.x) % wordSize)

structure LayerManager where
  subf : Option Nat
  subl : Option Nat
  window : Rectangle
  /-- `window.color`. -/
  color : Color
  isDirty : Bool
  dirtyArea : Rectangle
  sheetBuffer : List Color
  sheets : List Sheet

namespace LayerManager

/-- The loop of `EvaluateColor` from the sheet `crt` on, in at most so many steps. -/
def evaluateFrom (lm : LayerManager) (p : Point) : Nat → Option Nat → Color → Option Color
  | _, none, col => some (col.overWindow lm.color)
  | 0, some _, _ => none
  | fuel + 1, some crt, col =>
      match lm.sheets[crt]? with
      | none => none
      | some s =>
          if !s.area.ifContain p then
            if col.a ≤ 0xFE then evaluateFrom lm p fuel s.next col
            else some (col.overWindow lm.color)
          else
            let pp := s.pixel p
            if pp.a = 0xFF then
              if col.a = 0 then some pp else some ((col.overOpaque pp).overWindow lm.color)
            else
              let col := if pp.a > 0 then col.overTranslucent pp else col
              if col.a ≤ 0xFE then evaluateFrom lm p fuel s.next col
              else some (col.overWindow lm.color)

def evaluateColor (lm : LayerManager) (p : Point) : Option Color :=
  lm.evaluateFrom p lm.sheets.length lm.subf ⟨0, 0, 0, 0⟩

/-- `DrawPoint` of the buffer. -/
def drawPoint (lm : LayerManager) (disp : Point) (color : Color) : Option LayerManager :=
  if disp.x < lm.window.width ∧ disp.y < lm.window.height then
    let i := (disp.y * lm.window.width + disp.x) % wordSize
    if i < lm.sheetBuffer.length then
      some { lm with sheetBuffer := lm.sheetBuffer.set i color }
    else none
  else some lm

/-- The inner loop of `Update`: `n` points of a row from `point` on. -/
def drawRow : Nat → Point → LayerManager → Option LayerManager
  | 0, _, lm => some lm
  | n + 1, point, lm =>
      if point.x ≥ lm.window.width then some lm
      else
        (lm.evaluateColor point).bind fun col =>
          (lm.drawPoint point col).bind fun lm =>
            drawRow n { point with x := (point.x + 1) % wordSize } lm

/-- The outer loop of `Update`: `n` rows of the rectangle, from the `i`-th on. -/
def drawRows (rect : Rectangle) : Nat → Nat → LayerManager → Option LayerManager
  | 0, _, lm => some lm
  | n + 1, i, lm =>
      let point : Point := ⟨rect.x, (rect.y + i) % wordSize⟩
      if point.y ≥ lm.window.height then some lm
      else (drawRow rect.width point lm).bind fun lm => drawRows rect n (i + 1) lm

def addDirty (lm : LayerManager) (rect : Rectangle) : LayerManager :=
  let x0 := rect.x
  let y0 := rect.y
  let x1 := (rect.x + rect.width) % wordSize
  let y1 := (rect.y + rect.height) % wordSize
  let x1 := if lm.window.width ≠ 0 then min x1 lm.window.width else x1
  let y1 := if lm.window.height ≠ 0 then min y1 lm.window.height else y1
  if x0 ≥ x1 ∨ y0 ≥ y1 then lm
  else if !lm.isDirty || lm.dirtyArea.width = 0 || lm.dirtyArea.height = 0 then
    { lm with dirtyArea := ⟨x0, y0, x1 - x0, y1 - y0⟩, isDirty := true }
  else
    let minX := min lm.dirtyArea.x x0
    let minY := min lm.dirtyArea.y y0
    let maxX := max ((lm.dirtyArea.x + lm.dirtyArea.width) % wordSize) x1
    let maxY := max ((lm.dirtyArea.y + lm.dirtyArea.height) % wordSize) y1
    { lm with dirtyArea := ⟨minX, minY, maxX - minX, maxY - minY⟩, isDirty := true }

/-- `Update` of the absolute rectangle. -/
def updateAbs (lm : LayerManager) (rect : Rectangle) : Option LayerManager :=
  (drawRows rect rect.height 0 lm).map (·.addDirty rect)

/-- `Update`: the rectangle is relative to the sheet `who`, or to the window. -/
def update (lm : LayerManager) (who : Option Nat) (rect : Rectangle) : Option LayerManager :=
  (match who with
    | none => some lm.window
    | some k => lm.sheets[k]?.map Sheet.area).bind fun area =>
  lm.updateAbs
    ⟨(area.x + rect.x) % wordSize, (area.y + rect.y) % wordSize, rect.width, rect.height⟩

def setSheet (lm : LayerManager) (k : Nat) (f : Sheet → Sheet) : LayerManager :=
  { lm with sheets := lm.sheets.modify k f }

/-- The new place on one axis: not right of the last point of the window, not below 0. -/
def moveAxis (pos : Nat) (dif : Int) (len : Nat) : Nat :=
  let v := wrapSigned (toSigned pos + dif)
  let v := min v (toSigned len - 1)
  (max v 0).toNat

/-- The old place on one axis, one point further to the left. -/
def widenPos (pos : Nat) : Nat := if pos ≠ 0 then pos - 1 else pos

/-- The old size on one axis, two points larger where the window has room for them. -/
def widenLen (pos width len : Nat) : Nat :=
  if (widenPos pos + width + 2) % wordSize < len then (width + 2) % wordSize else width

def domove (lm : LayerManager) (who : Nat) (dx dy : Int) : Option LayerManager :=
  lm.sheets[who]?.bind fun s =>
    let old := s.area
    let x := moveAxis old.x dx lm.window.width
    let y := moveAxis old.y dy lm.window.height
    let moved := lm.setSheet who fun s => { s with area := { s.area with x := x, y := y } }
    (moved.update none ⟨widenPos old.x, widenPos old.y,
        widenLen old.x old.width lm.window.width,
        widenLen old.y old.height lm.window.height⟩).bind fun lm =>
      lm.update (some who) ⟨0, 0, old.width, old.height⟩

/-- `Append`: at the bottom of the chain. -/
def append (lm : LayerManager) (k : Nat) : LayerManager :=
  match lm.subf, lm.subl with
  | none, _ =>
      { lm.setSheet k fun s => { s with next := none, left := none, parent := true } with
        subf := some k, subl := some k }
  | some _, none => lm
  | some _, some l =>
      { (lm.setSheet l fun s => { s with next := some k }).setSheet k fun s =>
          { s with next := none, left := some l, parent := true } with
        subl := some k }

/-- What is right of the node `left`, or the first node. -/
def setNext (lm : LayerManager) (left next : Option Nat) : LayerManager :=
  match left with
  | some l => lm.setSheet l fun s => { s with next := next }
  | none => { lm with subf := next }

/-- What is left of the node `next`, or the last node. -/
def setLeft (lm : LayerManager) (next left : Option Nat) : LayerManager :=
  match next with
  | some n => lm.setSheet n fun s => { s with left := left }
  | none => { lm with subl := left }

/-- `Remove`; `false` where the sheet is not of this manager. -/
def remove (lm : LayerManager) (k : Nat) : Bool × LayerManager :=
  match lm.sheets[k]? with
  | none => (false, lm)
  | some s =>
      if !s.parent then (false, lm)
      else
        (true, ((lm.setNext s.left s.next).setLeft s.next s.left).setSheet k fun s =>
          { s with next := none, left := none, parent := false })

/-- `Update` of the whole rectangle of a sheet. -/
def updateSheet (lm : LayerManager) (k : Nat) : Option LayerManager :=
  lm.sheets[k]?.bind fun s => lm.update (some k) ⟨0, 0, s.area.width, s.area.height⟩

/-! ## Runs -/

/-- What is done to a manager.  A change of the pixels of a sheet or of the chain is followed
by an update of the sheet's rectangle. -/
inductive Call where
  | domove (who : Nat) (dx dy : Int)
  | redraw (who : Nat) (buffer : Option (Nat → Color)) (getPoint : Point → Color)
  | append (who : Nat)
  | remove (who : Nat)
  /-- The user has taken the dirty area. -/
  | emptied (isDirty : Bool) (area : Rectangle)

def exec (lm : LayerManager) : Call → Option LayerManager
  | .domove who dx dy => lm.domove who dx dy
  | .redraw who buffer getPoint =>
      (lm.setSheet who fun s => { s with buffer := buffer, getPoint := getPoint }).updateSheet who
  | .append who => (lm.append who).updateSheet who
  | .remove who => (lm.remove who).2.updateSheet who
  | .emptied isDirty area => some { lm with isDirty := isDirty, dirtyArea := area }

def run (lm : LayerManager) : List Call → Option LayerManager
  | [] => some lm
  | c :: cs => (lm.exec c).bind fun lm => run lm cs

end LayerManager

end Unisym.Video
