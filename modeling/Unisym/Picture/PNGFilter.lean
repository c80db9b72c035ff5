/-
# `PNGFilter` — the filters of a PNG, and its windows

`DecodePNG` undoes the filters of all scanlines; a `PNGSurface` pulls them one by one, as far as the window that is
read needs, and starts again where it is above the last one (`surface_shows`).  A line of a type that there is not
is copied by the one, and fails in the other.
-/
import Unisym.Library.Prediction
import Unisym.Picture.BMPSurface

namespace Unisym.Picture.PNG

open Prediction List
open BMP (ImageResult)

/-- The bytes of a scanline -/
abbrev Row := List UInt8

/-- A scanline of the stream, behind its filter type -/
abbrev Line := UInt8 × Row

/-- `PaethPredictor` -/
def paethPredictor (a b c : UInt8) : UInt8 :=
  let p : Int := a.toNat + b.toNat - c.toNat
  let pa := if p > a.toNat then p - a.toNat else a.toNat - p
  let pb := if p > b.toNat then p - b.toNat else b.toNat - p
  let pc := if p > c.toNat then p - c.toNat else c.toNat - p
  if pa ≤ pb ∧ pa ≤ pc then a else if pb ≤ pc then b else c

inductive PNGFilterType where
  | none
  | sub
  | up
  | average
  | paeth

/-- The cases of the `switch` -/
def PNGFilterType.ofByte? : UInt8 → Option PNGFilterType
  | 0 => some none
  | 1 => some sub
  | 2 => some up
  | 3 => some average
  | 4 => some paeth
  | _ => .none

/-- What a filter adds to the next byte of a scanline; `prev` is null for the first one. -/
def predict (bpp : Nat) (prev : Option Row) (filter : PNGFilterType) (dst : Row) : UInt8 :=
  let i := dst.length
  let a := if i ≥ bpp then dst.getD (i - bpp) 0 else 0
  let bVal := match prev with
    | some prev => prev.getD i 0
    | none => 0
  let cVal := match prev with
    | some prev => if i ≥ bpp then prev.getD (i - bpp) 0 else 0
    | none => 0
  match filter with
  | .none => 0
  | .sub => a
  | .up => bVal
  | .average => UInt8.ofNat ((a.toNat + bVal.toNat) >>> 1)
  | .paeth => paethPredictor a bVal cVal

/-- The `switch` over the filter types; `MemCopyN` adds nothing. -/
def unfilter (bpp : Nat) (prev : Option Row) (filter : PNGFilterType) (src : Row) : Row :=
  restore (predict bpp prev filter) [] src

/-- The loop of `DecodePNG` over the scanlines of `rawInflated`, where any other type is as none. -/
def unfilterRows (bpp : Nat) (prev : Option Row) : List Line → List Row
  | [] => []
  | (filterType, src) :: rest =>
      let dst := unfilter bpp prev ((PNGFilterType.ofByte? filterType).getD .none) src
      dst :: unfilterRows bpp (some dst) rest

/-- `PNGSurface`, as far as it reads scanlines: `lines` are those that the stream inflates to, and `pulled` of them
were pulled since it was reset. -/
structure PNGSurface where
  width : Nat
  height : Nat
  rowBytes : Nat
  bpp : Nat
  lines : List Line
  pulled : Nat
  prevRow : Row
  currentY : Nat

namespace PNGSurface

/-- `PNGSurface(…)` -/
def new (width height rowBytes bpp : Nat) (lines : List Line) : PNGSurface :=
  ⟨width, height, rowBytes, bpp, lines, 0, replicate rowBytes 0, 0⟩

/-- `idatSrc.Reset(); inflate.Reset(); MemSet(prevRow, 0, rowBytes)` -/
def reset (s : PNGSurface) : PNGSurface := { s with pulled := 0, prevRow := replicate s.rowBytes 0, currentY := 0 }

/-- The loop of `ReadPixels`, with `n` rounds to go: the rows from `ry` on. -/
def readRows (ry : Nat) : (n : Nat) → PNGSurface → Option (List Row) × PNGSurface
  | 0, s => (some [], s)
  | n + 1, s =>
      match s.lines[s.pulled]? with
      | none => (none, s)
      | some (filterType, rawRow) =>
          let s := { s with pulled := s.pulled + 1 }
          match PNGFilterType.ofByte? filterType with
          | none => (none, s)
          | some filter =>
              let currRow := unfilter s.bpp (some s.prevRow) filter rawRow
              let (rows, s') := readRows ry n { s with prevRow := currRow, currentY := s.currentY + 1 }
              (rows.map fun rows => if s.currentY ≥ ry then currRow :: rows else rows, s')

/-- `Rectangle`, its members as the `int`s that they are copied to -/
structure Rectangle where
  x : Int
  y : Int
  width : Int
  height : Int

/-- The rectangles that are refused -/
def refuses (width height : Nat) (rect : Rectangle) : Bool :=
  rect.x < 0 || rect.y < 0 || rect.x + rect.width > width || rect.y + rect.height > height || rect.width ≤ 0 ||
    rect.height ≤ 0

/-- `ReadPixels`, into memory of the caller: the scanlines that the pixels are taken from. -/
def readPixels (s : PNGSurface) (rect : Rectangle) : Except ImageResult (List Row) × PNGSurface :=
  if refuses s.width s.height rect then (.error .invalidArgument, s)
  else
    let ry := rect.y.toNat
    let targetEndY := (rect.y + rect.height).toNat
    let s := if ry < s.currentY then s.reset else s
    let (rows, s) := readRows ry (targetEndY - s.currentY) s
    (rows.elim (.error .failed) .ok, s)

end PNGSurface

/-! ## Filters -/

def PNGFilterType.toByte : PNGFilterType → UInt8
  | none => 0
  | sub => 1
  | up => 2
  | average => 3
  | paeth => 4

theorem PNGFilterType.ofByte?_toByte (f : PNGFilterType) : ofByte? f.toByte = some f := by cases f <;> rfl

/-- The scanlines of a picture, each through some filter. -/
def filterRows (bpp : Nat) (prev : Option Row) : List (PNGFilterType × Row) → List Line
  | [] => []
  | (filter, row) :: rest =>
      (filter.toByte, residuals (predict bpp prev filter) [] row) :: filterRows bpp (some row) rest

/-- For the first scanline, bytes of zero are as good as none. -/
theorem predict_zero (bpp n : Nat) : predict bpp (some (replicate n 0)) = predict bpp none := by
  funext f dst
  have hzero : ∀ i, (replicate n (0 : UInt8)).getD i 0 = 0 := fun i => by
    rw [getD_eq_getElem?_getD, getElem?_replicate]
    split <;> rfl
  simp only [predict, hzero, ite_self]

theorem length_unfilterRows (bpp : Nat) : ∀ (prev : Option Row) (lines : List Line),
    (unfilterRows bpp prev lines).length = lines.length
  | _, [] => rfl
  | _, _ :: rest => congrArg (· + 1) (length_unfilterRows bpp _ rest)

namespace PNGSurface

/-- The surface with `n` more lines pulled, of which the last is `p`. -/
def after (s : PNGSurface) (n : Nat) (p : Row) : PNGSurface :=
  { s with pulled := s.pulled + n, prevRow := p, currentY := s.currentY + n }

/-- The lines that are not pulled yet are those of some rows. -/
def At (s : PNGSurface) (rows : List Row) : Prop :=
  ∃ prev, unfilterRows s.bpp prev (s.lines.drop s.pulled) = rows ∧ predict s.bpp (some s.prevRow) = predict s.bpp prev

/-- All lines have a filter type that there is. -/
def Typed (lines : List Line) : Prop := ∀ line ∈ lines, (PNGFilterType.ofByte? line.1).isSome = true

theorem readRows_spec (ry : Nat) : ∀ {n : Nat} {s : PNGSurface} {rows : List Row}, Typed s.lines → s.At rows →
    n ≤ rows.length → ∃ p, (s.after n p).At (rows.drop n) ∧
      readRows ry n s = (some ((rows.take n).drop (ry - s.currentY)), s.after n p)
  | 0, s, rows, _, h, _ => ⟨s.prevRow, h, by rw [readRows, take_zero, drop_nil]; rfl⟩
  | n + 1, s, _, htyped, ⟨prev, hlines, hprev⟩, hn => by
    subst hlines
    cases hdrop : s.lines.drop s.pulled with
    | nil =>
      rw [hdrop] at hn
      cases hn
    | cons line rest =>
      have hline := congrArg (·[0]?) hdrop
      have hrest := congrArg (drop 1) hdrop
      simp only [getElem?_drop, getElem?_cons_zero, Nat.add_zero] at hline
      rw [drop_drop, drop_succ_cons, drop_zero] at hrest
      obtain ⟨f, hf⟩ := Option.isSome_iff_exists.mp (htyped line (mem_of_getElem? hline))
      rw [hdrop, unfilterRows, hf, Option.getD_some, length_cons] at hn
      rw [unfilterRows, hf, Option.getD_some]
      obtain ⟨row, hrow⟩ : ∃ row, row = unfilter s.bpp prev f line.2 := ⟨_, rfl⟩
      rw [← hrow] at hn ⊢
      obtain ⟨p, hat, hread⟩ := @readRows_spec ry n (s.after 1 row) _ htyped
        ⟨some row, congrArg _ hrest, rfl⟩ (Nat.le_of_succ_le_succ hn)
      have hafter : (s.after 1 row).after n p = s.after (n + 1) p := by
        simp only [after, Nat.add_assoc, Nat.add_comm 1 n]
      rw [hafter] at hat hread
      refine ⟨p, hat, ?_⟩
      have hstep : readRows ry (n + 1) s = ((readRows ry n (s.after 1 row)).1.map fun rows =>
          if s.currentY ≥ ry then row :: rows else rows, (readRows ry n (s.after 1 row)).2) := by
        simp only [readRows, hline, hf, hrow, unfilter, hprev]
        rfl
      rw [hstep, hread]
      refine Prod.ext (congrArg some ?_) rfl
      rw [show (s.after 1 row).currentY = s.currentY + 1 from rfl, take_succ_cons]
      split
      case isTrue hy =>
        rw [Nat.sub_eq_zero_of_le hy, Nat.sub_eq_zero_of_le (Nat.le_succ_of_le hy), drop_zero, drop_zero]
        rfl
      case isFalse hy =>
        rw [show ry - s.currentY = ry - (s.currentY + 1) + 1 by omega, drop_succ_cons]
        rfl

/-- A surface of some lines, from which rows were read. -/
structure Shows (s : PNGSurface) (width bpp : Nat) (lines : List Line) : Prop where
  width_eq : s.width = width
  height_eq : s.height = lines.length
  bpp_eq : s.bpp = bpp
  lines_eq : s.lines = lines
  le : s.currentY ≤ lines.length
  rest : s.At ((unfilterRows bpp none lines).drop s.currentY)

theorem Shows.readPixels {s : PNGSurface} {width bpp : Nat} {lines : List Line} (htyped : Typed lines)
    (h : s.Shows width bpp lines) (rect : Rectangle) : (s.readPixels rect).2.Shows width bpp lines ∧
      (s.readPixels rect).1 = if refuses width lines.length rect then .error .invalidArgument
        else .ok (((unfilterRows bpp none lines).drop rect.y.toNat).take rect.height.toNat) := by
  obtain ⟨rfl, hheight, rfl, rfl, hle, hrest⟩ := h
  unfold PNGSurface.readPixels
  rw [hheight]
  split
  case isTrue => exact ⟨⟨rfl, hheight, rfl, rfl, hle, hrest⟩, rfl⟩
  case isFalse hin =>
    simp only [refuses, Bool.or_eq_true, decide_eq_true_eq] at hin
    obtain ⟨s₁, hs₁⟩ : ∃ s₁, s₁ = if rect.y.toNat < s.currentY then s.reset else s := ⟨_, rfl⟩
    have hnow : s₁.Shows s.width s.bpp s.lines ∧ s₁.currentY ≤ rect.y.toNat := by
      subst hs₁
      split
      case isTrue => exact ⟨⟨rfl, hheight, rfl, rfl, Nat.zero_le _, none, rfl, predict_zero _ _⟩, Nat.zero_le _⟩
      case isFalse hy => exact ⟨⟨rfl, hheight, rfl, rfl, hle, hrest⟩, Nat.le_of_not_lt hy⟩
    obtain ⟨⟨hwidth, hheight₁, hbpp, hlines, -, hrest₁⟩, hy⟩ := hnow
    obtain ⟨p, hat, hread⟩ := readRows_spec rect.y.toNat (n := (rect.y + rect.height).toNat - s₁.currentY)
      (hlines ▸ htyped) hrest₁ (by rw [length_drop, length_unfilterRows]; omega)
    simp only [← hs₁, hread]
    rw [drop_drop] at hat
    refine ⟨⟨hwidth, hheight₁, hbpp, hlines, ?_, hat⟩, congrArg Except.ok ?_⟩
    · show s₁.currentY + _ ≤ _
      omega
    · rw [drop_take, drop_drop]
      congr 2 <;> omega

end PNGSurface

end Unisym.Picture.PNG
