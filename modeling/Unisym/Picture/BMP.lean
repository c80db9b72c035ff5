/-
# `BMP` — the decoder of whole BMP files

`DecodeBMP` compares sums of header fields with the size of the file.  An access outside of the file or of
the pixels has no result, and neither has signed arithmetic that leaves 32 bits.  The end of the rows is
computed in 32 bits, so it may pass the check while the rows lie outside of the file (`decodeBMP_safe`).
-/
import Unisym.Library.BitCodes
import Unisym.Library.Cells

namespace Unisym.Picture.BMP

open BitCodes Cells

/-- What is read of `BITMAPFILEHEADER` and `BITMAPINFOHEADER` -/
structure Header where
  bfType : Nat
  bfOffBits : Nat
  biSize : Nat
  biWidth : Int
  biHeight : Int
  biBitCount : Nat
  biCompression : Nat
  biClrUsed : Nat

/-- Both headers, from the start of the file -/
def Header.read (file : List UInt8) : Header :=
  let field i n := bytesValue ((file.drop i).take n)
  { bfType := field 0 2, bfOffBits := field 10 4, biSize := field 14 4,
    biWidth := Int.bmod (field 18 4) (2 ^ 32), biHeight := Int.bmod (field 22 4) (2 ^ 32),
    biBitCount := field 28 2, biCompression := field 30 4, biClrUsed := field 46 4 }

/-- The numbers of bits per pixel that are accepted -/
inductive Depth where
  | one
  | four
  | eight
  | twentyFour
  | thirtyTwo

def Depth.bits : Depth → Nat
  | one => 1
  | four => 4
  | eight => 8
  | twentyFour => 24
  | thirtyTwo => 32

def Depth.ofBits : Nat → Option Depth
  | 1 => some one
  | 4 => some four
  | 8 => some eight
  | 24 => some twentyFour
  | 32 => some thirtyTwo
  | _ => none

structure Color where
  b : UInt8
  g : UInt8
  r : UInt8
  a : UInt8
  deriving DecidableEq

/-- The pixels of the buffer, each written or not -/
structure Image where
  width : Nat
  height : Nat
  pixels : List (Option Color)
  deriving DecidableEq

/-- A positive number in `int32` arithmetic -/
def signed (n : Nat) : Option Nat := if n < 2 ^ 31 then some n else none

namespace Header

variable (h : Header)

/-- Where the palette begins -/
def palette : Nat := 14 + h.biSize

def numColors : Nat :=
  if h.biBitCount ≤ 8 then if 0 < h.biClrUsed then h.biClrUsed else 1 <<< h.biBitCount else 0

def width : Nat := h.biWidth.toNat

def absHeight : Nat := h.biHeight.natAbs

end Header

namespace Depth

/-- The largest number on the way to the size of a row -/
def rowTerm (width : Nat) : Depth → Nat
  | one => width + 31
  | four => width + 7
  | eight => width + 3
  | twentyFour => width * 3 + 3
  | thirtyTwo => width * 4

/-- `rowSize`, from that number -/
def rowSize (term : Nat) : Depth → Nat
  | one => term / 32 * 4
  | four => term / 8 * 4
  | eight => term / 4 * 4
  | twentyFour => term / 4 * 4
  | thirtyTwo => term

end Depth

section Pixels

variable (file : List UInt8)

/-- The colour of an index, opaque black past the palette -/
def paletteColor (palette numColors : Nat) (index : UInt8) : Option Color :=
  if index.toNat < numColors then do
    some ⟨← file[palette + index.toNat * 4]?, ← file[palette + index.toNat * 4 + 1]?,
      ← file[palette + index.toNat * 4 + 2]?, 0xFF⟩
  else some ⟨0, 0, 0, 0xFF⟩

/-- One round of the loops over `x`, in the row at `srcRow` -/
def pixel (palette numColors srcRow x : Nat) : Depth → Option Color
  | .one => do
      let b ← file[srcRow + x / 8]?
      paletteColor file palette numColors (b >>> UInt8.ofNat (7 - x % 8) &&& 1)
  | .four => do
      let b ← file[srcRow + x / 2]?
      paletteColor file palette numColors (if x % 2 = 0 then b >>> 4 &&& 0x0F else b &&& 0x0F)
  | .eight => do
      let index ← file[srcRow + x]?
      paletteColor file palette numColors index
  | .twentyFour => do
      some ⟨← file[srcRow + x * 3]?, ← file[srcRow + x * 3 + 1]?, ← file[srcRow + x * 3 + 2]?, 0xFF⟩
  | .thirtyTwo => do
      some ⟨← file[srcRow + x * 4]?, ← file[srcRow + x * 4 + 1]?, ← file[srcRow + x * 4 + 2]?,
        ← file[srcRow + x * 4 + 3]?⟩

variable (h : Header) (d : Depth) (rowSize : Nat)

/-- Where row `y` of the picture is in the file -/
def srcRow (y : Nat) : Nat :=
  let srcY := if 0 < h.biHeight then h.absHeight - 1 - y else y
  h.bfOffBits + srcY * rowSize % 2 ^ 32

/-- The rows before `y` -/
def decodeRows : (y : Nat) → List (Option Color) → Option (List (Option Color))
  | 0, pixels => some pixels
  | y + 1, pixels => do
      let pixels ← decodeRows y pixels
      assign (y * h.width + ·) (fun x _ => pixel file h.palette h.numColors (srcRow h rowSize y) x d) h.width pixels

end Pixels

/-- `DecodeBMP`; the inner `none` is `nullptr`, and `malloc` says which sizes there is memory for. -/
def decodeBMP (malloc : Nat → Bool) (file : List UInt8) : Option (Option Image) :=
  let h := Header.read file
  if file.length < 54 then some none
  else if h.bfType ≠ 0x4D42 then some none
  else if h.biSize < 40 ∨ h.biCompression ≠ 0 then some none
  else match Depth.ofBits h.biBitCount with
    | none => some none
    | some d =>
      if h.biWidth ≤ 0 ∨ h.biHeight = 0 then some none
      else (signed h.absHeight).bind fun absHeight =>
        if h.biBitCount ≤ 8 ∧ file.length < h.palette + h.numColors * 4 then some none
        else (signed (d.rowTerm h.width)).bind fun term =>
          if file.length < (h.bfOffBits + d.rowSize term * absHeight) % 2 ^ 32 then some none
          else (signed (h.width * absHeight)).bind fun count =>
            if malloc (count * 4) = false then some none
            else (decodeRows file h d (d.rowSize term) absHeight (List.replicate count none)).bind fun pixels =>
              some (some ⟨h.width, absHeight, pixels⟩)

/-! ## What a run leaves -/

variable {file : List UInt8} {h : Header} {d : Depth} {row : Nat}

/-- Pixel `x` of row `y`, as it is read out of the file -/
def source (file : List UInt8) (h : Header) (d : Depth) (row y x : Nat) : Option Color :=
  pixel file h.palette h.numColors (srcRow h row y) x d

theorem place_inj {w y y' x x' : Nat} (hx : x < w) (hx' : x' < w) (h : y * w + x = y' * w + x') :
    y = y' ∧ x = x' := by
  have hw : 0 < w := by omega
  have hy : y = y' := by
    have := congrArg (· / w) h
    simpa [Nat.add_comm _ x, Nat.add_comm _ x', Nat.add_mul_div_right _ _ hw, Nat.div_eq_of_lt hx,
      Nat.div_eq_of_lt hx'] using this
  subst hy
  exact ⟨rfl, Nat.add_left_cancel h⟩

theorem place_lt {w n y x : Nat} (hy : y < n) (hx : x < w) : y * w + x < n * w :=
  calc y * w + x < (y + 1) * w := by rw [Nat.succ_mul]; omega
    _ ≤ n * w := Nat.mul_le_mul_right w hy

/-- Rows that all can be read are stored each at its place. -/
theorem decodeRows_eq {m : List (Option Color)} : ∀ {n : Nat}, n * h.width ≤ m.length →
    (∀ y < n, ∀ x < h.width, (source file h d row y x).isSome) →
    ∃ m', decodeRows file h d row n m = some m' ∧ m'.length = m.length ∧
      ∀ y < n, ∀ x < h.width, fetch m' (y * h.width + x) = source file h d row y x
  | 0, _, _ => ⟨m, rfl, rfl, fun _ hy => absurd hy (Nat.not_lt_zero _)⟩
  | n + 1, hle, hall => by
    have hmono : n * h.width ≤ (n + 1) * h.width := Nat.mul_le_mul_right _ (Nat.le_succ n)
    obtain ⟨m₁, h₁, hlen, hrows⟩ := decodeRows_eq (hmono.trans hle) fun y hy => hall y (Nat.lt_succ_of_lt hy)
    obtain ⟨m₂, h₂, hnew⟩ := @assign_eq _ m₁ (n * h.width + ·) (fun x _ => source file h d row n x)
      (source file h d row n) h.width
      (fun x hx => hlen ▸ (place_lt (Nat.lt_succ_self n) hx).trans_le hle)
      (fun x _ j hj => Nat.ne_of_lt (Nat.add_lt_add_left hj _)) (hall n (Nat.lt_succ_self n))
      (fun _ _ _ _ => rfl)
    refine ⟨m₂, by rw [decodeRows, h₁]; exact h₂, hnew.length.trans hlen, fun y hy x hx => ?_⟩
    rcases Nat.lt_succ_iff_lt_or_eq.mp hy with hy' | rfl
    · rw [hnew.kept _ fun k hk heq => Nat.ne_of_gt hy' (place_inj hk hx heq).1]
      exact hrows y hy' x hx
    · exact hnew.written x hx

theorem isSome_of_decodeRows {m : List (Option Color)} : ∀ {n : Nat} {m' : List (Option Color)},
    decodeRows file h d row n m = some m' → ∀ y < n, ∀ x < h.width, (source file h d row y x).isSome
  | 0, _, _, _, hy => absurd hy (Nat.not_lt_zero _)
  | n + 1, m', hrun, y, hy => by
    rw [decodeRows, Option.bind_eq_bind, Option.bind_eq_some_iff] at hrun
    obtain ⟨m₁, h₁, h₂⟩ := hrun
    rcases Nat.lt_succ_iff_lt_or_eq.mp hy with hy | rfl
    · exact isSome_of_decodeRows h₁ y hy
    · exact isSome_of_assign h₂

/-! ## Which files are safe -/

/-- There is a result, and a picture has the size of the header and all of its pixels. -/
def Safe (h : Header) (run : Option (Option Image)) : Prop :=
  ∃ result, run = some result ∧ ∀ p ∈ result, (p.width : Int) = h.biWidth ∧ p.height = h.absHeight ∧
    p.pixels.length = p.width * p.height ∧ ∀ i < p.pixels.length, (fetch p.pixels i).isSome

/-- The header passes the checks in front of the arithmetic. -/
def Accepted (file : List UInt8) (d : Depth) : Prop :=
  let h := Header.read file
  54 ≤ file.length ∧ h.bfType = 0x4D42 ∧ 40 ≤ h.biSize ∧ h.biCompression = 0 ∧
    Depth.ofBits h.biBitCount = some d ∧ 0 < h.biWidth ∧ h.biHeight ≠ 0

/-- Signed arithmetic stays in range as far as it is reached, and either the end of the rows fits 32 bits, or
the file is so long that the rows are in it all the same. -/
def InRange (malloc : Nat → Bool) (file : List UInt8) (d : Depth) : Prop :=
  let h := Header.read file
  let rowSize := d.rowSize (d.rowTerm h.width)
  h.absHeight < 2 ^ 31 ∧ (¬(h.biBitCount ≤ 8 ∧ file.length < h.palette + h.numColors * 4) →
    d.rowTerm h.width < 2 ^ 31 ∧ ((h.bfOffBits + rowSize * h.absHeight) % 2 ^ 32 ≤ file.length →
      h.width * h.absHeight < 2 ^ 31 ∧ (malloc (h.width * h.absHeight * 4) = true →
        h.bfOffBits + rowSize * h.absHeight < 2 ^ 32 ∨ ∀ y < h.absHeight,
          h.bfOffBits + y * rowSize % 2 ^ 32 + (h.width * d.bits + 7) / 8 ≤ file.length)))

theorem Depth.bits_of_ofBits {n : Nat} (hd : ofBits n = some d) : d.bits = n := by
  unfold ofBits at hd
  split at hd <;> cases hd <;> rfl

theorem Depth.used_le (width : Nat) (d : Depth) : (width * d.bits + 7) / 8 ≤ d.rowSize (d.rowTerm width) := by
  cases d <;> simp only [bits, rowSize, rowTerm] <;> omega

theorem isSome_paletteColor {palette numColors : Nat} (hpal : palette + numColors * 4 ≤ file.length) (index : UInt8) :
    (paletteColor file palette numColors index).isSome := by
  unfold paletteColor
  split
  · rename_i hlt
    rw [List.getElem?_eq_getElem (by omega), List.getElem?_eq_getElem (by omega),
      List.getElem?_eq_getElem (by omega)]
    rfl
  · rfl

/-- A pixel can be read if the last of its bytes is in the file. -/
theorem isSome_pixel {palette numColors : Nat} (hpal : d.bits ≤ 8 → palette + numColors * 4 ≤ file.length)
    (r x : Nat) : (pixel file palette numColors r x d).isSome ↔ r + ((x + 1) * d.bits + 7) / 8 ≤ file.length := by
  have hindex {i : Nat} (f : UInt8 → UInt8) (hd : d.bits ≤ 8) :
      ((file[i]?).bind fun b => paletteColor file palette numColors (f b)).isSome ↔ i < file.length := by
    by_cases hi : i < file.length <;> simp [hi, isSome_paletteColor (hpal hd)]
  cases d with
  | one =>
    refine (hindex _ (by decide)).trans ?_
    simp only [Depth.bits]; omega
  | four =>
    refine (hindex (fun b => if x % 2 = 0 then b >>> 4 &&& 0x0F else b &&& 0x0F) (by decide)).trans ?_
    simp only [Depth.bits]; omega
  | eight =>
    refine (hindex id (by decide)).trans ?_
    simp only [Depth.bits]; omega
  | twentyFour =>
    simp [pixel, Option.isSome_iff_exists, Option.bind_eq_some_iff, List.getElem?_eq_some_iff, Depth.bits]
    omega
  | thirtyTwo =>
    simp [pixel, Option.isSome_iff_exists, Option.bind_eq_some_iff, List.getElem?_eq_some_iff, Depth.bits]
    omega

theorem row_iff {palette numColors r width : Nat} (hpal : d.bits ≤ 8 → palette + numColors * 4 ≤ file.length)
    (hwidth : 0 < width) : (∀ x < width, (pixel file palette numColors r x d).isSome) ↔
      r + (width * d.bits + 7) / 8 ≤ file.length := by
  simp only [isSome_pixel hpal]
  constructor
  · intro hall
    have hlast := hall (width - 1) (by omega)
    rwa [Nat.sub_add_cancel hwidth] at hlast
  · intro hle x hx
    have := Nat.div_le_div_right (c := 8) (Nat.add_le_add_right (Nat.mul_le_mul_right d.bits (show x + 1 ≤ width from hx)) 7)
    omega

/-- The rows of the picture are those of the file, in either order. -/
theorem rows_iff {P : Nat → Prop} : (∀ y < h.absHeight, P (srcRow h row y)) ↔
    ∀ y < h.absHeight, P (h.bfOffBits + y * row % 2 ^ 32) := by
  unfold srcRow
  split
  · constructor <;> intro hall y hy <;> have hback := hall (h.absHeight - 1 - y) (by omega)
    · rwa [show h.absHeight - 1 - (h.absHeight - 1 - y) = y by omega] at hback
    · exact hback
  · exact Iff.rfl

theorem rows_inside {off n size used bytes : Nat} (hused : used ≤ size) (hend : off + size * n < 2 ^ 32)
    (hle : (off + size * n) % 2 ^ 32 ≤ bytes) (y : Nat) (hy : y < n) : off + y * size % 2 ^ 32 + used ≤ bytes := by
  have hrow : y * size + size ≤ size * n := by
    rw [← Nat.succ_mul, Nat.mul_comm size]
    exact Nat.mul_le_mul_right size hy
  rw [Nat.mod_eq_of_lt hend] at hle
  rw [Nat.mod_eq_of_lt (by omega)]
  omega

/-! The checks and the arithmetic, one by one -/

theorem safe_check {c : Prop} [Decidable c] {run : Option (Option Image)} :
    Safe h (if c then some none else run) ↔ (¬c → Safe h run) := by
  split
  · rename_i hc
    exact iff_of_true ⟨none, rfl, fun _ hp => nomatch hp⟩ fun hn => absurd hc hn
  · rename_i hc
    exact (imp_iff_right hc).symm

theorem safe_signed {n : Nat} {run : Nat → Option (Option Image)} :
    Safe h ((signed n).bind run) ↔ n < 2 ^ 31 ∧ Safe h (run n) := by
  unfold signed
  split
  · rename_i hn
    exact (and_iff_right hn).symm
  · rename_i hn
    exact iff_of_false (fun ⟨_, hrun, _⟩ => nomatch hrun) fun hall => hn hall.1

theorem safe_rows (hwidth : 0 < h.biWidth) :
    Safe h ((decodeRows file h d row h.absHeight (List.replicate (h.width * h.absHeight) none)).bind fun pixels =>
      some (some ⟨h.width, h.absHeight, pixels⟩)) ↔
    ∀ y < h.absHeight, ∀ x < h.width, (source file h d row y x).isSome := by
  constructor
  · rintro ⟨result, hrun, -⟩
    obtain ⟨pixels, hrows, -⟩ := Option.bind_eq_some_iff.mp hrun
    exact isSome_of_decodeRows hrows
  · intro hall
    have hlen : (List.replicate (h.width * h.absHeight) (none : Option Color)).length = h.width * h.absHeight :=
      List.length_replicate
    obtain ⟨pixels, hrows, hlen', hpixels⟩ := decodeRows_eq (by rw [hlen, Nat.mul_comm]) hall
    refine ⟨_, by rw [hrows]; rfl, ?_⟩
    rintro p ⟨⟩
    refine ⟨Int.toNat_of_nonneg (Int.le_of_lt hwidth), rfl, hlen'.trans hlen, fun i hi => ?_⟩
    have hx := Nat.mod_lt i (show 0 < h.width by rw [Header.width]; omega)
    have hy : i / h.width < h.absHeight := Nat.div_lt_of_lt_mul ((hlen'.trans hlen) ▸ hi)
    have hcell := hpixels _ hy _ hx
    rw [Nat.div_add_mod' i h.width] at hcell
    rw [hcell]
    exact hall _ hy _ hx

variable (file d) in
/-- After the checks, a row is missing only if the end of the rows wraps. -/
theorem readable_iff (hpal : d.bits ≤ 8 → h.palette + h.numColors * 4 ≤ file.length) (hwidth : 0 < h.biWidth)
    (hrow : row = d.rowSize (d.rowTerm h.width)) (hend : (h.bfOffBits + row * h.absHeight) % 2 ^ 32 ≤ file.length) :
    (∀ y < h.absHeight, ∀ x < h.width, (source file h d row y x).isSome) ↔
      h.bfOffBits + row * h.absHeight < 2 ^ 32 ∨ ∀ y < h.absHeight,
        h.bfOffBits + y * row % 2 ^ 32 + (h.width * d.bits + 7) / 8 ≤ file.length := by
  have hpos : 0 < h.width := by rw [Header.width]; omega
  have hused := hrow ▸ d.used_le h.width
  simp only [source, row_iff hpal hpos]
  refine (rows_iff (P := fun r => r + (h.width * d.bits + 7) / 8 ≤ file.length)).trans ⟨Or.inr, ?_⟩
  rintro (hfit | hall)
  · exact rows_inside hused hfit hend
  · exact hall

/-- `DecodeBMP` is safe on exactly the files whose sums stay in range. -/
theorem decodeBMP_safe (malloc : Nat → Bool) (file : List UInt8) :
    Safe (Header.read file) (decodeBMP malloc file) ↔ ∀ d, Accepted file d → InRange malloc file d := by
  unfold decodeBMP Accepted InRange
  generalize Header.read file = h
  simp only [safe_check]
  cases hd : Depth.ofBits h.biBitCount with
  | none => exact iff_of_true (fun _ _ _ => ⟨none, rfl, fun _ hp => nomatch hp⟩) fun _ hall => nomatch hall.2.2.2.2.1
  | some d =>
      have hbits := Depth.bits_of_ofBits hd
      simp only [safe_check, safe_signed, not_or, Nat.not_lt, Bool.not_eq_false, ne_eq, not_not, Int.not_le]
      have hchecks (hwidth : 0 < h.biWidth) := and_congr_right (a := h.absHeight < 2 ^ 31) fun _ =>
        imp_congr_right (a := ¬(h.biBitCount ≤ 8 ∧ file.length < h.palette + h.numColors * 4)) fun hpal =>
        and_congr_right (a := d.rowTerm h.width < 2 ^ 31) fun _ =>
        imp_congr_right fun hend =>
        and_congr_right (a := h.width * h.absHeight < 2 ^ 31) fun _ =>
        imp_congr_right (a := malloc (h.width * h.absHeight * 4) = true) fun _ =>
          (safe_rows hwidth).trans (readable_iff file d (by omega) hwidth rfl hend)
      constructor
      · rintro hsafe _ ⟨hlen, htype, hsize, hcomp, ⟨⟩, hwidth, hheight⟩
        exact (hchecks hwidth).mp (hsafe hlen htype ⟨hsize, hcomp⟩ ⟨hwidth, hheight⟩)
      · rintro hrange hlen htype ⟨hsize, hcomp⟩ ⟨hwidth, hheight⟩
        exact (hchecks hwidth).mpr (hrange d ⟨hlen, htype, hsize, hcomp, rfl, hwidth, hheight⟩)

/-- Headers alone, for a picture of one pixel that begins four bytes before 2³² -/
def wrapping : List UInt8 :=
  [0x42, 0x4D] ++ List.replicate 8 0 ++ [0xFC, 0xFF, 0xFF, 0xFF, 40, 0, 0, 0, 1, 0, 0, 0, 1, 0, 0, 0, 1, 0, 32, 0] ++
    List.replicate 24 0

/-- Its rows end at 2³², which is 0 and not past the file. -/
theorem decodeBMP_wrapping :
    ¬∀ (malloc : Nat → Bool) (file : List UInt8), Safe (Header.read file) (decodeBMP malloc file) := by
  intro hall
  obtain ⟨_, hrun, -⟩ := hall (fun _ => true) wrapping
  rw [show decodeBMP (fun _ => true) wrapping = none by decide] at hrun
  cases hrun

end Unisym.Picture.BMP
