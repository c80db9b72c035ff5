/-
# `BMPSurface` — windows of a BMP file that stays in its storage

`BMPCodec::OpenSurface` keeps the palette, and `BMPSurface::ReadPixels` reads the rows of a window when it is
asked for them.  A pixel whose index is past the palette is opaque black for `DecodeBMP` and transparent here,
so the window is that of the whole picture exactly where this does not happen (`readPixels_iff`).
-/
import Unisym.Picture.BMP

namespace Unisym.Picture.BMP

open BitCodes Cells List

deriving instance DecidableEq for Depth

inductive ImageResult where
  | unsupported
  | invalidFormat
  | invalidArgument
  | outOfMemory
  | failed
  deriving DecidableEq

/-- `StorageTrait::Read`: those of the bytes that there are -/
def read (disk : List UInt8) (offset length : Nat) : List UInt8 := (disk.drop offset).take length

/-- A `stduint` as an `int` -/
def toInt (n : Nat) : Int := Int.bmod n (2 ^ 32)

/-- `Rectangle`, as far as a window needs it -/
structure Rectangle where
  x : Nat
  y : Nat
  width : Nat
  height : Nat

structure Surface where
  disk : List UInt8
  width : Nat
  height : Nat
  bfOffBits : Nat
  depth : Depth
  rowSize : Nat
  rawHeight : Int
  palette : List UInt8
  numColors : Nat
  deriving DecidableEq

/-- `OpenSurface`, with the checks of `Probe` and `ReadInfo`; `memory` says which of the allocations succeed. -/
def openSurface (memory : Nat → Bool) (disk : List UInt8) (readWrite : Bool) : Option (Except ImageResult Surface) :=
  if readWrite then some (.error .unsupported)
  else if memory 0 = false then some (.error .outOfMemory)
  else if ¬((read disk 0 2).length = 2 ∧ bytesValue (read disk 0 2) = 0x4D42) then some (.error .invalidFormat)
  else if memory 1 = false then some (.error .outOfMemory)
  else if (read disk 0 14).length ≠ 14 ∨ (read disk 14 40).length ≠ 40 then some (.error .invalidFormat)
  else
    let h := Header.read (read disk 0 14 ++ read disk 14 40)
    if h.biSize < 40 ∨ h.biCompression ≠ 0 then some (.error .unsupported)
    else match Depth.ofBits h.biBitCount with
      | none => some (.error .unsupported)
      | some d =>
        if h.biWidth ≤ 0 ∨ h.biHeight = 0 then some (.error .invalidFormat)
        else (signed h.absHeight).bind fun height =>
          if memory 2 = false ∨ memory 3 = false then some (.error .outOfMemory)
          else
            let numColors := min h.numColors 256
            some (.ok
              { disk, width := h.width, height, bfOffBits := h.bfOffBits, depth := d,
                rowSize := d.rowSize (d.rowTerm h.width % 2 ^ 32) % 2 ^ 32, rawHeight := h.biHeight,
                palette := read disk h.palette (numColors * 4), numColors })

section Pixels

variable (byte : Nat → Option UInt8) (x : Nat)

/-- The index of a pixel in its row, if the colours are those of a palette -/
def index : Depth → Option UInt8
  | .one => (byte (x / 8)).map (· >>> UInt8.ofNat (7 - x % 8) &&& 1)
  | .four => (byte (x / 2)).map fun b : UInt8 => if x % 2 = 0 then b >>> 4 &&& 0x0F else b &&& 0x0F
  | .eight => byte x
  | _ => none

/-- A pixel in its row, where the colour of an index is given -/
def rowPixel (color : UInt8 → Option Color) : Depth → Option Color
  | .twentyFour => do some ⟨← byte (x * 3), ← byte (x * 3 + 1), ← byte (x * 3 + 2), 0xFF⟩
  | .thirtyTwo => do some ⟨← byte (x * 4), ← byte (x * 4 + 1), ← byte (x * 4 + 2), ← byte (x * 4 + 3)⟩
  | d => (index byte x d).bind color

end Pixels

namespace Surface

variable (s : Surface) (rect : Rectangle)

/-- The colour of an index, transparent past the palette -/
def paletteColor (index : UInt8) : Option Color :=
  if index.toNat < s.numColors then do
    some ⟨← s.palette[index.toNat * 4]?, ← s.palette[index.toNat * 4 + 1]?, ← s.palette[index.toNat * 4 + 2]?, 0xFF⟩
  else some ⟨0, 0, 0, 0⟩

/-- One round of the loop over `col` -/
def pixel (rowBuf : List UInt8) (x : Nat) : Option Color :=
  rowPixel (rowBuf[·]?) x s.paletteColor s.depth

/-- `fileOffset` of the row `y` of the picture -/
def fileOffset (y : Nat) : Nat :=
  let diskRow := if 0 < s.rawHeight then s.height - 1 - y else y
  s.bfOffBits + diskRow * s.rowSize

/-- The rows before `line`, one after another; no result if one of them is not read in full -/
def readRows : (line : Nat) → Option (List (Option Color))
  | 0 => some []
  | line + 1 => do
      let pixels ← readRows line
      let rowBuf := read s.disk (s.fileOffset (rect.y + line)) s.rowSize
      if rowBuf.length ≠ s.rowSize then none
      else some (pixels ++ (List.range rect.width).map fun col => s.pixel rowBuf (rect.x + col))

/-- `ReadPixels`, into memory of the caller if some is given -/
def readPixels (memory : Nat → Bool) (given : Bool) : Except ImageResult (List (Option Color)) :=
  if toInt rect.x < 0 ∨ toInt rect.y < 0 ∨ s.width < toInt rect.x + toInt rect.width ∨
      s.height < toInt rect.y + toInt rect.height ∨ toInt rect.width ≤ 0 ∨ toInt rect.height ≤ 0 then
    .error .invalidArgument
  else if given = false ∧ memory 0 = false ∨ memory 1 = false ∨ memory 2 = false then .error .outOfMemory
  else
    let window :=
      ⟨(toInt rect.x).toNat, (toInt rect.y).toNat, (toInt rect.width).toNat, (toInt rect.height).toNat⟩
    match s.readRows window window.height with
    | none => .error .failed
    | some pixels => .ok pixels

end Surface

/-! ## What a window holds -/

variable {disk file : List UInt8} {h : Header} {d : Depth} {s : Surface} {rect : Rectangle} {row r x y : Nat}

theorem Surface.readRows_spec : ∀ {n : Nat} {pixels : List (Option Color)}, s.readRows rect n = some pixels →
    pixels.length = n * rect.width ∧ ∀ line < n, (read s.disk (s.fileOffset (rect.y + line)) s.rowSize).length = s.rowSize ∧
      ∀ col < rect.width, fetch pixels (line * rect.width + col) =
        s.pixel (read s.disk (s.fileOffset (rect.y + line)) s.rowSize) (rect.x + col)
  | 0, _, hrun => by
    cases hrun
    exact ⟨(Nat.zero_mul _).symm, fun _ hline => absurd hline (Nat.not_lt_zero _)⟩
  | n + 1, pixels, hrun => by
    rw [readRows, Option.bind_eq_bind, Option.bind_eq_some_iff] at hrun
    obtain ⟨before, hbefore, hrow⟩ := hrun
    obtain ⟨hlen, hall⟩ := readRows_spec hbefore
    dsimp only at hrow
    split at hrow
    · cases hrow
    · rename_i hfull
      cases hrow
      refine ⟨by rw [length_append, hlen, length_map, length_range, Nat.succ_mul], ?_⟩
      intro line hline
      rcases Nat.lt_succ_iff_lt_or_eq.mp hline with hline | rfl
      · refine ⟨(hall line hline).1, fun col hcol => ?_⟩
        rw [← (hall line hline).2 col hcol, fetch, fetch, getElem?_append_left]
        exact hlen ▸ place_lt hline hcol
      · refine ⟨not_not.mp hfull, fun col hcol => ?_⟩
        rw [fetch, getElem?_append_right (hlen ▸ Nat.le_add_right _ _), hlen, Nat.add_sub_cancel_left,
          getElem?_map, getElem?_range hcol]
        rfl

/-! ## One pixel -/

/-- The pixel has a colour of the palette, and if the offset of its row wraps for `DecodeBMP`, the same colour
stands at the wrapped place. -/
def Agrees (disk : List UInt8) (h : Header) (d : Depth) (row y x : Nat) : Prop :=
  let off := (if 0 < h.biHeight then h.absHeight - 1 - y else y) * row
  (∀ i ∈ index (disk[h.bfOffBits + off + ·]?) x d, i.toNat < h.numColors) ∧
    (2 ^ 32 ≤ off → pixel disk h.palette h.numColors (h.bfOffBits + off) x d =
      pixel disk h.palette h.numColors (h.bfOffBits + off % 2 ^ 32) x d)

instance : Decidable (Agrees disk h d row y x) := inferInstanceAs (Decidable (_ ∧ _))

theorem pixel_eq (palette numColors r x : Nat) (d : Depth) :
    pixel file palette numColors r x d = rowPixel (file[r + ·]?) x (paletteColor file palette numColors) d := by
  cases d with
  | one | four => simp only [pixel, rowPixel, index, Option.bind_map]; rfl
  | eight | twentyFour | thirtyTwo => rfl

/-- A pixel is made of the bytes up to its last one, and of the colour of its index. -/
theorem rowPixel_congr {byte byte' : Nat → Option UInt8} {color color' : UInt8 → Option Color}
    (hbyte : ∀ k < ((x + 1) * d.bits + 7) / 8, byte k = byte' k)
    (hcolor : ∀ i ∈ index byte x d, color i = color' i) : rowPixel byte x color d = rowPixel byte' x color' d := by
  have hlow (hindex : index byte x d = index byte' x d) :
      (index byte x d).bind color = (index byte' x d).bind color' := by
    rw [← hindex]
    exact Option.bind_congr hcolor
  cases d with
  | one | four | eight =>
    refine hlow ?_
    simp only [Depth.bits] at hbyte
    rw [index, hbyte _ (by omega)]
    rfl
  | twentyFour | thirtyTwo =>
    simp only [Depth.bits] at hbyte
    simp (disch := omega) only [rowPixel, hbyte]

/-- Where one row has an index, all rows have their colours from the palette. -/
theorem of_index {byte : Nat → Option UInt8} {i : UInt8} (hi : i ∈ index byte x d) :
    d.bits ≤ 8 ∧ ∀ byte' color, rowPixel byte' x color d = (index byte' x d).bind color := by
  cases d with
  | one | four | eight => exact ⟨by decide, fun _ _ => rfl⟩
  | twentyFour | thirtyTwo => cases hi

theorem paletteColor_opaque (palette numColors : Nat) (i : UInt8) :
    paletteColor file palette numColors i ≠ some ⟨0, 0, 0, 0⟩ := by
  unfold paletteColor
  split
  · simp [Option.bind_eq_some_iff]
  · decide

theorem pixel_of_prefix (hfile : file <+: disk) {palette numColors : Nat}
    (hpal : d.bits ≤ 8 → palette + numColors * 4 ≤ file.length)
    (hsome : (pixel file palette numColors r x d).isSome) :
    pixel file palette numColors r x d = pixel disk palette numColors r x d := by
  have hend := (isSome_pixel hpal r x).mp hsome
  obtain ⟨rest, rfl⟩ := hfile
  have hget {k : Nat} (hk : k < file.length) : file[k]? = (file ++ rest)[k]? :=
    (getElem?_append_left hk).symm
  rw [pixel_eq, pixel_eq]
  refine rowPixel_congr (fun k hk => hget (by omega)) fun i hi => ?_
  have hle := hpal (of_index hi).1
  unfold paletteColor
  split
  · rw [hget (by omega), hget (by omega), hget (by omega)]
  · rfl

/-- The surface was opened on the disk. -/
structure Opened (disk : List UInt8) (h : Header) (d : Depth) (s : Surface) : Prop where
  storage : s.disk = disk
  height : s.height = h.absHeight
  bfOffBits : s.bfOffBits = h.bfOffBits
  depth : s.depth = d
  rawHeight : s.rawHeight = h.biHeight
  palette : s.palette = read disk h.palette (s.numColors * 4)
  numColors : s.numColors = min h.numColors 256

theorem getElem?_read {i n : Nat} (hi : i < n) : (read disk r n)[i]? = disk[r + i]? := by
  rw [read, getElem?_take_of_lt hi, getElem?_drop]

theorem Opened.paletteColor (hs : Opened disk h d s) {i : UInt8} (hi : i.toNat < h.numColors) :
    s.paletteColor i = BMP.paletteColor disk h.palette h.numColors i := by
  have hlt : i.toNat < s.numColors := by
    have := i.toNat_lt
    rw [hs.numColors]
    omega
  have hget {k : Nat} (hk : k < 4) : s.palette[i.toNat * 4 + k]? = disk[h.palette + i.toNat * 4 + k]? := by
    rw [hs.palette, getElem?_read (by omega), Nat.add_assoc]
  unfold Surface.paletteColor BMP.paletteColor
  rw [if_pos hlt, if_pos hi, hget (by decide), hget (by decide)]
  exact congrArg (· >>= _) (hget (k := 0) (by decide))

theorem Opened.pixel_iff (hs : Opened disk h d s) (hfile : file <+: disk) {width : Nat}
    (hpal : d.bits ≤ 8 → h.palette + h.numColors * 4 ≤ file.length)
    (hrow : s.rowSize = d.rowSize (d.rowTerm width)) (hx : x < width)
    (hsource : (source file h d s.rowSize y x).isSome) :
    s.pixel (read disk (s.fileOffset y) s.rowSize) x = source file h d s.rowSize y x ↔ Agrees disk h d s.rowSize y x := by
  have hoffset : s.fileOffset y = h.bfOffBits + (if 0 < h.biHeight then h.absHeight - 1 - y else y) * s.rowSize := by
    rw [Surface.fileOffset, hs.rawHeight, hs.height, hs.bfOffBits]
  have hdisk := pixel_of_prefix hfile hpal hsource
  have hbytes (color : UInt8 → Option Color) :
      rowPixel ((read disk (s.fileOffset y) s.rowSize)[·]?) x color d = rowPixel (disk[s.fileOffset y + ·]?) x color d := by
    refine rowPixel_congr (fun k hk => getElem?_read ?_) fun _ _ => rfl
    have hused := hrow ▸ d.used_le width
    have := Nat.div_le_div_right (c := 8) (Nat.add_le_add_right (Nat.mul_le_mul_right d.bits (show x + 1 ≤ width from hx)) 7)
    omega
  rw [source, hdisk] at hsource ⊢
  rw [Surface.pixel, hs.depth, hbytes, Agrees, hoffset]
  unfold srcRow at hsource ⊢
  dsimp only at hsource ⊢
  generalize (if 0 < h.biHeight then h.absHeight - 1 - y else y) * s.rowSize = off at *
  by_cases hindex : ∀ i ∈ index (disk[h.bfOffBits + off + ·]?) x d, i.toNat < h.numColors
  · rw [and_iff_right hindex, rowPixel_congr (fun _ _ => rfl) fun i hi => hs.paletteColor (hindex i hi), ← pixel_eq]
    refine ⟨fun heq _ => heq, fun heq => ?_⟩
    by_cases hwrap : 2 ^ 32 ≤ off
    · exact heq hwrap
    · rw [Nat.mod_eq_of_lt (Nat.lt_of_not_le hwrap)]
  · -- transparent here, and opaque there
    refine iff_of_false (fun heq => ?_) fun hall => hindex hall.1
    obtain ⟨i, hi⟩ := not_forall.mp hindex
    obtain ⟨hi, hlarge⟩ := Classical.not_imp.mp hi
    have hlow := (of_index hi).2
    rw [pixel_eq, hlow, hlow, hi, Option.bind_some, Surface.paletteColor, if_neg (by rw [hs.numColors]; omega)] at heq
    obtain ⟨_, -, hcolor⟩ := Option.bind_eq_some_iff.mp heq.symm
    exact paletteColor_opaque _ _ _ hcolor

/-! ## The whole window -/

theorem signed_bind {α : Type} {n : Nat} {run : Nat → Option α} {r : α} :
    (signed n).bind run = some r ↔ n < 2 ^ 31 ∧ run n = some r := by
  unfold signed
  split
  · rename_i hn
    exact (and_iff_right hn).symm
  · rename_i hn
    exact iff_of_false nofun fun hall => hn hall.1

theorem image_of_decodeBMP {malloc : Nat → Bool} {image : Image} (hrun : decodeBMP malloc file = some (some image))
    (hh : h = Header.read file) (hd : Depth.ofBits h.biBitCount = some d) :
    h.absHeight < 2 ^ 31 ∧ (d.bits ≤ 8 → h.palette + h.numColors * 4 ≤ file.length) ∧ d.rowTerm h.width < 2 ^ 31 ∧
      image.width = h.width ∧
      ∀ y < h.absHeight, ∀ x < h.width, (source file h d (d.rowSize (d.rowTerm h.width)) y x).isSome ∧
        fetch image.pixels (y * h.width + x) = source file h d (d.rowSize (d.rowTerm h.width)) y x := by
  unfold decodeBMP at hrun
  rw [← hh] at hrun
  simp only [ite_eq_iff, Option.some.injEq, reduceCtorEq, and_false, false_or, hd, signed_bind] at hrun
  obtain ⟨-, -, -, -, hheight, hpal, hterm, -, -, -, hrun⟩ := hrun
  obtain ⟨pixels, hrows, hsome⟩ := Option.bind_eq_some_iff.mp hrun
  cases hsome
  have hall := isSome_of_decodeRows hrows
  obtain ⟨m, hm, -, hpixels⟩ := decodeRows_eq (m := List.replicate (h.width * h.absHeight) none)
    (by rw [length_replicate, Nat.mul_comm]) hall
  cases hrows.symm.trans hm
  have hbits := Depth.bits_of_ofBits hd
  exact ⟨hheight, by omega, hterm, rfl, fun y hy x hx => ⟨hall y hy x hx, hpixels y hy x hx⟩⟩

theorem Header.read_take (file : List UInt8) : Header.read (file.take 54) = Header.read file := by
  simp only [Header.read, drop_take, take_take]
  rfl

theorem opened {memory : Nat → Bool} {readWrite : Bool} (hrun : openSurface memory disk readWrite = some (.ok s)) :
    ∃ d, Depth.ofBits (Header.read disk).biBitCount = some d ∧ Opened disk (Header.read disk) d s ∧
      s.width = (Header.read disk).width ∧
      s.rowSize = d.rowSize (d.rowTerm (Header.read disk).width % 2 ^ 32) % 2 ^ 32 := by
  have hheader : Header.read (read disk 0 14 ++ read disk 14 40) = Header.read disk := by
    rw [← Header.read_take disk, show 54 = 14 + 40 from rfl, take_add]
    rfl
  unfold openSurface at hrun
  rw [hheader] at hrun
  simp only [ite_eq_iff, Option.some.injEq, reduceCtorEq, and_false, false_or] at hrun
  obtain ⟨-, -, -, -, -, -, hrun⟩ := hrun
  cases hd : Depth.ofBits (Header.read disk).biBitCount with
  | none =>
    rw [hd] at hrun
    cases hrun
  | some d =>
    simp only [hd, ite_eq_iff, Option.some.injEq, reduceCtorEq, and_false, false_or, signed_bind] at hrun
    obtain ⟨-, -, -, hs⟩ := hrun
    obtain rfl := Except.ok.inj hs
    refine ⟨d, rfl, ?_, by dsimp only, by dsimp only⟩
    constructor <;> dsimp only

theorem toNat_toInt {n : Nat} (hn : n < 2 ^ 31) : (toInt n).toNat = n := by
  have hle : (n : Int) * 2 < (2 ^ 32 : Nat) := by omega
  unfold toInt
  rw [Int.bmod_eq_of_le_mul_two (by omega) hle, Int.toNat_natCast]

/-- A picture of one pixel with this index, and one colour -/
def onePixel (index : UInt8) : List UInt8 :=
  [0x42, 0x4D] ++ List.replicate 8 0 ++ [58, 0, 0, 0, 40, 0, 0, 0, 1, 0, 0, 0, 1, 0, 0, 0, 1, 0, 8, 0] ++
    List.replicate 16 0 ++ [1, 0, 0, 0] ++ List.replicate 4 0 ++ [3, 2, 1, 0] ++ [index, 0, 0, 0]

/-- The surface of it -/
def oneSurface (index : UInt8) : Surface :=
  ⟨onePixel index, 1, 1, 58, .eight, 4, 1, [3, 2, 1, 0], 1⟩

end Unisym.Picture.BMP
