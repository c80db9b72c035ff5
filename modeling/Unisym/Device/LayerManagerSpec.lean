/-
# `LayerManagerSpec` — the screen shows the layers

What a point should show is the stack of the pixels over it, mixed from the top down
(`blend`); it does not change where the stack does not (`stack`).  An update draws every
point of its rectangle that is in the window (`Updated`), writes nowhere else, and makes the
dirty area contain what it has drawn.  So the screen shows the layers again after a change when
the rectangles that are drawn contain every point whose stack has changed.

**The defect.**  `Domove` draws the old area one point further to the left and makes it two
points wider only where this leaves room in the window.  Where it does not, the last column of
the old area is drawn only if it lies outside of the window anyway: a sheet whose right edge is
the border of the window, or one point before it, leaves its last column on the screen.  The
same holds of rows.  The window's own place is added to the old area as well, so a window that
is not at the origin has the wrong rectangle drawn.

**What holds** (`screen_shows_layers`): with the window at the origin, in every run whose moves
are of sheets that stay clear of those edges (`AxisOk`), the screen shows the layers after
every call, nothing is written outside the buffer, and every point that has changed since the
dirty area was emptied lies in it.
-/
import Unisym.Library.Links
import Unisym.Library.Repaint
import Unisym.Device.LayerManager

namespace Unisym.Video

open Unisym.Links Unisym.Repaint

/-! ## What a point shows -/

/-- The colours of a stack from the top down, over the window. -/
def blend (win : Color) : List Color → Color → Color
  | [], col => col.overWindow win
  | pp :: rest, col =>
      if pp.a = 0xFF then
        if col.a = 0 then pp else (col.overOpaque pp).overWindow win
      else
        let col := if pp.a > 0 then col.overTranslucent pp else col
        if col.a ≤ 0xFE then blend win rest col else col.overWindow win

/-- What a sheet has at a point of the screen. -/
def Sheet.at? (s : Sheet) (p : Point) : Option Color :=
  if s.area.ifContain p then some (s.pixel p) else none

theorem Sheet.at?_eq_none {s : Sheet} {p : Point} (h : s.area.ifContain p = false) :
    s.at? p = none := by
  unfold Sheet.at?
  rw [h, if_neg Bool.false_ne_true]

/-- The points of a rectangle, without wrap-around. -/
def Rectangle.points (r : Rectangle) : Set Point :=
  {p | r.x ≤ p.x ∧ p.x < r.x + r.width ∧ r.y ≤ p.y ∧ p.y < r.y + r.height}

/-- How to follow the chain. -/
def chainLayout : Layout Nat Sheet Unit := ⟨Sheet.next, Sheet.left, fun _ => ()⟩

namespace LayerManager

/-- The sheets at their places. -/
def cells (lm : LayerManager) (k : Nat) : Option Sheet := lm.sheets[k]?

/-- The sheets of the chain, from the top down. -/
def chain (lm : LayerManager) : Option (List Nat) :=
  walk Sheet.next lm.cells lm.sheets.length lm.subf

/-- The pixels over a point. -/
def stack (lm : LayerManager) (p : Point) (es : List (Nat × Unit)) : List Color :=
  es.filterMap fun e => (lm.sheets[e.1]?).bind (·.at? p)

theorem evaluateFrom_eq {lm : LayerManager} {p : Point} {fuel : Nat} {xs ys : List (Nat × Unit)}
    {col : Color} (h : Linked chainLayout lm.cells (xs ++ ys)) (hfuel : ys.length ≤ fuel)
    (hcol : col.a ≤ 0xFE) :
    lm.evaluateFrom p fuel (headKey ys) col = some (blend lm.color (lm.stack p ys) col) := by
  induction ys generalizing fuel xs col with
  | nil =>
    rw [headKey_nil, evaluateFrom]
    rfl
  | cons e ys ih =>
    cases fuel with
    | zero => exact absurd hfuel (Nat.not_succ_le_zero _)
    | succ fuel =>
      obtain ⟨s, hs, hnext, -, -⟩ := h xs e ys rfl
      have hs' : lm.sheets[e.1]? = some s := hs
      have hnext' : s.next = headKey ys := hnext
      have hrest : xs ++ e :: ys = (xs ++ [e]) ++ ys := by rw [List.append_assoc]; rfl
      have hgo : ∀ {c : Color}, c.a ≤ 0xFE → lm.evaluateFrom p fuel (headKey ys) c =
          some (blend lm.color (lm.stack p ys) c) := fun hc =>
        ih (hrest ▸ h) (Nat.le_of_succ_le_succ hfuel) hc
      rw [headKey_cons, evaluateFrom, hs']
      dsimp only
      rw [hnext']
      cases hin : s.area.ifContain p with
      | false =>
        have hstack : lm.stack p (e :: ys) = lm.stack p ys := by
          unfold stack
          rw [List.filterMap_cons_none]
          rw [hs', Option.bind_some, Sheet.at?_eq_none hin]
        rw [Bool.not_false, if_pos rfl, if_pos hcol, hstack, hgo hcol]
      | true =>
        have hstack : lm.stack p (e :: ys) = s.pixel p :: lm.stack p ys := by
          unfold stack
          rw [List.filterMap_cons_some]
          rw [hs', Option.bind_some, Sheet.at?, hin, if_pos rfl]
        rw [Bool.not_true, if_neg Bool.false_ne_true, hstack, blend]
        split
        · split <;> rfl
        · dsimp only
          generalize (if (s.pixel p).a > 0 then col.overTranslucent (s.pixel p) else col) =
            mixed
          by_cases hmixed : mixed.a ≤ 0xFE
          · rw [if_pos hmixed, if_pos hmixed]
            exact hgo hmixed
          · rw [if_neg hmixed, if_neg hmixed]

/-- The chain holds the sheets `es`, the top one first. -/
structure Chained (lm : LayerManager) (es : List (Nat × Unit)) : Prop where
  linked : Linked chainLayout lm.cells es
  nodup : (keys es).Nodup
  first : lm.subf = headKey es
  last : lm.subl = lastKey es

variable {lm lm' : LayerManager} {es : List (Nat × Unit)} {p : Point}

variable {k who : Nat} {lm'' : LayerManager} {f : Sheet → Sheet} {area : Set Point} {s : Sheet}

theorem Chained.lt (h : lm.Chained es) (hk : k ∈ keys es) : k < lm.sheets.length := by
  obtain ⟨e, he, rfl⟩ := List.mem_map.mp hk
  obtain ⟨n, hn, -⟩ := h.linked.mem he
  exact (List.getElem?_eq_some_iff.mp hn).1

theorem Chained.length_le (h : lm.Chained es) : es.length ≤ lm.sheets.length := by
  have hsub : keys es ⊆ List.range lm.sheets.length := fun k hk => List.mem_range.mpr (h.lt hk)
  have hle := (h.nodup.subperm hsub).length_le
  rwa [keys, List.length_map, List.length_range] at hle

theorem Chained.chain_eq (h : lm.Chained es) : lm.chain = some (keys es) := by
  unfold chain
  rw [h.first]
  exact walk_next h.linked h.length_le

theorem Chained.evaluateColor_eq (h : lm.Chained es) (p : Point) :
    lm.evaluateColor p = some (blend lm.color (lm.stack p es) ⟨0, 0, 0, 0⟩) := by
  unfold evaluateColor
  rw [h.first]
  exact @evaluateFrom_eq lm p _ [] es _ h.linked h.length_le (by decide)

/-! ## The screen -/

/-- The points of the window. -/
def frame (lm : LayerManager) : Set Point :=
  {p | p.x < lm.window.width ∧ p.y < lm.window.height}

/-- The pixel of the buffer for a point. -/
def pixel (lm : LayerManager) (p : Point) : Option Color :=
  lm.sheetBuffer[p.y * lm.window.width + p.x]?

/-- Every pixel of the window is what `EvaluateColor` gives there. -/
def Shows (lm : LayerManager) : Prop :=
  ∀ p ∈ lm.frame, ∃ col, lm.evaluateColor p = some col ∧ lm.pixel p = some col

/-- The dirty area contains the point. -/
def InDirty (lm : LayerManager) (p : Point) : Prop :=
  lm.isDirty = true ∧ lm.dirtyArea.ifContain p = true

/-- The dirty area is empty or in the window. -/
def DirtyFits (lm : LayerManager) : Prop :=
  lm.isDirty = true → lm.dirtyArea.width = 0 ∨ lm.dirtyArea.height = 0 ∨
    lm.window.width = 0 ∨ lm.window.height = 0 ∨
    lm.dirtyArea.x + lm.dirtyArea.width ≤ lm.window.width ∧
      lm.dirtyArea.y + lm.dirtyArea.height ≤ lm.window.height

/-- A window at the origin, its buffer of pixels and sheets at places that are not negative. -/
structure Fits (lm : LayerManager) : Prop where
  origin : lm.window.x = 0 ∧ lm.window.y = 0
  width_lt : lm.window.width < wordSize
  height_lt : lm.window.height < wordSize
  size : lm.sheetBuffer.length = lm.window.width * lm.window.height
  memory : lm.window.width * lm.window.height ≤ wordSize
  placed : ∀ s ∈ lm.sheets, s.area.x < 2 ^ 63 ∧ s.area.y < 2 ^ 63
  dirty : lm.DirtyFits

theorem index_lt {width height : Nat} (hx : p.x < width) (hy : p.y < height) :
    p.y * width + p.x < width * height := by
  have hrow : (p.y + 1) * width ≤ height * width := Nat.mul_le_mul_right _ hy
  rw [Nat.succ_mul] at hrow
  rw [Nat.mul_comm width height]
  omega

theorem index_inj {width : Nat} {p q : Point} (hp : p.x < width) (hq : q.x < width)
    (h : p.y * width + p.x = q.y * width + q.x) : p = q := by
  have hpos : 0 < width := Nat.zero_lt_of_lt hp
  have hy : p.y = q.y := by
    have := congrArg (· / width) h
    rwa [Nat.mul_comm, Nat.mul_add_div hpos, Nat.div_eq_of_lt hp, Nat.mul_comm q.y,
      Nat.mul_add_div hpos, Nat.div_eq_of_lt hq] at this
  have hx : p.x = q.x := by
    rw [hy] at h
    omega
  cases p
  cases q
  cases hx
  cases hy
  rfl

/-! ## Drawing -/

/-- `lm'` is `lm` with the points of `part` drawn; nothing else of it has changed. -/
structure Drawn (part : Set Point) (lm lm' : LayerManager) : Prop where
  same : lm' = { lm with sheetBuffer := lm'.sheetBuffer }
  length : lm'.sheetBuffer.length = lm.sheetBuffer.length
  paints : Paints lm.frame part lm.evaluateColor lm.pixel lm'.pixel

variable {part part' : Set Point}

/-- The colour of a point is that of the sheets and the window. -/
theorem evaluateFrom_congr (hsheets : lm'.sheets = lm.sheets) (hcolor : lm'.color = lm.color)
    (p : Point) : ∀ (fuel : Nat) (crt : Option Nat) (col : Color),
      lm'.evaluateFrom p fuel crt col = lm.evaluateFrom p fuel crt col
  | 0, none, _ => by simp only [evaluateFrom, hcolor]
  | 0, some _, _ => rfl
  | _ + 1, none, _ => by simp only [evaluateFrom, hcolor]
  | fuel + 1, some crt, col => by
    simp only [evaluateFrom, hsheets, hcolor, evaluateFrom_congr hsheets hcolor p fuel]

theorem evaluateColor_congr (hsheets : lm'.sheets = lm.sheets) (hsubf : lm'.subf = lm.subf)
    (hcolor : lm'.color = lm.color) (p : Point) : lm'.evaluateColor p = lm.evaluateColor p := by
  unfold evaluateColor
  rw [hsubf, hsheets]
  exact evaluateFrom_congr hsheets hcolor p _ _ _

theorem Drawn.evaluateColor (h : Drawn part lm lm') (p : Point) :
    lm'.evaluateColor p = lm.evaluateColor p := by
  have hsame := h.same
  exact evaluateColor_congr (by rw [hsame]) (by rw [hsame]) (by rw [hsame]) p

theorem Drawn.frame (h : Drawn part lm lm') : lm'.frame = lm.frame := by
  rw [h.same]
  rfl

theorem Drawn.refl (lm : LayerManager) : Drawn ∅ lm lm :=
  ⟨rfl, rfl, fun _ _ => ⟨fun h => h.elim, fun _ => rfl⟩⟩

theorem Drawn.trans (h : Drawn part lm lm')
    (h' : Drawn part' lm' lm'') : Drawn (part ∪ part') lm lm'' := by
  refine ⟨?_, h'.length.trans h.length, h.paints.trans ?_⟩
  · rw [h'.same, h.same]
  · have hpaints := h'.paints
    rw [h.frame, funext h.evaluateColor] at hpaints
    exact hpaints

theorem Drawn.window (h : Drawn part lm lm') : lm'.window = lm.window := by
  rw [h.same]

theorem Drawn.congr (h : Drawn part lm lm') (heq : ∀ p ∈ lm.frame, p ∈ part ↔ p ∈ part') :
    Drawn part' lm lm' :=
  ⟨h.same, h.length, fun p hp => ⟨fun hmem => (h.paints p hp).1 ((heq p hp).mpr hmem),
    fun hnot => (h.paints p hp).2 fun hmem => hnot ((heq p hp).mp hmem)⟩⟩

/-- The buffer has a pixel for each point of the window, and every point has a colour. -/
structure Ready (lm : LayerManager) : Prop where
  width_lt : lm.window.width < wordSize
  height_lt : lm.window.height < wordSize
  size : lm.sheetBuffer.length = lm.window.width * lm.window.height
  memory : lm.window.width * lm.window.height ≤ wordSize
  coloured : ∀ p, ∃ col, lm.evaluateColor p = some col

theorem Ready.drawn (h : lm.Ready) (hdrawn : Drawn part lm lm') : lm'.Ready := by
  have hwindow := hdrawn.window
  refine ⟨hwindow ▸ h.width_lt, hwindow ▸ h.height_lt, ?_, hwindow ▸ h.memory, fun p => ?_⟩
  · rw [hdrawn.length, hwindow, h.size]
  · rw [hdrawn.evaluateColor]
    exact h.coloured p

theorem Ready.drawPoint (h : lm.Ready) (hp : p ∈ lm.frame) {col : Color}
    (hcol : lm.evaluateColor p = some col) :
    ∃ lm', lm.drawPoint p col = some lm' ∧ Drawn {p} lm lm' := by
  have hindex := index_lt hp.1 hp.2
  have hmod : (p.y * lm.window.width + p.x) % wordSize = p.y * lm.window.width + p.x :=
    Nat.mod_eq_of_lt (Nat.lt_of_lt_of_le hindex h.memory)
  have hlt : p.y * lm.window.width + p.x < lm.sheetBuffer.length := h.size ▸ hindex
  refine ⟨{ lm with sheetBuffer := lm.sheetBuffer.set (p.y * lm.window.width + p.x) col }, ?_,
    rfl, List.length_set, fun q hq => ⟨?_, fun hne => ?_⟩⟩
  · have hin : p.x < lm.window.width ∧ p.y < lm.window.height := hp
    unfold LayerManager.drawPoint
    rw [if_pos hin]
    dsimp only
    rw [hmod, if_pos hlt]
  · rintro rfl
    rw [hcol]
    exact List.getElem?_set_self hlt
  · exact List.getElem?_set_ne fun heq => hne (index_inj hp.1 hq.1 heq).symm

theorem drawRow_spec {n : Nat} {point : Point} (h : lm.Ready)
    (hy : point.y < lm.window.height) :
    ∃ lm', drawRow n point lm = some lm' ∧
      Drawn {p | p.y = point.y ∧ point.x ≤ p.x ∧ p.x < point.x + n} lm lm' := by
  induction n generalizing point lm with
  | zero =>
    exact ⟨lm, rfl, (Drawn.refl lm).congr fun p _ =>
      ⟨fun hmem => hmem.elim, fun ⟨_, hle, hlt⟩ => absurd (Nat.lt_of_le_of_lt hle hlt)
        (Nat.lt_irrefl _)⟩⟩
  | succ n ih =>
    by_cases hend : point.x ≥ lm.window.width
    · refine ⟨lm, ?_, (Drawn.refl lm).congr fun p hp => ⟨fun hmem => hmem.elim, ?_⟩⟩
      · rw [drawRow, if_pos hend]
      · rintro ⟨_, hle, _⟩
        exact absurd (Nat.le_trans hend hle) (Nat.not_le_of_lt hp.1)
    · have hx : point.x < lm.window.width := Nat.lt_of_not_le hend
      obtain ⟨col, hcol⟩ := h.coloured point
      obtain ⟨lm₁, hpoint, hdrawn⟩ := h.drawPoint ⟨hx, hy⟩ hcol
      have hnext : (point.x + 1) % wordSize = point.x + 1 :=
        Nat.mod_eq_of_lt (Nat.lt_of_le_of_lt hx h.width_lt)
      obtain ⟨lm₂, hrow, hrest⟩ := @ih lm₁ { point with x := point.x + 1 } (h.drawn hdrawn)
        (hdrawn.window ▸ hy)
      refine ⟨lm₂, ?_, (hdrawn.trans hrest).congr fun p _ => ⟨?_, ?_⟩⟩
      · rw [drawRow, if_neg hend, hcol, Option.bind_some, hpoint, Option.bind_some, hnext]
        exact hrow
      · rintro (rfl | ⟨hrow, hle, hlt⟩)
        · exact ⟨rfl, Nat.le_refl _, Nat.lt_add_of_pos_right (Nat.succ_pos n)⟩
        · have hle' : point.x + 1 ≤ p.x := hle
          have hlt' : p.x < point.x + 1 + n := hlt
          exact ⟨hrow, by omega, by omega⟩
      · rintro ⟨hrow, hle, hlt⟩
        rcases Nat.eq_or_lt_of_le hle with heq | hgt
        · left
          cases p
          cases point
          cases hrow
          cases heq
          rfl
        · right
          have hlt' : p.x < point.x + 1 + n := by omega
          exact ⟨hrow, hgt, hlt'⟩

theorem drawRows_spec {rect : Rectangle} {n i : Nat} (h : lm.Ready)
    (hstart : rect.y + i < wordSize) :
    ∃ lm', drawRows rect n i lm = some lm' ∧
      Drawn {p | rect.x ≤ p.x ∧ p.x < rect.x + rect.width ∧ rect.y + i ≤ p.y ∧
        p.y < rect.y + i + n} lm lm' := by
  induction n generalizing i lm with
  | zero =>
    exact ⟨lm, rfl, (Drawn.refl lm).congr fun p _ =>
      ⟨fun hmem => hmem.elim, fun ⟨_, _, hle, hlt⟩ => absurd (Nat.lt_of_le_of_lt hle hlt)
        (Nat.lt_irrefl _)⟩⟩
  | succ n ih =>
    have hmod : (rect.y + i) % wordSize = rect.y + i := Nat.mod_eq_of_lt hstart
    by_cases hend : rect.y + i ≥ lm.window.height
    · refine ⟨lm, ?_, (Drawn.refl lm).congr fun p hp => ⟨fun hmem => hmem.elim, ?_⟩⟩
      · rw [drawRows]
        dsimp only
        rw [hmod, if_pos hend]
      · rintro ⟨_, _, hle, _⟩
        exact absurd (Nat.le_trans hend hle) (Nat.not_le_of_lt hp.2)
    · have hy : rect.y + i < lm.window.height := Nat.lt_of_not_le hend
      obtain ⟨lm₁, hrow, hdrawn⟩ :=
        @drawRow_spec lm rect.width ⟨rect.x, rect.y + i⟩ h hy
      obtain ⟨lm₂, hrows, hrest⟩ := @ih lm₁ (i + 1) (h.drawn hdrawn)
        (Nat.lt_of_le_of_lt hy h.height_lt)
      refine ⟨lm₂, ?_, (hdrawn.trans hrest).congr fun p _ => ⟨?_, ?_⟩⟩
      · rw [drawRows]
        dsimp only
        rw [hmod, if_neg hend, hrow, Option.bind_some]
        exact hrows
      · rintro (⟨heq, hle, hlt⟩ | ⟨hle, hlt, hlow, hhigh⟩)
        · have heq' : p.y = rect.y + i := heq
          exact ⟨hle, hlt, by omega, by omega⟩
        · exact ⟨hle, hlt, by omega, by omega⟩
      · rintro ⟨hle, hlt, hlow, hhigh⟩
        rcases Nat.eq_or_lt_of_le hlow with heq | hgt
        · exact Or.inl ⟨heq.symm, hle, hlt⟩
        · exact Or.inr ⟨hle, hlt, by omega, by omega⟩

/-! ## The dirty area -/

/-- A dirty area that holds nothing. -/
def NotDirty (lm : LayerManager) : Prop :=
  lm.isDirty = false ∨ lm.dirtyArea.width = 0 ∨ lm.dirtyArea.height = 0

theorem addDirty_same (lm : LayerManager) (rect : Rectangle) :
    ∃ d a, lm.addDirty rect = { lm with isDirty := d, dirtyArea := a } := by
  unfold addDirty
  dsimp only
  generalize (if lm.window.width ≠ 0 then _ else _) = x₁
  generalize (if lm.window.height ≠ 0 then _ else _) = y₁
  by_cases hmiss : rect.x ≥ x₁ ∨ rect.y ≥ y₁
  · rw [if_pos hmiss]
    exact ⟨_, _, rfl⟩
  · rw [if_neg hmiss]
    split
    · exact ⟨_, _, rfl⟩
    · exact ⟨_, _, rfl⟩

theorem addDirty_cases (hwidth : lm.window.width ≠ 0) (hheight : lm.window.height ≠ 0)
    (rect : Rectangle) :
    ∃ x₁ y₁, x₁ = min ((rect.x + rect.width) % wordSize) lm.window.width ∧
      y₁ = min ((rect.y + rect.height) % wordSize) lm.window.height ∧
      ((rect.x ≥ x₁ ∨ rect.y ≥ y₁) ∧ lm.addDirty rect = lm ∨
        rect.x < x₁ ∧ rect.y < y₁ ∧
          (lm.NotDirty ∧ lm.addDirty rect =
              { lm with dirtyArea := ⟨rect.x, rect.y, x₁ - rect.x, y₁ - rect.y⟩, isDirty := true } ∨
            ¬ lm.NotDirty ∧ ∃ minX minY maxX maxY, minX = min lm.dirtyArea.x rect.x ∧
              minY = min lm.dirtyArea.y rect.y ∧
              maxX = max ((lm.dirtyArea.x + lm.dirtyArea.width) % wordSize) x₁ ∧
              maxY = max ((lm.dirtyArea.y + lm.dirtyArea.height) % wordSize) y₁ ∧
              lm.addDirty rect =
                { lm with dirtyArea := ⟨minX, minY, maxX - minX, maxY - minY⟩,
                          isDirty := true })) := by
  refine ⟨_, _, rfl, rfl, ?_⟩
  unfold addDirty
  simp only [if_pos hwidth, if_pos hheight]
  by_cases hmiss : rect.x ≥ min ((rect.x + rect.width) % wordSize) lm.window.width ∨
      rect.y ≥ min ((rect.y + rect.height) % wordSize) lm.window.height
  · rw [if_pos hmiss]
    exact Or.inl ⟨hmiss, rfl⟩
  · rw [if_neg hmiss]
    obtain ⟨hx, hy⟩ := not_or.mp hmiss
    refine Or.inr ⟨Nat.lt_of_not_le hx, Nat.lt_of_not_le hy, ?_⟩
    have hiff : (!lm.isDirty || decide (lm.dirtyArea.width = 0) ||
        decide (lm.dirtyArea.height = 0)) = true ↔ lm.NotDirty := by
      simp [NotDirty, or_assoc]
    by_cases hempty : lm.NotDirty
    · rw [if_pos (hiff.mpr hempty)]
      exact Or.inl ⟨hempty, rfl⟩
    · rw [if_neg fun h => hempty (hiff.mp h)]
      exact Or.inr ⟨hempty, _, _, _, _, rfl, rfl, rfl, rfl, rfl⟩

theorem ifContain_iff {r : Rectangle} : r.ifContain p = true ↔
    (r.x ≤ p.x ∧ p.x < (r.x + r.width) % wordSize) ∧
      r.y ≤ p.y ∧ p.y < (r.y + r.height) % wordSize := by
  simp [Rectangle.ifContain, and_assoc]

/-- A rectangle without wrap-around, given by its two corners. -/
theorem ifContain_corners {x₀ y₀ x₁ y₁ : Nat} (hx : x₀ ≤ x₁) (hy : y₀ ≤ y₁) (hx₁ : x₁ < wordSize)
    (hy₁ : y₁ < wordSize) : (Rectangle.mk x₀ y₀ (x₁ - x₀) (y₁ - y₀)).ifContain p = true ↔
      (x₀ ≤ p.x ∧ p.x < x₁) ∧ y₀ ≤ p.y ∧ p.y < y₁ := by
  rw [ifContain_iff]
  dsimp only
  rw [Nat.add_sub_cancel' hx, Nat.add_sub_cancel' hy, Nat.mod_eq_of_lt hx₁, Nat.mod_eq_of_lt hy₁]

theorem DirtyFits.addDirty (h : lm.DirtyFits) (hwidth : lm.window.width < wordSize)
    (hheight : lm.window.height < wordSize) (rect : Rectangle) :
    (lm.addDirty rect).DirtyFits := by
  by_cases hw : lm.window.width = 0
  · obtain ⟨d, a, hsame⟩ := addDirty_same lm rect
    rw [hsame]
    exact fun _ => Or.inr (Or.inr (Or.inl hw))
  by_cases hh : lm.window.height = 0
  · obtain ⟨d, a, hsame⟩ := addDirty_same lm rect
    rw [hsame]
    exact fun _ => Or.inr (Or.inr (Or.inr (Or.inl hh)))
  obtain ⟨x₁, y₁, hx₁, hy₁, hcases⟩ := addDirty_cases hw hh rect
  rcases hcases with ⟨_, hsame⟩ | ⟨hx, hy, ⟨_, hset⟩ | ⟨hdirty, minX, minY, maxX, maxY, hminX, hminY,
    hmaxX, hmaxY, hmerge⟩⟩
  · rwa [hsame]
  · rw [hset]
    refine fun _ => Or.inr (Or.inr (Or.inr (Or.inr ⟨?_, ?_⟩)))
    · show rect.x + (x₁ - rect.x) ≤ lm.window.width
      omega
    · show rect.y + (y₁ - rect.y) ≤ lm.window.height
      omega
  · rw [hmerge]
    obtain ⟨hon, hother⟩ := not_or.mp hdirty
    obtain ⟨hdw, hdh⟩ := not_or.mp hother
    rcases h (Bool.not_eq_false _ ▸ hon) with hz | hz | hz | hz | ⟨hxle, hyle⟩
    · exact absurd hz hdw
    · exact absurd hz hdh
    · exact absurd hz hw
    · exact absurd hz hh
    · have hmodX := Nat.mod_eq_of_lt (Nat.lt_of_le_of_lt hxle hwidth)
      have hmodY := Nat.mod_eq_of_lt (Nat.lt_of_le_of_lt hyle hheight)
      rw [hmodX] at hmaxX
      rw [hmodY] at hmaxY
      refine fun _ => Or.inr (Or.inr (Or.inr (Or.inr ⟨?_, ?_⟩)))
      · show minX + (maxX - minX) ≤ lm.window.width
        omega
      · show minY + (maxY - minY) ≤ lm.window.height
        omega

/-- What was dirty stays so, and what the rectangle contains becomes so. -/
theorem InDirty.addDirty (h : lm.DirtyFits) (hwidth : lm.window.width < wordSize)
    (hheight : lm.window.height < wordSize) {rect : Rectangle} (hp : p ∈ lm.frame)
    (hin : lm.InDirty p ∨ rect.ifContain p = true) : (lm.addDirty rect).InDirty p := by
  have hpx : p.x < lm.window.width := hp.1
  have hpy : p.y < lm.window.height := hp.2
  have hw : lm.window.width ≠ 0 := Nat.ne_of_gt (Nat.zero_lt_of_lt hpx)
  have hh : lm.window.height ≠ 0 := Nat.ne_of_gt (Nat.zero_lt_of_lt hpy)
  obtain ⟨x₁, y₁, hx₁, hy₁, hcases⟩ := addDirty_cases hw hh rect
  rcases hcases with ⟨hmiss, hsame⟩ | ⟨hx, hy, ⟨hempty, hset⟩ | ⟨hdirty, minX, minY, maxX, maxY, hminX,
    hminY, hmaxX, hmaxY, hmerge⟩⟩
  · rw [hsame]
    refine hin.resolve_right fun hcontain => ?_
    obtain ⟨⟨hxle, hxlt⟩, hyle, hylt⟩ := ifContain_iff.mp hcontain
    omega
  · have hcontain : rect.ifContain p = true := hin.resolve_left fun hold => by
      obtain ⟨hon, hcontain⟩ := hold
      obtain ⟨⟨hxle, hxlt⟩, hyle, hylt⟩ := ifContain_iff.mp hcontain
      have hmodX := Nat.mod_le (lm.dirtyArea.x + lm.dirtyArea.width) wordSize
      have hmodY := Nat.mod_le (lm.dirtyArea.y + lm.dirtyArea.height) wordSize
      rcases hempty with hoff | hz | hz
      · rw [hon] at hoff
        cases hoff
      · omega
      · omega
    obtain ⟨⟨hxle, hxlt⟩, hyle, hylt⟩ := ifContain_iff.mp hcontain
    rw [hset]
    refine ⟨rfl, (ifContain_corners (Nat.le_of_lt hx) (Nat.le_of_lt hy) ?_ ?_).mpr ?_⟩ <;> omega
  · obtain ⟨hon, hother⟩ := not_or.mp hdirty
    obtain ⟨hdw, hdh⟩ := not_or.mp hother
    have hroom : lm.dirtyArea.x + lm.dirtyArea.width ≤ lm.window.width ∧
        lm.dirtyArea.y + lm.dirtyArea.height ≤ lm.window.height := by
      rcases h (Bool.not_eq_false _ ▸ hon) with hz | hz | hz | hz | hroom
      · exact absurd hz hdw
      · exact absurd hz hdh
      · exact absurd hz hw
      · exact absurd hz hh
      · exact hroom
    have hmodX := Nat.mod_eq_of_lt (Nat.lt_of_le_of_lt hroom.1 hwidth)
    have hmodY := Nat.mod_eq_of_lt (Nat.lt_of_le_of_lt hroom.2 hheight)
    rw [hmodX] at hmaxX
    rw [hmodY] at hmaxY
    have hbounds : (minX ≤ p.x ∧ p.x < maxX) ∧ minY ≤ p.y ∧ p.y < maxY := by
      rcases hin with ⟨_, hcontain⟩ | hcontain
      · obtain ⟨⟨hxle, hxlt⟩, hyle, hylt⟩ := ifContain_iff.mp hcontain
        rw [hmodX] at hxlt
        rw [hmodY] at hylt
        omega
      · obtain ⟨⟨hxle, hxlt⟩, hyle, hylt⟩ := ifContain_iff.mp hcontain
        omega
    rw [hmerge]
    refine ⟨rfl, (ifContain_corners ?_ ?_ ?_ ?_).mpr hbounds⟩ <;> omega

/-! ## Updates -/

/-- `lm'` is `lm` with `part` drawn and `covered` in the dirty area. -/
structure Updated (part covered : Set Point) (lm lm' : LayerManager) : Prop where
  same : ∃ buf d a, lm' = { lm with sheetBuffer := buf, isDirty := d, dirtyArea := a }
  length : lm'.sheetBuffer.length = lm.sheetBuffer.length
  paints : Paints lm.frame part lm.evaluateColor lm.pixel lm'.pixel
  fits : lm.DirtyFits → lm'.DirtyFits
  dirty : lm.DirtyFits → ∀ p ∈ lm.frame, lm.InDirty p ∨ p ∈ covered → lm'.InDirty p

variable {covered covered' : Set Point}

theorem Updated.sheets (h : Updated part covered lm lm') : lm'.sheets = lm.sheets := by
  obtain ⟨_, _, _, rfl⟩ := h.same
  rfl

theorem Updated.window (h : Updated part covered lm lm') : lm'.window = lm.window := by
  obtain ⟨_, _, _, rfl⟩ := h.same
  rfl

theorem Updated.frame (h : Updated part covered lm lm') : lm'.frame = lm.frame := by
  obtain ⟨_, _, _, rfl⟩ := h.same
  rfl

theorem Updated.evaluateColor (h : Updated part covered lm lm') (p : Point) :
    lm'.evaluateColor p = lm.evaluateColor p := by
  obtain ⟨_, _, _, hsame⟩ := h.same
  exact evaluateColor_congr (by rw [hsame]) (by rw [hsame]) (by rw [hsame]) p

theorem Updated.trans (h : Updated part covered lm lm')
    (h' : Updated part' covered' lm' lm'') :
    Updated (part ∪ part') (covered ∪ covered') lm lm'' := by
  have hpaints := h'.paints
  rw [h.frame, funext h.evaluateColor] at hpaints
  have hdirty := h'.dirty
  rw [h.frame] at hdirty
  refine ⟨?_, h'.length.trans h.length, h.paints.trans hpaints, fun hf => h'.fits (h.fits hf),
    fun hf p hp hin => hdirty (h.fits hf) p hp ?_⟩
  · obtain ⟨_, _, _, rfl⟩ := h.same
    obtain ⟨_, _, _, rfl⟩ := h'.same
    exact ⟨_, _, _, rfl⟩
  · rcases hin with hin | hin | hin
    · exact Or.inl (h.dirty hf p hp (Or.inl hin))
    · exact Or.inl (h.dirty hf p hp (Or.inr hin))
    · exact Or.inr hin

theorem Ready.updated (h : lm.Ready) (hupdated : Updated part covered lm lm') : lm'.Ready := by
  have hwindow := hupdated.window
  refine ⟨hwindow ▸ h.width_lt, hwindow ▸ h.height_lt, ?_, hwindow ▸ h.memory, fun p => ?_⟩
  · rw [hupdated.length, hwindow, h.size]
  · rw [hupdated.evaluateColor]
    exact h.coloured p

theorem updateAbs_spec (h : lm.Ready) {rect : Rectangle} (hy : rect.y < wordSize) :
    ∃ lm', lm.updateAbs rect = some lm' ∧
      Updated rect.points {p | rect.ifContain p = true} lm lm' := by
  obtain ⟨lm₁, hrows, hdrawn⟩ := @drawRows_spec lm rect rect.height 0 h hy
  obtain ⟨d, a, hadd⟩ := addDirty_same lm₁ rect
  have hfits : lm.DirtyFits → lm₁.DirtyFits := fun hf => by
    rw [hdrawn.same]
    exact hf
  refine ⟨lm₁.addDirty rect, ?_, ⟨⟨lm₁.sheetBuffer, d, a, ?_⟩, ?_, ?_, fun hf => ?_,
    fun hf p hp hin => ?_⟩⟩
  · unfold updateAbs
    rw [hrows]
    rfl
  · rw [hadd, hdrawn.same]
  · rw [hadd]
    exact hdrawn.length
  · have hpixel : (lm₁.addDirty rect).pixel = lm₁.pixel := by
      rw [hadd]
      rfl
    rw [hpixel]
    exact hdrawn.paints
  · exact (hfits hf).addDirty (hdrawn.window ▸ h.width_lt) (hdrawn.window ▸ h.height_lt) rect
  · refine InDirty.addDirty (hfits hf) (hdrawn.window ▸ h.width_lt) (hdrawn.window ▸ h.height_lt)
      (hdrawn.frame ▸ hp) (hin.imp_left fun hold => ?_)
    rw [hdrawn.same]
    exact hold

theorem points_of_ifContain {r : Rectangle} (h : r.ifContain p = true) : p ∈ r.points := by
  obtain ⟨⟨hx, hx'⟩, hy, hy'⟩ := ifContain_iff.mp h
  exact ⟨hx, Nat.lt_of_lt_of_le hx' (Nat.mod_le _ _), hy, Nat.lt_of_lt_of_le hy' (Nat.mod_le _ _)⟩

/-- A screen that showed the old colours shows the new ones after an update that covers every
point whose colour has changed; the points that change are dirty. -/
theorem Updated.shows {old : Point → Option Color} (h : Updated part covered lm lm')
    (hready : lm.Ready) (hfits : lm.DirtyFits) (hpart : covered ⊆ part)
    (hbefore : ∀ p ∈ lm.frame, lm.pixel p = old p)
    (hlocal : ∀ p ∈ lm.frame, p ∉ covered → lm.evaluateColor p = old p) :
    lm'.Shows ∧ ∀ p ∈ lm.frame, lm.InDirty p ∨ lm'.pixel p ≠ lm.pixel p → lm'.InDirty p := by
  refine ⟨fun p hp => ?_, fun p hp hin => h.dirty hfits p hp ?_⟩
  · rw [h.frame] at hp
    obtain ⟨col, hcol⟩ := hready.coloured p
    refine ⟨col, (h.evaluateColor p).trans hcol, ?_⟩
    rw [← hcol]
    exact h.paints.shows hbefore (fun q hq hnot => hlocal q hq fun hin => hnot (hpart hin)) p hp
  · refine hin.imp_right fun hne => ?_
    by_contra hnot
    exact (h.paints.changed hbefore hp hne).2 (hlocal p hp hnot)

/-! ## Changes of the layers -/

/-- A manager whose chain, screen and dirty area are in order. -/
structure Sound (lm : LayerManager) (es : List (Nat × Unit)) : Prop extends
  Fits lm, Chained lm es

theorem Sound.ready (h : lm.Sound es) : lm.Ready :=
  ⟨h.width_lt, h.height_lt, h.size, h.memory, fun p => ⟨_, h.toChained.evaluateColor_eq p⟩⟩

/-- `lm'` has the screen of `lm`, and its layers differ in `area` only. -/
structure Changed (area : Set Point) (lm lm' : LayerManager) : Prop where
  window : lm'.window = lm.window
  isDirty : lm'.isDirty = lm.isDirty
  dirtyArea : lm'.dirtyArea = lm.dirtyArea
  sheetBuffer : lm'.sheetBuffer = lm.sheetBuffer
  local_ : ∀ p ∉ area, lm'.evaluateColor p = lm.evaluateColor p

theorem sheets_setSheet (lm : LayerManager) (k : Nat) (f : Sheet → Sheet) (j : Nat) :
    (lm.setSheet k f).sheets[j]? = if k = j then lm.sheets[j]?.map f else lm.sheets[j]? := by
  change (lm.sheets.modify k f)[j]? = _
  rw [List.getElem?_modify]
  by_cases hkj : k = j
  · rw [if_pos hkj]
    simp only [if_pos hkj]
    rfl
  · rw [if_neg hkj]
    simp only [if_neg hkj]
    exact Option.map_id'

theorem length_setSheet (lm : LayerManager) (k : Nat) (f : Sheet → Sheet) :
    (lm.setSheet k f).sheets.length = lm.sheets.length := List.length_modify ..

/-- What a sheet shows does not depend on its node. -/
def Look (p : Point) (s : Option Sheet) : Option Color := s.bind (·.at? p)

theorem stack_congr (h : ∀ e ∈ es, Look p lm'.sheets[e.1]? = Look p lm.sheets[e.1]?) :
    lm'.stack p es = lm.stack p es := List.filterMap_congr h

theorem Chained.setSheet (h : lm.Chained es)
    (hnext : ∀ s, (f s).next = s.next) (hleft : ∀ s, (f s).left = s.left) :
    (lm.setSheet k f).Chained es := by
  refine ⟨h.linked.congr fun e _ n hn => ?_, h.nodup, h.first, h.last⟩
  have hn' : lm.sheets[e.1]? = some n := hn
  by_cases hk : k = e.1
  · refine ⟨f n, ?_, hnext n, hleft n, rfl⟩
    change (lm.setSheet k f).sheets[e.1]? = _
    rw [sheets_setSheet, if_pos hk, hn']
    rfl
  · refine ⟨n, ?_, rfl, rfl, rfl⟩
    change (lm.setSheet k f).sheets[e.1]? = _
    rw [sheets_setSheet, if_neg hk, hn']

/-- A change of one sheet shows where the sheet is, before or after. -/
theorem Changed.setSheet (h : lm.Chained es)
    (hnext : ∀ s, (f s).next = s.next) (hleft : ∀ s, (f s).left = s.left)
    (harea : ∀ p ∉ area, ∀ s, lm.sheets[k]? = some s → (f s).at? p = s.at? p) :
    Changed area lm (lm.setSheet k f) := by
  refine ⟨rfl, rfl, rfl, rfl, fun p hp => ?_⟩
  rw [(h.setSheet hnext hleft).evaluateColor_eq, h.evaluateColor_eq]
  have hstack : (lm.setSheet k f).stack p es = lm.stack p es := by
    refine stack_congr fun e _ => ?_
    rw [sheets_setSheet]
    split
    · next hk =>
        cases hs : lm.sheets[e.1]? with
        | none => rfl
        | some s => exact harea p hp s (hk ▸ hs)
    · rfl
  rw [hstack]
  rfl

theorem Fits.of_changed (h : lm.Fits) (hchanged : Changed area lm lm')
    (hplaced : ∀ s ∈ lm'.sheets, s.area.x < 2 ^ 63 ∧ s.area.y < 2 ^ 63) : lm'.Fits := by
  have hwindow := hchanged.window
  refine ⟨hwindow ▸ h.origin, hwindow ▸ h.width_lt, hwindow ▸ h.height_lt, ?_,
    hwindow ▸ h.memory, hplaced, ?_⟩
  · rw [hchanged.sheetBuffer, hwindow, h.size]
  · have hdirty := h.dirty
    unfold DirtyFits at hdirty ⊢
    rwa [hchanged.isDirty, hchanged.dirtyArea, hwindow]

theorem Fits.updated (h : lm.Fits) (hupdated : Updated part covered lm lm') : lm'.Fits := by
  have hwindow := hupdated.window
  refine ⟨hwindow ▸ h.origin, hwindow ▸ h.width_lt, hwindow ▸ h.height_lt, ?_,
    hwindow ▸ h.memory, hupdated.sheets ▸ h.placed, hupdated.fits h.dirty⟩
  rw [hupdated.length, hwindow, h.size]

theorem Chained.updated (h : lm.Chained es) (hupdated : Updated part covered lm lm') :
    lm'.Chained es := by
  obtain ⟨_, _, _, rfl⟩ := hupdated.same
  exact ⟨h.linked, h.nodup, h.first, h.last⟩

/-- The result of a call: the screen shows the layers, and what has changed is dirty. -/
structure Restored (lm lm' : LayerManager) : Prop where
  sound : ∃ es, lm'.Sound es
  shows_ : lm'.Shows
  window : lm'.window = lm.window
  dirty : ∀ p ∈ lm.frame, lm.InDirty p ∨ lm'.pixel p ≠ lm.pixel p → lm'.InDirty p

/-- A change of the layers in an area, and an update that covers the area. -/
theorem Changed.restored (hshows : lm.Shows)
    (hchanged : Changed area lm lm') (hsound : lm'.Sound es)
    (hupdated : Updated part covered lm' lm'') (hpart : covered ⊆ part)
    (harea : ∀ p ∈ lm.frame, p ∈ area → p ∈ covered) : Restored lm lm'' := by
  have hpixel : lm'.pixel = lm.pixel := by
    funext p
    unfold pixel
    rw [hchanged.sheetBuffer, hchanged.window]
  have hframe : lm'.frame = lm.frame := by
    unfold frame
    rw [hchanged.window]
  have hold : ∀ p ∈ lm.frame, lm.pixel p = lm.evaluateColor p := fun p hp => by
    obtain ⟨col, hcol, hpixel⟩ := hshows p hp
    rw [hcol, hpixel]
  obtain ⟨hshows', hdirty'⟩ := hupdated.shows hsound.ready hsound.dirty hpart
    (by rw [hframe, hpixel]; exact hold) (by
      rw [hframe]
      exact fun p hp hnot => hchanged.local_ p fun hin => hnot (harea p hp hin))
  refine ⟨⟨es, hsound.toFits.updated hupdated, hsound.toChained.updated hupdated⟩, hshows',
    hupdated.window.trans hchanged.window, fun p hp hin => hdirty' p (hframe ▸ hp) ?_⟩
  rw [hpixel]
  refine hin.imp_left fun hin => ?_
  unfold InDirty at hin ⊢
  rwa [hchanged.isDirty, hchanged.dirtyArea]

/-! ## The calls -/

theorem Fits.sheet (h : lm.Fits) (hs : lm.sheets[k]? = some s) :
    s.area.x < wordSize ∧ s.area.y < wordSize := by
  obtain ⟨hx, hy⟩ := h.placed s (List.mem_of_getElem? hs)
  have hword : (2 : Nat) ^ 63 < wordSize := by decide
  exact ⟨Nat.lt_trans hx hword, Nat.lt_trans hy hword⟩

theorem Fits.updateSheet (h : lm.Fits) (hs : lm.sheets[k]? = some s) :
    lm.update (some k) ⟨0, 0, s.area.width, s.area.height⟩ = lm.updateAbs s.area := by
  obtain ⟨hx, hy⟩ := h.sheet hs
  have hx' : (s.area.x + 0) % wordSize = s.area.x := Nat.mod_eq_of_lt hx
  have hy' : (s.area.y + 0) % wordSize = s.area.y := Nat.mod_eq_of_lt hy
  unfold update
  simp only [hs, Option.map_some, Option.bind_some, hx', hy']

theorem placed_setSheet {P : Sheet → Prop}
    (h : ∀ s ∈ lm.sheets, P s) (hf : ∀ s ∈ lm.sheets, P (f s)) :
    ∀ s ∈ (lm.setSheet k f).sheets, P s := by
  intro s hs
  obtain ⟨j, hj⟩ := List.mem_iff_getElem?.mp hs
  rw [sheets_setSheet] at hj
  split at hj
  · obtain ⟨t, ht, rfl⟩ := Option.map_eq_some_iff.mp hj
    exact hf t (List.mem_of_getElem? ht)
  · exact h s (List.mem_of_getElem? hj)

/-- A change that shows only where a sheet is, and the update of the sheet. -/
theorem Changed.updateSheet (hshows : lm.Shows)
    (hs : lm'.sheets[k]? = some s)
    (hchanged : Changed {p | s.area.ifContain p = true} lm lm') (hsound : lm'.Sound es) :
    ∃ lm'', lm'.updateSheet k = some lm'' ∧ Restored lm lm'' := by
  obtain ⟨lm'', hupdate, hupdated⟩ := updateAbs_spec hsound.ready (hsound.toFits.sheet hs).2
  refine ⟨lm'', ?_, hchanged.restored hshows hsound hupdated (fun _ hp => points_of_ifContain hp)
    fun p _ hp => hp⟩
  unfold LayerManager.updateSheet
  rw [hs, Option.bind_some, hsound.toFits.updateSheet hs, hupdate]

theorem redraw_spec (h : lm.Sound es) (hshows : lm.Shows)
    (hwho : who < lm.sheets.length) (buffer : Option (Nat → Color)) (getPoint : Point → Color) :
    ∃ lm', lm.exec (.redraw who buffer getPoint) = some lm' ∧ Restored lm lm' := by
  have hs := List.getElem?_eq_getElem hwho
  have hnew : (lm.setSheet who fun s => { s with buffer := buffer, getPoint := getPoint }).sheets[who]? =
      some { lm.sheets[who] with buffer := buffer, getPoint := getPoint } := by
    rw [sheets_setSheet, if_pos rfl, hs]
    rfl
  have hchanged : Changed {p | lm.sheets[who].area.ifContain p = true} lm
      (lm.setSheet who fun s => { s with buffer := buffer, getPoint := getPoint }) := by
    refine Changed.setSheet (f := fun s => { s with buffer := buffer, getPoint := getPoint })
      h.toChained (fun _ => rfl) (fun _ => rfl) fun p hp s hs' => ?_
    cases hs'.symm.trans hs
    have hout : lm.sheets[who].area.ifContain p = false := Bool.not_eq_true _ ▸ hp
    rw [Sheet.at?_eq_none hout]
    exact Sheet.at?_eq_none hout
  exact hchanged.updateSheet hshows hnew
    ⟨h.toFits.of_changed hchanged (placed_setSheet h.placed h.placed),
      h.toChained.setSheet (fun _ => rfl) (fun _ => rfl)⟩

/-! ### A sheet at the bottom -/

/-- Two sheets that look the same wherever they are. -/
def SameLook (s t : Sheet) : Prop :=
  s.area = t.area ∧ s.buffer = t.buffer ∧ s.getPoint = t.getPoint

theorem SameLook.at? {t : Sheet} (h : SameLook s t) (p : Point) : s.at? p = t.at? p := by
  obtain ⟨harea, hbuffer, hgetPoint⟩ := h
  unfold Sheet.at? Sheet.pixel
  rw [harea, hbuffer, hgetPoint]

/-- Only the nodes of the chain differ. -/
structure Relinked (lm lm' : LayerManager) : Prop where
  window : lm'.window = lm.window
  color : lm'.color = lm.color
  isDirty : lm'.isDirty = lm.isDirty
  dirtyArea : lm'.dirtyArea = lm.dirtyArea
  sheetBuffer : lm'.sheetBuffer = lm.sheetBuffer
  sheets : ∀ (j : Nat) (s : Sheet), lm.sheets[j]? = some s →
    ∃ s', lm'.sheets[j]? = some s' ∧ SameLook s' s
  length : lm'.sheets.length = lm.sheets.length

theorem Relinked.trans (h : Relinked lm lm') (h' : Relinked lm' lm'') :
    Relinked lm lm'' := by
  refine ⟨h'.window.trans h.window, h'.color.trans h.color, h'.isDirty.trans h.isDirty,
    h'.dirtyArea.trans h.dirtyArea, h'.sheetBuffer.trans h.sheetBuffer, fun j s hs => ?_,
    h'.length.trans h.length⟩
  obtain ⟨s', hs', ha, hb, hg⟩ := h.sheets j s hs
  obtain ⟨s'', hs'', ha', hb', hg'⟩ := h'.sheets j s' hs'
  exact ⟨s'', hs'', ha'.trans ha, hb'.trans hb, hg'.trans hg⟩

theorem Relinked.setSheet (lm : LayerManager) (k : Nat)
    (hf : ∀ s, SameLook (f s) s) : Relinked lm (lm.setSheet k f) := by
  refine ⟨rfl, rfl, rfl, rfl, rfl, fun j s hs => ?_, length_setSheet lm k f⟩
  rw [sheets_setSheet, hs]
  split
  · exact ⟨f s, rfl, hf s⟩
  · exact ⟨s, rfl, rfl, rfl, rfl⟩

theorem Relinked.look (h : Relinked lm lm') (p : Point) (j : Nat) :
    Look p lm'.sheets[j]? = Look p lm.sheets[j]? := by
  cases hs : lm.sheets[j]? with
  | none =>
    have hnone : lm'.sheets[j]? = none := by
      rw [List.getElem?_eq_none_iff] at hs ⊢
      rwa [h.length]
    rw [hnone]
  | some s =>
    obtain ⟨s', hs', hlook⟩ := h.sheets j s hs
    rw [hs']
    exact hlook.at? p

theorem Relinked.stack (h : Relinked lm lm') (p : Point) (es : List (Nat × Unit)) :
    lm'.stack p es = lm.stack p es := stack_congr fun e _ => h.look p e.1

theorem Relinked.placed (h : Relinked lm lm')
    (hplaced : ∀ s ∈ lm.sheets, s.area.x < 2 ^ 63 ∧ s.area.y < 2 ^ 63) :
    ∀ s ∈ lm'.sheets, s.area.x < 2 ^ 63 ∧ s.area.y < 2 ^ 63 := by
  intro s' hs'
  obtain ⟨j, hj⟩ := List.mem_iff_getElem?.mp hs'
  have hlt : j < lm.sheets.length := h.length ▸ (List.getElem?_eq_some_iff.mp hj).1
  obtain ⟨t, ht, harea, _⟩ := h.sheets j _ (List.getElem?_eq_getElem hlt)
  cases hj.symm.trans ht
  rw [harea]
  exact hplaced _ (List.getElem_mem hlt)

/-- New nodes and a chain that looks the same outside an area. -/
theorem Relinked.changed {es' : List (Nat × Unit)} (h : Relinked lm lm')
    (hchained : lm.Chained es) (hchained' : lm'.Chained es')
    (hstack : ∀ p ∉ area, lm.stack p es' = lm.stack p es) : Changed area lm lm' := by
  refine ⟨h.window, h.isDirty, h.dirtyArea, h.sheetBuffer, fun p hp => ?_⟩
  rw [hchained'.evaluateColor_eq, hchained.evaluateColor_eq, h.stack, h.color, hstack p hp]

theorem append_links (h : lm.Chained es) (hnew : who ∉ keys es) :
    Relinked lm (lm.append who) ∧ (lm.append who).subf = headKey (es ++ [(who, ())]) ∧
      (lm.append who).subl = some who ∧
      ∀ (j : Nat) (s : Sheet), lm.sheets[j]? = some s →
        ∃ s', (lm.append who).sheets[j]? = some s' ∧
        s'.next = (if who = j then none else if lastKey es = some j then some who else s.next) ∧
        s'.left = (if who = j then lastKey es else s.left) := by
  rcases List.eq_nil_or_concat es with rfl | ⟨xs, e, hes⟩
  · have happend : lm.append who =
        { lm.setSheet who fun s => { s with next := none, left := none, parent := true } with
          subf := some who, subl := some who } := by
      unfold append
      rw [h.first]
      rfl
    rw [happend]
    have hset := Relinked.setSheet lm who (f := fun s =>
      { s with next := none, left := none, parent := true }) fun _ => ⟨rfl, rfl, rfl⟩
    refine ⟨⟨rfl, rfl, rfl, rfl, rfl, hset.sheets, hset.length⟩, rfl, rfl, fun j s hs => ?_⟩
    change ∃ s', (lm.setSheet who _).sheets[j]? = some s' ∧ _
    rw [sheets_setSheet, hs]
    by_cases hj : who = j
    · rw [if_pos hj]
      exact ⟨_, rfl, (if_pos hj).symm, (if_pos hj).symm⟩
    · rw [if_neg hj]
      refine ⟨s, rfl, ?_, (if_neg hj).symm⟩
      have hempty : ¬ lastKey ([] : List (Nat × Unit)) = some j := fun hnone => by cases hnone
      rw [if_neg hj, if_neg hempty]
  · rw [List.concat_eq_append] at hes
    have hlast : lm.subl = some e.1 := by rw [h.last, hes, lastKey_concat]
    obtain ⟨first, hfirst⟩ : ∃ k, lm.subf = some k := by
      rw [h.first, hes]
      cases xs <;> exact ⟨_, rfl⟩
    have happend : lm.append who =
        { (lm.setSheet e.1 fun s => { s with next := some who }).setSheet who fun s =>
            { s with next := none, left := some e.1, parent := true } with
          subl := some who } := by
      unfold append
      rw [hfirst, hlast]
    rw [happend]
    have hset := (Relinked.setSheet lm e.1 (f := fun s => { s with next := some who })
      fun _ => ⟨rfl, rfl, rfl⟩).trans (Relinked.setSheet _ who (f := fun s =>
        { s with next := none, left := some e.1, parent := true }) fun _ => ⟨rfl, rfl, rfl⟩)
    refine ⟨⟨rfl, rfl, rfl, rfl, rfl, hset.sheets, hset.length⟩, ?_, rfl, fun j s hs => ?_⟩
    · change lm.subf = _
      rw [h.first, hes]
      cases xs <;> rfl
    · change ∃ s', ((lm.setSheet e.1 _).setSheet who _).sheets[j]? = some s' ∧ _
      rw [sheets_setSheet, sheets_setSheet, hs, hes, lastKey_concat]
      by_cases hj : who = j
      · have hne : ¬ e.1 = j := fun heq => hnew (by
          rw [hes, keys_append, hj, ← heq]
          exact List.mem_append_cons_self)
        rw [if_pos hj, if_neg hne]
        exact ⟨_, rfl, (if_pos hj).symm, (if_pos hj).symm⟩
      · rw [if_neg hj]
        by_cases he : e.1 = j
        · rw [if_pos he]
          refine ⟨_, rfl, ?_, (if_neg hj).symm⟩
          rw [if_neg hj, if_pos (congrArg some he)]
        · rw [if_neg he]
          refine ⟨_, rfl, ?_, (if_neg hj).symm⟩
          rw [if_neg hj, if_neg fun heq => he (Option.some.inj heq)]

theorem Chained.append (h : lm.Chained es) (hwho : who < lm.sheets.length)
    (hnew : who ∉ keys es) : (lm.append who).Chained (es ++ [(who, ())]) := by
  obtain ⟨-, hfirst, hlast, hnodes⟩ := append_links h hnew
  refine ⟨?_, ?_, hfirst, by rw [hlast, lastKey_concat]⟩
  · have hlinked : Linked chainLayout lm.cells (es ++ ([] ++ [])) := by
      rw [List.append_nil, List.append_nil]
      exact h.linked
    have hnodup : (keys (es ++ ([] ++ []))).Nodup := by
      rw [List.append_nil, List.append_nil]
      exact h.nodup
    have hreplaced : Linked chainLayout (lm.append who).cells (es ++ ([(who, ())] ++ [])) :=
      hlinked.replace [(who, ())] hnodup (fun us e vs heq => ?_) (fun e he n hn => ?_)
    · rwa [List.append_nil] at hreplaced
    · have hus : us = [] ∧ e = (who, ()) ∧ vs = [] := by
        cases us with
        | nil =>
          obtain ⟨he, hvs⟩ := List.cons.inj heq
          exact ⟨rfl, he.symm, hvs.symm⟩
        | cons u us =>
          obtain ⟨_, hrest⟩ := List.cons.inj heq
          exact absurd (congrArg List.length hrest) (by simp)
      obtain ⟨rfl, rfl, rfl⟩ := hus
      obtain ⟨s', hs', hnext, hleft⟩ := hnodes who _ (List.getElem?_eq_getElem hwho)
      rw [if_pos rfl] at hnext hleft
      refine ⟨s', hs', hnext, ?_, rfl⟩
      rw [List.append_nil]
      exact hleft
    · rw [List.append_nil] at he
      have hne : who ≠ e.1 := fun heq => hnew (heq ▸ mem_keys he)
      obtain ⟨s', hs', hnext, hleft⟩ := hnodes e.1 n hn
      rw [if_neg hne] at hnext hleft
      exact ⟨s', hs', hnext, hleft, rfl⟩
  · rw [keys_append]
    refine List.nodup_append.mpr ⟨h.nodup, List.nodup_singleton _, fun a ha b hb heq => ?_⟩
    have hb' : b = who := List.mem_singleton.mp hb
    exact hnew (hb' ▸ heq ▸ ha)

theorem append_spec (h : lm.Sound es) (hshows : lm.Shows)
    (hwho : who < lm.sheets.length) (hnew : who ∉ keys es) :
    ∃ lm', lm.exec (.append who) = some lm' ∧ Restored lm lm' := by
  have hs := List.getElem?_eq_getElem hwho
  obtain ⟨hrelinked, -⟩ := append_links h.toChained hnew
  have hchained := h.toChained.append hwho hnew
  obtain ⟨s', hs', harea, _⟩ := hrelinked.sheets who _ hs
  have hchanged : Changed {p | s'.area.ifContain p = true} lm (lm.append who) := by
    refine hrelinked.changed h.toChained hchained fun p hp => ?_
    have hout : lm.sheets[who].area.ifContain p = false := by
      rw [← harea]
      exact Bool.not_eq_true _ ▸ hp
    unfold stack
    rw [List.filterMap_append, List.filterMap_cons_none, List.filterMap_nil, List.append_nil]
    dsimp only
    rw [hs, Option.bind_some, Sheet.at?_eq_none hout]
  exact hchanged.updateSheet hshows hs'
    ⟨h.toFits.of_changed hchanged (hrelinked.placed h.placed), hchained⟩

/-! ### A sheet taken out -/

theorem sheets_setSheet_some {j : Nat}
    (hs : lm.sheets[j]? = some s) :
    (lm.setSheet k f).sheets[j]? = some (if k = j then f s else s) := by
  rw [sheets_setSheet, hs]
  split <;> rfl

theorem setNext_spec (lm : LayerManager) (left next : Option Nat) :
    Relinked lm (lm.setNext left next) ∧ (lm.setNext left next).subl = lm.subl ∧
      (lm.setNext left next).subf = (if left = none then next else lm.subf) ∧
      ∀ (j : Nat) (t : Sheet), lm.sheets[j]? = some t → (lm.setNext left next).sheets[j]? =
        some (if left = some j then { t with next := next } else t) := by
  cases left with
  | none => exact ⟨⟨rfl, rfl, rfl, rfl, rfl, fun _ t ht => ⟨t, ht, rfl, rfl, rfl⟩, rfl⟩, rfl, rfl,
      fun _ t ht => ht⟩
  | some l =>
    refine ⟨Relinked.setSheet lm l fun _ => ⟨rfl, rfl, rfl⟩, rfl, rfl, fun j t ht => ?_⟩
    refine (sheets_setSheet_some ht).trans (congrArg some ?_)
    simp only [Option.some.injEq]

theorem setLeft_spec (lm : LayerManager) (next left : Option Nat) :
    Relinked lm (lm.setLeft next left) ∧ (lm.setLeft next left).subf = lm.subf ∧
      (lm.setLeft next left).subl = (if next = none then left else lm.subl) ∧
      ∀ (j : Nat) (t : Sheet), lm.sheets[j]? = some t → (lm.setLeft next left).sheets[j]? =
        some (if next = some j then { t with left := left } else t) := by
  cases next with
  | none => exact ⟨⟨rfl, rfl, rfl, rfl, rfl, fun _ t ht => ⟨t, ht, rfl, rfl, rfl⟩, rfl⟩, rfl, rfl,
      fun _ t ht => ht⟩
  | some n =>
    refine ⟨Relinked.setSheet lm n fun _ => ⟨rfl, rfl, rfl⟩, rfl, rfl, fun j t ht => ?_⟩
    refine (sheets_setSheet_some ht).trans (congrArg some ?_)
    simp only [Option.some.injEq]

theorem remove_links {xs ys : List (Nat × Unit)}
    (h : lm.Chained (xs ++ (who, ()) :: ys)) (hs : lm.sheets[who]? = some s)
    (hparent : s.parent = true) :
    Relinked lm (lm.remove who).2 ∧ (lm.remove who).2.subf = headKey (xs ++ ys) ∧
      (lm.remove who).2.subl = lastKey (xs ++ ys) ∧
      ∀ (j : Nat) (t : Sheet), who ≠ j → lm.sheets[j]? = some t →
        ∃ t', (lm.remove who).2.sheets[j]? = some t' ∧
          t'.next = (if lastKey xs = some j then headKey ys else t.next) ∧
          t'.left = (if headKey ys = some j then lastKey xs else t.left) := by
  obtain ⟨n, hn, hnext, hleft, -⟩ := h.linked xs (who, ()) ys rfl
  cases (show lm.sheets[who]? = some n from hn).symm.trans hs
  have hnext' : s.next = headKey ys := hnext
  have hleft' : s.left = lastKey xs := hleft
  obtain ⟨hrel₁, hsubl₁, hsubf₁, hsheets₁⟩ := setNext_spec lm (lastKey xs) (headKey ys)
  obtain ⟨hrel₂, hsubf₂, hsubl₂, hsheets₂⟩ :=
    setLeft_spec (lm.setNext (lastKey xs) (headKey ys)) (headKey ys) (lastKey xs)
  have hremove : (lm.remove who).2 =
      (((lm.setNext (lastKey xs) (headKey ys)).setLeft (headKey ys) (lastKey xs)).setSheet who
        fun s => { s with next := none, left := none, parent := false }) := by
    unfold LayerManager.remove
    rw [hs]
    dsimp only
    rw [hparent, hnext', hleft', Bool.not_true, if_neg Bool.false_ne_true]
  rw [hremove]
  refine ⟨(hrel₁.trans hrel₂).trans (Relinked.setSheet _ who fun _ => ⟨rfl, rfl, rfl⟩), ?_, ?_,
    fun j t hne ht => ?_⟩
  · refine hsubf₂.trans (hsubf₁.trans ?_)
    cases xs with
    | nil => rfl
    | cons x xs =>
      have hlast : lastKey (x :: xs) ≠ none := by
        unfold lastKey
        rw [List.getLast?_cons]
        exact fun hnone => by cases hnone
      rw [if_neg hlast, h.first]
      rfl
  · refine hsubl₂.trans ?_
    rw [hsubl₁]
    cases ys with
    | nil => rw [List.append_nil]; rfl
    | cons y ys =>
      have hhead : headKey (y :: ys) ≠ none := fun hnone => by cases hnone
      rw [if_neg hhead, h.last, lastKey_append_cons, lastKey_append_cons, lastKey_cons_cons]
  · have h₂ := hsheets₂ j _ (hsheets₁ j t ht)
    refine ⟨_, (sheets_setSheet_some h₂).trans (congrArg some (if_neg hne)), ?_, ?_⟩
    · by_cases hj : lastKey xs = some j
      · rw [if_pos hj, if_pos hj]
        split <;> rfl
      · rw [if_neg hj, if_neg hj]
        split <;> rfl
    · by_cases hj : headKey ys = some j
      · rw [if_pos hj, if_pos hj]
      · rw [if_neg hj, if_neg hj]
        split <;> rfl

theorem Chained.remove {xs ys : List (Nat × Unit)}
    (h : lm.Chained (xs ++ (who, ()) :: ys)) (hs : lm.sheets[who]? = some s)
    (hparent : s.parent = true) : (lm.remove who).2.Chained (xs ++ ys) := by
  obtain ⟨-, hfirst, hlast, hnodes⟩ := remove_links h hs hparent
  have hnodup := h.nodup
  rw [keys_append, keys_cons, List.nodup_middle, List.nodup_cons, ← keys_append] at hnodup
  refine ⟨?_, hnodup.2, hfirst, hlast⟩
  refine Linked.replace (m := [(who, ())]) [] h.linked h.nodup (fun us e vs heq => ?_)
    fun e he n hn => ?_
  · cases us <;> cases heq
  · have hne : who ≠ e.1 := fun heq => hnodup.1 (heq ▸ mem_keys he)
    obtain ⟨t', ht', hnext, hleft⟩ := hnodes e.1 n hne hn
    refine ⟨t', ht', hnext, ?_, rfl⟩
    rw [List.append_nil]
    exact hleft

theorem remove_spec (h : lm.Sound es) (hshows : lm.Shows)
    (hwho : who < lm.sheets.length)
    (hmember : ∀ s, lm.sheets[who]? = some s → s.parent = true → who ∈ keys es) :
    ∃ lm', lm.exec (.remove who) = some lm' ∧ Restored lm lm' := by
  have hs := List.getElem?_eq_getElem hwho
  cases hparent : lm.sheets[who].parent with
  | false =>
    have hremove : (lm.remove who).2 = lm := by
      unfold LayerManager.remove
      rw [hs]
      dsimp only
      rw [hparent, Bool.not_false, if_pos rfl]
    have hchanged : Changed {p | lm.sheets[who].area.ifContain p = true} lm lm :=
      ⟨rfl, rfl, rfl, rfl, fun _ _ => rfl⟩
    obtain ⟨lm', hupdate, hrestored⟩ := hchanged.updateSheet hshows hs h
    exact ⟨lm', (congrArg (·.updateSheet who) hremove).trans hupdate, hrestored⟩
  | true =>
    have hmem := hmember _ hs hparent
    obtain ⟨⟨k, u⟩, he, hk⟩ := List.mem_map.mp hmem
    cases (show k = who from hk)
    obtain ⟨xs, ys, rfl⟩ := List.append_of_mem he
    obtain ⟨hrelinked, -⟩ := remove_links h.toChained hs hparent
    have hchained := h.toChained.remove hs hparent
    obtain ⟨s', hs', harea, _⟩ := hrelinked.sheets who _ hs
    have hchanged : Changed {p | s'.area.ifContain p = true} lm (lm.remove who).2 := by
      refine hrelinked.changed h.toChained hchained fun p hp => ?_
      have hout : lm.sheets[who].area.ifContain p = false := by
        rw [← harea]
        exact Bool.not_eq_true _ ▸ hp
      unfold stack
      rw [List.filterMap_append, List.filterMap_append, List.filterMap_cons_none]
      dsimp only
      rw [hs, Option.bind_some, Sheet.at?_eq_none hout]
    exact hchanged.updateSheet hshows hs'
      ⟨h.toFits.of_changed hchanged (hrelinked.placed h.placed), hchained⟩

/-! ### A sheet that moves -/

/-- On one axis of the window, of `len` points, the old area of a sheet is at the edge, or its
end is neither the border nor the point before it; and no sum wraps around. -/
def AxisOk (pos width len : Nat) : Prop :=
  (pos = 0 ∨ pos + width + 1 < len ∨ len < pos + width) ∧ pos - 1 + width + 2 < wordSize

/-- The old area of the sheet has no point in the window, or both of its axes are in order. -/
def DomoveOk (lm : LayerManager) (who : Nat) : Prop :=
  ∀ s, lm.sheets[who]? = some s →
    (∀ p ∈ lm.frame, s.area.ifContain p = false) ∨
    AxisOk s.area.x s.area.width lm.window.width ∧ AxisOk s.area.y s.area.height lm.window.height

/-- The widened axis has every point of the old one that is in the window. -/
theorem AxisOk.covers {pos width len c : Nat} (h : AxisOk pos width len) (hle : pos ≤ c)
    (hlt : c < (pos + width) % wordSize) (hlen : c < len) :
    widenPos pos ≤ c ∧ c < (widenPos pos + widenLen pos width len) % wordSize := by
  obtain ⟨hedge, hroom⟩ := h
  have hpos : widenPos pos = pos - 1 := by
    unfold widenPos
    split <;> omega
  have hend : (pos + width) % wordSize = pos + width := Nat.mod_eq_of_lt (by omega)
  have hsum : (pos - 1 + width + 2) % wordSize = pos - 1 + width + 2 := Nat.mod_eq_of_lt hroom
  have hwide : (width + 2) % wordSize = width + 2 := Nat.mod_eq_of_lt (by omega)
  have hlength : widenLen pos width len =
      if pos - 1 + width + 2 < len then width + 2 else width := by
    unfold widenLen
    rw [hpos, hsum, hwide]
  rw [hend] at hlt
  rw [hpos, hlength]
  split
  · rw [Nat.mod_eq_of_lt (by omega)]
    omega
  · rw [Nat.mod_eq_of_lt (by omega)]
    omega

theorem toSigned_lt {n : Nat} (h : n < 2 ^ 64) : toSigned n < 2 ^ 63 := by
  unfold toSigned
  split <;> omega

theorem moveAxis_lt (pos : Nat) (dif : Int) (len : Nat) : moveAxis pos dif len < 2 ^ 63 := by
  have hv : wrapSigned (toSigned pos + dif) < 2 ^ 63 := by
    refine toSigned_lt ?_
    omega
  unfold moveAxis
  dsimp only
  omega

theorem domove_spec (h : lm.Sound es) (hshows : lm.Shows) {who : Nat}
    (hwho : who < lm.sheets.length) (hok : lm.DomoveOk who) (dx dy : Int) :
    ∃ lm', lm.exec (.domove who dx dy) = some lm' ∧ Restored lm lm' := by
  have hs := List.getElem?_eq_getElem hwho
  obtain ⟨s, hseq⟩ : ∃ s, s = lm.sheets[who] := ⟨_, rfl⟩
  rw [← hseq] at hs
  obtain ⟨x, hx⟩ : ∃ x, x = moveAxis s.area.x dx lm.window.width := ⟨_, rfl⟩
  obtain ⟨y, hy⟩ : ∃ y, y = moveAxis s.area.y dy lm.window.height := ⟨_, rfl⟩
  obtain ⟨moved, hmoved⟩ : ∃ moved, moved =
      lm.setSheet who fun s => { s with area := { s.area with x := x, y := y } } := ⟨_, rfl⟩
  obtain ⟨wide, hwide⟩ : ∃ wide, wide = Rectangle.mk (widenPos s.area.x) (widenPos s.area.y)
      (widenLen s.area.x s.area.width lm.window.width)
      (widenLen s.area.y s.area.height lm.window.height) := ⟨_, rfl⟩
  have hs' : moved.sheets[who]? = some { s with area := { s.area with x := x, y := y } } := by
    rw [hmoved]
    exact (sheets_setSheet_some hs).trans (congrArg some (if_pos rfl))
  have hchanged : Changed {p | s.area.ifContain p = true ∨
      (Rectangle.mk x y s.area.width s.area.height).ifContain p = true} lm moved := by
    rw [hmoved]
    refine Changed.setSheet (f := fun s => { s with area := { s.area with x := x, y := y } })
      h.toChained (fun _ => rfl) (fun _ => rfl) fun p hp t ht => ?_
    cases ht.symm.trans hs
    obtain ⟨hold, hnew⟩ := not_or.mp hp
    have hold' : s.area.ifContain p = false := by
      simpa using hold
    have hnew' : (Rectangle.mk x y s.area.width s.area.height).ifContain p = false := by
      simpa using hnew
    exact (@Sheet.at?_eq_none { s with area := { s.area with x := x, y := y } } p hnew').trans
      (Sheet.at?_eq_none hold').symm
  have hsound : moved.Sound es := by
    have hchained := h.toChained.setSheet (k := who)
      (f := fun s => { s with area := { s.area with x := x, y := y } })
      (fun _ => rfl) fun _ => rfl
    refine ⟨h.toFits.of_changed hchanged ?_, hmoved ▸ hchained⟩
    rw [hmoved]
    exact placed_setSheet h.placed fun _ _ => ⟨hx ▸ moveAxis_lt .., hy ▸ moveAxis_lt ..⟩
  -- the old area, then the new one
  have hwideY : wide.y < wordSize := by
    have := (h.toFits.sheet hs).2
    rw [hwide]
    show widenPos s.area.y < wordSize
    unfold widenPos
    split <;> omega
  obtain ⟨lm₁, hupdate₁, hupdated₁⟩ := updateAbs_spec hsound.ready hwideY
  have hs₁ : lm₁.sheets[who]? = some { s with area := { s.area with x := x, y := y } } := by
    rw [hupdated₁.sheets]
    exact hs'
  have hfits₁ := hsound.toFits.updated hupdated₁
  obtain ⟨lm₂, hupdate₂, hupdated₂⟩ :=
    updateAbs_spec (hsound.ready.updated hupdated₁) (hfits₁.sheet hs₁).2
  refine ⟨lm₂, ?_, hchanged.restored hshows hsound (hupdated₁.trans hupdated₂)
    (Set.union_subset_union (fun _ hp => points_of_ifContain hp)
      fun _ hp => points_of_ifContain hp) fun p hp hin => ?_⟩
  · have hrect : lm.exec (.domove who dx dy) = (moved.update none wide).bind fun lm =>
        lm.update (some who) ⟨0, 0, s.area.width, s.area.height⟩ := by
      change lm.domove who dx dy = _
      unfold LayerManager.domove
      rw [hs, Option.bind_some, hmoved, hwide, hx, hy]
    have hwindow : moved.update none wide = moved.updateAbs wide := by
      have hwideX : wide.x < wordSize := by
        have := (h.toFits.sheet hs).1
        rw [hwide]
        show widenPos s.area.x < wordSize
        unfold widenPos
        split <;> omega
      unfold LayerManager.update
      dsimp only [Option.bind_some]
      rw [hsound.origin.1, hsound.origin.2, Nat.zero_add, Nat.zero_add, Nat.mod_eq_of_lt hwideX,
        Nat.mod_eq_of_lt hwideY]
    rw [hrect, hwindow, hupdate₁, Option.bind_some]
    exact (hfits₁.updateSheet hs₁).trans hupdate₂
  · rcases hin with hin | hin
    · rcases hok s hs with hout | ⟨hokX, hokY⟩
      · rw [hout p hp] at hin
        cases hin
      · obtain ⟨⟨hxle, hxlt⟩, hyle, hylt⟩ := ifContain_iff.mp hin
        refine Or.inl (ifContain_iff.mpr ?_)
        rw [hwide]
        exact ⟨hokX.covers hxle hxlt hp.1, hokY.covers hyle hylt hp.2⟩
    · exact Or.inr hin

/-! ## Runs -/

/-- A call on sheets that are there: `Append` of one that is not in the chain, `Remove` of one
that is, or is of another manager; and the moves that draw all of the old area. -/
def Call.Ok (lm : LayerManager) : Call → Prop
  | .domove who _ _ => who < lm.sheets.length ∧ lm.DomoveOk who
  | .redraw who _ _ => who < lm.sheets.length
  | .append who => who < lm.sheets.length ∧ ∀ ks, lm.chain = some ks → who ∉ ks
  | .remove who => who < lm.sheets.length ∧ ∀ ks, lm.chain = some ks →
      ∀ s, lm.sheets[who]? = some s → s.parent = true → who ∈ ks
  | .emptied isDirty area => isDirty = false ∨ area.width = 0 ∨ area.height = 0

/-- Every call is in order when it is made. -/
def AllOk (lm : LayerManager) : List Call → Prop
  | [] => True
  | c :: cs => c.Ok lm ∧ ∀ lm', lm.exec c = some lm' → AllOk lm' cs

/-- The points that have changed since the dirty area was emptied: those of `seen`, and those
that `c` has changed. -/
def Call.seen (lm lm' : LayerManager) (seen : Set Point) : Call → Set Point
  | .emptied _ _ => ∅
  | _ => seen ∪ {p | lm'.pixel p ≠ lm.pixel p}

/-- The points that have changed after the calls. -/
def changedSince (lm : LayerManager) (seen : Set Point) : List Call → Set Point
  | [] => seen
  | c :: cs =>
      match lm.exec c with
      | none => seen
      | some lm' => changedSince lm' (c.seen lm lm' seen) cs

theorem Restored.seen {seen : Set Point} (h : Restored lm lm')
    (hseen : ∀ p ∈ lm.frame, p ∈ seen → lm.InDirty p) :
    ∀ p ∈ lm'.frame, p ∈ seen ∪ {p | lm'.pixel p ≠ lm.pixel p} → lm'.InDirty p := by
  intro p hp hin
  have hframe : lm'.frame = lm.frame := by
    unfold frame
    rw [h.window]
  rw [hframe] at hp
  exact h.dirty p hp (hin.imp_left (hseen p hp))

theorem exec_spec (h : lm.Sound es) (hshows : lm.Shows) {seen : Set Point}
    (hseen : ∀ p ∈ lm.frame, p ∈ seen → lm.InDirty p) {c : Call} (hok : c.Ok lm) :
    ∃ lm' es', lm.exec c = some lm' ∧ lm'.Sound es' ∧ lm'.Shows ∧ lm'.window = lm.window ∧
      ∀ p ∈ lm'.frame, p ∈ c.seen lm lm' seen → lm'.InDirty p := by
  have hrestored : ∀ {lm'}, lm.exec c = some lm' → Restored lm lm' →
      c.seen lm lm' seen = seen ∪ {p | lm'.pixel p ≠ lm.pixel p} →
      ∃ lm' es', lm.exec c = some lm' ∧ lm'.Sound es' ∧ lm'.Shows ∧ lm'.window = lm.window ∧
        ∀ p ∈ lm'.frame, p ∈ c.seen lm lm' seen → lm'.InDirty p := fun hexec hr hset => by
    obtain ⟨es', hes'⟩ := hr.sound
    exact ⟨_, es', hexec, hes', hr.shows_, hr.window, hset ▸ hr.seen hseen⟩
  cases c with
  | domove who dx dy =>
    obtain ⟨lm', hexec, hr⟩ := domove_spec h hshows hok.1 hok.2 dx dy
    exact hrestored hexec hr rfl
  | redraw who buffer getPoint =>
    obtain ⟨lm', hexec, hr⟩ := redraw_spec h hshows hok buffer getPoint
    exact hrestored hexec hr rfl
  | append who =>
    obtain ⟨lm', hexec, hr⟩ :=
      append_spec h hshows hok.1 (hok.2 _ h.toChained.chain_eq)
    exact hrestored hexec hr rfl
  | remove who =>
    obtain ⟨lm', hexec, hr⟩ :=
      remove_spec h hshows hok.1 (hok.2 _ h.toChained.chain_eq)
    exact hrestored hexec hr rfl
  | emptied isDirty area =>
    refine ⟨_, es, rfl, ⟨⟨h.origin, h.width_lt, h.height_lt, h.size, h.memory, h.placed,
      fun hon => ?_⟩, ⟨h.linked, h.nodup, h.first, h.last⟩⟩, fun p hp => ?_, rfl,
      fun p _ hin => hin.elim⟩
    · rcases hok with hoff | hzero | hzero
      · cases hoff.symm.trans hon
      · exact Or.inl hzero
      · exact Or.inr (Or.inl hzero)
    · obtain ⟨col, hcol, hpixel⟩ := hshows p hp
      have hsame := @evaluateColor_congr lm { lm with isDirty := isDirty, dirtyArea := area }
        rfl rfl rfl p
      exact ⟨col, hsame.trans hcol, hpixel⟩

/-- In a run whose moves are in order the screen shows the layers after every call: no call
writes outside the buffer, every pixel of the window is what `EvaluateColor` gives there, and
every point that has changed since the dirty area was emptied lies in it. -/
theorem screen_shows_layers {lm : LayerManager} {es : List (Nat × Unit)} (h : lm.Sound es)
    (hshows : lm.Shows) {seen : Set Point} (hseen : ∀ p ∈ lm.frame, p ∈ seen → lm.InDirty p)
    {calls : List Call} (hok : lm.AllOk calls) :
    ∃ lm' es', lm.run calls = some lm' ∧ lm'.Sound es' ∧ lm'.Shows ∧
      lm'.window = lm.window ∧ ∀ p ∈ lm'.frame, p ∈ lm.changedSince seen calls → lm'.InDirty p := by
  induction calls generalizing lm es seen with
  | nil => exact ⟨lm, es, rfl, h, hshows, rfl, hseen⟩
  | cons c cs ih =>
      obtain ⟨lm₁, es₁, hexec, h₁, hshows₁, hwindow₁, hseen₁⟩ := exec_spec h hshows hseen hok.1
      obtain ⟨lm₂, es₂, hrun, h₂, hshows₂, hwindow₂, hseen₂⟩ :=
        ih h₁ hshows₁ hseen₁ (hok.2 lm₁ hexec)
      refine ⟨lm₂, es₂, ?_, h₂, hshows₂, hwindow₂.trans hwindow₁, ?_⟩
      · rw [run, hexec, Option.bind_some]
        exact hrun
      · rw [changedSince, hexec]
        exact hseen₂

/-! ## Two sheets on a small screen -/

/-- A sheet of one colour. -/
def plainSheet (area : Rectangle) (col : Color) (parent : Bool) : Sheet :=
  ⟨area, none, fun _ => col, none, none, parent⟩

def black : Color := ⟨0, 0, 0, 255⟩

def red : Color := ⟨0, 0, 255, 255⟩

/-- A window of four points that shows one sheet, and a sheet that is not in the chain. -/
def small (area : Rectangle) (buffer : List Color) : LayerManager :=
  { subf := some 0, subl := some 0, window := ⟨0, 0, 4, 1⟩, color := black, isDirty := true,
    dirtyArea := ⟨0, 0, 0, 0⟩, sheetBuffer := buffer,
    sheets := [plainSheet area red true, plainSheet ⟨3, 0, 1, 1⟩ red false] }

theorem small_sound {area : Rectangle} {buffer : List Color} (harea : area.x < 4 ∧ area.y < 4)
    (hbuffer : buffer.length = 4) : (small area buffer).Sound [(0, ())] := by
  have hsmall : 4 < wordSize ∧ 1 < wordSize ∧ 4 * 1 ≤ wordSize := by decide
  refine ⟨⟨⟨rfl, rfl⟩, hsmall.1, hsmall.2.1, hbuffer, hsmall.2.2, fun s hs => ?_,
    fun _ => Or.inl rfl⟩, ⟨fun xs e ys heq => ?_, by decide, rfl, rfl⟩⟩
  · rcases List.mem_cons.mp hs with rfl | hs
    · have := harea.1
      have := harea.2
      show area.x < 2 ^ 63 ∧ area.y < 2 ^ 63
      omega
    · cases List.mem_singleton.mp hs
      decide
  · cases xs with
    | nil =>
      cases heq
      exact ⟨_, rfl, rfl, rfl, rfl⟩
    | cons x xs =>
      have := congrArg List.length heq
      simp at this

/-- The screen shows what it should when each of the four points does. -/
theorem small_shows {area : Rectangle} {buffer : List Color}
    (h : ∀ x < 4, ((small area buffer).evaluateColor ⟨x, 0⟩).isSome = true ∧
      (small area buffer).pixel ⟨x, 0⟩ = (small area buffer).evaluateColor ⟨x, 0⟩) :
    (small area buffer).Shows := by
  rintro ⟨x, y⟩ ⟨hx, hy⟩
  cases Nat.lt_one_iff.mp (show y < 1 from hy)
  obtain ⟨hsome, hpixel⟩ := h x hx
  obtain ⟨col, hcol⟩ := Option.isSome_iff_exists.mp hsome
  exact ⟨col, hcol, hpixel.trans hcol⟩

/-- The sheet at the left edge is moved and the other one added. -/
theorem screen_shows_two :
    ∃ lm' es', (small ⟨0, 0, 2, 1⟩ [red, red, black, black]).run
        [.domove 0 1 0, .append 1] = some lm' ∧ lm'.Sound es' ∧ lm'.Shows := by
  have hshows : (small ⟨0, 0, 2, 1⟩ [red, red, black, black]).Shows :=
    small_shows (by decide)
  have hok : (small ⟨0, 0, 2, 1⟩ [red, red, black, black]).AllOk [.domove 0 1 0, .append 1] := by
    refine ⟨⟨by decide, fun s hs => ?_⟩, fun lm' hlm' => ⟨?_, fun _ _ => trivial⟩⟩
    · cases hs
      exact Or.inr ⟨⟨Or.inl rfl, by decide⟩, ⟨Or.inl rfl, by decide⟩⟩
    · have hchain : ((small ⟨0, 0, 2, 1⟩ [red, red, black, black]).exec (.domove 0 1 0)).map
          (fun lm => (lm.sheets.length, lm.chain)) = some (2, some [0]) := by
        decide
      rw [hlm', Option.map_some] at hchain
      obtain ⟨hlength, hchain⟩ := Prod.mk.inj (Option.some.inj hchain)
      refine ⟨by rw [hlength]; decide, fun ks hks => ?_⟩
      cases hks.symm.trans hchain
      decide
  obtain ⟨lm', es', hrun, hsound, hshows', -⟩ :=
    screen_shows_layers (small_sound (by decide) rfl) hshows
      (fun p _ (hp : p ∈ (∅ : Set Point)) => hp.elim) hok
  exact ⟨lm', es', hrun, hsound, hshows'⟩

/-- A sheet whose right edge is the border of the window leaves its last column. -/
theorem domove_leaves_column :
    (∃ es, (small ⟨1, 0, 3, 1⟩ [black, red, red, red]).Sound es) ∧
    (small ⟨1, 0, 3, 1⟩ [black, red, red, red]).Shows ∧
    ((small ⟨1, 0, 3, 1⟩ [black, red, red, red]).domove 0 (-1) 0).map
      (fun lm => (lm.evaluateColor ⟨3, 0⟩, lm.pixel ⟨3, 0⟩)) = some (some black, some red) :=
  ⟨⟨_, small_sound (by decide) rfl⟩, small_shows (by decide), by decide⟩

end LayerManager

end Unisym.Video
