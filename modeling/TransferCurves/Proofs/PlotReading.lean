import TransferCurves.Proofs.HeldMarker
import TransferCurves.Proofs.MarkerWindow
import TransferCurves.Proofs.Positions
import TransferCurves.Proofs.Retiming
import TransferCurves.Scalar.Rational
import Mathlib.Tactic.FieldSimp
import Mathlib.Tactic.Linarith
import Mathlib.Tactic.Ring

/-!
# Reading positions back from a plot

A plot draws by an affine map of the plane and reads by its inverse, but of both it uses the
horizontal axis only: a position is drawn as a point on the axis, and a pixel is read as one. Over
the exact rationals the position read differs from the one drawn by what the vertical axis has to do
with it. The plot of a span has nothing to do with the vertical axis, so there drawing and reading
are inverse to each other.
-/

namespace TransferCurves

open scoped Scalar

namespace AffineMap

variable (m : AffineMap Rat)

def determinant : Rat := m.xx * m.yy - m.xy * m.yx

theorem applyX_inverse (pixel : Rat) :
    m.inverse.applyX pixel 0 = (m.yy * (pixel - m.tx) + m.yx * m.ty) / m.determinant := by
  have hinverse : m.inverse.applyX pixel 0 =
      m.yy * (1 / m.determinant) * pixel + m.yx * -(1 / m.determinant) * 0 +
        -(m.yy * (1 / m.determinant) * m.tx + m.yx * -(1 / m.determinant) * m.ty) := rfl
  rw [hinverse]
  ring

def horizontal (s x : Rat) : AffineMap Rat := ⟨s, 0, 0, 1, x, 0⟩

theorem determinant_horizontal (s x : Rat) : (horizontal s x).determinant = s := by
  rw [determinant, horizontal, mul_one, zero_mul, sub_zero]

theorem comp_shift (x y : Rat) :
    m.comp (.shift x y) = { m with tx := m.applyX x y, ty := m.applyY x y } := by
  change (⟨m.xx * 1 + m.yx * 0, m.xy * 1 + m.yy * 0, m.xx * 0 + m.yx * 1, m.xy * 0 + m.yy * 1,
    m.applyX x y, m.applyY x y⟩ : AffineMap Rat) = _
  simp only [mul_one, mul_zero, add_zero, zero_add]

theorem shift_comp_scaling (x s : Rat) :
    (shift x 0).comp (.scaling s 1) = horizontal s x := by
  change (⟨1 * s + 0 * 0, 0 * s + 1 * 0, 1 * 0 + 0 * 1, 0 * 0 + 1 * 1, 1 * 0 + 0 * 0 + x,
    0 * 0 + 1 * 0 + 0⟩ : AffineMap Rat) = _
  simp only [mul_one, one_mul, mul_zero, zero_mul, add_zero, zero_add, horizontal]

theorem horizontal_comp_shift (s x y : Rat) :
    (horizontal s x).comp (.shift y 0) = horizontal s (s * y + x) := by
  have hx : (horizontal s x).applyX y 0 = s * y + 0 * 0 + x := rfl
  have hy : (horizontal s x).applyY y 0 = 0 * y + 1 * 0 + 0 := rfl
  rw [comp_shift, hx, hy]
  simp only [mul_zero, zero_mul, add_zero, horizontal]

end AffineMap

namespace PlotTransform

def drawnBy (m : AffineMap Rat) : PlotTransform Rat := ⟨m, m.inverse⟩

theorem ofAffine_eq (m : AffineMap Rat) : ofAffine m = .ok (drawnBy m) := rfl

theorem toPixel_drawnBy (m : AffineMap Rat) (x : Rat) :
    (drawnBy m).toPixel x = m.xx * x + m.tx := by
  change m.xx * x + m.yx * 0 + m.tx = _
  rw [mul_zero, add_zero]

theorem toData_drawnBy (m : AffineMap Rat) (pixel : Rat) : (drawnBy m).toData pixel =
    (m.yy * (pixel - m.tx) + m.yx * m.ty) / m.determinant :=
  m.applyX_inverse pixel

section

variable {m : AffineMap Rat} (h : m.determinant ≠ 0)

include h

theorem toData_toPixel (x : Rat) : (drawnBy m).toData ((drawnBy m).toPixel x) =
    x + (m.xy * m.yx * x + m.yx * m.ty) / m.determinant := by
  rw [toData_drawnBy, toPixel_drawnBy, div_eq_iff h, add_mul, div_mul_cancel₀ _ h,
    AffineMap.determinant]
  ring

theorem toPixel_toData (pixel : Rat) : (drawnBy m).toPixel ((drawnBy m).toData pixel) =
    pixel + (m.xy * m.yx * (pixel - m.tx) + m.xx * (m.yx * m.ty)) / m.determinant := by
  rw [toData_drawnBy, toPixel_drawnBy, ← sub_eq_zero]
  field_simp
  rw [AffineMap.determinant]
  ring

theorem reads_back_iff : (∀ x, (drawnBy m).toData ((drawnBy m).toPixel x) = x) ↔
    m.xy * m.yx = 0 ∧ m.yx * m.ty = 0 := by
  simp only [toData_toPixel h, add_eq_left, div_eq_zero_iff, h, or_false]
  constructor
  · intro hread
    have hoffset : m.yx * m.ty = 0 := by simpa using hread 0
    have hmixed := hread 1
    rw [hoffset, mul_one, add_zero] at hmixed
    exact ⟨hmixed, hoffset⟩
  · rintro ⟨hmixed, hoffset⟩ x
    rw [hmixed, hoffset, zero_mul, add_zero]

end

section

variable {span : Range Rat} {left width : Rat} (hspan : span.min ≠ span.max) (hwidth : 0 < width)

include hspan hwidth

theorem ofSpan_eq : ofSpan span left width = .ok (drawnBy (.horizontal
    (width / (span.max - span.min)) (width / (span.max - span.min) * -span.min + left))) := by
  have hcheck : span.checkNormalizable = .ok () :=
    Range.checkNormalizable_eq_ok_iff.2 ⟨rfl, beq_false_of_ne hspan.symm⟩
  have hextent : ¬(¬(Scalar.isFinite width = true ∧ 0 < width) ∨ ¬Scalar.isFinite left = true) :=
    not_or.2 ⟨not_not.2 ⟨rfl, hwidth⟩, not_not.2 rfl⟩
  have hdrawing := AffineMap.horizontal_comp_shift (width / (span.max - span.min)) left (-span.min)
  rw [← AffineMap.shift_comp_scaling] at hdrawing
  rw [ofSpan, hcheck]
  exact (if_neg hextent).trans (congrArg (fun m => Except.ok (drawnBy m)) hdrawing)

end

/-- The plot of a span with distinct bounds, in either order, draws them at the two ends of its pixels.
Reading gives every position back that was drawn, and drawing every pixel that was read. -/
theorem ofSpan_spans_pixels (span : Range Rat) (left width : Rat) (hspan : span.min ≠ span.max)
    (hwidth : 0 < width) :
    ∃ t, ofSpan span left width = .ok t ∧ t.toPixel span.min = left ∧
      t.toPixel span.max = left + width ∧ (∀ x, t.toData (t.toPixel x) = x) ∧
      ∀ pixel, t.toPixel (t.toData pixel) = pixel := by
  have hrange : span.max - span.min ≠ 0 := sub_ne_zero.2 hspan.symm
  have hscale : width / (span.max - span.min) ≠ 0 := div_ne_zero hwidth.ne' hrange
  let m : AffineMap Rat := .horizontal (width / (span.max - span.min))
    (width / (span.max - span.min) * -span.min + left)
  have hm : m.determinant ≠ 0 := by rwa [AffineMap.determinant_horizontal]
  refine ⟨drawnBy m, ofSpan_eq hspan hwidth, ?_, ?_, ?_, ?_⟩
  · rw [toPixel_drawnBy]
    simp only [m, AffineMap.horizontal]
    ring
  · rw [toPixel_drawnBy]
    simp only [m, AffineMap.horizontal]
    field_simp
    ring
  · exact (reads_back_iff hm).2 ⟨zero_mul _, zero_mul _⟩
  · intro pixel
    rw [toPixel_toData hm]
    simp only [m, AffineMap.horizontal, zero_mul, mul_zero, add_zero, zero_div]

theorem descendingSpan_spans_pixels :
    let span : Range Rat := ⟨3, -1⟩
    span.min ≠ span.max ∧ (0 : Rat) < 2 ∧
      ∃ t, ofSpan span (-7) 2 = .ok t ∧ t.toPixel 3 = -7 ∧ t.toPixel (-1) = -7 + 2 ∧
        (∀ x, t.toData (t.toPixel x) = x) ∧ ∀ pixel, t.toPixel (t.toData pixel) = pixel := by
  intro span
  have hspan : span.min ≠ span.max := by decide
  have hwidth : (0 : Rat) < 2 := by decide
  exact ⟨hspan, hwidth, ofSpan_spans_pixels span (-7) 2 hspan hwidth⟩

section

variable {t : PlotTransform Rat} {c : RangeController Rat} {handle : RangeHandle} {pixel : Rat}

theorem dragTo_read (hheld : c.moving = some handle) (hdata : c.dataRange.Holds (t.toData pixel))
    (hshort : c.currentRange.StaysShort (t.toData pixel) handle) :
    c.dragTo pixel t none =
      .done ({ c with currentRange := c.currentRange.withBound (t.toData pixel) handle }, none) := by
  have hmoved : c.moved handle (t.toData pixel) =
      c.currentRange.withBound (t.toData pixel) handle := by
    cases handle with
    | min => exact (if_neg hdata.1.not_gt).trans (if_pos hshort)
    | max => exact (if_neg hdata.2.not_gt).trans (if_pos hshort)
  have haim : (Gesture.drag pixel t).aim c = some (c.moved handle (t.toData pixel)) := by
    rw [Gesture.aim, hheld]
    rfl
  rw [← hmoved]
  exact Gesture.perform_of_aim_some haim none

/-- There is a place inside the data and short of the other marker such that a held marker that is
dragged to the pixel at which the place is drawn does not come to stand there. -/
def Misplaces (t : PlotTransform Rat) : Prop :=
  ∃ (c : RangeController Rat) (handle : RangeHandle) (x : Rat),
    c.dataRange.Frames c.currentRange ∧ c.moving = some handle ∧ c.dataRange.Holds x ∧
      c.currentRange.StaysShort x handle ∧ c.dragTo (t.toPixel x) t none ≠
        .done ({ c with currentRange := c.currentRange.withBound x handle }, none)

theorem misplaces_iff : t.Misplaces ↔ ¬∀ x, t.toData (t.toPixel x) = x := by
  constructor
  · rintro ⟨c, handle, x, -, hheld, hdata, hshort, hdrag⟩ hread
    have hplace : t.toData (t.toPixel x) = x := hread x
    rw [← hplace] at hdata hshort
    have hdone := dragTo_read hheld hdata hshort
    rw [hplace] at hdone
    exact hdrag hdone
  -- Data wide enough for the place drawn and the one read, with the lower marker held.
  · intro hread
    obtain ⟨x, hx⟩ := not_forall.1 hread
    let v := t.toData (t.toPixel x)
    let data : Range Rat := ⟨min x v - 1, max x v + 1⟩
    have hinside {y : Rat} (hlow : min x v ≤ y) (hhigh : y ≤ max x v) :
        data.Holds y ∧ y < data.max :=
      ⟨⟨by simp only [data]; linarith, by simp only [data]; linarith⟩,
        by simp only [data]; linarith⟩
    obtain ⟨hxdata, hxshort⟩ := hinside (min_le_left x v) (le_max_left x v)
    obtain ⟨hvdata, hvshort⟩ := hinside (min_le_right x v) (le_max_right x v)
    let c : RangeController Rat :=
      { (RangeController.ofConfig .standard).attach data with moving := some .min }
    refine ⟨c, .min, x, Range.frames_self (hxdata.1.trans hxdata.2), rfl, hxdata, hxshort, ?_⟩
    have hheld : c.moving = some .min := rfl
    rw [dragTo_read hheld hvdata hvshort]
    intro hsame
    have hrange := congrArg (fun r => r.state.1.currentRange.min) hsame
    exact hx hrange

end

/-- An invertible map of the plane is accepted for drawing. What a pixel reads is the position drawn
there, for all positions, exactly if the horizontal coordinate of a pixel does not depend on the
vertical one, or the vertical one neither depends on positions nor is offset. On all other plots,
and on them only, some drag leads a marker astray. -/
theorem ofAffine_reads_back_iff (m : AffineMap Rat) (h : m.xx * m.yy - m.xy * m.yx ≠ 0) :
    ∃ t, ofAffine m = .ok t ∧ t.drawing = m ∧
      ((∀ x, t.toData (t.toPixel x) = x) ↔ m.xy * m.yx = 0 ∧ m.yx * m.ty = 0) ∧
      (t.Misplaces ↔ m.yx ≠ 0 ∧ (m.xy ≠ 0 ∨ m.ty ≠ 0)) := by
  refine ⟨drawnBy m, ofAffine_eq m, rfl, reads_back_iff h, ?_⟩
  rw [misplaces_iff, reads_back_iff h, mul_eq_zero, mul_eq_zero]
  tauto

theorem shearedPlot_misplaces :
    let m : AffineMap Rat := ⟨2, 0, 1, 1, 0, 3⟩
    m.xx * m.yy - m.xy * m.yx ≠ 0 ∧
      ∃ t, ofAffine m = .ok t ∧ t.drawing = m ∧ (¬∀ x, t.toData (t.toPixel x) = x) ∧
        t.Misplaces := by
  intro m
  have hm : m.xx * m.yy - m.xy * m.yx ≠ 0 := by decide +kernel
  obtain ⟨t, ht, hdrawing, hread, hmisplaces⟩ := ofAffine_reads_back_iff m hm
  refine ⟨hm, t, ht, hdrawing, fun hback => ?_, hmisplaces.2 (by decide +kernel)⟩
  exact absurd (hread.1 hback) (by decide +kernel)

end PlotTransform

end TransferCurves
