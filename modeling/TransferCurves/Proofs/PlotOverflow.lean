import TransferCurves.PlotTransform
import TransferCurves.Proofs.Binary64Exact
import TransferCurves.Proofs.Overflow

/-!
# Where inverting a plot overflows

A plot that is given by its map is accepted for the inverse that was computed. A plot that is given by
the span it shows is accepted for the span, and what is computed from it can overflow. In doubles
the map that draws a span keeps the vertical axis exactly, so that its inverse is finite exactly if
six conditions hold on the horizontal one: the scale is finite, not zero and not too small to have
a reciprocal, and three products and sums stay below the overflow threshold.
-/

namespace TransferCurves

open scoped Scalar

open Binary64

namespace AffineMap

variable {m : AffineMap Binary64} {q : ℚ}

theorem isFinite_iff : m.isFinite = true ↔
    Scalar.isFinite m.xx = true ∧ Scalar.isFinite m.xy = true ∧ Scalar.isFinite m.yx = true ∧
      Scalar.isFinite m.yy = true ∧ Scalar.isFinite m.tx = true ∧ Scalar.isFinite m.ty = true := by
  simp only [isFinite, Bool.and_eq_true, and_assoc]

theorem determinant_ne_zero (h : m.inverse.isFinite = true)
    (hfinite : Scalar.isFinite (m.xx * m.yy - m.xy * m.yx) = true) :
    value (m.xx * m.yy - m.xy * m.yx) ≠ 0 := by
  obtain ⟨hxx, -⟩ := isFinite_iff.1 h
  exact value_ne_zero_of_div hfinite (isFinite_of_mul hxx).2

/-- The map scales the horizontal axis by `q` and shifts along it, and nothing else. -/
structure Scales (m : AffineMap Binary64) (q : ℚ) : Prop where
  xx : m.xx.Denotes q
  xy : m.xy.Denotes 0
  yx : m.yx.Denotes 0
  yy : m.yy.Denotes 1
  ty : m.ty.Denotes 0

theorem Scales.determinant (h : m.Scales q) : (m.xx * m.yy - m.xy * m.yx).Denotes q :=
  (h.xx.mul_one h.yy).sub_zero (h.xy.zero_mul h.yx)

theorem Scales.abs_mul_reciprocal_lt (h : m.Scales q) (hq : q ≠ 0) :
    |q * rounded (1 / q)| < overflow := by
  have hpos : 0 < |q| := abs_pos.2 hq
  have hleast : 2 ^ (-1074 : ℤ) ≤ |1 / q| := by
    rw [abs_div, abs_one, le_div_iff₀ hpos, ← le_div_iff₀' (two_zpow_pos _), one_div, ← zpow_neg]
    have hlt := (h.xx.lt_overflow.trans overflow_lt).le
    rw [← zpow_ofNat] at hlt
    exact hlt.trans (two_zpow_le.2 (by norm_num))
  have htwo : 2 < overflow :=
    (lt_self_pow₀ one_lt_two (by norm_num)).trans two_pow_1023_lt_overflow
  refine lt_of_le_of_lt ?_ htwo
  calc |q * rounded (1 / q)| = |q| * |rounded (1 / q)| := abs_mul _ _
    _ ≤ |q| * (2 * |1 / q|) :=
        mul_le_mul_of_nonneg_left (abs_rounded_le_two_mul hleast) hpos.le
    _ = 2 := by
        rw [abs_div, abs_one]
        field_simp

theorem Scales.isFinite_inverse_iff (h : m.Scales q) {s : Binary64} (hs : s.Denotes q) :
    m.inverse.isFinite = true ↔ q ≠ 0 ∧ |1 / q| < overflow ∧ Scalar.isFinite m.tx = true ∧
      |value (1 / s) * value m.tx| < overflow := by
  let d : Binary64 := 1 / (m.xx * m.yy - m.xy * m.yx)
  have hdeterminant := h.determinant
  have hinverse : m.inverse = ⟨m.yy * d, m.xy * -d, m.yx * -d, m.xx * d,
    -(m.yy * d * m.tx + m.yx * -d * m.ty), -(m.xy * -d * m.tx + m.xx * d * m.ty)⟩ := rfl
  have hreciprocal (hq : q ≠ 0) : Nearest d (1 / q) := denotes_one.nearest_div hdeterminant hq
  have hvalue (hq : q ≠ 0) : value d = value (1 / s) :=
    (hreciprocal hq).value_unique (denotes_one.nearest_div hs hq)
  -- Of the six coefficients only `xx` and `tx` decide: three are zero, and `yy` cannot overflow.
  constructor
  · intro hfinite
    have hq : q ≠ 0 := hdeterminant.value_eq ▸ determinant_ne_zero hfinite hdeterminant.finite
    rw [isFinite_iff, hinverse] at hfinite
    obtain ⟨hxx, -, -, -, htx, -⟩ := hfinite
    have hd := (isFinite_of_mul hxx).2
    have hscale := h.yy.one_mul ⟨hd, hvalue hq⟩
    have hproduct := (isFinite_of_add ((isFinite_neg _).symm.trans htx)).1
    have hshift := (isFinite_of_mul hproduct).2
    exact ⟨hq, (hreciprocal hq).finite_iff.1 hd, hshift,
      (hscale.nearest_mul (denotes_value hshift)).finite_iff.1 hproduct⟩
  · rintro ⟨hq, hpitch, hshift, horigin⟩
    have hd := (hreciprocal hq).finite_iff.2 hpitch
    have hdenotes : d.Denotes (rounded (1 / q)) := ⟨hd, (hreciprocal hq).value_eq hd⟩
    have hxx := h.yy.one_mul ⟨hd, hvalue hq⟩
    have hxy := h.xy.zero_mul hdenotes.neg
    have hyx := h.yx.zero_mul hdenotes.neg
    have hyy := (h.xx.nearest_mul hdenotes).finite_iff.2 (h.abs_mul_reciprocal_lt hq)
    have hproduct := (hxx.nearest_mul (denotes_value hshift)).finite_iff.2 horigin
    have htx := (denotes_value hproduct).add_zero (hyx.zero_mul h.ty)
    have hty := (hxy.zero_mul (denotes_value hshift)).add_zero ((denotes_value hyy).mul_zero h.ty)
    rw [isFinite_iff, hinverse]
    exact ⟨hxx.finite, hxy.finite, hyx.finite, hyy, htx.neg.finite, hty.neg.finite⟩

theorem isFinite_of_comp_xx {n : AffineMap Binary64} (h : Scalar.isFinite (m.comp n).xx = true) :
    Scalar.isFinite m.xx = true ∧ Scalar.isFinite n.xx = true :=
  isFinite_of_mul (isFinite_of_add h).1

theorem scales_shift (x : Binary64) : (shift x 0).Scales 1 :=
  ⟨denotes_one, denotes_zero, denotes_zero, denotes_one, denotes_zero⟩

theorem scales_scaling {s : Binary64} (h : s.Denotes q) : (scaling s 1).Scales q :=
  ⟨h, denotes_zero, denotes_zero, denotes_one, denotes_zero⟩

section

variable {n : AffineMap Binary64} {p r : ℚ}

theorem Scales.comp (hm : m.Scales p) (hn : n.Scales r) (hxx : (m.xx * n.xx).Denotes q)
    (htx : Scalar.isFinite n.tx = true) : (m.comp n).Scales q where
  xx := hxx.add_zero (hm.yx.zero_mul hn.xy)
  xy := (hm.xy.zero_mul hn.xx).add_zero (hm.yy.mul_zero hn.xy)
  yx := (hm.xx.mul_zero hn.yx).add_zero (hm.yx.zero_mul hn.yy)
  yy := (hm.xy.zero_mul hn.yx).zero_add (hm.yy.one_mul hn.yy)
  ty := ((hm.xy.zero_mul (denotes_value htx)).add_zero (hm.yy.mul_zero hn.ty)).add_zero hm.ty

theorem Scales.comp_tx_denotes (hm : m.Scales p) (hn : n.Scales r) (hzero : n.tx.Denotes 0)
    (htx : m.tx.Denotes q) : (m.comp n).tx.Denotes q :=
  ((hm.xx.mul_zero hzero).add_zero (hm.yx.zero_mul hn.ty)).zero_add htx

end

section

variable {scale min left : Binary64} {a b : ℚ}

theorem Scales.nearest_corner (h : m.Scales q) (hmin : min.Denotes a) :
    Nearest (m.xx * -min) (-(q * a)) := by
  rw [← mul_neg]
  exact h.xx.nearest_mul hmin.neg

theorem Scales.corner_lt (h : m.Scales q) (hmin : min.Denotes a)
    (hfinite : Scalar.isFinite (m.comp (.shift (-min) 0)).tx = true) : |q * a| < overflow := by
  have hproduct : Scalar.isFinite (m.xx * -min) = true :=
    (isFinite_of_add (isFinite_of_add hfinite).1).1
  rw [← abs_neg]
  exact (h.nearest_corner hmin).finite_iff.1 hproduct

theorem Scales.nearest_comp_shift (h : m.Scales q) (hmin : min.Denotes a) (htx : m.tx.Denotes b)
    (hscale : scale.Denotes q) (hcorner : |q * a| < overflow) :
    Nearest (m.comp (.shift (-min) 0)).tx (b - value (scale * min)) := by
  have hopposite := h.nearest_corner hmin
  have hproduct := hscale.nearest_mul hmin
  have hfinite := hopposite.finite_iff.2 (by rwa [abs_neg])
  have hvalue : (m.xx * -min).Denotes (-value (scale * min)) := by
    refine ⟨hfinite, ?_⟩
    rw [hopposite.value_eq hfinite, rounded_neg, hproduct.value_eq (hproduct.finite_iff.2 hcorner)]
  rw [← neg_add_eq_sub]
  exact (hvalue.add_zero (h.yx.zero_mul denotes_zero)).nearest_add htx

end

end AffineMap

namespace PlotTransform

def spanDrawing {α : Type} [Scalar α] (span : Range α) (left width : α) : AffineMap α :=
  ((AffineMap.shift left 0).comp (.scaling (width / span.width) 1)).comp (.shift (-span.min) 0)

theorem of_ofSpan_ok {α : Type} [Scalar α] {span : Range α} {left width : α}
    {t : PlotTransform α} (h : ofSpan span left width = .ok t) :
    span.checkNormalizable = .ok () ∧ Scalar.isFinite width = true ∧ 0 < width ∧
      Scalar.isFinite left = true ∧ t.reading = (spanDrawing span left width).inverse := by
  rw [ofSpan] at h
  split at h
  · cases h
  · rename_i hspan
    split_ifs at h with hextent
    obtain ⟨hwidth, hleft⟩ := not_or.1 hextent
    obtain ⟨hfinite, hpos⟩ := not_not.1 hwidth
    cases h
    exact ⟨hspan, hfinite, hpos, not_not.1 hleft, rfl⟩

/-- No step of drawing a span and of inverting the map overflows: not the exact result from the
doubles that the steps before it gave. The scale is a double that has a reciprocal. -/
structure Invertible (span : Range Binary64) (left width : Binary64) : Prop where
  scale : |width.value / span.width.value| < overflow
  visible : (width / span.width).value ≠ 0
  pitch : |1 / (width / span.width).value| < overflow
  corner : |(width / span.width).value * span.min.value| < overflow
  offset : |left.value - (width / span.width * span.min).value| < overflow
  origin : |(1 / (width / span.width)).value *
    (left - width / span.width * span.min).value| < overflow

section

variable {span : Range Binary64} {left width : Binary64} {t : PlotTransform Binary64}

theorem isFinite_scale (h : (spanDrawing span left width).inverse.isFinite = true) :
    Scalar.isFinite (width / span.width) = true := by
  obtain ⟨-, -, -, hyy, -, -⟩ := AffineMap.isFinite_iff.1 h
  have houter := AffineMap.isFinite_of_comp_xx (isFinite_of_mul hyy).1
  exact (AffineMap.isFinite_of_comp_xx houter.1).2

theorem isFinite_spanDrawing_inverse_iff (hscale : Scalar.isFinite (width / span.width) = true)
    (hmin : Scalar.isFinite span.min = true) (hleft : Scalar.isFinite left = true) :
    (spanDrawing span left width).inverse.isFinite = true ↔
      let s := width / span.width
      s.value ≠ 0 ∧ |1 / s.value| < overflow ∧ |s.value * span.min.value| < overflow ∧
        |left.value - (s * span.min).value| < overflow ∧
        |(1 / s).value * (left - s * span.min).value| < overflow := by
  let inner := (AffineMap.shift left 0).comp (.scaling (width / span.width) 1)
  have hs := denotes_value hscale
  have hmin' := denotes_value hmin
  have hleft' := denotes_value hleft
  have hscaling := AffineMap.scales_scaling hs
  have hinner : inner.Scales (width / span.width).value :=
    (AffineMap.scales_shift left).comp hscaling (denotes_one.one_mul hs) denotes_zero.finite
  have htx : inner.tx.Denotes left.value :=
    (AffineMap.scales_shift left).comp_tx_denotes hscaling denotes_zero hleft'
  have hdrawing : (spanDrawing span left width).Scales (width / span.width).value :=
    hinner.comp (AffineMap.scales_shift (-span.min)) (hinner.xx.mul_one denotes_one)
      hmin'.neg.finite
  have hoffset := hinner.nearest_comp_shift hmin' htx hs
  have hvalue (hlt : |(width / span.width).value * span.min.value| < overflow) :
      (spanDrawing span left width).tx.value =
        (left - width / span.width * span.min).value := by
    have hproduct := (hs.nearest_mul hmin').finite_iff.2 hlt
    exact (hoffset hlt).value_unique (hleft'.nearest_sub (denotes_value hproduct))
  rw [hdrawing.isFinite_inverse_iff hs]
  refine and_congr_right fun _ => and_congr_right fun _ => ⟨?_, ?_⟩
  · rintro ⟨hfinite, horigin⟩
    have hlt := hinner.corner_lt hmin' hfinite
    rw [hvalue hlt] at horigin
    exact ⟨hlt, (hoffset hlt).finite_iff.1 hfinite, horigin⟩
  · rintro ⟨hlt, hle, horigin⟩
    rw [← hvalue hlt] at horigin
    exact ⟨(hoffset hlt).finite_iff.2 hle, horigin⟩

theorem isFinite_reading_iff (h : ofSpan span left width = .ok t) :
    t.reading.isFinite = true ↔ Invertible span left width := by
  obtain ⟨hspan, hwidth, -, hleft, hreading⟩ := of_ofSpan_ok h
  obtain ⟨hmin, -, -⟩ := Range.finite_of_normalizable hspan
  have hscale := Range.isFinite_div_width_iff hspan hwidth
  rw [hreading]
  constructor
  · intro hfinite
    have hs := isFinite_scale hfinite
    obtain ⟨hvisible, hpitch, hcorner, hoffset, horigin⟩ :=
      (isFinite_spanDrawing_inverse_iff hs hmin hleft).1 hfinite
    exact ⟨hscale.1 hs, hvisible, hpitch, hcorner, hoffset, horigin⟩
  · rintro ⟨hlt, hvisible, hpitch, hcorner, hoffset, horigin⟩
    exact (isFinite_spanDrawing_inverse_iff (hscale.2 hlt) hmin hleft).2
      ⟨hvisible, hpitch, hcorner, hoffset, horigin⟩

theorem not_invertible_of_wide (hspan : span.checkNormalizable = .ok ())
    (hwidth : Scalar.isFinite width = true) (hwide : Scalar.isFinite span.width = false) :
    ¬Invertible span left width := by
  obtain ⟨hmin, hmax, -⟩ := Range.finite_of_normalizable hspan
  have hzero := (div_infinite hwidth (isNaN_sub hmax hmin) (ne_true_of_eq_false hwide)).2
  exact fun h => h.visible hzero

theorem scale_of_moderate (hnormalizable : span.checkNormalizable = .ok ())
    (hwidth : Scalar.isFinite width = true) (hmin : |span.min.value| ≤ 2 ^ (200 : ℤ))
    (hmax : |span.max.value| ≤ 2 ^ (200 : ℤ)) (hwide : |width.value| ≤ 2 ^ (200 : ℤ))
    (hapart : 2 ^ (-200 : ℤ) ≤ |span.max.value - span.min.value|)
    (hextent : 2 ^ (-200 : ℤ) ≤ |width.value|) :
    |width.value / span.width.value| ≤ 2 ^ (400 : ℤ) ∧
      Scalar.isFinite (width / span.width) = true ∧
      2 ^ (-401 : ℤ) ≤ |(width / span.width).value| ∧
      |(width / span.width).value| ≤ 2 ^ (400 : ℤ) := by
  obtain ⟨hmin', hmax', -⟩ := Range.finite_of_normalizable hnormalizable
  have hdifference := abs_sub_le_two_zpow hmax hmin
  have hspan : Nearest span.width _ := nearest_sub hmax' hmin'
  have hfinite := hspan.finite_of_le hdifference (by norm_num)
  have hleast := hspan.le_abs_value hapart (by norm_num) hfinite
  have hgreatest := hspan.abs_value_le hdifference (by norm_num) (by norm_num)
  have hzero := ne_zero_of_two_zpow_le hleast
  have hscale := nearest_div hwidth hfinite hzero
  have hle := abs_div_le_two_zpow hwide hleast (by norm_num : _ ≤ (400 : ℤ))
  have hge := two_zpow_le_abs_div hextent hgreatest hzero (by norm_num : (-401 : ℤ) ≤ _)
  have hs := hscale.finite_of_le hle (by norm_num)
  exact ⟨hle, hs, hscale.le_abs_value hge (by norm_num) hs,
    hscale.abs_value_le hle (by norm_num) (by norm_num)⟩

theorem invertible_of_moderate (h : ofSpan span left width = .ok t)
    (hlarge : ∀ y ∈ [span.min, span.max, left, width], |y.value| ≤ 2 ^ (200 : ℤ))
    (hapart : 2 ^ (-200 : ℤ) ≤ |span.max.value - span.min.value|)
    (hextent : 2 ^ (-200 : ℤ) ≤ |width.value|) : Invertible span left width := by
  obtain ⟨hnormalizable, hwidth, -, hleft, -⟩ := of_ofSpan_ok h
  have hmin := (Range.finite_of_normalizable hnormalizable).1
  simp only [List.mem_cons, List.not_mem_nil, or_false, forall_eq_or_imp, forall_eq] at hlarge
  obtain ⟨hmin', hmax', hleft', hwidth'⟩ := hlarge
  obtain ⟨hratio, hs, hleast, hgreatest⟩ :=
    scale_of_moderate hnormalizable hwidth hmin' hmax' hwidth' hapart hextent
  have hvisible := ne_zero_of_two_zpow_le hleast
  have hone : |(1 : ℚ)| ≤ 2 ^ (0 : ℤ) := by norm_num
  have hpitch := abs_div_le_two_zpow hone hleast (by norm_num : _ ≤ (401 : ℤ))
  have hreciprocal := (denotes_one.nearest_div (denotes_value hs) hvisible).abs_value_le hpitch
    (by norm_num) (by norm_num)
  have hcorner := abs_mul_le_two_zpow hgreatest hmin' (by norm_num : _ ≤ (600 : ℤ))
  have hproduct := nearest_mul hs hmin
  have hp := hproduct.finite_of_le hcorner (by norm_num)
  have hoffset := abs_sub_le_two_zpow (hleft'.trans (two_zpow_le.2 (by norm_num)))
    (hproduct.abs_value_le hcorner (by norm_num) (by norm_num))
  have hshift := (nearest_sub hleft hp).abs_value_le hoffset (by norm_num) (by norm_num)
  have horigin := abs_mul_le_two_zpow hreciprocal hshift (by norm_num : _ ≤ (1002 : ℤ))
  exact
    { scale := lt_overflow_of_le hratio (by norm_num)
      visible := hvisible
      pitch := lt_overflow_of_le hpitch (by norm_num)
      corner := lt_overflow_of_le hcorner (by norm_num)
      offset := lt_overflow_of_le hoffset (by norm_num)
      origin := lt_overflow_of_le horigin (by norm_num) }

end

/-- A plot that is given by its map reads by a finite one. A plot of a span does exactly if no step
overflows and the scale has a reciprocal: never if the width of the span overflows, and always if
bounds and extents are of moderate size. -/
theorem reading_finite_iff (m : AffineMap Binary64) (span : Range Binary64)
    (left width : Binary64) :
    (∀ t, ofAffine m = .ok t → t.reading.isFinite = true) ∧
      ∀ t, ofSpan span left width = .ok t →
        (t.reading.isFinite = true ↔ Invertible span left width) ∧
        (Scalar.isFinite span.width = false → t.reading.isFinite = false) ∧
        ((∀ y ∈ [span.min, span.max, left, width], |y.value| ≤ 2 ^ (200 : ℤ)) →
          2 ^ (-200 : ℤ) ≤ |span.max.value - span.min.value| →
          2 ^ (-200 : ℤ) ≤ |width.value| → t.reading.isFinite = true) := by
  refine ⟨fun t h => ?_, fun t h => ⟨isFinite_reading_iff h, fun hwide => ?_, ?_⟩⟩
  · rw [ofAffine] at h
    split_ifs at h with hfinite
    cases h
    exact hfinite
  · obtain ⟨hspan, hwidth, -⟩ := of_ofSpan_ok h
    rw [← Bool.not_eq_true, isFinite_reading_iff h]
    exact not_invertible_of_wide hspan hwidth hwide
  · intro hlarge hapart hextent
    exact (isFinite_reading_iff h).2 (invertible_of_moderate h hlarge hapart hextent)

def wideSpan : Range Binary64 := ⟨-1.7e308, 1.7e308⟩

theorem exists_of_reads {e : Except (CurveError Binary64) (PlotTransform Binary64)} {b : Bool}
    (h : e.map (·.reading.isFinite) = .ok b) : ∃ t, e = .ok t ∧ t.reading.isFinite = b := by
  cases e with
  | error => cases h
  | ok t => exact ⟨t, rfl, Except.ok.inj h⟩

theorem unitSpan_invertible :
    let unit : Range Binary64 := ⟨0, 1⟩
    (∃ t, ofAffine (AffineMap.shift (1 : Binary64) 0) = .ok t ∧ t.reading.isFinite = true) ∧
      (∃ t, ofSpan unit 0 1 = .ok t ∧ t.reading.isFinite = true) ∧ Invertible unit 0 1 ∧
      Scalar.isFinite wideSpan.width = false ∧
      ∃ t, ofSpan wideSpan 0 100 = .ok t ∧ t.reading.isFinite = false := by
  intro unit
  have hone : |(1 : Binary64).value| ≤ 2 ^ (200 : ℤ) := by
    rw [value_one, abs_one]
    exact one_le_zpow₀ one_le_two (by norm_num)
  have hzero : |(0 : Binary64).value| ≤ 2 ^ (200 : ℤ) := by
    rw [denotes_zero.value_eq, abs_zero]
    exact (two_zpow_pos 200).le
  have hextent : 2 ^ (-200 : ℤ) ≤ |(1 : Binary64).value| := by
    rw [value_one, abs_one]
    exact zpow_le_one_of_nonpos₀ one_le_two (by norm_num)
  have hapart : 2 ^ (-200 : ℤ) ≤ |(1 : Binary64).value - (0 : Binary64).value| := by
    rwa [denotes_zero.value_eq, sub_zero]
  have hlarge : ∀ y ∈ [unit.min, unit.max, (0 : Binary64), 1], |y.value| ≤ 2 ^ (200 : ℤ) := by
    simp only [unit, List.mem_cons, List.not_mem_nil, or_false, forall_eq_or_imp, forall_eq]
    exact ⟨hzero, hone, hzero, hone⟩
  have hmap : (ofAffine (AffineMap.shift (1 : Binary64) 0)).map (·.reading.isFinite) =
      .ok true := by
    decide +kernel
  have hspan : (ofSpan unit 0 1).map (·.reading.isFinite) = .ok true := by decide +kernel
  have hwide : (ofSpan wideSpan 0 100).map (·.reading.isFinite) = .ok false := by decide +kernel
  have hwidth : Scalar.isFinite wideSpan.width = false := by decide +kernel
  obtain ⟨m, hm, -⟩ := exists_of_reads hmap
  obtain ⟨t, ht, -⟩ := exists_of_reads hspan
  obtain ⟨w, hw, -⟩ := exists_of_reads hwide
  obtain ⟨haffine, hunit⟩ := reading_finite_iff (.shift 1 0) unit 0 1
  obtain ⟨hiff, -, hmoderate⟩ := hunit t ht
  obtain ⟨-, hinfinite, -⟩ := (reading_finite_iff (.shift 1 0) wideSpan 0 100).2 w hw
  have hreads := hmoderate hlarge hapart hextent
  exact ⟨⟨m, hm, haffine m hm⟩, ⟨t, ht, hreads⟩, hiff.1 hreads, hwidth, w, hw, hinfinite hwidth⟩

/-- The width of the span is infinite and the scale zero, which has no reciprocal, and nothing refuses
the plot. -/
theorem wideSpan_not_read : ∃ t, ofSpan wideSpan 0 100 = .ok t ∧ t.reading.isFinite = false :=
  exists_of_reads (by decide +kernel)

end PlotTransform

end TransferCurves
