import TransferCurves.Proofs.Binary64Finite
import TransferCurves.Proofs.Positions
import TransferCurves.Proofs.Retiming

/-!
# Where retiming overflows

Retiming looks at the bounds it is given, not at what it computes from them. In doubles each of its
five operations can overflow between finite bounds, and no later one makes up for it, except that a
fraction of an infinite width is zero. So a moved position is finite exactly where the five exact
results, each of the doubles computed before it, stay below the overflow threshold.
-/

namespace TransferCurves

open scoped Scalar

namespace Range

open Binary64

variable {source : Range Binary64}

theorem finite_of_normalizable (h : source.checkNormalizable = .ok ()) :
    Scalar.isFinite source.min = true ∧ Scalar.isFinite source.max = true ∧
      source.max.value ≠ source.min.value := by
  obtain ⟨hfinite, hdegenerate⟩ := Range.checkNormalizable_eq_ok_iff.1 h
  obtain ⟨hmin, hmax⟩ := Range.isFinite_iff.1 hfinite
  refine ⟨hmin, hmax, fun heq => ?_⟩
  rw [Range.isDegenerate, equal_of_value_eq hmax hmin heq] at hdegenerate
  cases hdegenerate

theorem isFinite_div_width_iff (h : source.checkNormalizable = .ok ()) {x : Binary64}
    (hx : Scalar.isFinite x = true) :
    Scalar.isFinite (x / source.width) = true ↔ |x.value / source.width.value| < overflow := by
  obtain ⟨hmin, hmax, hne⟩ := finite_of_normalizable h
  by_cases hwidth : Scalar.isFinite source.width = true
  · exact (nearest_div hx hwidth (value_sub_ne_zero hmax hmin hne hwidth)).finite_iff
  · rw [value_of_infinite hwidth, div_zero, abs_zero]
    exact iff_of_true (div_infinite hx (isNaN_sub hmax hmin) hwidth).1 overflow_pos

end Range

namespace TransferFunction

open Binary64

/-- No step of moving a position from a range to the window from `a` to `b` overflows: not the exact
result from the doubles that the steps before it gave. An infinite width leaves no fraction. -/
structure StaysFinite (source : Range Binary64) (a b x : Binary64) : Prop where
  offset : |x.value - source.min.value| < overflow
  window : |b.value - a.value| < overflow
  fraction : |(x - source.min).value / source.width.value| < overflow
  scaled : |((x - source.min) / source.width).value * (b - a).value| < overflow
  sum : |a.value + ((x - source.min) / source.width * (b - a)).value| < overflow

section

variable {source : Range Binary64} {a b x : Binary64}

theorem isFinite_retimed_iff (hsource : source.checkNormalizable = .ok ())
    (ha : Scalar.isFinite a = true) (hb : Scalar.isFinite b = true)
    (hx : Scalar.isFinite x = true) :
    Scalar.isFinite (retimed source a b x) = true ↔ StaysFinite source a b x := by
  obtain ⟨hmin, -, -⟩ := Range.finite_of_normalizable hsource
  have hoffset := nearest_sub hx hmin
  have hwindow := nearest_sub hb ha
  constructor
  · intro h
    have hp := (isFinite_of_add h).2
    obtain ⟨hq, hv⟩ := isFinite_of_mul hp
    have hd := isFinite_of_div hq
    exact ⟨hoffset.finite_iff.1 hd, hwindow.finite_iff.1 hv,
      (Range.isFinite_div_width_iff hsource hd).1 hq, (nearest_mul hq hv).finite_iff.1 hp,
      (nearest_add ha hp).finite_iff.1 h⟩
  · intro h
    have hd := hoffset.finite_iff.2 h.offset
    have hq := (Range.isFinite_div_width_iff hsource hd).2 h.fraction
    have hp := (nearest_mul hq (hwindow.finite_iff.2 h.window)).finite_iff.2 h.scaled
    exact (nearest_add ha hp).finite_iff.2 h.sum

theorem fraction_le_one (hmin : Scalar.isFinite source.min = true)
    (hx : Scalar.isFinite x = true) (hmax : Scalar.isFinite source.max = true)
    (hd : Scalar.isFinite (x - source.min) = true) (hw : Scalar.isFinite source.width = true)
    (hinside : source.Holds x) : |(x - source.min).value / source.width.value| ≤ 1 := by
  have hlow := value_le_of_le hmin hx hinside.1
  have hhigh := value_le_of_le hx hmax hinside.2
  have hoffset := (nearest_sub hx hmin).value_eq hd
  have hwidth : source.width.value = _ := (nearest_sub hmax hmin).value_eq hw
  have hnonneg : 0 ≤ (x - source.min).value := hoffset ▸ rounded_nonneg (sub_nonneg.2 hlow)
  have hle : (x - source.min).value ≤ source.width.value := by
    rw [hoffset, hwidth]
    exact rounded_mono (sub_le_sub_right hhigh _)
  rw [abs_of_nonneg (div_nonneg hnonneg (hnonneg.trans hle))]
  exact div_le_one_of_le₀ hle (hnonneg.trans hle)

theorem staysFinite_of_moderate (hsource : source.checkNormalizable = .ok ())
    (ha : Scalar.isFinite a = true) (hb : Scalar.isFinite b = true)
    (hx : Scalar.isFinite x = true) (hinside : source.Holds x)
    (hmoderate : ∀ y ∈ [source.min, source.max, a, b], |y.value| ≤ 2 ^ 1022) :
    StaysFinite source a b x := by
  obtain ⟨hmin, hmax, hne⟩ := Range.finite_of_normalizable hsource
  simp only [List.mem_cons, List.not_mem_nil, or_false, forall_eq_or_imp, forall_eq] at hmoderate
  obtain ⟨hmin', hmax', ha', hb'⟩ := hmoderate
  rw [← zpow_ofNat] at hmin' hmax' ha' hb'
  have hx' : |x.value| ≤ 2 ^ (1022 : ℤ) :=
    abs_le.2 ⟨(abs_le.1 hmin').1.trans (value_le_of_le hmin hx hinside.1),
      (value_le_of_le hx hmax hinside.2).trans (abs_le.1 hmax').2⟩
  have hoffset := abs_sub_le_two_zpow hx' hmin'
  have hwindow := abs_sub_le_two_zpow hb' ha'
  have hrange := abs_sub_le_two_zpow hmax' hmin'
  have hd := (nearest_sub hx hmin).finite_of_le hoffset (by norm_num)
  have hv := (nearest_sub hb ha).finite_of_le hwindow (by norm_num)
  have hv' := (nearest_sub hb ha).abs_value_le hwindow (by norm_num) (by norm_num)
  have hw : Scalar.isFinite source.width = true :=
    (nearest_sub hmax hmin).finite_of_le hrange (by norm_num)
  have hfraction := fraction_le_one hmin hx hmax hd hw hinside
  rw [← zpow_zero (2 : ℚ)] at hfraction
  have hquotient := nearest_div hd hw (value_sub_ne_zero hmax hmin hne hw)
  have hq := hquotient.finite_of_le hfraction (by norm_num)
  have hq' := hquotient.abs_value_le hfraction (by norm_num) (by norm_num)
  have hscaled := abs_mul_le_two_zpow hq' hv' (by norm_num : _ ≤ (1023 : ℤ))
  have hp := (nearest_mul hq hv).abs_value_le hscaled (by norm_num) (by norm_num)
  -- The sum reaches up to three quarters of the threshold, beyond the next power of two.
  have hthree : (2 : ℚ) ^ (1022 : ℤ) + 2 ^ (1023 : ℤ) < overflow := by
    rw [overflow_eq, show (1022 : ℤ) = 52 + 970 from rfl, show (1023 : ℤ) = 53 + 970 from rfl,
      two_zpow_add, two_zpow_add, ← add_mul]
    exact mul_lt_mul_of_pos_right (by norm_num) (two_zpow_pos 970)
  exact
    { offset := lt_overflow_of_le hoffset (by norm_num)
      window := lt_overflow_of_le hwindow (by norm_num)
      fraction := lt_overflow_of_le hfraction (by norm_num)
      scaled := lt_overflow_of_le hscaled (by norm_num)
      sum := ((abs_add_le _ _).trans (add_le_add ha' hp)).trans_lt hthree }

end

end TransferFunction

def ColorMap.positions {α : Type} (m : ColorMap α) : List α :=
  m.points.map (·.position) ++ m.opacityPoints.map (·.position)

theorem ColorMap.positions_repositioned {α : Type} (m : ColorMap α) (move : α → α) :
    (m.repositioned move).positions = m.positions.map move := by
  simp only [positions, points_repositioned, opacityPoints_repositioned, List.map_append,
    List.map_map]
  rfl

namespace TransferFunction

section

variable {source target : TransferFunction Binary64} {range : Range Binary64} {a b x : Binary64}

theorem hasPoints_of_mem_positions (hx : x ∈ source.positions) : source.HasPoints := by
  rcases List.mem_append.1 hx with hx | hx
  · obtain ⟨p, hp, -⟩ := List.mem_map.1 hx
    exact .inl (List.ne_nil_of_mem hp)
  · obtain ⟨p, hp, -⟩ := List.mem_map.1 hx
    exact .inr (List.ne_nil_of_mem hp)

theorem normalizable_of_checkSource (h : source.checkSource range = .ok ())
    (hx : x ∈ source.positions) : range.checkNormalizable = .ok () :=
  checkSource_eq_ok_iff.1 h (hasPoints_of_mem_positions hx)

theorem remap_of_ok (h : (source.remap target range a b).verdict = .ok ()) :
    Scalar.isFinite a = true ∧ Scalar.isFinite b = true ∧ source.checkSource range = .ok () ∧
      (source.remap target range a b).state.2.positions =
        source.positions.map (retimed range a b) := by
  rw [verdict_remap] at h
  obtain ⟨hbounds, hsource⟩ := checkTransfer_eq_ok_iff.1 h
  rw [Bool.and_eq_true] at hbounds
  rw [remap_done source target h]
  exact ⟨hbounds.1, hbounds.2, hsource, ColorMap.positions_repositioned source.toColorMap _⟩

theorem remapInPlace_of_ok (h : (source.remapInPlace a b).verdict = .ok ()) :
    Scalar.isFinite a = true ∧ Scalar.isFinite b = true ∧ source.checkSource source.range = .ok () ∧
      (source.remapInPlace a b).state.positions =
        source.positions.map (retimed source.range a b) := by
  rw [verdict_remapInPlace] at h
  obtain ⟨hbounds, hsource⟩ := checkTransfer_eq_ok_iff.1 h
  rw [Bool.and_eq_true] at hbounds
  rw [remapInPlace_done h]
  exact ⟨hbounds.1, hbounds.2, hsource, ColorMap.positions_repositioned source.toColorMap _⟩

theorem finite_positions_iff (ha : Scalar.isFinite a = true) (hb : Scalar.isFinite b = true)
    (hsource : source.checkSource range = .ok ())
    (hfinite : ∀ x ∈ source.positions, Scalar.isFinite x = true) :
    (∀ y ∈ source.positions.map (retimed range a b), Scalar.isFinite y = true) ↔
      ∀ x ∈ source.positions, StaysFinite range a b x := by
  rw [List.forall_mem_map]
  exact forall₂_congr fun x hx =>
    isFinite_retimed_iff (normalizable_of_checkSource hsource hx) ha hb (hfinite x hx)

end

/-- What retiming leaves of finite positions is finite exactly if no step overflows for any of them;
so it is for positions inside a moderate range that are moved to a moderate window. -/
theorem remap_finite_iff (source target : TransferFunction Binary64) (range : Range Binary64)
    (a b : Binary64) (hfinite : ∀ x ∈ source.positions, Scalar.isFinite x = true) :
    ((source.remap target range a b).verdict = .ok () →
      ((∀ y ∈ (source.remap target range a b).state.2.positions, Scalar.isFinite y = true) ↔
        ∀ x ∈ source.positions, StaysFinite range a b x)) ∧
      ((source.remapInPlace a b).verdict = .ok () →
        ((∀ y ∈ (source.remapInPlace a b).state.positions, Scalar.isFinite y = true) ↔
          ∀ x ∈ source.positions, StaysFinite source.range a b x)) ∧
      ((source.remap target range a b).verdict = .ok () →
        (∀ x ∈ source.positions, range.Holds x) →
        (∀ y ∈ [range.min, range.max, a, b], |y.value| ≤ 2 ^ 1022) →
        ∀ y ∈ (source.remap target range a b).state.2.positions, Scalar.isFinite y = true) := by
  refine ⟨fun hok => ?_, fun hok => ?_, fun hok hinside hmoderate => ?_⟩
  · obtain ⟨ha, hb, hsource, hpositions⟩ := remap_of_ok hok
    rw [hpositions]
    exact finite_positions_iff ha hb hsource hfinite
  · obtain ⟨ha, hb, hsource, hpositions⟩ := remapInPlace_of_ok hok
    rw [hpositions]
    exact finite_positions_iff ha hb hsource hfinite
  · obtain ⟨ha, hb, hsource, hpositions⟩ := remap_of_ok hok
    rw [hpositions, finite_positions_iff ha hb hsource hfinite]
    exact fun x hx => staysFinite_of_moderate (normalizable_of_checkSource hsource hx) ha hb
      (hfinite x hx) (hinside x hx) hmoderate

def wideRamp : TransferFunction Binary64 :=
  .ofPoints [.plain (-1.7e308) ⟨0, 0, 0⟩, .plain 1.7e308 ⟨1, 1, 1⟩]

theorem wideRamp_step_overflows :
    (∀ x ∈ wideRamp.positions, Scalar.isFinite x = true) ∧
      (wideRamp.remapInPlace 0 1).verdict = .ok () ∧
      ¬∀ x ∈ wideRamp.positions, StaysFinite wideRamp.range 0 1 x := by
  have hfinite : ∀ x ∈ wideRamp.positions, Scalar.isFinite x = true := by decide +kernel
  have hok : (wideRamp.remapInPlace 0 1).verdict = .ok () := by decide +kernel
  have hiff := (remap_finite_iff wideRamp .empty wideRamp.range 0 1 hfinite).2.1 hok
  refine ⟨hfinite, hok, fun hstays => absurd (hiff.2 hstays) ?_⟩
  decide +kernel

/-- The width of the ramp is infinite, and so is what its upper end is measured at: their quotient
is not a number, and nothing refuses it. -/
theorem wideRamp_leaves_finite :
    (∀ x ∈ wideRamp.positions, Scalar.isFinite x = true) ∧ wideRamp.range.isFinite = true ∧
      Scalar.isFinite (0 : Binary64) = true ∧ Scalar.isFinite (1 : Binary64) = true ∧
      (wideRamp.remapInPlace 0 1).verdict = .ok () ∧
      ∃ y ∈ (wideRamp.remapInPlace 0 1).state.positions, Scalar.isFinite y = false := by
  decide +kernel

end TransferFunction

end TransferCurves
