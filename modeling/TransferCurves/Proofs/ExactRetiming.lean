import TransferCurves.Proofs.Rescaling

/-!
# Retiming is a change of parameter

Over the exact rationals a function whose colors span a range of positive width can be retimed onto
every window, and what it shows at a place of the old range it then shows at the same fraction of
the window, in its curves as in its tables. Retiming twice is retiming once.
-/

namespace TransferCurves.TransferFunction

open scoped Scalar

variable {f : TransferFunction Rat}

theorem points_ne_nil (h : f.range.min < f.range.max) : f.points ≠ [] := by
  intro hnil
  have hrange : f.range = ⟨0, 0⟩ := by
    rw [ColorMap.range, hnil]
    rfl
  rw [hrange] at h
  exact lt_irrefl _ h

theorem checkSource_of_width (h : f.range.min < f.range.max) :
    f.checkSource f.range = .ok () := by
  have hdegenerate : f.range.isDegenerate = false := beq_false_of_ne h.ne'
  have hfinite : f.range.isFinite = true := rfl
  exact checkSource_eq_ok_iff.2 fun _ =>
    Range.checkNormalizable_eq_ok_iff.2 ⟨hfinite, hdegenerate⟩

theorem remapInPlace_of_width (h : f.range.min < f.range.max) (a b : Rat) :
    f.remapInPlace a b = .done (f.moved (retimed f.range a b)) :=
  remapInPlace_done (checkTransfer_eq_ok_iff.2 ⟨rfl, checkSource_of_width h⟩)

theorem retimed_min (source : Range Rat) (a b : Rat) : retimed source a b source.min = a := by
  rw [Rescaling.retimed_eq, sub_self, zero_div, zero_mul, add_zero]

theorem retimed_max {source : Range Rat} (h : source.min < source.max) (a b : Rat) :
    retimed source a b source.max = b := by
  rw [Rescaling.retimed_eq, div_self (sub_ne_zero.2 h.ne'), one_mul, add_sub_cancel]

theorem retimed_self {r : Range Rat} (h : r.min < r.max) : retimed r r.min r.max = id := by
  funext x
  have hwidth : r.max - r.min ≠ 0 := sub_ne_zero.2 h.ne'
  rw [Rescaling.retimed_eq, div_mul_cancel₀ _ hwidth, add_sub_cancel, id]

theorem retimed_retimed (source : Range Rat) {window : Range Rat} (h : window.min < window.max)
    (a b : Rat) :
    retimed window a b ∘ retimed source window.min window.max = retimed source a b := by
  funext x
  have hwidth : window.max - window.min ≠ 0 := sub_ne_zero.2 h.ne'
  simp only [Function.comp_apply, Rescaling.retimed_eq]
  rw [add_sub_cancel_left, mul_div_cancel_right₀ _ hwidth]

theorem range_moved (h : f.range.min < f.range.max) {a b : Rat} (hab : a < b) :
    (f.moved (retimed f.range a b)).range = ⟨a, b⟩ := by
  have hmove := Rescaling.apply_between f.range ⟨a, b⟩ h hab
  have hrange := (Rescaling.between f.range ⟨a, b⟩ h hab).range_apply (points_ne_nil h)
  simp only [Rescaling.onRange, hmove, retimed_min, retimed_max h] at hrange
  exact hrange

/-- Retiming a function whose colors have a width onto an increasing window is a pure change of
parameter: every value is found at the same fraction of the window, and the tables of all sizes have
the entries they had. -/
theorem remapInPlace_reparameterizes (f : TransferFunction Rat) (h : f.range.min < f.range.max)
    (a b : Rat) (hab : a < b) :
    ∃ g, f.remapInPlace a b = .done g ∧
      (∀ x, g.valueAt (a + (x - f.range.min) / (f.range.max - f.range.min) * (b - a)) =
        f.valueAt x) ∧
      ∀ size, (LookupTable.build g.toColorMap size).range = ⟨a, b⟩ ∧
        (LookupTable.build g.toColorMap size).entries =
          (LookupTable.build f.toColorMap size).entries := by
  refine ⟨f.moved (retimed f.range a b), remapInPlace_of_width h a b, ?_, ?_⟩
  · intro x
    have hvalue := (Rescaling.between f.range ⟨a, b⟩ h hab).valueAt_apply f.toColorMap x
    rw [Rescaling.apply_between] at hvalue
    exact hvalue
  · intro size
    have hbuild := (Rescaling.between f.range ⟨a, b⟩ h hab).build_apply (points_ne_nil h) size
    rw [Rescaling.apply_between] at hbuild
    refine ⟨range_moved h hab, ?_⟩
    rw [toColorMap_moved, hbuild]

def crossedColors : TransferFunction Rat :=
  (ofPoints [.plain 3 ⟨1, 0, 0⟩, ⟨1, ⟨0, 1, 0⟩, 0.2, 0.5⟩, .plain 1 ⟨0, 0, 1⟩]).withOpacity
    (.ramp 0 0 5 1)

theorem crossedColors_reparameterizes :
    crossedColors.range.min < crossedColors.range.max ∧ (10 : Rat) < 20 ∧
      ∃ g, crossedColors.remapInPlace 10 20 = .done g ∧
        (∀ x, g.valueAt (10 + (x - crossedColors.range.min) /
          (crossedColors.range.max - crossedColors.range.min) * (20 - 10)) =
            crossedColors.valueAt x) ∧
        ∀ size, (LookupTable.build g.toColorMap size).range = ⟨10, 20⟩ ∧
          (LookupTable.build g.toColorMap size).entries =
            (LookupTable.build crossedColors.toColorMap size).entries := by
  have hcolors : crossedColors.range.min < crossedColors.range.max := by decide
  have hwindow : (10 : Rat) < 20 := by decide
  exact ⟨hcolors, hwindow, remapInPlace_reparameterizes crossedColors hcolors 10 20 hwindow⟩

end TransferCurves.TransferFunction
