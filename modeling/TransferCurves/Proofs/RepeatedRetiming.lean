import TransferCurves.Proofs.Mirroring
import Mathlib.Algebra.Order.Group.MinMax

/-!
# Retiming twice

Over the exact rationals a window of positive width is passed through without a trace: the second
retiming measures the points against the window they were moved to, and finds the fractions they had
of their first range. An inverted window turns those fractions around, and so does the order of its
bounds, which is not the order in which the moved points span it. What is left is a retiming onto
the last window with its bounds exchanged.
-/

namespace TransferCurves

open scoped Scalar

namespace Range

def reflected (c : Rat) (r : Range Rat) : Range Rat := ⟨c - r.max, c - r.min⟩

theorem reflected_extend (c : Rat) (r : Range Rat) (x : Rat) :
    (r.reflected c).extend (c - x) = (r.extend x).reflected c := by
  simp only [extend, reflected, Scalar.min_eq, Scalar.max_eq]
  rw [min_sub_sub_left, max_sub_sub_left]

theorem foldl_extend_reflected (c : Rat) (xs : List Rat) (r : Range Rat) :
    (xs.map (c - ·)).foldl extend (r.reflected c) = (xs.foldl extend r).reflected c := by
  induction xs generalizing r with
  | nil => rfl
  | cons x xs ih => rw [List.map_cons, List.foldl_cons, reflected_extend, ih, List.foldl_cons]

theorem ofPositions_reflected {xs : List Rat} (h : xs ≠ []) (c : Rat) :
    ofPositions (xs.map (c - ·)) = (ofPositions xs).reflected c := by
  cases xs with
  | nil => exact absurd rfl h
  | cons x xs => exact foldl_extend_reflected c xs ⟨x, x⟩

end Range

theorem ColorMap.range_reflected {m : ColorMap Rat} (h : m.points ≠ []) (c : Rat) :
    (m.repositioned (c - ·)).range = m.range.reflected c := by
  have hpositions : (m.repositioned (c - ·)).points.map (·.position) =
      (m.points.map (·.position)).map (c - ·) := by
    simp only [points_repositioned, List.map_map]
    rfl
  rw [ColorMap.range, hpositions]
  exact Range.ofPositions_reflected (by simpa using h) c

namespace TransferFunction

variable {f : TransferFunction Rat} {a b : Rat}

theorem range_moved_inverted (h : f.range.min < f.range.max) (hab : b < a) :
    (f.moved (retimed f.range a b)).range = ⟨b, a⟩ := by
  let c := f.range.min + f.range.max
  let s := Rescaling.between f.range ⟨b, a⟩ h hab
  -- Reflected at its middle a range is what it was, so only the rescaling moves it.
  have hreflected : (f.toColorMap.repositioned (c - ·)).range = f.range := by
    rw [ColorMap.range_reflected (points_ne_nil h)]
    simp only [Range.reflected, c, add_sub_cancel_right, add_sub_cancel_left]
  have hmove : retimed f.range a b = s.apply ∘ (c - ·) := by
    funext x
    rw [Rescaling.apply_between]
    exact retimed_inverted h a b x
  have hpoints : (f.toColorMap.repositioned (c - ·)).points ≠ [] := by
    simpa using points_ne_nil h
  rw [toColorMap_moved, hmove, ← ColorMap.repositioned_repositioned, s.range_apply hpoints,
    hreflected]
  simp only [Rescaling.onRange, s, Rescaling.apply_between, retimed_min, retimed_max h]

theorem retimed_retimed_inverted (source : Range Rat) (hab : b < a) (c d : Rat) :
    retimed ⟨b, a⟩ c d ∘ retimed source a b = retimed source d c := by
  funext x
  have hwidth : a - b ≠ 0 := sub_ne_zero.2 hab.ne'
  simp only [Function.comp_apply, Rescaling.retimed_eq]
  generalize (x - source.min) / (source.max - source.min) = t
  field_simp
  ring

theorem moved_moved (h : f.range.min < f.range.max) (hab : a ≠ b) (c d : Rat) :
    let g := f.moved (retimed f.range a b)
    g.range.min < g.range.max ∧
      (g.moved (retimed g.range c d)).toColorMap =
        f.toColorMap.repositioned
          (if a < b then retimed f.range c d else retimed f.range d c) := by
  intro g
  have hmap : (g.moved (retimed g.range c d)).toColorMap =
      f.toColorMap.repositioned (retimed g.range c d ∘ retimed f.range a b) :=
    ColorMap.repositioned_repositioned _ _ _
  rcases lt_or_gt_of_ne hab with hlt | hgt
  · have hrange : g.range = ⟨a, b⟩ := range_moved h hlt
    have hwindow : (⟨a, b⟩ : Range Rat).min < (⟨a, b⟩ : Range Rat).max := hlt
    rw [hmap, hrange, if_pos hlt]
    exact ⟨hlt, congrArg _ (retimed_retimed f.range hwindow c d)⟩
  · have hrange : g.range = ⟨b, a⟩ := range_moved_inverted h hgt
    rw [hmap, hrange, if_neg hgt.not_gt]
    exact ⟨hgt, congrArg _ (retimed_retimed_inverted f.range hgt c d)⟩

/-- A function whose colors have a width can be retimed onto every window with distinct bounds, and
from there onto any window. The map is then that of a single retiming onto the last window, with its
bounds exchanged if the first window was inverted. Through an increasing window and back onto the
first range every point returns to its place. -/
theorem remapInPlace_remapInPlace (f : TransferFunction Rat) (h : f.range.min < f.range.max)
    (a b : Rat) (hab : a ≠ b) (c d : Rat) :
    ∃ g k once, f.remapInPlace a b = .done g ∧ g.remapInPlace c d = .done k ∧
      (if a < b then f.remapInPlace c d else f.remapInPlace d c) = .done once ∧
      k.toColorMap = once.toColorMap ∧
      (a < b → ∃ back, g.remapInPlace f.range.min f.range.max = .done back ∧
        back.points = f.points ∧ back.opacityPoints = f.opacityPoints) := by
  obtain ⟨hwidth, hmap⟩ := moved_moved h hab c d
  let move := if a < b then retimed f.range c d else retimed f.range d c
  have honce : (if a < b then f.remapInPlace c d else f.remapInPlace d c) =
      .done (f.moved move) := by
    simp only [move]
    split_ifs
    · exact remapInPlace_of_width h c d
    · exact remapInPlace_of_width h d c
  refine ⟨_, _, _, remapInPlace_of_width h a b, remapInPlace_of_width hwidth c d, honce, hmap, ?_⟩
  intro hlt
  obtain ⟨-, hback⟩ := moved_moved h hab f.range.min f.range.max
  rw [if_pos hlt, retimed_self h] at hback
  refine ⟨_, remapInPlace_of_width hwidth _ _, ?_, ?_⟩
  · exact (congrArg ColorMap.points hback).trans (List.map_id f.points)
  · exact (congrArg ColorMap.opacityPoints hback).trans (List.map_id f.opacityPoints)

theorem crossedColors_retimedTwice :
    crossedColors.range.min < crossedColors.range.max ∧ (5 : Rat) ≠ -2 ∧
      ∃ g k once, crossedColors.remapInPlace 5 (-2) = .done g ∧ g.remapInPlace 0 8 = .done k ∧
        (if (5 : Rat) < -2 then crossedColors.remapInPlace 0 8
          else crossedColors.remapInPlace 8 0) = .done once ∧
        k.toColorMap = once.toColorMap ∧
        ((5 : Rat) < -2 → ∃ back,
          g.remapInPlace crossedColors.range.min crossedColors.range.max = .done back ∧
          back.points = crossedColors.points ∧
          back.opacityPoints = crossedColors.opacityPoints) := by
  have hcolors : crossedColors.range.min < crossedColors.range.max := by decide
  have hwindow : (5 : Rat) ≠ -2 := by decide
  exact ⟨hcolors, hwindow, remapInPlace_remapInPlace crossedColors hcolors 5 (-2) hwindow 0 8⟩

end TransferFunction

end TransferCurves
