import TransferCurves.Proofs.ExactRetiming
import TransferCurves.Proofs.MarkerWindow

/-!
# The retimed function follows the markers

Over the exact rationals, a function whose colors have a width can follow every gesture. The markers
then stand at the ends of its colors at any time, and each of its points keeps the fraction it had
of the range between them. What a run of gestures leaves is therefore decided by where the markers
stand at its end.
-/

namespace TransferCurves

open scoped Scalar

open TransferFunction (retimed retimed_retimed retimed_self)

structure RangeController.Shows (f : TransferFunction Rat) (c : RangeController Rat)
    (g : TransferFunction Rat) : Prop where
  window : c.dataRange.Frames c.currentRange
  width : c.dataRange.min < c.dataRange.max
  range : g.range = c.currentRange
  map : g.toColorMap.Alike
    (f.toColorMap.repositioned (retimed f.range c.currentRange.min c.currentRange.max))

namespace RangeController.Shows

variable {f g : TransferFunction Rat} {c : RangeController Rat}

theorem attachFunction (h : f.range.min < f.range.max) (c : RangeController Rat) :
    (c.attachFunction (some f)).Shows f f where
  window := Range.frames_self h.le
  width := h
  range := rfl
  map := ColorMap.alike_repositioned_iff.2
    (congrArg f.toColorMap.repositioned (retimed_self h).symm)

theorem commit (h : c.Shows f g) {r : Range Rat} (hr : c.dataRange.Frames r) :
    ∃ g', c.commit r (some g) = .done ({ c with currentRange := r }, some g') ∧
      ({ c with currentRange := r } : RangeController Rat).Shows f g' := by
  have hg : g.range.min < g.range.max := by
    rw [h.range]
    exact h.window.apart h.width
  have hwidth : r.min < r.max := hr.apart h.width
  let move := retimed g.range r.min r.max
  refine ⟨_, commit_of_done (TransferFunction.remapInPlace_of_width hg r.min r.max), ?_⟩
  refine ⟨hr, h.width, TransferFunction.range_moved hg hwidth, ?_⟩
  -- The colors of `g` span the markers, so this move starts where the one from `f` ended.
  refine ColorMap.alike_repositioned_iff.2 ?_
  calc (g.toColorMap.repositioned move).repositioned id
      = g.toColorMap.repositioned move := ColorMap.repositioned_repositioned _ _ _
    _ = f.toColorMap.repositioned
          (move ∘ retimed f.range c.currentRange.min c.currentRange.max) := by
        rw [h.map.repositioned_eq, ColorMap.repositioned_repositioned]
    _ = f.toColorMap.repositioned (retimed f.range r.min r.max) := by
        simp only [move, h.range]
        rw [retimed_retimed f.range (h.window.apart h.width)]

theorem perform (h : c.Shows f g) (gesture : Gesture Rat) :
    ∃ c' g', gesture.perform (c, some g) = .done (c', some g') ∧ c'.Shows f g' := by
  cases haim : gesture.aim c with
  | none =>
    rw [Gesture.perform_of_aim_none haim]
    exact ⟨_, g, rfl, h.window, h.width, h.range, h.map⟩
  | some r =>
    rw [Gesture.perform_of_aim_some haim]
    obtain ⟨g', hcommit, hg'⟩ := h.commit (Gesture.aim_frames h.window haim)
    exact ⟨_, g', hcommit, hg'⟩

theorem run (h : c.Shows f g) (gs : List (Gesture Rat)) :
    ∃ c' g', Gesture.run (c, some g) gs = (c', some g') ∧ c'.Shows f g' := by
  induction gs generalizing c g with
  | nil => exact ⟨c, g, rfl, h⟩
  | cons gesture gs ih =>
    obtain ⟨c₁, g₁, hstep, h₁⟩ := h.perform gesture
    rw [Gesture.run, hstep]
    exact ih h₁

end RangeController.Shows

/-- After any gestures on a chart of a function whose colors have a width, the next gesture
succeeds, the colors span the range between the markers, and every point sits at its fraction of
that range, unchanged otherwise. Any other gestures that bring the markers to the same place leave
the same points and show the same. -/
theorem run_follows_markers (f : TransferFunction Rat) (h : f.range.min < f.range.max)
    (c₀ : RangeController Rat) (gs : List (Gesture Rat)) :
    ∃ c g, Gesture.run (c₀.attachFunction (some f), some f) gs = (c, some g) ∧
      (∀ next : Gesture Rat, (next.perform (c, some g)).verdict = .ok ()) ∧
      g.range = c.currentRange ∧
      g.points = f.points.map (fun p => { p with
        position := c.currentRange.min + (p.position - f.range.min) /
          (f.range.max - f.range.min) * (c.currentRange.max - c.currentRange.min) }) ∧
      g.opacityPoints = f.opacityPoints.map (fun p => { p with
        position := c.currentRange.min + (p.position - f.range.min) /
          (f.range.max - f.range.min) * (c.currentRange.max - c.currentRange.min) }) ∧
      ∀ gs' c' g', Gesture.run (c₀.attachFunction (some f), some f) gs' = (c', some g') →
        c'.currentRange = c.currentRange →
          g'.points = g.points ∧ g'.opacityPoints = g.opacityPoints ∧
            ∀ x, g'.valueAt x = g.valueAt x := by
  have hstart := RangeController.Shows.attachFunction h c₀
  obtain ⟨c, g, hrun, hg⟩ := hstart.run gs
  refine ⟨c, g, hrun, ?_, hg.range, hg.map.points, hg.map.opacityPoints, ?_⟩
  · intro next
    obtain ⟨c', g', hnext, -⟩ := hg.perform next
    rw [hnext]
    rfl
  · intro gs' c' g' hrun' hwindow
    obtain ⟨c'', g'', hrun'', hg''⟩ := hstart.run gs'
    obtain ⟨rfl, hsome⟩ := Prod.mk.inj (hrun'.symm.trans hrun'')
    obtain rfl := Option.some.inj hsome
    have hmap := hg''.map
    rw [hwindow] at hmap
    have halike : g'.toColorMap.Alike g.toColorMap := hmap.trans hg.map.symm
    exact ⟨halike.points, halike.opacityPoints, halike.valueAt⟩

/-- Both markers are dragged, the upper one in and then beyond the data, a range without a width is
asked for, and the window is slid too far. -/
def wideSlide : List (Gesture Rat) :=
  let plot : PlotTransform Rat := ⟨.shift 0 0, .shift 0 0⟩
  [.press 1 plot, .drag 2 plot, .release, .press 7 plot, .drag 2.5 plot, .drag 9 plot, .release,
    .setRange 2 2, .center 0]

theorem wideSlide_follows_markers :
    TransferFunction.crossedColors.range.min < TransferFunction.crossedColors.range.max ∧
      let f := TransferFunction.crossedColors
      let start : Chart Rat := ((RangeController.ofConfig .standard).attachFunction (some f), some f)
      ∃ c g, Gesture.run start wideSlide = (c, some g) ∧
        (∀ next : Gesture Rat, (next.perform (c, some g)).verdict = .ok ()) ∧
        g.range = c.currentRange ∧
        g.points = f.points.map (fun p => { p with
          position := c.currentRange.min + (p.position - f.range.min) /
            (f.range.max - f.range.min) * (c.currentRange.max - c.currentRange.min) }) ∧
        g.opacityPoints = f.opacityPoints.map (fun p => { p with
          position := c.currentRange.min + (p.position - f.range.min) /
            (f.range.max - f.range.min) * (c.currentRange.max - c.currentRange.min) }) ∧
        ∀ gs' c' g', Gesture.run start gs' = (c', some g') →
          c'.currentRange = c.currentRange →
            g'.points = g.points ∧ g'.opacityPoints = g.opacityPoints ∧
              ∀ x, g'.valueAt x = g.valueAt x := by
  have hcolors : TransferFunction.crossedColors.range.min <
    TransferFunction.crossedColors.range.max := by decide
  exact ⟨hcolors, run_follows_markers _ hcolors (.ofConfig .standard) wideSlide⟩

end TransferCurves
