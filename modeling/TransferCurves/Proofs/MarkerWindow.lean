import TransferCurves.Proofs.Binary64Order
import TransferCurves.Proofs.Gesture

/-!
# The markers stay in the data

Whatever is pressed, dragged, typed or centered, and whether or not the function can follow, the
markers stand in order inside the data, and apart from each other unless the data has no width. The
argument uses the order of scalars only: pixels, bounds and centers may be infinite or no number.
-/

namespace TransferCurves

open scoped Scalar

/-- The range `r` lies inside `data`, and has a width unless `data` has none. -/
structure Range.Frames {α : Type} [Scalar α] (data r : Range α) : Prop where
  lower : data.min ≤ r.min
  ordered : r.min ≤ r.max
  upper : r.max ≤ data.max
  apart : data.min < data.max → r.min < r.max

namespace Range

variable {α : Type} [Scalar α] [Scalar.Ordered α] {data r : Range α}

theorem frames_self (h : data.min ≤ data.max) : data.Frames data where
  lower := Scalar.le_refl (Scalar.Ordered.number_of_le h).1
  ordered := h
  upper := Scalar.le_refl (Scalar.Ordered.number_of_le h).2
  apart := id

theorem frames_of_lt (hl : data.min ≤ r.min) (h : r.min < r.max) (hu : r.max ≤ data.max) :
    data.Frames r :=
  ⟨hl, Scalar.le_of_lt h, hu, fun _ => h⟩

theorem Frames.data_ordered (h : data.Frames r) : data.min ≤ data.max :=
  Scalar.Ordered.trans h.lower (Scalar.Ordered.trans h.ordered h.upper)

end Range

namespace RangeController

variable {α : Type} [Scalar α] [Scalar.Ordered α] {c : RangeController α}

theorem proposed_frames (h : c.dataRange.Frames c.currentRange) (min max : α) :
    c.dataRange.Frames (c.proposed min max) := by
  have hdata := h.data_ordered
  rw [proposed]
  split_ifs with hlt
  · exact Range.frames_of_lt (Range.le_clamp hdata min) hlt (Range.clamp_le hdata max)
  · exact h

theorem moved_frames (h : c.dataRange.Frames c.currentRange) (handle : RangeHandle) (value : α) :
    c.dataRange.Frames (c.moved handle value) := by
  have hdata := h.data_ordered
  cases handle with
  | min =>
    rw [moved]
    split_ifs with hout hin
    · exact {
        lower := Scalar.le_refl (Scalar.Ordered.number_of_le hdata).1
        ordered := Scalar.Ordered.trans h.lower h.ordered
        upper := h.upper
        apart := fun hw => Scalar.lt_of_le_of_lt h.lower (h.apart hw) }
    -- The comparison with the other marker shows that the value is a number, so not being below
    -- the data is being inside.
    · have hvalue := (Scalar.number_of_lt hin).1
      exact Range.frames_of_lt
        (Scalar.le_of_not_lt hvalue (Scalar.Ordered.number_of_le hdata).1 hout) hin h.upper
    · exact h
  | max =>
    rw [moved]
    split_ifs with hout hin
    · exact {
        lower := h.lower
        ordered := Scalar.Ordered.trans h.ordered h.upper
        upper := Scalar.le_refl (Scalar.Ordered.number_of_le hdata).2
        apart := fun hw => Scalar.lt_of_lt_of_le (h.apart hw) h.upper }
    · have hvalue := (Scalar.number_of_lt hin).2
      exact Range.frames_of_lt h.lower hin
        (Scalar.le_of_not_lt (Scalar.Ordered.number_of_le hdata).2 hvalue hout)
    · exact h

end RangeController

theorem Gesture.aim_frames {α : Type} [Scalar α] [Scalar.Ordered α] {c : RangeController α}
    (h : c.dataRange.Frames c.currentRange) {g : Gesture α} {r : Range α}
    (hr : g.aim c = some r) : c.dataRange.Frames r := by
  cases g with
  | press pixel t => cases hr
  | drag pixel t =>
    obtain ⟨handle, -, rfl⟩ := Option.map_eq_some_iff.1 hr
    exact c.moved_frames h handle (t.toData pixel)
  | release => cases hr
  | setRange min max =>
    cases hr
    exact c.proposed_frames h min max
  | center place =>
    cases hr
    exact c.proposed_frames h _ _
  | reset =>
    cases hr
    exact c.proposed_frames h _ _

structure RangeController.Sound {α : Type} [Scalar α] (c : RangeController α) : Prop where
  window : c.dataRange.Frames c.currentRange
  fallback : c.emptyRange.min ≤ c.emptyRange.max

theorem EditorConfig.emptyRange_ordered {α : Type} [Scalar α] [Scalar.Ordered α]
    {config : EditorConfig α} (h : config.validate = .ok ()) :
    config.emptyRange.min ≤ config.emptyRange.max := by
  obtain ⟨-, -, -, ⟨hfinite, hlt⟩, -⟩ := config.validate_eq_ok_iff.1 h
  obtain ⟨hmin, hmax⟩ := Bool.and_eq_true_iff.1 hfinite
  have htotal := Scalar.Ordered.total (Scalar.Ordered.number_of_finite hmin)
    (Scalar.Ordered.number_of_finite hmax)
  exact htotal.resolve_right hlt

namespace RangeController.Sound

variable {α : Type} [Scalar α] [Scalar.Ordered α] {c : RangeController α}

theorem ofConfig {config : EditorConfig α} (h : config.validate = .ok ()) :
    (RangeController.ofConfig config).Sound :=
  ⟨Range.frames_self (EditorConfig.emptyRange_ordered h), EditorConfig.emptyRange_ordered h⟩

theorem attach (h : c.Sound) {data : Range α} (hdata : data.min ≤ data.max) :
    (c.attach data).Sound :=
  ⟨Range.frames_self hdata, h.fallback⟩

theorem perform (h : c.Sound) (f : Option (TransferFunction α)) (g : Gesture α) :
    (g.perform (c, f)).state.1.Sound := by
  rcases g.perform_controller c f with ⟨m, hc⟩ | ⟨r, hr, hc⟩
  · rw [hc]
    exact ⟨h.window, h.fallback⟩
  · rw [hc]
    exact ⟨Gesture.aim_frames h.window hr, h.fallback⟩

end RangeController.Sound

namespace Call

variable {α : Type} [Scalar α]

/-- Data is attached with its bounds in order, and a function with a range of numbers. -/
def Admissible : Call α → Prop
  | .attach data => data.min ≤ data.max
  | .attachFunction (some f) =>
    Scalar.isNaN f.range.min = false ∧ Scalar.isNaN f.range.max = false
  | _ => True

variable [Scalar.Ordered α] {c : RangeController α}

theorem apply_sound (h : c.Sound) {call : Call α} (hcall : call.Admissible) :
    (call.apply c).Sound := by
  cases call with
  | attach data => exact h.attach hcall
  | attachFunction f =>
    cases f with
    | none => exact h.attach h.fallback
    | some f => exact h.attach (Range.ofPositions_ordered hcall.1)
  | gesture g f => exact h.perform f g
  | select index f =>
    rw [apply, RangeController.setCurrentPoint]
    split_ifs
    · exact h
    · exact ⟨h.window, h.fallback⟩
  | recolor f color => exact h

theorem run_sound (h : c.Sound) {calls : List (Call α)} (hcalls : ∀ call ∈ calls, call.Admissible) :
    (run c calls).Sound := by
  induction calls generalizing c with
  | nil => exact h
  | cons call calls ih =>
    obtain ⟨hcall, hrest⟩ := List.forall_mem_cons.1 hcalls
    exact ih (apply_sound h hcall) hrest

/-- In every state that a controller of an accepted configuration reaches, the markers stand in
order inside the data, and apart if the data has a width. -/
theorem run_markers_in_data (config : EditorConfig Binary64) (hconfig : config.validate = .ok ())
    (calls : List (Call Binary64)) (hcalls : ∀ call ∈ calls, call.Admissible) :
    let c := run (.ofConfig config) calls
    c.dataRange.min ≤ c.currentRange.min ∧ c.currentRange.min ≤ c.currentRange.max ∧
      c.currentRange.max ≤ c.dataRange.max ∧
      (c.dataRange.min < c.dataRange.max → c.currentRange.min < c.currentRange.max) := by
  obtain ⟨hlower, hordered, hupper, hapart⟩ := (run_sound (.ofConfig hconfig) hcalls).window
  exact ⟨hlower, hordered, hupper, hapart⟩

def strayRun : List (Call Binary64) :=
  let plot : PlotTransform Binary64 := ⟨.shift 0 0, .shift 0 0⟩
  [.attach ⟨0, 1⟩, .gesture (.press 0 plot) none, .gesture (.drag (1 / 4) plot) none,
    .gesture (.drag (0 / 0) plot) none, .gesture (.setRange (0 / 0) (1 / 0)) none,
    .gesture (.center (-(1 / 0))) (some (.ofPoints [.plain 3 ⟨0, 0, 0⟩])),
    .attachFunction (some (.ofPoints [.plain 2 ⟨0, 0, 0⟩, .plain 1 ⟨1, 1, 1⟩])),
    .select (some 1) .empty, .gesture .reset none]

theorem strayRun_markers_in_data :
    (EditorConfig.standard : EditorConfig Binary64).validate = .ok () ∧
      (∀ call ∈ strayRun, call.Admissible) ∧
      let c := run (.ofConfig .standard) strayRun
      c.dataRange.min ≤ c.currentRange.min ∧ c.currentRange.min ≤ c.currentRange.max ∧
        c.currentRange.max ≤ c.dataRange.max ∧
        (c.dataRange.min < c.dataRange.max → c.currentRange.min < c.currentRange.max) := by
  have hconfig : (EditorConfig.standard : EditorConfig Binary64).validate = .ok () :=
    (EditorConfig.validate_eq_ok_iff _).2 (by decide +kernel)
  have hcalls : ∀ call ∈ strayRun, call.Admissible := by
    have hdata : (0 : Binary64) ≤ 1 := by decide
    simp only [strayRun, List.forall_mem_cons, Admissible, hdata, true_and]
    exact ⟨⟨by decide +kernel, by decide +kernel⟩, List.forall_mem_nil _⟩
  have hmarkers := run_markers_in_data .standard hconfig strayRun hcalls
  exact ⟨hconfig, hcalls, hmarkers⟩

end Call

end TransferCurves
