import TransferCurves.RangeController

/-!
# Gestures

What a user does with the markers of a chart: one call of the controller each, made with the function
of the chart if there is one. Main statement: a gesture either does no more than hold or drop a
marker, or it commits the range it aims at.
-/

namespace TransferCurves

open scoped Scalar

/-- A call of the controller that bears on the markers. -/
inductive Gesture (α : Type)
  | press (pixel : α) (t : PlotTransform α)
  | drag (pixel : α) (t : PlotTransform α)
  | release
  | setRange (min max : α)
  | center (place : α)
  | reset

abbrev Chart (α : Type) := RangeController α × Option (TransferFunction α)

namespace Gesture

variable {α : Type} [Scalar α]

def perform (s : Chart α) : Gesture α → Attempt α (Chart α)
  | .press pixel t => .done (s.1.press pixel t, s.2)
  | .drag pixel t => s.1.dragTo pixel t s.2
  | .release => .done (s.1.release, s.2)
  | .setRange min max => s.1.setCurrentRange min max s.2
  | .center place => s.1.centerRange place s.2
  | .reset => s.1.resetRange s.2

def run (s : Chart α) : List (Gesture α) → Chart α
  | [] => s
  | g :: gs => run (g.perform s).state gs

def aim (c : RangeController α) : Gesture α → Option (Range α)
  | .press _ _ | .release => none
  | .drag pixel t => c.moving.map fun handle => c.moved handle (t.toData pixel)
  | .setRange min max => some (c.proposed min max)
  | .center place =>
    let half := c.currentRange.width / 2
    let allowed : Range α := ⟨c.dataRange.min + half, c.dataRange.max - half⟩
    let newMin := allowed.clamp place - half
    some (c.proposed newMin (newMin + 2 * half))
  | .reset => some (c.proposed c.dataRange.min c.dataRange.max)

def held (c : RangeController α) : Gesture α → Option RangeHandle
  | .press pixel t => (c.press pixel t).moving
  | .release => none
  | _ => c.moving

theorem press_eq (c : RangeController α) (pixel : α) (t : PlotTransform α) :
    c.press pixel t = { c with moving := (c.press pixel t).moving } := by
  rw [RangeController.press]
  cases c.moving with
  | none => rfl
  | some handle => rfl

theorem perform_of_aim_none {c : RangeController α} {g : Gesture α} (h : g.aim c = none)
    (f : Option (TransferFunction α)) :
    g.perform (c, f) = .done ({ c with moving := g.held c }, f) := by
  cases g with
  | press pixel t => rw [perform, press_eq]; rfl
  | drag pixel t =>
    have hm : c.moving = none := Option.map_eq_none_iff.1 h
    rw [perform, RangeController.dragTo, hm]
    rfl
  | release => rfl
  | setRange min max => cases h
  | center place => cases h
  | reset => cases h

theorem perform_of_aim_some {c : RangeController α} {g : Gesture α} {r : Range α}
    (h : g.aim c = some r) (f : Option (TransferFunction α)) :
    g.perform (c, f) = c.commit r f := by
  cases g with
  | press pixel t => cases h
  | drag pixel t =>
    obtain ⟨handle, hm, rfl⟩ := Option.map_eq_some_iff.1 h
    simp only [perform, RangeController.dragTo, hm]
  | release => cases h
  | setRange min max => cases h; rfl
  | center place => cases h; rfl
  | reset => cases h; rfl

end Gesture

namespace RangeController

variable {α : Type} [Scalar α]

theorem commit_of_done {c : RangeController α} {r : Range α} {f g : TransferFunction α}
    (h : f.remapInPlace r.min r.max = .done g) :
    c.commit r (some f) =
      .done ({ c with currentRange := r }, some (g.notify (.rangeChanged r.min r.max))) := by
  simp only [commit, h, Attempt.done]

theorem commit_of_fail {c : RangeController α} {r : Range α} {f g : TransferFunction α}
    {e : CurveError α} (h : f.remapInPlace r.min r.max = .fail g e) :
    c.commit r (some f) = .fail (c, some g) e := by
  simp only [commit, h, Attempt.fail]

theorem commit_controller (c : RangeController α) (r : Range α)
    (f : Option (TransferFunction α)) :
    (c.commit r f).state.1 = c ∨ (c.commit r f).state.1 = { c with currentRange := r } := by
  cases f with
  | none => exact Or.inr rfl
  | some f =>
    rw [commit]
    cases (f.remapInPlace r.min r.max).verdict with
    | error e => exact Or.inl rfl
    | ok _ => exact Or.inr rfl

end RangeController

theorem Gesture.perform_controller {α : Type} [Scalar α] (c : RangeController α)
    (f : Option (TransferFunction α)) (g : Gesture α) :
    (∃ m, (g.perform (c, f)).state.1 = { c with moving := m }) ∨
      ∃ r, g.aim c = some r ∧ (g.perform (c, f)).state.1 = { c with currentRange := r } := by
  cases ha : g.aim c with
  | none =>
    rw [perform_of_aim_none ha]
    exact Or.inl ⟨_, rfl⟩
  | some r =>
    rw [perform_of_aim_some ha]
    rcases c.commit_controller r f with h | h
    · exact Or.inl ⟨c.moving, h⟩
    · exact Or.inr ⟨r, rfl, h⟩

inductive Call (α : Type)
  | attach (data : Range α)
  | attachFunction (f : Option (TransferFunction α))
  | gesture (g : Gesture α) (f : Option (TransferFunction α))
  | select (index : Option Nat) (f : TransferFunction α)
  | recolor (f : TransferFunction α) (color : Rgb α)

namespace Call

variable {α : Type} [Scalar α]

def apply (c : RangeController α) : Call α → RangeController α
  | .attach data => c.attach data
  | .attachFunction f => c.attachFunction f
  | .gesture g f => (g.perform (c, f)).state.1
  | .select index f => (c.setCurrentPoint index f).1
  | .recolor _ _ => c

def run (c : RangeController α) : List (Call α) → RangeController α
  | [] => c
  | call :: calls => run (call.apply c) calls

end Call

end TransferCurves
