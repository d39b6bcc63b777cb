import TransferCurves.Binary64
import TransferCurves.Proofs.Gesture
import Mathlib.Logic.Function.Basic
import Mathlib.Tactic.SplitIfs

/-!
# One marker per drag

From a press to the release a chart sees presses and drags only, over plots that may change and with
functions that may change or fail to follow. As long as no press grabs a marker nothing happens at
all. Once one does, that marker stays held, and it is the only thing of the controller that moves.
-/

namespace TransferCurves

open scoped Scalar

namespace Range

variable {α : Type}

def bound (r : Range α) : RangeHandle → α
  | .min => r.min
  | .max => r.max

def withBound (r : Range α) (x : α) : RangeHandle → Range α
  | .min => { r with min := x }
  | .max => { r with max := x }

@[simp] theorem bound_withBound (r : Range α) (x : α) (handle : RangeHandle) :
    (r.withBound x handle).bound handle = x := by
  cases handle <;> rfl

@[simp] theorem withBound_withBound (r : Range α) (x y : α) (handle : RangeHandle) :
    (r.withBound x handle).withBound y handle = r.withBound y handle := by
  cases handle <;> rfl

theorem withBound_bound (r : Range α) (handle : RangeHandle) :
    r.withBound (r.bound handle) handle = r := by
  cases handle <;> rfl

variable [Scalar α]

def StaysShort (r : Range α) (x : α) : RangeHandle → Prop
  | .min => x < r.max
  | .max => r.min < x

theorem staysShort_withBound {r : Range α} {x y : α} {handle : RangeHandle} :
    (r.withBound y handle).StaysShort x handle ↔ r.StaysShort x handle := by
  cases handle <;> rfl

end Range

theorem RangeController.moved_eq {α : Type} [Scalar α] (c : RangeController α)
    (handle : RangeHandle) (value : α) :
    ∃ x, c.moved handle value = c.currentRange.withBound x handle ∧
      (x = c.currentRange.bound handle ∨ x = c.dataRange.bound handle ∨
        x = value ∧ c.currentRange.StaysShort value handle) := by
  cases handle with
  | min =>
    rw [moved]
    split_ifs with hout hin
    · exact ⟨_, rfl, Or.inr (Or.inl rfl)⟩
    · exact ⟨_, rfl, Or.inr (Or.inr ⟨rfl, hin⟩)⟩
    · exact ⟨_, (c.currentRange.withBound_bound .min).symm, Or.inl rfl⟩
  | max =>
    rw [moved]
    split_ifs with hout hin
    · exact ⟨_, rfl, Or.inr (Or.inl rfl)⟩
    · exact ⟨_, rfl, Or.inr (Or.inr ⟨rfl, hin⟩)⟩
    · exact ⟨_, (c.currentRange.withBound_bound .max).symm, Or.inl rfl⟩

/-- What a chart sees between a press and the release. A drag names the function it is made with, if
any. -/
inductive Pull (ι α : Type)
  | press (pixel : α) (t : PlotTransform α)
  | drag (pixel : α) (t : PlotTransform α) (name : Option ι)

structure Desk (ι α : Type) where
  controller : RangeController α
  functions : ι → TransferFunction α

variable {ι α : Type} [DecidableEq ι] [Scalar α]

def Pull.apply (d : Desk ι α) : Pull ι α → Desk ι α
  | .press pixel t => { d with controller := d.controller.press pixel t }
  | .drag pixel t name =>
    let s := (d.controller.dragTo pixel t (name.map d.functions)).state
    { controller := s.1
      functions := match name with
        | none => d.functions
        | some i => Function.update d.functions i (s.2.getD (d.functions i)) }

namespace Desk

def run (d : Desk ι α) : List (Pull ι α) → Desk ι α
  | [] => d
  | p :: pulls => run (p.apply d) pulls

def answers (d : Desk ι α) : List (Pull ι α) → List (Option RangeHandle)
  | [] => []
  | .press pixel t :: pulls =>
    (d.controller.press pixel t).moving :: answers (Pull.apply d (.press pixel t)) pulls
  | .drag pixel t name :: pulls => answers (Pull.apply d (.drag pixel t name)) pulls

theorem run_append (d : Desk ι α) (before after : List (Pull ι α)) :
    d.run (before ++ after) = (d.run before).run after := by
  induction before generalizing d with
  | nil => rfl
  | cons p before ih => exact ih (p.apply d)

section

variable {d : Desk ι α} (hidle : d.controller.moving = none)

include hidle

theorem apply_press_missed {pixel : α} {t : PlotTransform α}
    (h : (d.controller.press pixel t).moving = none) :
    Pull.apply d (.press pixel t) = d := by
  have hcontroller : d.controller.press pixel t = d.controller := by
    rw [Gesture.press_eq, h, ← hidle]
  rw [Pull.apply, hcontroller]

theorem apply_drag_idle (pixel : α) (t : PlotTransform α) (name : Option ι) :
    Pull.apply d (.drag pixel t name) = d := by
  cases name with
  | none =>
    rw [Pull.apply, RangeController.dragTo, hidle]
    rfl
  | some i =>
    rw [Pull.apply, RangeController.dragTo, hidle]
    exact congrArg (Desk.mk d.controller) (Function.update_eq_self i d.functions)

theorem run_of_missed {pulls : List (Pull ι α)} (h : ∀ a ∈ d.answers pulls, a = none) :
    d.run pulls = d := by
  induction pulls with
  | nil => rfl
  | cons p pulls ih =>
    cases p with
    | press pixel t =>
      obtain ⟨hpress, hrest⟩ := List.forall_mem_cons.1 h
      have hstep := apply_press_missed hidle hpress
      rw [hstep] at hrest
      rw [run, hstep]
      exact ih hrest
    | drag pixel t name =>
      have hstep := apply_drag_idle hidle pixel t name
      rw [answers, hstep] at h
      rw [run, hstep]
      exact ih h

end

/-- Where a held marker can stand: where it was grabbed, at the bound of the data on its side, or where
one of the drags pulled it, short of the other marker. -/
inductive Stop (c : RangeController α) (handle : RangeHandle) (pulls : List (Pull ι α)) : α → Prop
  | grabbed : Stop c handle pulls (c.currentRange.bound handle)
  | edge : Stop c handle pulls (c.dataRange.bound handle)
  | pulled {pixel : α} {t : PlotTransform α} {name : Option ι} :
      .drag pixel t name ∈ pulls → c.currentRange.StaysShort (t.toData pixel) handle →
      Stop c handle pulls (t.toData pixel)

def Held (start : RangeController α) (handle : RangeHandle) (pulls : List (Pull ι α))
    (c : RangeController α) : Prop :=
  ∃ x, c = { start with
      moving := some handle
      currentRange := start.currentRange.withBound x handle } ∧ Stop start handle pulls x

section

variable {start c : RangeController α} {handle : RangeHandle} {all : List (Pull ι α)}

omit [DecidableEq ι] in
theorem Held.moving (h : Held start handle all c) : c.moving = some handle := by
  obtain ⟨x, rfl, -⟩ := h
  rfl

omit [DecidableEq ι] in
theorem Held.press (h : Held start handle all c) (pixel : α) (t : PlotTransform α) :
    c.press pixel t = c := by
  rw [RangeController.press, h.moving]

omit [DecidableEq ι] in
theorem Held.moved (h : Held start handle all c) {pixel : α} {t : PlotTransform α}
    {name : Option ι} (hdrag : .drag pixel t name ∈ all) :
    Held start handle all { c with currentRange := c.moved handle (t.toData pixel) } := by
  obtain ⟨x, rfl, hx⟩ := h
  obtain ⟨y, hmoved, hy⟩ := RangeController.moved_eq { start with
    moving := some handle
    currentRange := start.currentRange.withBound x handle } handle (t.toData pixel)
  rw [Range.withBound_withBound] at hmoved
  refine ⟨y, by rw [hmoved], ?_⟩
  rcases hy with rfl | rfl | ⟨rfl, hside⟩
  · rwa [Range.bound_withBound]
  · exact .edge
  · exact .pulled hdrag (Range.staysShort_withBound.1 hside)

theorem Held.apply {d : Desk ι α} (h : Held start handle all d.controller) {p : Pull ι α}
    (hp : p ∈ all) : Held start handle all (p.apply d).controller := by
  cases p with
  | press pixel t =>
    change Held start handle all (d.controller.press pixel t)
    rwa [h.press]
  | drag pixel t name =>
    change Held start handle all
      (d.controller.dragTo pixel t (name.map d.functions)).state.1
    simp only [RangeController.dragTo, h.moving]
    -- A retiming that fails leaves the controller as it was.
    rcases d.controller.commit_controller (d.controller.moved handle (t.toData pixel))
      (name.map d.functions) with hkept | hset
    · rwa [hkept]
    · rw [hset]
      exact h.moved hp

theorem Held.run {d : Desk ι α} (h : Held start handle all d.controller) {pulls : List (Pull ι α)}
    (hpulls : ∀ p ∈ pulls, p ∈ all) : Held start handle all (d.run pulls).controller := by
  induction pulls generalizing d with
  | nil => exact h
  | cons p pulls ih =>
    obtain ⟨hp, hrest⟩ := List.forall_mem_cons.1 hpulls
    exact ih (h.apply hp) hrest

theorem Held.answers {d : Desk ι α} (h : Held start handle all d.controller)
    {pulls : List (Pull ι α)} (hpulls : ∀ p ∈ pulls, p ∈ all) :
    ∀ a ∈ d.answers pulls, a = some handle := by
  induction pulls generalizing d with
  | nil => exact List.forall_mem_nil _
  | cons p pulls ih =>
    obtain ⟨hp, hrest⟩ := List.forall_mem_cons.1 hpulls
    have hanswers := ih (h.apply hp) hrest
    cases p with
    | press pixel t =>
      refine List.forall_mem_cons.2 ⟨?_, hanswers⟩
      rw [h.press, h.moving]
    | drag pixel t name => exact hanswers

end

/-- Presses and drags on a controller that holds no marker do nothing, neither to it nor to any
function, as long as no press grabs one. From the press that does, and up to any later moment, every
press returns the marker that is held, and the controller is the one of the start but for that marker
and its place: it stands where it stood, at the bound of the data on its side, or where a drag since
then pulled it, short of the other marker. -/
theorem pulls_move_held_marker (d : Desk ι α) (hidle : d.controller.moving = none) :
    (∀ pulls, (∀ a ∈ d.answers pulls, a = none) → d.run pulls = d) ∧
      ∀ before pixel t after handle, (∀ a ∈ d.answers before, a = none) →
        ((d.run before).controller.press pixel t).moving = some handle →
          (∀ a ∈ (d.run (before ++ [.press pixel t])).answers after, a = some handle) ∧
          ∃ x, (d.run (before ++ .press pixel t :: after)).controller = { d.controller with
              moving := some handle
              currentRange := d.controller.currentRange.withBound x handle } ∧
            Stop d.controller handle after x := by
  refine ⟨fun _ => run_of_missed hidle, ?_⟩
  intro before pixel t after handle hmissed hgrab
  rw [run_append, run_append, run_of_missed hidle hmissed]
  rw [run_of_missed hidle hmissed] at hgrab
  have hheld : Held d.controller handle after (d.controller.press pixel t) := by
    refine ⟨_, ?_, .grabbed⟩
    rw [Range.withBound_bound, Gesture.press_eq, hgrab]
  let grabbed : Desk ι α := { d with controller := d.controller.press pixel t }
  exact ⟨hheld.answers (d := grabbed) fun _ hp => hp, hheld.run (d := grabbed) fun _ hp => hp⟩

theorem lateGrab_moves_upper :
    let d : Desk Unit Binary64 :=
      ⟨.ofConfig .standard, fun _ => .ofPoints [.plain 3 ⟨1, 1, 1⟩]⟩
    let plot : PlotTransform Binary64 := ⟨.shift 0 0, .shift 0 0⟩
    let wide : PlotTransform Binary64 := ⟨.scaling 2 1, .scaling 0.5 1⟩
    let before : List (Pull Unit Binary64) := [.press 100 plot, .drag 7 plot (some ())]
    let after : List (Pull Unit Binary64) :=
      [.drag 100 wide none, .press 0 plot, .drag 20 plot (some ()), .drag 900 wide none]
    d.controller.moving = none ∧ (∀ a ∈ d.answers before, a = none) ∧
      ((d.run before).controller.press 254 plot).moving = some .max ∧ d.run before = d ∧
      (∀ a ∈ (d.run (before ++ [.press 254 plot])).answers after, a = some .max) ∧
      ∃ x, (d.run (before ++ .press 254 plot :: after)).controller = { d.controller with
          moving := some .max
          currentRange := d.controller.currentRange.withBound x .max } ∧
        Stop d.controller .max after x := by
  intro d plot wide before after
  have hidle : d.controller.moving = none := rfl
  have hmissed : ∀ a ∈ d.answers before, a = none := by decide +kernel
  have hgrab : ((d.run before).controller.press 254 plot).moving = some .max := by decide +kernel
  obtain ⟨hquiet, hmoves⟩ := d.pulls_move_held_marker hidle
  exact ⟨hidle, hmissed, hgrab, hquiet before hmissed,
    hmoves before 254 plot after .max hmissed hgrab⟩

end Desk

end TransferCurves
