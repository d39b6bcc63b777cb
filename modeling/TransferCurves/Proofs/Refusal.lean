import TransferCurves.Binary64
import TransferCurves.Proofs.Gesture
import TransferCurves.Proofs.Retiming
import Mathlib.Control.Monad.Basic
import Mathlib.Tactic.SplitIfs

/-!
# What a refused call leaves

A call on a controller and a function can be refused: the window or the range of the points is of no
use, or there is no such point. The controller is then as it was, and so is the function with all
that is derived from it and with what its observers were told. One trace can remain. Retiming attaches
an empty opacity curve to a function without one before it looks at the range of the points, and the
curve stays if that range is refused.
-/

namespace TransferCurves

open scoped Scalar

variable {α : Type}

def CurveError.blamesSource : CurveError α → Bool
  | .degenerateRange _ _ | .nonFinite .rangeBound => true
  | _ => false

/-- A call that can be refused, with the function it is made for. -/
inductive Request (α : Type)
  | retime (f : TransferFunction α) (newMin newMax : α)
  | gesture (f : Option (TransferFunction α)) (g : Gesture α)
  | recolor (f : TransferFunction α) (color : Rgb α)
  | setPoint (f : TransferFunction α) (index : Nat) (p : ColorPoint α)

namespace Request

def function : Request α → Option (TransferFunction α)
  | .retime f _ _ | .recolor f _ | .setPoint f _ _ => some f
  | .gesture f _ => f

def retimes : Request α → Bool
  | .retime _ _ _ | .gesture _ _ => true
  | .recolor _ _ | .setPoint _ _ _ => false

def perform [Scalar α] (c : RangeController α) : Request α → Attempt α (Chart α)
  | .retime f newMin newMax => (f.remapInPlace newMin newMax).map fun g => (c, some g)
  | .gesture f g => g.perform (c, f)
  | .recolor f color => (c.setCurrentPointColor f color).map fun g => (c, some g)
  | .setPoint f index p => (f.setPoint index p).map fun g => (c, some g)

end Request

theorem TransferFunction.setPoint_refused {f : TransferFunction α} {index : Nat}
    {p : ColorPoint α} {e : CurveError α} (h : (f.setPoint index p).verdict = .error e) :
    (f.setPoint index p).state = f := by
  rw [setPoint] at h ⊢
  split_ifs at h ⊢
  · cases h
  · rfl

theorem RangeController.setCurrentPointColor_refused {c : RangeController α}
    {f : TransferFunction α} {color : Rgb α} {e : CurveError α}
    (h : (c.setCurrentPointColor f color).verdict = .error e) :
    (c.setCurrentPointColor f color).state = f := by
  rw [setCurrentPointColor] at h ⊢
  cases hcurrent : c.currentPoint with
  | none => rfl
  | some index =>
    simp only [hcurrent] at h ⊢
    cases hpoint : f.point index with
    | error e' => rfl
    | ok p =>
      simp only [hpoint] at h ⊢
      exact TransferFunction.setPoint_refused h

namespace TransferFunction

def leftBy (f : TransferFunction α) (e : CurveError α) : TransferFunction α :=
  if e.blamesSource && f.opacity.isNone then { f with opacity := some {} } else f

variable {f : TransferFunction α} {e : CurveError α}

theorem leftBy_of_blames (h : e.blamesSource = true) : f.leftBy e = f.ensureOpacity := by
  rw [leftBy, h, Bool.true_and, ensureOpacity]
  cases hopacity : f.opacity with
  | none => rfl
  | some c =>
    simp only [Option.isNone_some, Bool.false_eq_true, if_false, Option.getD_some]
    rw [← hopacity]

variable [Scalar α]

theorem checkSource_blames {range : Range α} (h : f.checkSource range = .error e) :
    e.blamesSource = true := by
  obtain ⟨-, hrange⟩ := checkSource_eq_error_iff.1 h
  rcases Range.checkNormalizable_eq_error_iff.1 hrange with ⟨-, rfl⟩ | ⟨-, -, rfl⟩
  · rfl
  · rfl

theorem remap_refused (f target : TransferFunction α) {range : Range α} {a b : α}
    (h : f.checkTransfer range a b = .error e) :
    f.remap target range a b = .fail (f.leftBy e, target) e := by
  rcases checkTransfer_eq_error_iff.1 h with ⟨hinfinite, rfl⟩ | ⟨hfinite, hsource⟩
  · rw [remap_of_infinite f target range hinfinite]
    rfl
  · rw [remap_of_finite f target range hfinite, hsource,
      leftBy_of_blames (checkSource_blames hsource)]

theorem remapInPlace_refused {a b : α} (h : (f.remapInPlace a b).verdict = .error e) :
    (f.remapInPlace a b).state = f.leftBy e := by
  rw [verdict_remapInPlace] at h
  rw [remapInPlace, remap_refused f empty h]
  rfl

end TransferFunction

variable [Scalar α]

theorem RangeController.commit_refused {c : RangeController α} {r : Range α}
    {f : Option (TransferFunction α)} {e : CurveError α}
    (h : (c.commit r f).verdict = .error e) :
    (c.commit r f).state = (c, f.map (·.leftBy e)) := by
  cases f with
  | none => cases h
  | some f =>
    rw [commit] at h ⊢
    cases hretiming : (f.remapInPlace r.min r.max).verdict with
    | error e' =>
      simp only [hretiming, Attempt.fail, Except.error.injEq] at h ⊢
      subst h
      rw [TransferFunction.remapInPlace_refused hretiming, Option.map_some]
    | ok _ =>
      simp only [hretiming] at h
      cases h

theorem Gesture.perform_refused {c : RangeController α} {f : Option (TransferFunction α)}
    {g : Gesture α} {e : CurveError α} (h : (g.perform (c, f)).verdict = .error e) :
    (g.perform (c, f)).state = (c, f.map (·.leftBy e)) := by
  cases haim : g.aim c with
  | none =>
    rw [perform_of_aim_none haim] at h
    cases h
  | some r =>
    rw [perform_of_aim_some haim] at h ⊢
    exact RangeController.commit_refused h

/-- A refused call leaves the controller and the function, observers included, as they were. Only
where retiming was refused for the range of the points does a function without opacities have an
empty opacity curve afterwards. -/
theorem refused_request_leaves (c : RangeController α) (r : Request α) (e : CurveError α)
    (h : (r.perform c).verdict = .error e) :
    (r.perform c).state = (c, r.function.map fun f =>
      if r.retimes && e.blamesSource && f.opacity.isNone then { f with opacity := some {} }
      else f) := by
  cases r with
  | retime f newMin newMax =>
    exact congrArg (fun g => (c, some g)) (TransferFunction.remapInPlace_refused h)
  | gesture f g => exact Gesture.perform_refused h
  | recolor f color =>
    exact congrArg (fun g => (c, some g)) (RangeController.setCurrentPointColor_refused h)
  | setPoint f index p =>
    exact congrArg (fun g => (c, some g)) (TransferFunction.setPoint_refused h)

def loneColor : TransferFunction Binary64 := .ofPoints [.plain 3 ⟨1, 1, 1⟩]

theorem loneColor_refused :
    let c : RangeController Binary64 := .ofConfig .standard
    let r : Request Binary64 := .gesture (some loneColor) (.setRange 10 20)
    let e : CurveError Binary64 := .degenerateRange 3 3
    (r.perform c).verdict = .error e ∧
      (r.perform c).state = (c, r.function.map fun f =>
        if r.retimes && e.blamesSource && f.opacity.isNone then { f with opacity := some {} }
        else f) := by
  intro c r e
  have hrefused : (r.perform c).verdict = .error e := by decide +kernel
  exact ⟨hrefused, refused_request_leaves c r e hrefused⟩

theorem refusal_leaves_trace :
    ¬∀ (c : RangeController Binary64) (r : Request Binary64) (e : CurveError Binary64),
      (r.perform c).verdict = .error e → (r.perform c).state = (c, r.function) := by
  intro h
  have hstate := h (.ofConfig .standard) (.retime loneColor 0 1) (.degenerateRange 3 3)
    (by decide +kernel)
  exact absurd hstate (by decide +kernel)

end TransferCurves
