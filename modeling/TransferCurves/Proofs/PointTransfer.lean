import TransferCurves.Binary64
import TransferCurves.Message
import TransferCurves.Proofs.Refusal

/-!
# Handing points over

Retiming hands the points of one function to another. One check decides it; here everything that
the check can answer is written down, and with it what either function is left as. A function that
is retimed in place hands its points to a scratch function and takes them back, and becomes what it
would be if it took them from a copy of itself.
-/

namespace TransferCurves

open scoped Scalar

variable {α : Type}

namespace TransferFunction

theorem ensureOpacity_eq (f : TransferFunction α) :
    f.ensureOpacity = if f.opacity.isNone then { f with opacity := some {} } else f :=
  (leftBy_of_blames (e := .nonFinite .rangeBound) rfl).symm

end TransferFunction

theorem OpacityCurve.foldl_addPoint (c : OpacityCurve α) (ps : List (OpacityPoint α)) :
    ps.foldl addPoint c = ⟨c.points ++ ps⟩ := by
  induction ps generalizing c with
  | nil => simp
  | cons p ps ih => simp [ih, addPoint]

namespace TransferFunction

variable [Scalar α]

theorem overwrite_eq_calls (f : TransferFunction α) (colors : List (ColorPoint α))
    (opacities : List (OpacityPoint α)) :
    f.overwrite colors opacities =
      finalize (opacityModified (modified
        (({ f with points := colors } : TransferFunction α).ensureOpacity.editOpacity fun c =>
          opacities.foldl .addPoint { c with points := [] }))) := by
  simp [overwrite, editOpacity, ensureOpacity, OpacityCurve.foldl_addPoint]

/-- A transfer that is done leaves the target with the points of the source, all of them and in
their order, with nothing changed but the positions; its options, the size of its table and its
subscriptions stay. The source gets an empty opacity curve if it had none. -/
theorem remap_hands_over (source target : TransferFunction α) (range : Range α) (newMin newMax : α)
    (h : (source.remap target range newMin newMax).verdict = .ok ()) :
    let place (x : α) := newMin + (x - range.min) / (range.max - range.min) * (newMax - newMin)
    let source' := (source.remap target range newMin newMax).state.1
    let target' := (source.remap target range newMin newMax).state.2
    target'.points = source.points.map (fun p => { p with position := place p.position }) ∧
      target'.opacity =
        some ⟨source.opacityPoints.map fun p => { p with position := place p.position }⟩ ∧
      (target'.opacityMapping = target.opacityMapping ∧ target'.discretize = target.discretize ∧
        target'.numberOfValues = target.numberOfValues ∧ target'.nanColor = target.nanColor ∧
        target'.tableSize = target.tableSize) ∧
      target'.observers = { target.observers with
        delivered := target.observers.delivered ++ target.observers.live.map (·, .pointsChanged) ++
          target.observers.live.map (·, .opacityChanged) ++
          target.observers.live.map (·, .rebuilt) } ∧
      target'.revision = target.revision + 2 ∧ target'.stale = false ∧
      target'.table = some (LookupTable.build target'.toColorMap target.tableSize) ∧
      source' = if source.opacity.isNone then { source with opacity := some {} } else source := by
  intro place source' target'
  rw [verdict_remap] at h
  have hdone := remap_done source target h
  have hsource : source' = source.ensureOpacity := congrArg (fun r => r.state.1) hdone
  have htarget : target' =
      target.overwrite (source.points.map (.reposition (retimed range newMin newMax)))
        (source.opacityPoints.map (.reposition (retimed range newMin newMax))) :=
    congrArg (fun r => r.state.2) hdone
  rw [hsource, htarget]
  exact ⟨rfl, rfl, ⟨rfl, rfl, rfl, rfl, rfl⟩, rfl, rfl, rfl, rfl, source.ensureOpacity_eq⟩

def crossedSource : TransferFunction Binary64 :=
  (TransferFunction.ofPoints [.plain 1 ⟨1, 0, 0⟩, ⟨-1, ⟨0, 0, 1⟩, 0.25, 1⟩]).withOpacity
    ⟨[.plain 3 0.5]⟩

def observedPair : TransferFunction Binary64 :=
  (TransferFunction.ofPoints [.plain 0 ⟨0, 0, 0⟩, .plain 1 ⟨1, 1, 1⟩]).subscribe.2

def observedRamp : TransferFunction Binary64 :=
  observedPair.withOpacity ⟨[.plain 0 0, .plain 1 1]⟩

theorem crossedSource_handed_over :
    let result := crossedSource.remap observedRamp ⟨-1, 1⟩ 10 0
    result.verdict = .ok () ∧
      result.state.2.points = [.plain 0 ⟨1, 0, 0⟩, ⟨10, ⟨0, 0, 1⟩, 0.25, 1⟩] ∧
      result.state.2.opacity = some ⟨[.plain (-10) 0.5]⟩ ∧
      result.state.2.observers.delivered =
        [(⟨0⟩, .pointsChanged), (⟨0⟩, .opacityChanged), (⟨0⟩, .rebuilt)] := by
  intro result
  have hverdict : result.verdict = .ok () := by decide +kernel
  obtain ⟨hpoints, hopacity, -, hobservers, -⟩ :=
    remap_hands_over crossedSource observedRamp ⟨-1, 1⟩ 10 0 hverdict
  have hdelivered := congrArg Observers.delivered hobservers
  exact ⟨hverdict, hpoints.trans (by decide +kernel), hopacity.trans (by decide +kernel),
    hdelivered.trans rfl⟩

/-- What is refused and for which reason: a window that is not finite always, a range that is not
finite or has no width if there are points to measure against it, and nothing else. The target is
left as it was, observers included; a source without an opacity curve is left with an empty one if
the range was refused. -/
theorem remap_refused_iff (source target : TransferFunction α) (range : Range α)
    (newMin newMax : α) :
    let result := source.remap target range newMin newMax
    let window := Scalar.isFinite newMin = true ∧ Scalar.isFinite newMax = true
    let bounded := Scalar.isFinite range.min = true ∧ Scalar.isFinite range.max = true
    let level := Scalar.equal range.max range.min = true
    (Quantity.targetBound.name = "target bound" ∧ Quantity.rangeBound.name = "range bound") ∧
      (result.verdict = .error (.nonFinite .targetBound) ↔ ¬window) ∧
      (result.verdict = .error (.nonFinite .rangeBound) ↔
        window ∧ source.HasPoints ∧ ¬bounded) ∧
      (∀ lo hi, result.verdict = .error (.degenerateRange lo hi) ↔
        window ∧ source.HasPoints ∧ bounded ∧ level ∧ lo = range.min ∧ hi = range.max) ∧
      (result.verdict = .ok () ↔ window ∧ (source.HasPoints → bounded ∧ ¬level)) ∧
      ∀ e, result.verdict = .error e →
        result.state =
          (if e.blamesSource && source.opacity.isNone then { source with opacity := some {} }
            else source, target) := by
  intro result window bounded level
  have hverdict : result.verdict = source.checkTransfer range newMin newMax :=
    verdict_remap source target range newMin newMax
  rw [hverdict]
  refine ⟨⟨rfl, rfl⟩, ?_, ?_, fun lo hi => ?_, ?_, fun e herror => ?_⟩
  · simp [checkTransfer_eq_error_iff, checkSource_eq_error_iff,
      Range.checkNormalizable_eq_error_iff, window]
  · simp [checkTransfer_eq_error_iff, checkSource_eq_error_iff,
      Range.checkNormalizable_eq_error_iff, Range.isFinite_iff, window, bounded]
  · simp [checkTransfer_eq_error_iff, checkSource_eq_error_iff,
      Range.checkNormalizable_eq_error_iff, Range.isFinite_iff, Range.isDegenerate, window, bounded,
      level, and_assoc]
  · simp [checkTransfer_eq_ok_iff, checkSource_eq_ok_iff, Range.checkNormalizable_eq_ok_iff,
      Range.isFinite_iff, Range.isDegenerate, window, bounded, level]
  · exact congrArg (·.state) (remap_refused source target herror)

def zeroColors : TransferFunction Binary64 :=
  .ofPoints [.plain (-0) ⟨1, 0, 0⟩, .plain 0 ⟨0, 0, 1⟩]

theorem zeroColors_refused :
    let range : Range Binary64 := ⟨-0, 0⟩
    let result := zeroColors.remap observedRamp range 0 1
    range.min ≠ range.max ∧ result.verdict = .error (.degenerateRange (-0) 0) ∧
      result.state = ({ zeroColors with opacity := some {} }, observedRamp) := by
  intro range result
  obtain ⟨-, -, -, hlevel, -, hleft⟩ := remap_refused_iff zeroColors observedRamp range 0 1
  have hrefused : result.verdict = .error (.degenerateRange (-0) 0) := by
    refine (hlevel (-0) 0).2 ⟨by decide +kernel, .inl ?_, by decide +kernel⟩
    exact List.cons_ne_nil _ _
  exact ⟨by decide +kernel, hrefused, hleft _ hrefused⟩

/-- Retiming in place does to a function what taking the points from a copy of it would do: it is
refused for the same reason, and if it is done, no trace of the scratch function is left in the
function or in what its observers were told. -/
theorem remapInPlace_from_copy (f : TransferFunction α) (newMin newMax : α) :
    let inPlace := f.remapInPlace newMin newMax
    let fromCopy := f.copy.remap f f.range newMin newMax
    inPlace.verdict = fromCopy.verdict ∧
      (inPlace.verdict = .ok () → inPlace.state = fromCopy.state.2) := by
  intro inPlace fromCopy
  have hinPlace : inPlace.verdict = f.checkTransfer f.range newMin newMax :=
    verdict_remapInPlace f newMin newMax
  have hfromCopy : fromCopy.verdict = f.copy.checkTransfer f.range newMin newMax :=
    verdict_remap f.copy f f.range newMin newMax
  -- A copy has the points of the function and so passes the same check.
  refine ⟨hinPlace.trans hfromCopy.symm, fun hdone => ?_⟩
  rw [hinPlace] at hdone
  calc inPlace.state
      = f.moved (retimed f.range newMin newMax) :=
        congrArg (·.state) (remapInPlace_done hdone)
    _ = fromCopy.state.2 := (congrArg (·.state.2) (remap_done f.copy f hdone)).symm

theorem observedPair_from_copy :
    let inPlace := observedPair.remapInPlace 4 2
    inPlace.verdict = .ok () ∧
      inPlace.state = (observedPair.copy.remap observedPair observedPair.range 4 2).state.2 ∧
      inPlace.state.opacity = some {} ∧
      inPlace.state.observers.delivered =
        [(⟨0⟩, .pointsChanged), (⟨0⟩, .opacityChanged), (⟨0⟩, .rebuilt)] := by
  intro inPlace
  have hdone : inPlace.verdict = .ok () := by decide +kernel
  exact ⟨hdone, (remapInPlace_from_copy observedPair 4 2).2 hdone, by decide +kernel,
    by decide +kernel⟩

end TransferFunction

end TransferCurves
