import TransferCurves.Proofs.Revision
import Mathlib.Data.List.Basic
import Mathlib.Data.List.Nodup

/-!
# What observers are told

Ids are counted up and never reused, and whoever subscribes goes to the end of the list. So at any
time the subscriptions that stand are a part of the ids handed out, in the same order, and an event
reaches each of them once. Every call on a function acts on its observers through subscriptions,
their ends and events alone; a replacement keeps the observers of the place, so that this holds for
a shared function over its whole life.
-/

namespace TransferCurves

open scoped Scalar

variable {α : Type}

namespace Observers

inductive Call (α : Type)
  | subscribe
  | unsubscribe (id : SubscriptionId)
  | emit (event : CurveEvent α)

def apply (o : Observers α) : Call α → Observers α
  | .subscribe => o.subscribe.2
  | .unsubscribe id => (o.unsubscribe id).2
  | .emit event => o.emit event

def run (o : Observers α) (calls : List (Call α)) : Observers α := calls.foldl apply o

/-- The ids that a sequence of calls hands out. -/
def issued (o : Observers α) : List (Call α) → List SubscriptionId
  | [] => []
  | .subscribe :: calls => o.subscribe.1 :: issued o.subscribe.2 calls
  | call :: calls => issued (o.apply call) calls

theorem run_emit (o : Observers α) (events : List (CurveEvent α)) :
    o.run (events.map .emit) =
      { o with delivered := o.delivered ++ events.flatMap fun event => o.live.map (·, event) } := by
  induction events generalizing o with
  | nil =>
    rw [List.flatMap_nil, List.append_nil]
    rfl
  | cons event events ih =>
    calc o.run ((event :: events).map .emit)
        = (o.emit event).run (events.map .emit) := rfl
      _ = { o with delivered := o.delivered ++ o.live.map (·, event) ++
            events.flatMap fun event => o.live.map (·, event) } := ih (o.emit event)
      _ = _ := by rw [List.append_assoc, List.flatMap_cons]

theorem nextId_le_of_mem_issued {o : Observers α} {calls : List (Call α)} {id : SubscriptionId}
    (h : id ∈ o.issued calls) : o.nextId ≤ id.index := by
  induction calls generalizing o with
  | nil => cases h
  | cons call calls ih =>
    cases call with
    | subscribe =>
      rcases List.mem_cons.1 h with rfl | h
      · exact Nat.le_refl _
      · exact Nat.le_of_succ_le (ih h)
    | unsubscribe id' => exact ih (o := (o.unsubscribe id').2) h
    | emit event => exact ih (o := o.emit event) h

theorem issued_ascending (o : Observers α) (calls : List (Call α)) :
    (o.issued calls).Pairwise fun id id' => id.index < id'.index := by
  induction calls generalizing o with
  | nil => exact .nil
  | cons call calls ih =>
    cases call with
    | subscribe => exact .cons (fun id h => nextId_le_of_mem_issued h) (ih o.subscribe.2)
    | unsubscribe id => exact ih (o.unsubscribe id).2
    | emit event => exact ih (o.emit event)

theorem issued_nodup (o : Observers α) (calls : List (Call α)) : (o.issued calls).Nodup :=
  (o.issued_ascending calls).imp fun {_ _} hlt heq => Nat.ne_of_lt hlt (congrArg _ heq)

theorem live_run_sublist (o : Observers α) (calls : List (Call α)) :
    (o.run calls).live.Sublist (o.live ++ o.issued calls) := by
  induction calls generalizing o with
  | nil => exact List.sublist_append_left _ _
  | cons call calls ih =>
    cases call with
    | subscribe =>
      have hrun := ih o.subscribe.2
      rw [live_subscribe, List.append_assoc] at hrun
      exact hrun
    | unsubscribe id => exact (ih _).trans (List.filter_sublist.append_right _)
    | emit event => exact ih (o.emit event)

end Observers

def CurveEvent.rewriting : List (CurveEvent α) := [.pointsChanged, .opacityChanged, .rebuilt]

namespace Edit

variable [Scalar α]

/-- The events that a call tells observers, in order. A call that is refused or finds nothing to
change tells nothing. -/
def events (f : TransferFunction α) : Edit α → List (CurveEvent α)
  | .setPoint index _ => if index < f.size then [.pointsChanged] else []
  | .addPoint _ | .removeAllPoints | .setNanColor _ | .modified | .reverse => [.pointsChanged]
  | .setOpacity _ | .editOpacity _ | .opacityModified => [.opacityChanged]
  | .setOpacityMapping on => if f.opacityMapping = on then [] else [.opacityChanged]
  | .setDiscretize on => if f.discretize = on then [] else [.pointsChanged]
  | .setNumberOfValues count => if f.numberOfValues = max count 1 then [] else [.pointsChanged]
  | .finalize => [.rebuilt]
  | .notify event => [event]
  | .remapOnto source range a b =>
    match (source.remap f range a b).verdict with
    | .ok () => CurveEvent.rewriting
    | .error _ => []
  | .remapInPlace a b =>
    match (f.remapInPlace a b).verdict with
    | .ok () => CurveEvent.rewriting
    | .error _ => []
  | .attenuate _ | .attenuateWithin .. | .attenuateConfigured .. =>
    if f.opacity.isSome then [.opacityChanged] else []
  | .gesture c g =>
    match g.aim c with
    | none => []
    | some r =>
      match (f.remapInPlace r.min r.max).verdict with
      | .ok () => CurveEvent.rewriting ++ [.rangeChanged r.min r.max]
      | .error _ => []
  | .select c index => if c.currentPoint = index then [] else [.currentPointChanged index]
  | .recolor c _ =>
    match c.currentPoint with
    | none => []
    | some index => if index < f.size then [.pointsChanged] else []
  | .ensureOpacity | .setTableSize _ | .subscribe | .unsubscribe _ | .remapFrom .. => []

/-- What a call on a function amounts to for its observers. -/
def calls (f : TransferFunction α) : Edit α → List (Observers.Call α)
  | .subscribe => [.subscribe]
  | .unsubscribe id => [.unsubscribe id]
  | edit => (edit.events f).map .emit

end Edit

namespace TransferFunction

theorem observers_unless {p : Prop} [Decidable p] {f g : TransferFunction α} {event : CurveEvent α}
    (h : g.observers = f.observers.emit event) :
    (if p then f else g).observers =
      f.observers.run ((if p then [] else [event]).map .emit) := by
  split
  · rfl
  · exact h

theorem observers_setPoint (f : TransferFunction α) (index : Nat) (p : ColorPoint α) :
    (f.setPoint index p).state.observers =
      f.observers.run ((if index < f.size then [.pointsChanged] else []).map .emit) := by
  rw [setPoint]
  split
  · rfl
  · rfl

theorem observers_setCurrentPointColor (f : TransferFunction α) {c : RangeController α}
    {index : Nat} (h : c.currentPoint = some index) (color : Rgb α) :
    (c.setCurrentPointColor f color).state.observers =
      f.observers.run ((if index < f.size then [.pointsChanged] else []).map .emit) := by
  simp only [RangeController.setCurrentPointColor, h, point]
  by_cases hindex : index < f.points.length
  · rw [List.getElem?_eq_getElem hindex]
    exact f.observers_setPoint index _
  · rw [List.getElem?_eq_none (Nat.not_lt.1 hindex), size, if_neg hindex]
    rfl

variable [Scalar α]

theorem observers_attenuateWithin (f : TransferFunction α) (factor floor ceiling : α) :
    (f.attenuateWithin factor floor ceiling).observers =
      f.observers.run ((if f.opacity.isSome then [.opacityChanged] else []).map .emit) := by
  rw [attenuateWithin]
  cases f.opacity with
  | none => rfl
  | some c => rfl

end TransferFunction

theorem Edit.observers_apply [Scalar α] (f : TransferFunction α) (edit : Edit α) :
    (edit.apply f).observers = f.observers.run (edit.calls f) := by
  cases edit with
  | setPoint index p => exact f.observers_setPoint index p
  | setOpacityMapping on => exact TransferFunction.observers_unless rfl
  | setDiscretize on => exact TransferFunction.observers_unless rfl
  | setNumberOfValues count => exact TransferFunction.observers_unless rfl
  | remapFrom target range a b =>
    rcases f.remap_cases target range a b with ⟨e, h⟩ | ⟨e, h⟩ | ⟨cs, os, h⟩
    · rw [apply, h]
      rfl
    · rw [apply, h]
      rfl
    · rw [apply, h]
      rfl
  | remapOnto source range a b =>
    rcases source.remap_cases f range a b with ⟨e, h⟩ | ⟨e, h⟩ | ⟨cs, os, h⟩
    · simp only [apply, calls, events, h]
      rfl
    · simp only [apply, calls, events, h]
      rfl
    · simp only [apply, calls, events, h]
      rfl
  | remapInPlace a b =>
    rcases f.remapInPlace_cases a b with ⟨e, h⟩ | ⟨e, h⟩ | h
    · simp only [apply, calls, events, h]
      rfl
    · simp only [apply, calls, events, h]
      rfl
    · simp only [apply, calls, events, h]
      rfl
  | attenuate factor => exact f.observers_attenuateWithin factor _ _
  | attenuateWithin factor floor ceiling => exact f.observers_attenuateWithin factor floor ceiling
  | attenuateConfigured factor config => exact f.observers_attenuateWithin factor _ _
  | gesture c g =>
    cases haim : g.aim c with
    | none =>
      simp only [apply, calls, events, Gesture.perform_of_aim_none haim, haim]
      rfl
    | some r =>
      simp only [apply, calls, events, Gesture.perform_of_aim_some haim, haim]
      rcases f.remapInPlace_cases r.min r.max with ⟨e, h⟩ | ⟨e, h⟩ | h
      · rw [RangeController.commit_of_fail h, h]
        rfl
      · rw [RangeController.commit_of_fail h, h]
        rfl
      · rw [RangeController.commit_of_done h, h]
        rfl
  | select c index =>
    simp only [apply, calls, events, RangeController.setCurrentPoint]
    split
    · rfl
    · rfl
  | recolor c color =>
    cases hcurrent : c.currentPoint with
    | none =>
      simp only [apply, calls, events, RangeController.setCurrentPointColor, hcurrent]
      rfl
    | some index =>
      simp only [apply, calls, events, hcurrent]
      exact f.observers_setCurrentPointColor hcurrent color
  | _ => rfl

namespace Write

variable [Scalar α]

def events (f : TransferFunction α) : Write α → List (CurveEvent α)
  | .edit e => e.events f
  | .reshape _ => []
  | .replace _ => [.pointsChanged, .opacityChanged]

def calls (f : TransferFunction α) : Write α → List (Observers.Call α)
  | .edit e => e.calls f
  | w => (w.events f).map .emit

def history (f : TransferFunction α) : List (Write α) → List (Observers.Call α)
  | [] => []
  | w :: ws => w.calls f ++ history (w.apply f) ws

theorem observers_apply (f : TransferFunction α) (w : Write α) :
    (w.apply f).observers = f.observers.run (w.calls f) := by
  cases w with
  | edit e => exact e.observers_apply f
  | reshape change => rfl
  | replace incoming => rfl

theorem observers_run (f : TransferFunction α) (ws : List (Write α)) :
    (run f ws).observers = f.observers.run (history f ws) := by
  induction ws generalizing f with
  | nil => rfl
  | cons w ws ih =>
    calc (run (w.apply f) ws).observers
        = (f.observers.run (w.calls f)).run (history (w.apply f) ws) := by
          rw [ih, observers_apply]
      _ = f.observers.run (w.calls f ++ history (w.apply f) ws) := List.foldl_append.symm

end Write

end TransferCurves
