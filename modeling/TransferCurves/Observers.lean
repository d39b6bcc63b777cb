/-!
# Observers

Charts, previews and histograms subscribe to a curve and are told what changed. An observer is known
by the id it was given when it subscribed. What has been delivered is kept in order, each event with
the id it went to, so that a run of edits can be judged by what its observers have seen.
-/

namespace TransferCurves

inductive CurveEvent (α : Type) where
  | pointsChanged
  | opacityChanged
  | rebuilt
  | rangeChanged (min max : α)
  | currentPointChanged (index : Option Nat)
deriving DecidableEq

structure SubscriptionId where
  index : Nat
deriving DecidableEq

structure Observers (α : Type) where
  nextId : Nat := 0
  live : List SubscriptionId := []
  delivered : List (SubscriptionId × CurveEvent α) := []
deriving DecidableEq

namespace Observers

variable {α : Type}

def subscribe (o : Observers α) : SubscriptionId × Observers α :=
  let id : SubscriptionId := ⟨o.nextId⟩
  (id, { o with nextId := o.nextId + 1, live := o.live ++ [id] })

def unsubscribe (o : Observers α) (id : SubscriptionId) : Bool × Observers α :=
  let kept := o.live.filter (· ≠ id)
  (kept.length ≠ o.live.length, { o with live := kept })

def emit (o : Observers α) (event : CurveEvent α) : Observers α :=
  { o with delivered := o.delivered ++ o.live.map (·, event) }

@[simp] theorem delivered_emit (o : Observers α) (event : CurveEvent α) :
    (o.emit event).delivered = o.delivered ++ o.live.map (·, event) := rfl

@[simp] theorem live_subscribe (o : Observers α) :
    o.subscribe.2.live = o.live ++ [o.subscribe.1] := rfl

theorem mem_live_unsubscribe (o : Observers α) (id other : SubscriptionId) :
    other ∈ (o.unsubscribe id).2.live ↔ other ∈ o.live ∧ other ≠ id := by
  simp [unsubscribe]

def size (o : Observers α) : Nat := o.live.length

def isEmpty (o : Observers α) : Bool := o.live.isEmpty

end Observers

end TransferCurves
