import TransferCurves.Proofs.Accounting

/-!
# What an edit of the range tells

A gesture that edits the range commits the range it aims at, be it a new one or, where the aim was
refused, the current one again. With a function at hand this gives the function new points and then
announces the range: its observers hear of the colors, the opacities, the table and the range, once
each and in this order. The scratch function that retiming goes through is observed by no one.
-/

namespace TransferCurves

open scoped Scalar

variable {α : Type}

def CurveEvent.following (r : Range α) : List (CurveEvent α) :=
  rewriting ++ [.rangeChanged r.min r.max]

namespace Observers

theorem heard_run_emit {o : Observers α} {id : SubscriptionId} (hnodup : o.live.Nodup)
    (hid : id ∈ o.live) (events : List (CurveEvent α)) :
    (o.run (events.map .emit)).heard id = o.heard id ++ events := by
  induction events generalizing o with
  | nil => exact (List.append_nil _).symm
  | cons event events ih =>
    calc ((o.emit event).run (events.map .emit)).heard id
        = (o.emit event).heard id ++ events := ih hnodup hid
      _ = o.heard id ++ event :: events := by
          rw [heard_emit hnodup hid, List.append_assoc, List.singleton_append]

end Observers

variable [Scalar α]

def Gesture.EditsRange (c : RangeController α) : Gesture α → Prop
  | .drag _ _ => c.moving ≠ none
  | .setRange _ _ | .center _ | .reset => True
  | .press _ _ | .release => False

theorem Gesture.EditsRange.aims {c : RangeController α} {g : Gesture α} (h : g.EditsRange c) :
    ∃ r, g.aim c = some r := by
  cases g with
  | drag pixel t =>
    obtain ⟨handle, hheld⟩ := Option.ne_none_iff_exists'.1 h
    exact ⟨_, congrArg (Option.map _) hheld⟩
  | press pixel t => exact h.elim
  | release => exact h.elim
  | setRange min max => exact ⟨_, rfl⟩
  | center place => exact ⟨_, rfl⟩
  | reset => exact ⟨_, rfl⟩

/-- What following the markers to `r` does to a function, its map aside. -/
structure TransferFunction.Followed (f g : TransferFunction α) (r : Range α) : Prop where
  observers : g.observers = f.observers.run ((CurveEvent.following r).map .emit)
  revision : g.revision = f.revision + 2
  fresh : g.stale = false
  table : g.table = some (LookupTable.build g.toColorMap g.tableSize)

namespace RangeController

theorem commit_none (c : RangeController α) (r : Range α) :
    c.commit r none = .done ({ c with currentRange := r }, none) := rfl

theorem commit_followed {c : RangeController α} {r : Range α} {f : TransferFunction α}
    (h : (c.commit r (some f)).verdict = .ok ()) :
    ∃ g, (c.commit r (some f)).state = ({ c with currentRange := r }, some g) ∧
      f.Followed g r := by
  rcases f.remapInPlace_cases r.min r.max with ⟨e, hcase⟩ | ⟨e, hcase⟩ | hcase
  · rw [commit_of_fail hcase] at h
    cases h
  · rw [commit_of_fail hcase] at h
    cases h
  · rw [commit_of_done hcase]
    exact ⟨_, rfl, rfl, rfl, rfl, rfl⟩

end RangeController

/-- An edit of the range that succeeds tells every observer of the function of its colors, its
opacities, its table and then of the range that is current from now on, once each, and nothing else
is told. It counts two changes and leaves a table that is up to date. An edit without a function
succeeds, and there is no function after it. A drag without a held marker does nothing at all. -/
theorem RangeController.edit_tells (c : RangeController α) :
    (∀ (f : TransferFunction α) (earlier : List (Observers.Call α)) (g : Gesture α),
      let start : TransferFunction α := { f with observers := Observers.run {} earlier }
      g.EditsRange c → (g.perform (c, some start)).verdict = .ok () →
        ∃ c' f', (g.perform (c, some start)).state = (c', some f') ∧
          let told : List (CurveEvent α) := [.pointsChanged, .opacityChanged, .rebuilt,
            .rangeChanged c'.currentRange.min c'.currentRange.max]
          (∀ id ∈ start.observers.live,
            f'.observers.heard id = start.observers.heard id ++ told) ∧
          f'.observers = { start.observers with
            delivered := start.observers.delivered ++
              told.flatMap fun event => start.observers.live.map (·, event) } ∧
          f'.revision = f.revision + 2 ∧ f'.stale = false ∧
          f'.table = some (LookupTable.build f'.toColorMap f'.tableSize)) ∧
      (∀ g : Gesture α, g.EditsRange c → ∃ c', g.perform (c, none) = .done (c', none)) ∧
      ∀ (pixel : α) (t : PlotTransform α) (f : Option (TransferFunction α)), c.moving = none →
        (Gesture.drag pixel t).perform (c, f) = .done (c, f) := by
  refine ⟨?_, ?_, ?_⟩
  · intro f earlier g start hedit hok
    obtain ⟨r, haim⟩ := hedit.aims
    rw [Gesture.perform_of_aim_some haim] at hok ⊢
    obtain ⟨f', hstate, hobservers, hrevision, hfresh, htable⟩ := commit_followed hok
    refine ⟨_, f', hstate, fun id hid => ?_, ?_, hrevision, hfresh, htable⟩
    · rw [hobservers]
      exact Observers.heard_run_emit (Observers.live_run_nodup earlier) hid _
    · rw [hobservers]
      exact Observers.run_emit start.observers _
  · intro g hedit
    obtain ⟨r, haim⟩ := hedit.aims
    rw [Gesture.perform_of_aim_some haim]
    exact ⟨_, c.commit_none r⟩
  · intro pixel t f hidle
    rw [Gesture.perform, dragTo, hidle]

theorem RangeController.crossedBounds_tell :
    let c : RangeController Binary64 := (RangeController.ofConfig .standard).attach ⟨0, 1⟩
    let f : TransferFunction Binary64 := .ofPoints [.plain 0 ⟨0, 0, 0⟩, .plain 1 ⟨1, 1, 1⟩]
    let start := { f with observers := Observers.run {} [.subscribe, .subscribe] }
    let g : Gesture Binary64 := .setRange 1 0
    g.EditsRange c ∧ (g.perform (c, some start)).verdict = .ok () ∧ c.moving = none ∧
      ∃ c' f', (g.perform (c, some start)).state = (c', some f') ∧
        (∀ id ∈ start.observers.live, f'.observers.heard id = start.observers.heard id ++
          [.pointsChanged, .opacityChanged, .rebuilt,
            .rangeChanged c'.currentRange.min c'.currentRange.max]) ∧
        f'.revision = f.revision + 2 ∧ f'.stale = false ∧
        f'.table = some (LookupTable.build f'.toColorMap f'.tableSize) := by
  intro c f start g
  have hedit : g.EditsRange c := trivial
  have hok : (g.perform (c, some start)).verdict = .ok () := by decide +kernel
  obtain ⟨c', f', hstate, hheard, -, hrest⟩ :=
    c.edit_tells.1 f [.subscribe, .subscribe] g hedit hok
  exact ⟨hedit, hok, rfl, c', f', hstate, hheard, hrest⟩

end TransferCurves
