import TransferCurves.Proofs.CommittedRange

/-!
# What observers know of the selection

A controller tells the observers of a function when another point is selected, and says nothing when
the point asked for is selected already. An observer therefore knows the selection as long as it
never changes without a word. It does when the controller is attached to other data: the selection is
dropped then and nobody is told, so that asking for no point afterwards finds nothing to change.
-/

namespace TransferCurves

open scoped Scalar

variable {α : Type}

namespace CurveEvent

def selection? : CurveEvent α → Option (Option Nat)
  | .currentPointChanged index => some index
  | _ => none

def announced (events : List (CurveEvent α)) : Option Nat :=
  (events.filterMap selection?).getLast?.join

theorem announced_append_selection (events : List (CurveEvent α)) (index : Option Nat) :
    announced (events ++ [.currentPointChanged index]) = index := by
  rw [announced, List.filterMap_append]
  change (events.filterMap selection? ++ [index]).getLast?.join = index
  rw [List.getLast?_concat]
  rfl

theorem announced_append_of_silent {events more : List (CurveEvent α)}
    (h : ∀ event ∈ more, event.selection? = none) :
    announced (events ++ more) = announced events := by
  rw [announced, List.filterMap_append, List.filterMap_eq_nil_iff.2 h, List.append_nil]
  rfl

end CurveEvent

namespace Observers

structure Counted (o : Observers α) : Prop where
  live : ∀ id ∈ o.live, id.index < o.nextId
  delivered : ∀ d ∈ o.delivered, d.1.index < o.nextId

theorem Counted.apply {o : Observers α} (h : o.Counted) (call : Call α) :
    (o.apply call).Counted := by
  cases call with
  | subscribe =>
    refine ⟨fun id hid => ?_, fun d hd => Nat.lt_succ_of_lt (h.delivered d hd)⟩
    rcases List.mem_append.1 hid with hid | hid
    · exact Nat.lt_succ_of_lt (h.live id hid)
    · rw [List.mem_singleton.1 hid]
      exact Nat.lt_succ_self _
  | unsubscribe id => exact ⟨fun id' hid' => h.live id' (List.mem_filter.1 hid').1, h.delivered⟩
  | emit event =>
    refine ⟨h.live, fun d hd => ?_⟩
    rcases List.mem_append.1 hd with hd | hd
    · exact h.delivered d hd
    · obtain ⟨id, hid, rfl⟩ := List.mem_map.1 hd
      exact h.live id hid

theorem counted_empty : ({} : Observers α).Counted :=
  ⟨List.forall_mem_nil _, List.forall_mem_nil _⟩

theorem Counted.run {o : Observers α} (h : o.Counted) (calls : List (Call α)) :
    (o.run calls).Counted := by
  induction calls generalizing o with
  | nil => exact h
  | cons call calls ih => exact ih (h.apply call)

theorem heard_subscribe {o : Observers α} (h : o.Counted) :
    o.subscribe.2.heard o.subscribe.1 = [] := by
  refine List.map_eq_nil_iff.2 (List.filter_eq_nil_iff.2 fun d hd heq => ?_)
  have hlt := h.delivered d hd
  rw [of_decide_eq_true heq] at hlt
  exact Nat.lt_irrefl _ hlt

end Observers

structure Session (α : Type) where
  controller : RangeController α
  function : TransferFunction α

/-- A call of the controller. Points are selected and recolored in the function of the session; a
gesture is made with it, or aside with another function or none. -/
inductive Act (α : Type)
  | select (index : Option Nat)
  | attach (data : Range α)
  | attachFunction (f : Option (TransferFunction α))
  | gesture (g : Gesture α)
  | gestureAside (g : Gesture α) (other : Option (TransferFunction α))
  | recolor (color : Rgb α)

namespace Act

def picks : Act α → Bool
  | .select (some _) => true
  | _ => false

def attaches : Act α → Bool
  | .attach _ | .attachFunction _ => true
  | _ => false

def clears : Act α → Bool
  | .select none => true
  | a => a.attaches

variable [Scalar α]

def apply (s : Session α) : Act α → Session α
  | .select index =>
    let next := s.controller.setCurrentPoint index s.function
    ⟨next.1, next.2⟩
  | .attach data => { s with controller := s.controller.attach data }
  | .attachFunction f => { s with controller := s.controller.attachFunction f }
  | .gesture g =>
    let next := (g.perform (s.controller, some s.function)).state
    ⟨next.1, next.2.getD s.function⟩
  | .gestureAside g other => { s with controller := (g.perform (s.controller, other)).state.1 }
  | .recolor color =>
    { s with function := (s.controller.setCurrentPointColor s.function color).state }

def told (s : Session α) : Act α → List (CurveEvent α)
  | .select index => (Edit.select s.controller index).events s.function
  | .gesture g => (Edit.gesture s.controller g).events s.function
  | .recolor color => (Edit.recolor s.controller color).events s.function
  | .attach _ | .attachFunction _ | .gestureAside .. => []

theorem observers_apply (s : Session α) (a : Act α) :
    (a.apply s).function.observers = s.function.observers.run ((a.told s).map .emit) := by
  cases a with
  | select index => exact Edit.observers_apply s.function (.select s.controller index)
  | gesture g => exact Edit.observers_apply s.function (.gesture s.controller g)
  | recolor color => exact Edit.observers_apply s.function (.recolor s.controller color)
  | attach data => rfl
  | attachFunction f => rfl
  | gestureAside g other => rfl

theorem currentPoint_gesture (c : RangeController α) (f : Option (TransferFunction α))
    (g : Gesture α) : (g.perform (c, f)).state.1.currentPoint = c.currentPoint := by
  rcases g.perform_controller c f with ⟨m, h⟩ | ⟨r, -, h⟩
  · rw [h]
  · rw [h]

theorem gesture_silent (s : Session α) (g : Gesture α) :
    ∀ event ∈ (gesture g).told s, event.selection? = none := by
  simp only [told, Edit.events]
  split
  · exact List.forall_mem_nil _
  · split
    · simp [CurveEvent.rewriting, CurveEvent.selection?]
    · exact List.forall_mem_nil _

theorem recolor_silent (s : Session α) (color : Rgb α) :
    ∀ event ∈ (recolor color).told s, event.selection? = none := by
  simp only [told, Edit.events]
  split
  · exact List.forall_mem_nil _
  · split
    · simp [CurveEvent.selection?]
    · exact List.forall_mem_nil _

end Act

namespace Session

variable [Scalar α]

def run (s : Session α) : List (Act α) → Session α
  | [] => s
  | a :: acts => run (a.apply s) acts

def told (s : Session α) : List (Act α) → List (CurveEvent α)
  | [] => []
  | a :: acts => a.told s ++ told (a.apply s) acts

theorem observers_run (s : Session α) (acts : List (Act α)) :
    (s.run acts).function.observers = s.function.observers.run ((s.told acts).map .emit) := by
  induction acts generalizing s with
  | nil => rfl
  | cons a acts ih =>
    calc ((a.apply s).run acts).function.observers
        = (s.function.observers.run ((a.told s).map .emit)).run
            (((a.apply s).told acts).map .emit) := by rw [ih, Act.observers_apply]
      _ = s.function.observers.run ((s.told (a :: acts)).map .emit) := by
          rw [told, List.map_append]
          exact List.foldl_append.symm

theorem heard_run {s : Session α} {id : SubscriptionId} (hnodup : s.function.observers.live.Nodup)
    (hid : id ∈ s.function.observers.live) (acts : List (Act α)) :
    (s.run acts).function.observers.heard id = s.function.observers.heard id ++ s.told acts := by
  rw [observers_run]
  exact Observers.heard_run_emit hnodup hid _

end Session

/-- The selected point, and the selection that was announced last. -/
structure Notice where
  selected : Option Nat
  announced : Option Nat

namespace Notice

def after (n : Notice) : Act α → Notice
  | .select index => ⟨index, if n.selected = index then n.announced else index⟩
  | .attach _ | .attachFunction _ => { n with selected := none }
  | _ => n

def Honest (n : Notice) : Prop := n.selected = none ∨ n.announced = n.selected

theorem Honest.after {n : Notice} (h : n.Honest) (a : Act α) : (n.after a).Honest := by
  cases a with
  | select index =>
    by_cases hsame : n.selected = index
    · subst hsame
      simpa [Notice.after] using h
    · exact Or.inr (if_neg hsame)
  | attach data => exact Or.inl rfl
  | attachFunction f => exact Or.inl rfl
  | gesture g => exact h
  | gestureAside g other => exact h
  | recolor color => exact h

theorem Honest.foldl {n : Notice} (h : n.Honest) (acts : List (Act α)) :
    (acts.foldl Notice.after n).Honest := by
  induction acts generalizing n with
  | nil => exact h
  | cons a acts ih => exact ih (h.after a)

theorem Honest.after_pick {n : Notice} (h : n.Honest) (k : Nat) :
    n.after (.select (some k) : Act α) = ⟨some k, some k⟩ := by
  by_cases hsame : n.selected = some k
  · have hknown : n.announced = some k := by
      rcases h with hnone | hknown
      · rw [hnone] at hsame
        cases hsame
      · exact hknown.trans hsame
    rw [Notice.after, if_pos hsame, hknown]
  · rw [Notice.after, if_neg hsame]

theorem foldl_idle {acts : List (Act α)} (h : ∀ a ∈ acts, a.picks = false)
    (known : Option Nat) : acts.foldl after ⟨none, known⟩ = ⟨none, known⟩ := by
  induction acts with
  | nil => rfl
  | cons a acts ih =>
    obtain ⟨ha, hrest⟩ := List.forall_mem_cons.1 h
    have hstep : after ⟨none, known⟩ a = ⟨none, known⟩ := by
      cases a with
      | select index =>
        cases index with
        | none => rfl
        | some k => cases ha
      | _ => rfl
    rw [List.foldl_cons, hstep]
    exact ih hrest

theorem foldl_picked {acts : List (Act α)} (h : ∀ a ∈ acts, a.picks = false) (k : Nat) :
    acts.foldl after ⟨some k, some k⟩ =
      match acts.find? Act.clears with
      | none => ⟨some k, some k⟩
      | some a => ⟨none, if a.attaches then some k else none⟩ := by
  induction acts with
  | nil => rfl
  | cons a acts ih =>
    obtain ⟨ha, hrest⟩ := List.forall_mem_cons.1 h
    cases a with
    | select index =>
      cases index with
      | none => exact foldl_idle hrest none
      | some j => cases ha
    | attach data => exact foldl_idle hrest (some k)
    | attachFunction f => exact foldl_idle hrest (some k)
    | gesture g => exact ih hrest
    | gestureAside g other => exact ih hrest
    | recolor color => exact ih hrest

end Notice

/-- The point that was picked last is lost to an attachment, before the selection was given up. -/
def Act.Drops (acts : List (Act α)) (k : Nat) : Prop :=
  ∃ before after a, acts = before ++ .select (some k) :: after ∧
    (∀ b ∈ after, b.picks = false) ∧ after.find? Act.clears = some a ∧ a.attaches = true

theorem Act.last_pick (acts : List (Act α)) :
    (∀ a ∈ acts, a.picks = false) ∨
      ∃ before k after, acts = before ++ .select (some k) :: after ∧
        ∀ a ∈ after, a.picks = false := by
  induction acts with
  | nil => exact Or.inl nofun
  | cons a acts ih =>
    rcases ih with hnone | ⟨before, k, after, rfl, hafter⟩
    · cases hpick : a.picks with
      | false => exact Or.inl (List.forall_mem_cons.2 ⟨hpick, hnone⟩)
      | true =>
        match a, hpick with
        | .select (some k), _ => exact Or.inr ⟨[], k, acts, rfl, hnone⟩
    · exact Or.inr ⟨a :: before, k, after, rfl, hafter⟩

namespace Notice

theorem announced_after_none_iff (acts : List (Act α)) (k : Nat) :
    ((acts.foldl after ⟨none, none⟩).after (.select none : Act α)).announced = some k ↔
      Act.Drops acts k := by
  have hstart : (⟨none, none⟩ : Notice).Honest := Or.inl rfl
  have hsplit (before after' : List (Act α)) (j : Nat) :
      (before ++ .select (some j) :: after').foldl after ⟨none, none⟩ =
        after'.foldl after ⟨some j, some j⟩ := by
    rw [List.foldl_append, List.foldl_cons, (hstart.foldl before).after_pick]
  constructor
  · intro h
    rcases Act.last_pick acts with hnone | ⟨before, j, after', rfl, hafter⟩
    · rw [foldl_idle hnone] at h
      cases h
    · rw [hsplit, foldl_picked hafter] at h
      cases hclears : after'.find? Act.clears with
      | none =>
        rw [hclears] at h
        cases h
      | some a =>
        simp only [hclears] at h
        cases hattaches : a.attaches with
        | false =>
          rw [hattaches] at h
          cases h
        | true =>
          rw [hattaches] at h
          cases h
          exact ⟨before, after', a, rfl, hafter, hclears, hattaches⟩
  · rintro ⟨before, after', a, rfl, hafter, hclears, hattaches⟩
    rw [hsplit, foldl_picked hafter, hclears]
    simp only [hattaches]
    rfl

variable [Scalar α]

theorem after_apply (s : Session α) (earlier : List (CurveEvent α)) (a : Act α) :
    (⟨(a.apply s).controller.currentPoint, CurveEvent.announced (earlier ++ a.told s)⟩ : Notice) =
      after ⟨s.controller.currentPoint, CurveEvent.announced earlier⟩ a := by
  cases a with
  | select index =>
    simp only [Act.apply, Act.told, Edit.events, RangeController.setCurrentPoint, after]
    by_cases hsame : s.controller.currentPoint = index
    · rw [if_pos hsame, if_pos hsame, if_pos hsame, List.append_nil, hsame]
    · rw [if_neg hsame, if_neg hsame, if_neg hsame, CurveEvent.announced_append_selection]
  | attach data => rw [Act.told, List.append_nil]; rfl
  | attachFunction f => rw [Act.told, List.append_nil]; rfl
  | gesture g =>
    rw [CurveEvent.announced_append_of_silent (Act.gesture_silent s g)]
    exact congrArg (Notice.mk · _) (Act.currentPoint_gesture s.controller (some s.function) g)
  | gestureAside g other =>
    rw [Act.told, List.append_nil]
    exact congrArg (Notice.mk · _) (Act.currentPoint_gesture s.controller other g)
  | recolor color =>
    rw [CurveEvent.announced_append_of_silent (Act.recolor_silent s color)]
    rfl

theorem foldl_run (s : Session α) (earlier : List (CurveEvent α)) (acts : List (Act α)) :
    (⟨(s.run acts).controller.currentPoint, CurveEvent.announced (earlier ++ s.told acts)⟩ : Notice) =
      acts.foldl after ⟨s.controller.currentPoint, CurveEvent.announced earlier⟩ := by
  induction acts generalizing s earlier with
  | nil => rw [Session.told, List.append_nil]; rfl
  | cons a acts ih =>
    rw [List.foldl_cons, ← after_apply, ← ih, Session.told, List.append_assoc]
    rfl

end Notice

namespace Session

variable [Scalar α]

theorem heard_newcomer (c : RangeController α) (f : TransferFunction α)
    (earlier : List (Observers.Call α)) (acts : List (Act α)) :
    let entry := (Observers.run {} earlier).subscribe
    let start : Session α := ⟨c, { f with observers := entry.2 }⟩
    (start.run acts).function.observers.heard entry.1 = start.told acts := by
  intro entry start
  have hnodup : start.function.observers.live.Nodup := by
    have hlive := Observers.live_run_nodup (earlier ++ [.subscribe] : List (Observers.Call α))
    rwa [Observers.run, List.foldl_append] at hlive
  have hid : entry.1 ∈ start.function.observers.live :=
    List.mem_append_right _ (List.mem_singleton_self _)
  have hnew : start.function.observers.heard entry.1 = [] :=
    Observers.heard_subscribe (Observers.counted_empty.run earlier)
  rw [heard_run hnodup hid, hnew, List.nil_append]

/-- Someone subscribes to a function, and a controller without a selection goes to work on it. When a
point has been picked, this is the selection that the subscriber was told last. When the selection
has been given up, the subscriber was told so, except where the point picked last had been dropped by
an attachment before: then this point is still the last that was told. -/
theorem announced_selection_iff {c : RangeController α} (hc : c.currentPoint = none)
    (f : TransferFunction α) (earlier : List (Observers.Call α)) (acts : List (Act α))
    (index : Option Nat) :
    let entry := (Observers.run {} earlier).subscribe
    let start : Session α := ⟨c, { f with observers := entry.2 }⟩
    let heard := (start.run (acts ++ [.select index])).function.observers.heard entry.1
    (CurveEvent.announced heard = index ↔ (index = none → ∀ k, ¬Act.Drops acts k)) ∧
      ∀ k, index = none → (CurveEvent.announced heard = some k ↔ Act.Drops acts k) := by
  intro entry start heard
  have hstart : (⟨none, none⟩ : Notice).Honest := Or.inl rfl
  have hannounced : CurveEvent.announced heard =
      ((acts.foldl Notice.after ⟨none, none⟩).after (.select index : Act α)).announced := by
    have hrun := congrArg Notice.announced (Notice.foldl_run start [] (acts ++ [.select index]))
    have hidle : start.controller.currentPoint = none := hc
    rw [hidle, List.foldl_append] at hrun
    exact (congrArg CurveEvent.announced (heard_newcomer c f earlier _)).trans hrun
  cases index with
  | some k =>
    rw [hannounced, (hstart.foldl acts).after_pick]
    exact ⟨⟨nofun, fun _ => rfl⟩, nofun⟩
  | none =>
    have hiff (k : Nat) : CurveEvent.announced heard = some k ↔ Act.Drops acts k := by
      rw [hannounced]
      exact Notice.announced_after_none_iff acts k
    refine ⟨⟨fun h _ k hk => ?_, fun h => ?_⟩, fun k _ => hiff k⟩
    · rw [h] at hiff
      cases (hiff k).2 hk
    · exact Option.eq_none_iff_forall_ne_some.2 fun k hk => h rfl k ((hiff k).1 hk)

theorem pickedAgain_dropped :
    let c : RangeController Binary64 := .ofConfig .standard
    let f : TransferFunction Binary64 := .ofPoints [.plain 0 ⟨0, 0, 0⟩, .plain 1 ⟨1, 1, 1⟩]
    let entry := (Observers.run {} [.subscribe]).subscribe
    let start : Session Binary64 := ⟨c, { f with observers := entry.2 }⟩
    let acts : List (Act Binary64) := [.select (some 0), .select none, .select (some 1),
      .gesture .reset, .attachFunction (some f), .recolor ⟨1, 0, 0⟩]
    let heard := (start.run (acts ++ [.select none])).function.observers.heard entry.1
    c.currentPoint = none ∧ Act.Drops acts 1 ∧
      (CurveEvent.announced heard = none ↔
        ((none : Option Nat) = none → ∀ k, ¬Act.Drops acts k)) ∧
      CurveEvent.announced heard = some 1 := by
  intro c f entry start acts heard
  have hdrops : Act.Drops acts 1 :=
    ⟨[.select (some 0), .select none], [.gesture .reset, .attachFunction (some f), .recolor ⟨1, 0, 0⟩],
      .attachFunction (some f), rfl, by simp [Act.picks], rfl, rfl⟩
  obtain ⟨hnone, hlast⟩ := announced_selection_iff (c := c) rfl f [.subscribe] acts none
  exact ⟨rfl, hdrops, hnone, (hlast 1 rfl).2 hdrops⟩

/-- A point is picked, the controller is attached to other data, and the selection is given up. -/
theorem attachment_leaves_announcement :
    ¬∀ (c : RangeController Binary64) (f : TransferFunction Binary64)
      (earlier : List (Observers.Call Binary64)) (acts : List (Act Binary64)) (index : Option Nat),
      c.currentPoint = none →
        let entry := (Observers.run {} earlier).subscribe
        let start : Session Binary64 := ⟨c, { f with observers := entry.2 }⟩
        CurveEvent.announced
          ((start.run (acts ++ [.select index])).function.observers.heard entry.1) = index := by
  intro h
  have hnone := h (.ofConfig .standard) .empty [] [.select (some 0), .attach ⟨0, 1⟩] none rfl
  exact absurd hnone (by decide)

end Session

end TransferCurves
