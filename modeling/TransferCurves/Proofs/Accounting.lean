import TransferCurves.PresetCatalog
import TransferCurves.Proofs.Subscriptions

/-!
# Accounts of a run

Inside a call a function takes steps of its own: a field gets a value, or its observers are told of
an event. The counter goes up only where the table is marked and a change is told at once, and a
table is built only where the mark is taken off and the rebuilding is told at once. So what one
observer has heard in a run accounts for the revision and for every table that was built.
-/

namespace TransferCurves

open scoped Scalar

variable {α : Type}

namespace CurveEvent

def touches : CurveEvent α → Bool
  | .pointsChanged | .opacityChanged => true
  | _ => false

def rebuilds : CurveEvent α → Bool
  | .rebuilt => true
  | _ => false

end CurveEvent

inductive Move (α : Type)
  | rewrite (m : ColorMap α)
  | resize (size : Nat)
  | count
  | mark
  | build
  | clear
  | tell (event : CurveEvent α)
  | subscribe
  | unsubscribe (id : SubscriptionId)

namespace Move

def builds : Move α → Bool
  | .build => true
  | _ => false

def touching (event : CurveEvent α) : List (Move α) := [.count, .mark, .tell event]

def rebuilding : List (Move α) := [.build, .clear, .tell .rebuilt]

def overwriting : List (Move α) :=
  touching .pointsChanged ++ touching .opacityChanged ++ rebuilding

def Quiet : Move α → Prop
  | .count | .build | .clear => False
  | .tell event => event.touches = false ∧ event.rebuilds = false
  | _ => True

/-- Counting and building come with the mark and the event that belong to them. -/
inductive Balanced : List (Move α) → Prop
  | nil : Balanced []
  | touch {event : CurveEvent α} {moves : List (Move α)} : event.touches = true →
      Balanced moves → Balanced (touching event ++ moves)
  | rebuild {moves : List (Move α)} : Balanced moves → Balanced (rebuilding ++ moves)
  | quiet {move : Move α} {moves : List (Move α)} : move.Quiet → Balanced moves →
      Balanced (move :: moves)

theorem Balanced.append {moves moves' : List (Move α)} (h : Balanced moves)
    (h' : Balanced moves') : Balanced (moves ++ moves') := by
  induction h with
  | nil => exact h'
  | touch htouches _ ih => exact .touch htouches ih
  | rebuild _ ih => exact .rebuild ih
  | quiet hquiet _ ih => exact .quiet hquiet ih

structure Fair (id : SubscriptionId) (moves : List (Move α)) : Prop where
  balanced : Balanced moves
  kept : .unsubscribe id ∉ moves

namespace Fair

variable {id : SubscriptionId} {moves moves' : List (Move α)}

theorem nil : Fair id ([] : List (Move α)) := ⟨.nil, List.not_mem_nil⟩

theorem append (h : Fair id moves) (h' : Fair id moves') : Fair id (moves ++ moves') :=
  ⟨h.balanced.append h'.balanced, List.not_mem_append h.kept h'.kept⟩

theorem quiet {move : Move α} (h : move.Quiet) (hkept : move ≠ .unsubscribe id) :
    Fair id [move] :=
  ⟨.quiet h .nil, fun hmem => hkept (List.mem_singleton.1 hmem).symm⟩

theorem touching {event : CurveEvent α} (h : event.touches = true) :
    Fair id (Move.touching event) :=
  ⟨.touch h .nil, by simp [Move.touching]⟩

theorem rebuilding : Fair id (Move.rebuilding : List (Move α)) :=
  ⟨.rebuild .nil, by simp [Move.rebuilding]⟩

theorem overwriting : Fair id (Move.overwriting : List (Move α)) :=
  ((touching rfl).append (touching rfl)).append rebuilding

theorem ite {p : Prop} [Decidable p] (h : Fair id moves) (h' : Fair id moves') :
    Fair id (if p then moves else moves') := by
  split
  · exact h
  · exact h'

end Fair

variable [Scalar α]

def apply (f : TransferFunction α) : Move α → TransferFunction α
  | .rewrite m => { f with toColorMap := m }
  | .resize size => { f with tableSize := size }
  | .count => { f with revision := f.revision + 1 }
  | .mark => { f with stale := true }
  | .build => { f with table := some (LookupTable.build f.toColorMap f.tableSize) }
  | .clear => { f with stale := false }
  | .tell event => f.notify event
  | .subscribe => f.subscribe.2
  | .unsubscribe id => (f.unsubscribe id).2

def run (f : TransferFunction α) (moves : List (Move α)) : TransferFunction α := moves.foldl apply f

def log (f : TransferFunction α) : List (Move α) → List (CurveEvent α × TransferFunction α)
  | [] => []
  | .tell event :: moves => (event, f.notify event) :: log (f.notify event) moves
  | move :: moves => log (move.apply f) moves

def told (f : TransferFunction α) (moves : List (Move α)) : List (CurveEvent α) :=
  (log f moves).map (·.1)

variable {f : TransferFunction α} {moves moves' : List (Move α)}

theorem run_append : run f (moves ++ moves') = run (run f moves) moves' := List.foldl_append

theorem log_append : log f (moves ++ moves') = log f moves ++ log (run f moves) moves' := by
  induction moves generalizing f with
  | nil => rfl
  | cons move moves ih =>
    cases move with
    | tell event => exact congrArg ((event, f.notify event) :: ·) ih
    | _ => exact ih

theorem told_append : told f (moves ++ moves') = told f moves ++ told (run f moves) moves' := by
  rw [told, log_append, List.map_append]
  rfl

/-- What is told agrees with the counter, with the tables that are built and with the mark. -/
structure Accounted (f : TransferFunction α) (moves : List (Move α)) : Prop where
  revision : (run f moves).revision = f.revision + (told f moves).countP CurveEvent.touches
  rebuilt : (told f moves).countP CurveEvent.rebuilds = moves.countP builds
  stale : ∀ t ∈ log f moves, (t.1.rebuilds = true → t.2.stale = false) ∧
    (t.1.touches = true → t.2.stale = true)

namespace Accounted

theorem append (h : Accounted f moves) (h' : Accounted (run f moves) moves') :
    Accounted f (moves ++ moves') where
  revision := by
    rw [run_append, told_append, List.countP_append, h'.revision, h.revision, Nat.add_assoc]
  rebuilt := by rw [told_append, List.countP_append, List.countP_append, h.rebuilt, h'.rebuilt]
  stale t ht := by
    rw [log_append] at ht
    rcases List.mem_append.1 ht with ht | ht
    · exact h.stale t ht
    · exact h'.stale t ht

theorem touch (f : TransferFunction α) {event : CurveEvent α} (h : event.touches = true) :
    Accounted f (touching event) := by
  cases event with
  | pointsChanged => exact ⟨rfl, rfl, List.forall_mem_singleton.2 ⟨nofun, fun _ => rfl⟩⟩
  | opacityChanged => exact ⟨rfl, rfl, List.forall_mem_singleton.2 ⟨nofun, fun _ => rfl⟩⟩
  | _ => cases h

theorem rebuild (f : TransferFunction α) : Accounted f rebuilding :=
  ⟨rfl, rfl, List.forall_mem_singleton.2 ⟨fun _ => rfl, nofun⟩⟩

theorem quiet (f : TransferFunction α) {move : Move α} (h : move.Quiet) : Accounted f [move] := by
  cases move with
  | tell event =>
    cases event with
    | rangeChanged min max => exact ⟨rfl, rfl, List.forall_mem_singleton.2 ⟨nofun, nofun⟩⟩
    | currentPointChanged index => exact ⟨rfl, rfl, List.forall_mem_singleton.2 ⟨nofun, nofun⟩⟩
    | pointsChanged => cases h.1
    | opacityChanged => cases h.1
    | rebuilt => cases h.2
  | count => exact h.elim
  | build => exact h.elim
  | clear => exact h.elim
  | _ => exact ⟨rfl, rfl, List.forall_mem_nil _⟩

end Accounted

theorem Balanced.accounted (h : Balanced moves) (f : TransferFunction α) : Accounted f moves := by
  induction h generalizing f with
  | nil => exact ⟨rfl, rfl, nofun⟩
  | touch htouches _ ih => exact (Accounted.touch f htouches).append (ih _)
  | rebuild _ ih => exact (Accounted.rebuild f).append (ih _)
  | quiet hquiet _ ih => exact (Accounted.quiet f hquiet).append (ih _)

end Move

namespace Observers

def heard (o : Observers α) (id : SubscriptionId) : List (CurveEvent α) :=
  (o.delivered.filter (·.1 = id)).map (·.2)

theorem heard_emit {o : Observers α} {id : SubscriptionId} (hnodup : o.live.Nodup)
    (hid : id ∈ o.live) (event : CurveEvent α) :
    (o.emit event).heard id = o.heard id ++ [event] := by
  have honce : o.live.filter (· = id) = [id] := by
    rw [List.filter_eq, List.count_eq_one_of_mem hnodup hid]
    rfl
  rw [heard, delivered_emit, List.filter_append, List.map_append, List.filter_map]
  change _ ++ ((o.live.filter (· = id)).map (·, event)).map (·.2) = _
  rw [honce]
  rfl

theorem live_run_nodup (calls : List (Call α)) : (run {} calls : Observers α).live.Nodup :=
  (issued_nodup {} calls).sublist (live_run_sublist {} calls)

end Observers

namespace Move

variable [Scalar α]

theorem heard_run {f : TransferFunction α} {moves : List (Move α)}
    {earlier : List (Observers.Call α)} {id : SubscriptionId}
    (hobservers : f.observers = Observers.run {} earlier) (hid : id ∈ f.observers.live)
    (hkept : .unsubscribe id ∉ moves) :
    (run f moves).observers.heard id = f.observers.heard id ++ told f moves := by
  induction moves generalizing f earlier with
  | nil => exact (List.append_nil _).symm
  | cons move moves ih =>
    have hkept' : .unsubscribe id ∉ moves := fun h => hkept (List.mem_cons_of_mem _ h)
    have hnext (call : Observers.Call α) :
        f.observers.apply call = Observers.run {} (earlier ++ [call]) := by
      rw [hobservers, Observers.run, Observers.run, List.foldl_append]
      rfl
    cases move with
    | tell event =>
      -- Observers that come from a run hold every subscription once, so the event is heard once.
      have hnodup : f.observers.live.Nodup := hobservers ▸ Observers.live_run_nodup earlier
      calc (run (f.notify event) moves).observers.heard id
          = (f.observers.emit event).heard id ++ told (f.notify event) moves :=
            ih (f := f.notify event) (hnext (.emit event)) hid hkept'
        _ = f.observers.heard id ++ event :: told (f.notify event) moves := by
            rw [Observers.heard_emit hnodup hid, List.append_assoc]
            rfl
    | subscribe =>
      exact ih (f := f.subscribe.2) (hnext .subscribe) (List.mem_append_left _ hid) hkept'
    | unsubscribe other =>
      have hother : id ≠ other := fun h => hkept (h ▸ List.mem_cons_self)
      have hlive := (Observers.mem_live_unsubscribe f.observers other id).2 ⟨hid, hother⟩
      exact ih (f := (f.unsubscribe other).2) (hnext (.unsubscribe other)) hlive hkept'
    -- All other steps leave the observers alone.
    | rewrite m => exact ih (f := (rewrite m).apply f) hobservers hid hkept'
    | resize size => exact ih (f := (resize size).apply f) hobservers hid hkept'
    | count => exact ih (f := count.apply f) hobservers hid hkept'
    | mark => exact ih (f := mark.apply f) hobservers hid hkept'
    | build => exact ih (f := build.apply f) hobservers hid hkept'
    | clear => exact ih (f := clear.apply f) hobservers hid hkept'

end Move

namespace TransferFunction

variable [Scalar α]

/-- What `g` has over `f` besides its map comes from these steps. -/
def Becomes (f g : TransferFunction α) (steps : List (Move α)) : Prop :=
  g = Move.run f (.rewrite g.toColorMap :: steps)

theorem Becomes.of_unless {p : Prop} [Decidable p] {f g : TransferFunction α}
    {steps : List (Move α)} (h : f.Becomes g steps) :
    f.Becomes (if p then f else g) (if p then [] else steps) := by
  split
  · rfl
  · exact h

variable (f : TransferFunction α)

theorem setPoint_becomes (index : Nat) (p : ColorPoint α) :
    f.Becomes (f.setPoint index p).state
      (if index < f.size then Move.touching .pointsChanged else []) := by
  rw [setPoint]
  split
  · rfl
  · rfl

theorem attenuateWithin_becomes (factor floor ceiling : α) :
    f.Becomes (f.attenuateWithin factor floor ceiling)
      (if f.opacity.isSome then Move.touching .opacityChanged else []) := by
  rw [attenuateWithin]
  cases f.opacity with
  | none => rfl
  | some c => rfl

theorem setCurrentPointColor_becomes {c : RangeController α} {index : Nat}
    (h : c.currentPoint = some index) (color : Rgb α) :
    f.Becomes (c.setCurrentPointColor f color).state
      (if index < f.size then Move.touching .pointsChanged else []) := by
  simp only [RangeController.setCurrentPointColor, h, point]
  by_cases hindex : index < f.points.length
  · rw [List.getElem?_eq_getElem hindex]
    exact f.setPoint_becomes index _
  · rw [List.getElem?_eq_none (Nat.not_lt.1 hindex), size, if_neg hindex]
    rfl

end TransferFunction

namespace Edit

variable [Scalar α]

/-- The steps of a call after what it does to the map. A call that is refused or finds nothing to
change takes none. -/
def steps (f : TransferFunction α) : Edit α → List (Move α)
  | .setPoint index _ => if index < f.size then Move.touching .pointsChanged else []
  | .addPoint _ | .removeAllPoints | .setNanColor _ | .modified | .reverse =>
    Move.touching .pointsChanged
  | .setOpacity _ | .editOpacity _ | .opacityModified => Move.touching .opacityChanged
  | .setOpacityMapping on => if f.opacityMapping = on then [] else Move.touching .opacityChanged
  | .setDiscretize on => if f.discretize = on then [] else Move.touching .pointsChanged
  | .setNumberOfValues count =>
    if f.numberOfValues = max count 1 then [] else Move.touching .pointsChanged
  | .setTableSize size => [.resize (max size 2), .mark]
  | .finalize => Move.rebuilding
  | .notify event => [.tell event]
  | .subscribe => [.subscribe]
  | .unsubscribe id => [.unsubscribe id]
  | .remapOnto source range a b =>
    match (source.remap f range a b).verdict with
    | .ok () => Move.overwriting
    | .error _ => []
  | .remapInPlace a b =>
    match (f.remapInPlace a b).verdict with
    | .ok () => Move.overwriting
    | .error _ => []
  | .attenuate _ | .attenuateWithin .. | .attenuateConfigured .. =>
    if f.opacity.isSome then Move.touching .opacityChanged else []
  | .gesture c g =>
    match g.aim c with
    | none => []
    | some r =>
      match (f.remapInPlace r.min r.max).verdict with
      | .ok () => Move.overwriting ++ [.tell (.rangeChanged r.min r.max)]
      | .error _ => []
  | .select c index => if c.currentPoint = index then [] else [.tell (.currentPointChanged index)]
  | .recolor c _ =>
    match c.currentPoint with
    | none => []
    | some index => if index < f.size then Move.touching .pointsChanged else []
  | .ensureOpacity | .remapFrom .. => []

def moves (f : TransferFunction α) (edit : Edit α) : List (Move α) :=
  .rewrite (edit.apply f).toColorMap :: edit.steps f

theorem apply_eq_run (f : TransferFunction α) (edit : Edit α) :
    edit.apply f = Move.run f (edit.moves f) := by
  cases edit with
  | setPoint index p => exact f.setPoint_becomes index p
  | setOpacityMapping on => exact TransferFunction.Becomes.of_unless rfl
  | setDiscretize on => exact TransferFunction.Becomes.of_unless rfl
  | setNumberOfValues count => exact TransferFunction.Becomes.of_unless rfl
  | remapFrom target range a b =>
    rcases f.remap_cases target range a b with ⟨e, h⟩ | ⟨e, h⟩ | ⟨cs, os, h⟩
    · simp only [apply, moves, steps, h]
      rfl
    · simp only [apply, moves, steps, h]
      rfl
    · simp only [apply, moves, steps, h]
      rfl
  | remapOnto source range a b =>
    rcases source.remap_cases f range a b with ⟨e, h⟩ | ⟨e, h⟩ | ⟨cs, os, h⟩
    · simp only [apply, moves, steps, h]
      rfl
    · simp only [apply, moves, steps, h]
      rfl
    · simp only [apply, moves, steps, h]
      rfl
  | remapInPlace a b =>
    rcases f.remapInPlace_cases a b with ⟨e, h⟩ | ⟨e, h⟩ | h
    · simp only [apply, moves, steps, h]
      rfl
    · simp only [apply, moves, steps, h]
      rfl
    · simp only [apply, moves, steps, h]
      rfl
  | attenuate factor => exact f.attenuateWithin_becomes factor _ _
  | attenuateWithin factor floor ceiling => exact f.attenuateWithin_becomes factor floor ceiling
  | attenuateConfigured factor config => exact f.attenuateWithin_becomes factor _ _
  | gesture c g =>
    cases haim : g.aim c with
    | none =>
      simp only [apply, moves, steps, Gesture.perform_of_aim_none haim, haim]
      rfl
    | some r =>
      simp only [apply, moves, steps, Gesture.perform_of_aim_some haim, haim]
      rcases f.remapInPlace_cases r.min r.max with ⟨e, h⟩ | ⟨e, h⟩ | h
      · rw [RangeController.commit_of_fail h, h]
        rfl
      · rw [RangeController.commit_of_fail h, h]
        rfl
      · rw [RangeController.commit_of_done h, h]
        rfl
  | select c index =>
    simp only [apply, moves, steps, RangeController.setCurrentPoint]
    split
    · rfl
    · rfl
  | recolor c color =>
    cases hcurrent : c.currentPoint with
    | none =>
      simp only [apply, moves, steps, RangeController.setCurrentPointColor, hcurrent]
      rfl
    | some index =>
      simp only [moves, steps, hcurrent]
      exact f.setCurrentPointColor_becomes hcurrent color
  | _ => rfl

def trace (f : TransferFunction α) : List (Edit α) → List (Move α)
  | [] => []
  | edit :: edits => edit.moves f ++ trace (edit.apply f) edits

theorem run_eq_run (f : TransferFunction α) (edits : List (Edit α)) :
    run f edits = Move.run f (trace f edits) := by
  induction edits generalizing f with
  | nil => rfl
  | cons edit edits ih =>
    calc run (edit.apply f) edits
        = Move.run (Move.run f (edit.moves f)) (trace (edit.apply f) edits) := by
          rw [ih, ← apply_eq_run]
      _ = Move.run f (edit.moves f ++ trace (edit.apply f) edits) := Move.run_append.symm

/-- The call tells observers something that the function itself tells when it happens. -/
def Forges : Edit α → Prop
  | .notify event => event.touches = true ∨ event.rebuilds = true
  | _ => False

def Fair (id : SubscriptionId) (edit : Edit α) : Prop := ¬edit.Forges ∧ edit ≠ .unsubscribe id

theorem Fair.steps {edit : Edit α} {id : SubscriptionId} (h : edit.Fair id)
    (f : TransferFunction α) : Move.Fair id (edit.steps f) := by
  cases edit with
  | setPoint index p => exact .ite (.touching rfl) .nil
  | setOpacityMapping on => exact .ite .nil (.touching rfl)
  | setDiscretize on => exact .ite .nil (.touching rfl)
  | setNumberOfValues count => exact .ite .nil (.touching rfl)
  | setTableSize size =>
    have hresize : Move.Fair id ([.resize (max size 2)] : List (Move α)) := .quiet trivial nofun
    exact hresize.append (.quiet trivial nofun)
  | finalize => exact .rebuilding
  | notify event =>
    obtain ⟨htouches, hrebuilds⟩ := not_or.1 h.1
    exact .quiet ⟨Bool.eq_false_iff.2 htouches, Bool.eq_false_iff.2 hrebuilds⟩ nofun
  | subscribe => exact .quiet trivial nofun
  | unsubscribe other => exact .quiet trivial fun hsame => h.2 (by cases hsame; rfl)
  | remapOnto source range a b =>
    simp only [Edit.steps]
    split
    · exact .overwriting
    · exact .nil
  | remapInPlace a b =>
    simp only [Edit.steps]
    split
    · exact .overwriting
    · exact .nil
  | attenuate factor => exact .ite (.touching rfl) .nil
  | attenuateWithin factor floor ceiling => exact .ite (.touching rfl) .nil
  | attenuateConfigured factor config => exact .ite (.touching rfl) .nil
  | gesture c g =>
    simp only [Edit.steps]
    split
    · exact .nil
    · split
      · exact Move.Fair.overwriting.append (.quiet ⟨rfl, rfl⟩ nofun)
      · exact .nil
  | select c index => exact .ite .nil (.quiet ⟨rfl, rfl⟩ nofun)
  | recolor c color =>
    simp only [Edit.steps]
    split
    · exact .nil
    · exact .ite (.touching rfl) .nil
  | ensureOpacity => exact .nil
  | remapFrom target range a b => exact .nil
  | _ => exact .touching rfl

theorem Fair.moves {edit : Edit α} {id : SubscriptionId} (h : edit.Fair id)
    (f : TransferFunction α) : Move.Fair id (edit.moves f) := by
  have hmap : Move.Fair id [.rewrite (edit.apply f).toColorMap] := .quiet trivial nofun
  exact hmap.append (h.steps f)

theorem trace_fair {edits : List (Edit α)} {id : SubscriptionId} (h : ∀ e ∈ edits, e.Fair id)
    (f : TransferFunction α) : Move.Fair id (trace f edits) := by
  induction edits generalizing f with
  | nil => exact .nil
  | cons edit edits ih =>
    have hfirst : edit.Fair id := h edit List.mem_cons_self
    exact (hfirst.moves f).append (ih (fun e he => h e (List.mem_cons_of_mem _ he)) _)

end Edit

def TransferFunction.promotion [Scalar α] (f : TransferFunction α) (config : EditorConfig α) :
    List (Edit α) :=
  let ramp := config.opacityRamp
  let opacity : List (Edit α) :=
    if f.opacity.isNone then [.setOpacity (some (.ramp ramp.x₀ ramp.a₀ ramp.x₁ ramp.a₁))] else []
  opacity ++ [.setOpacityMapping true, .setTableSize config.tableSize]

theorem TransferFunction.promote_eq_run [Scalar α] (f : TransferFunction α)
    (config : EditorConfig α) : f.promote config = Edit.run f (f.promotion config) := by
  rw [promote, promotion]
  cases f.opacity with
  | none => rfl
  | some c => rfl

/-- All that can happen to a function but being put in the place of another. The opacity points can
be changed without the notice that is owed, and a function can be given opacities by its maker. -/
inductive Operation (α : Type)
  | edit (e : Edit α)
  | reshape (change : OpacityCurve α → OpacityCurve α)
  | withOpacity (c : OpacityCurve α)
  | promote (config : EditorConfig α)

namespace Operation

variable [Scalar α]

def apply (f : TransferFunction α) : Operation α → TransferFunction α
  | .edit e => e.apply f
  | .reshape change => f.editOpacity change
  | .withOpacity c => f.withOpacity c
  | .promote config => f.promote config

def run (f : TransferFunction α) : List (Operation α) → TransferFunction α
  | [] => f
  | op :: ops => run (op.apply f) ops

def moves (f : TransferFunction α) : Operation α → List (Move α)
  | .edit e => e.moves f
  | .reshape change => [.rewrite (f.editOpacity change).toColorMap]
  | .withOpacity c => [.rewrite (f.withOpacity c).toColorMap]
  | .promote config => Edit.trace f (f.promotion config)

def trace (f : TransferFunction α) : List (Operation α) → List (Move α)
  | [] => []
  | op :: ops => op.moves f ++ trace (op.apply f) ops

theorem apply_eq_run (f : TransferFunction α) (op : Operation α) :
    op.apply f = Move.run f (op.moves f) := by
  cases op with
  | edit e => exact e.apply_eq_run f
  | reshape change => rfl
  | withOpacity c => rfl
  | promote config => exact (f.promote_eq_run config).trans (Edit.run_eq_run f _)

theorem run_eq_run (f : TransferFunction α) (ops : List (Operation α)) :
    run f ops = Move.run f (trace f ops) := by
  induction ops generalizing f with
  | nil => rfl
  | cons op ops ih =>
    calc run (op.apply f) ops
        = Move.run (Move.run f (op.moves f)) (trace (op.apply f) ops) := by
          rw [ih, ← apply_eq_run]
      _ = Move.run f (op.moves f ++ trace (op.apply f) ops) := Move.run_append.symm

def Fair (id : SubscriptionId) : Operation α → Prop
  | .edit e => e.Fair id
  | _ => True

theorem promotion_fair (f : TransferFunction α) (config : EditorConfig α) (id : SubscriptionId) :
    ∀ e ∈ f.promotion config, e.Fair id := by
  intro e he
  rcases List.mem_append.1 he with hopacity | hoptions
  · split at hopacity
    · cases List.mem_singleton.1 hopacity
      exact ⟨not_false, nofun⟩
    · cases hopacity
  · rcases List.mem_pair.1 hoptions with rfl | rfl
    · exact ⟨not_false, nofun⟩
    · exact ⟨not_false, nofun⟩

theorem Fair.moves {op : Operation α} {id : SubscriptionId} (h : op.Fair id)
    (f : TransferFunction α) : Move.Fair id (op.moves f) := by
  cases op with
  | edit e => exact Edit.Fair.moves h f
  | reshape change => exact .quiet trivial nofun
  | withOpacity c => exact .quiet trivial nofun
  | promote config => exact Edit.trace_fair (promotion_fair f config id) f

theorem trace_fair {ops : List (Operation α)} {id : SubscriptionId} (h : ∀ op ∈ ops, op.Fair id)
    (f : TransferFunction α) : Move.Fair id (trace f ops) := by
  induction ops generalizing f with
  | nil => exact .nil
  | cons op ops ih =>
    have hfirst : op.Fair id := h op List.mem_cons_self
    exact (hfirst.moves f).append (ih (fun o ho => h o (List.mem_cons_of_mem _ ho)) _)

/-- In any run of operations that are not announcements by hand, whatever its observers had seen
before, whoever is subscribed throughout hears as many changes as the revision grows by, and of a
rebuilt table each time one is built. After a change is told the table is marked, and after a
rebuilt one is told it is not. -/
theorem run_accounts (f : TransferFunction α) (earlier : List (Observers.Call α))
    (id : SubscriptionId) (hid : id ∈ (Observers.run {} earlier : Observers α).live)
    (ops : List (Operation α)) (hfair : ∀ op ∈ ops, op.Fair id) :
    let start : TransferFunction α := { f with observers := Observers.run {} earlier }
    let g := run start ops
    let moves := trace start ops
    let told := Move.told start moves
    g = Move.run start moves ∧
      g.observers.heard id = start.observers.heard id ++ told ∧
      g.revision = start.revision + told.countP CurveEvent.touches ∧
      told.countP CurveEvent.rebuilds = moves.countP Move.builds ∧
      ∀ t ∈ Move.log start moves, (t.1.rebuilds = true → t.2.stale = false) ∧
        (t.1.touches = true → t.2.stale = true) := by
  intro start g moves told
  have hmoves : Move.Fair id moves := trace_fair hfair start
  have hrun : g = Move.run start moves := run_eq_run start ops
  obtain ⟨hrevision, hrebuilt, hstale⟩ := hmoves.balanced.accounted start
  refine ⟨hrun, ?_, ?_, hrebuilt, hstale⟩
  · rw [hrun]
    exact Move.heard_run rfl hid hmoves.kept
  · rw [hrun]
    exact hrevision

def unnoticedEdits : List (Operation Binary64) :=
  [.edit .finalize, .edit (.unsubscribe ⟨1⟩), .edit (.remapInPlace 2 (-1)),
    .edit (.setPoint 7 (.plain 0 ⟨0, 0, 0⟩)), .reshape fun c => c.add 0 1, .promote .standard,
    .edit (.notify (.rangeChanged 2 (-1)))]

def viewedRamp : TransferFunction Binary64 :=
  { TransferFunction.ofPoints [.plain 0 ⟨0, 0, 0⟩, .plain 1 ⟨1, 1, 1⟩] with
    observers := Observers.run {} [.subscribe, .subscribe] }

theorem unnoticedEdits_accounted :
    ⟨0⟩ ∈ (Observers.run {} [.subscribe, .subscribe] : Observers Binary64).live ∧
      (∀ op ∈ unnoticedEdits, op.Fair ⟨0⟩) ∧
      let g := run viewedRamp unnoticedEdits
      let moves := trace viewedRamp unnoticedEdits
      let told := Move.told viewedRamp moves
      g.observers.heard ⟨0⟩ = viewedRamp.observers.heard ⟨0⟩ ++ told ∧
      g.revision = viewedRamp.revision + told.countP CurveEvent.touches ∧
      told.countP CurveEvent.rebuilds = moves.countP Move.builds := by
  have hid : ⟨0⟩ ∈ (Observers.run {} [.subscribe, .subscribe] : Observers Binary64).live :=
    List.mem_cons_self
  have hfair : ∀ op ∈ unnoticedEdits, op.Fair ⟨0⟩ := by
    simp [unnoticedEdits, Fair, Edit.Fair, Edit.Forges, CurveEvent.touches, CurveEvent.rebuilds]
  obtain ⟨-, hheard, hrevision, hrebuilt, -⟩ :=
    run_accounts viewedRamp [.subscribe, .subscribe] ⟨0⟩ hid unnoticedEdits hfair
  exact ⟨hid, hfair, hheard, hrevision, hrebuilt⟩

end Operation

end TransferCurves
