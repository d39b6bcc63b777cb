import TransferCurves.Attenuation
import TransferCurves.Proofs.Gesture
import TransferCurves.Proofs.Retiming

/-!
# Edits of a transfer function

Everything that can happen to a function under edit, one constructor for each call that may change
it, be it by its own methods, by retiming or by a controller. Main statement: what a call can do to
the color map, the revision and the table, whether it succeeds or fails.
-/

namespace TransferCurves

/-- A call that may change a function. Editing the attached opacity curve includes the notice that
the editor owes. -/
inductive Edit (α : Type)
  | setPoint (index : Nat) (p : ColorPoint α)
  | addPoint (p : ColorPoint α)
  | removeAllPoints
  | setOpacity (c : Option (OpacityCurve α))
  | ensureOpacity
  | editOpacity (edit : OpacityCurve α → OpacityCurve α)
  | setOpacityMapping (on : Bool)
  | setDiscretize (on : Bool)
  | setNumberOfValues (count : Nat)
  | setNanColor (c : Rgba α)
  | setTableSize (size : Nat)
  | finalize
  | modified
  | opacityModified
  | notify (event : CurveEvent α)
  | subscribe
  | unsubscribe (id : SubscriptionId)
  | remapFrom (target : TransferFunction α) (range : Range α) (newMin newMax : α)
  | remapOnto (source : TransferFunction α) (range : Range α) (newMin newMax : α)
  | remapInPlace (newMin newMax : α)
  | reverse
  | attenuate (factor : α)
  | attenuateWithin (factor floor ceiling : α)
  | attenuateConfigured (factor : α) (config : EditorConfig α)
  | gesture (c : RangeController α) (g : Gesture α)
  | select (c : RangeController α) (index : Option Nat)
  | recolor (c : RangeController α) (color : Rgb α)

namespace Edit

variable {α : Type} [Scalar α]

def apply (f : TransferFunction α) : Edit α → TransferFunction α
  | .setPoint index p => (f.setPoint index p).state
  | .addPoint p => f.addPoint p
  | .removeAllPoints => f.removeAllPoints
  | .setOpacity c => f.setOpacity c
  | .ensureOpacity => f.ensureOpacity
  | .editOpacity edit => (f.editOpacity edit).opacityModified
  | .setOpacityMapping on => f.setOpacityMapping on
  | .setDiscretize on => f.setDiscretize on
  | .setNumberOfValues count => f.setNumberOfValues count
  | .setNanColor c => f.setNanColor c
  | .setTableSize size => f.setTableSize size
  | .finalize => f.finalize
  | .modified => f.modified
  | .opacityModified => f.opacityModified
  | .notify event => f.notify event
  | .subscribe => f.subscribe.2
  | .unsubscribe id => (f.unsubscribe id).2
  | .remapFrom target range a b => (f.remap target range a b).state.1
  | .remapOnto source range a b => (source.remap f range a b).state.2
  | .remapInPlace a b => (f.remapInPlace a b).state
  | .reverse => f.reverse
  | .attenuate factor => f.attenuate factor
  | .attenuateWithin factor floor ceiling => f.attenuateWithin factor floor ceiling
  | .attenuateConfigured factor config => f.attenuateConfigured factor config
  | .gesture c g => ((g.perform (c, some f)).state.2).getD f
  | .select c index => (c.setCurrentPoint index f).2
  | .recolor c color => (c.setCurrentPointColor f color).state

def run (f : TransferFunction α) : List (Edit α) → TransferFunction α
  | [] => f
  | edit :: edits => run (edit.apply f) edits

end Edit

namespace TransferFunction

variable {α : Type} [Scalar α]

def Tabulated (f : TransferFunction α) : Prop :=
  f.table = some (LookupTable.build f.toColorMap f.tableSize)

/-- What one call can make of `f`: the revision grows unless the map is left as it was, and the
table is marked, rebuilt or left alone together with all that decides it. -/
structure Outcome (f g : TransferFunction α) : Prop where
  revision_le : f.revision ≤ g.revision
  alike : g.revision = f.revision → g.toColorMap.Alike f.toColorMap
  table : g.stale = true ∨ g.Tabulated ∨
    (g.stale = f.stale ∧ g.table = f.table ∧ g.tableSize = f.tableSize ∧
      g.toColorMap.Alike f.toColorMap)

theorem Tabulated.of_alike {f g : TransferFunction α} (h : f.Tabulated) (htable : g.table = f.table)
    (hsize : g.tableSize = f.tableSize) (hmap : g.toColorMap.Alike f.toColorMap) :
    g.Tabulated := by
  rw [Tabulated, htable, hsize, hmap.build]
  exact h

namespace Outcome

variable {f g k : TransferFunction α}

theorem of_counted (hrevision : g.revision = f.revision + 1) (hstale : g.stale = true) :
    Outcome f g where
  revision_le := by omega
  alike := by omega
  table := Or.inl hstale

theorem of_uncounted (hrevision : g.revision = f.revision) (hstale : g.stale = f.stale)
    (htable : g.table = f.table) (hsize : g.tableSize = f.tableSize)
    (hmap : g.toColorMap.Alike f.toColorMap) : Outcome f g where
  revision_le := Nat.le_of_eq hrevision.symm
  alike _ := hmap
  table := Or.inr (Or.inr ⟨hstale, htable, hsize, hmap⟩)

theorem refl (f : TransferFunction α) : Outcome f f :=
  of_uncounted rfl rfl rfl rfl (.refl _)

theorem of_unless {p : Prop} [Decidable p] (h : Outcome f g) : Outcome f (if p then f else g) := by
  split
  · exact refl f
  · exact h

theorem trans (h : Outcome f g) (h' : Outcome g k) : Outcome f k where
  revision_le := Nat.le_trans h.revision_le h'.revision_le
  alike heq := by
    have hg : g.revision = f.revision :=
      Nat.le_antisymm (heq ▸ h'.revision_le) h.revision_le
    exact (h'.alike (heq.trans hg.symm)).trans (h.alike hg)
  table := by
    rcases h'.table with hstale | htab | ⟨hstale, htable, hsize, hmap⟩
    · exact Or.inl hstale
    · exact Or.inr (Or.inl htab)
    · rcases h.table with hstale' | htab | ⟨hstale', htable', hsize', hmap'⟩
      · exact Or.inl (hstale.trans hstale')
      · exact Or.inr (Or.inl (htab.of_alike htable hsize hmap))
      · exact Or.inr (Or.inr ⟨hstale.trans hstale', htable.trans htable', hsize.trans hsize',
          hmap.trans hmap'⟩)

theorem notify (f : TransferFunction α) (event : CurveEvent α) : Outcome f (f.notify event) :=
  of_uncounted rfl rfl rfl rfl (.refl _)

theorem ensureOpacity (f : TransferFunction α) : Outcome f f.ensureOpacity :=
  of_uncounted rfl rfl rfl rfl f.alike_ensureOpacity

theorem setTableSize (f : TransferFunction α) (size : Nat) : Outcome f (f.setTableSize size) where
  revision_le := Nat.le_refl _
  alike _ := .refl _
  table := Or.inl rfl

theorem finalize (f : TransferFunction α) : Outcome f f.finalize where
  revision_le := Nat.le_refl _
  alike _ := .refl _
  table := Or.inr (Or.inl rfl)

theorem overwrite (f : TransferFunction α) (colors : List (ColorPoint α))
    (opacities : List (OpacityPoint α)) : Outcome f (f.overwrite colors opacities) := by
  have hrevision : (f.overwrite colors opacities).revision = f.revision + 2 := rfl
  exact ⟨by omega, by omega, Or.inr (Or.inl rfl)⟩

theorem setPoint (f : TransferFunction α) (index : Nat) (p : ColorPoint α) :
    Outcome f (f.setPoint index p).state := by
  rw [TransferFunction.setPoint]
  split
  · exact of_counted rfl rfl
  · exact refl f

theorem remapFrom (source target : TransferFunction α) (range : Range α) (a b : α) :
    Outcome source (source.remap target range a b).state.1 := by
  rcases source.remap_cases target range a b with ⟨e, h⟩ | ⟨e, h⟩ | ⟨colors, opacities, h⟩
  · rw [h]
    exact refl source
  · rw [h]
    exact ensureOpacity source
  · rw [h]
    exact ensureOpacity source

theorem remapOnto (source target : TransferFunction α) (range : Range α) (a b : α) :
    Outcome target (source.remap target range a b).state.2 := by
  rcases source.remap_cases target range a b with ⟨e, h⟩ | ⟨e, h⟩ | ⟨colors, opacities, h⟩
  · rw [h]
    exact refl target
  · rw [h]
    exact refl target
  · rw [h]
    exact overwrite target colors opacities

theorem remapInPlace (f : TransferFunction α) (a b : α) :
    Outcome f (f.remapInPlace a b).state := by
  rcases f.remapInPlace_cases a b with ⟨e, h⟩ | ⟨e, h⟩ | h
  · rw [h]
    exact refl f
  · rw [h]
    exact ensureOpacity f
  · rw [h]
    exact overwrite f _ _

theorem attenuateWithin (f : TransferFunction α) (factor floor ceiling : α) :
    Outcome f (f.attenuateWithin factor floor ceiling) := by
  rw [TransferFunction.attenuateWithin]
  split
  · exact refl f
  · exact of_counted rfl rfl

theorem gesture (f : TransferFunction α) (c : RangeController α) (g : Gesture α) :
    Outcome f ((g.perform (c, some f)).state.2.getD f) := by
  cases haim : g.aim c with
  | none =>
    rw [Gesture.perform_of_aim_none haim]
    exact refl f
  | some r =>
    rw [Gesture.perform_of_aim_some haim]
    rcases f.remapInPlace_cases r.min r.max with ⟨e, h⟩ | ⟨e, h⟩ | h
    · rw [RangeController.commit_of_fail h]
      exact refl f
    · rw [RangeController.commit_of_fail h]
      exact ensureOpacity f
    · rw [RangeController.commit_of_done h]
      exact (overwrite f _ _).trans (notify _ _)

theorem recolor (f : TransferFunction α) (c : RangeController α) (color : Rgb α) :
    Outcome f (c.setCurrentPointColor f color).state := by
  rw [RangeController.setCurrentPointColor]
  split
  · exact refl f
  · split
    · exact refl f
    · exact setPoint f _ _

end Outcome

end TransferFunction

/-- Every call leaves one of these outcomes, succeeding or failing. -/
theorem Edit.apply_outcome {α : Type} [Scalar α] (f : TransferFunction α) (edit : Edit α) :
    f.Outcome (edit.apply f) := by
  cases edit with
  | setPoint index p => exact .setPoint f index p
  | addPoint p => exact .of_counted rfl rfl
  | removeAllPoints => exact .of_counted rfl rfl
  | setOpacity c => exact .of_counted rfl rfl
  | ensureOpacity => exact .ensureOpacity f
  | editOpacity edit => exact .of_counted rfl rfl
  | setOpacityMapping on => exact .of_unless (.of_counted rfl rfl)
  | setDiscretize on => exact .of_unless (.of_counted rfl rfl)
  | setNumberOfValues count => exact .of_unless (.of_counted rfl rfl)
  | setNanColor c => exact .of_counted rfl rfl
  | setTableSize size => exact .setTableSize f size
  | finalize => exact .finalize f
  | modified => exact .of_counted rfl rfl
  | opacityModified => exact .of_counted rfl rfl
  | notify event => exact .notify f event
  | subscribe => exact .of_uncounted rfl rfl rfl rfl (.refl _)
  | unsubscribe id => exact .of_uncounted rfl rfl rfl rfl (.refl _)
  | remapFrom target range a b => exact .remapFrom f target range a b
  | remapOnto source range a b => exact .remapOnto source f range a b
  | remapInPlace a b => exact .remapInPlace f a b
  | reverse => exact .of_counted rfl rfl
  | attenuate factor => exact .attenuateWithin f factor _ _
  | attenuateWithin factor floor ceiling => exact .attenuateWithin f factor floor ceiling
  | attenuateConfigured factor config => exact .attenuateWithin f factor _ _
  | gesture c g => exact .gesture f c g
  | select c index =>
    rw [apply, RangeController.setCurrentPoint]
    split
    · exact .refl f
    · exact .notify f _
  | recolor c color => exact .recolor f c color

theorem Edit.run_outcome {α : Type} [Scalar α] (f : TransferFunction α) (edits : List (Edit α)) :
    f.Outcome (Edit.run f edits) := by
  induction edits generalizing f with
  | nil => exact .refl f
  | cons edit edits ih => exact (edit.apply_outcome f).trans (ih (edit.apply f))

end TransferCurves
