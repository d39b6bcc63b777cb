import TransferCurves.Proofs.Freshness

/-!
# Opacities attached without notice

An opacity curve can be given to a function by its maker, or by edits of the function. Either way it
has the same color map. The edits mark its table as out of date. The maker does not: a function that
had a table by then goes on showing it, without the new opacities, until an edit marks the table or
builds it again.
-/

namespace TransferCurves.TransferFunction

open scoped Scalar

variable {α : Type}

theorem withOpacity_eq_editOpacity {f : TransferFunction α} (h : f.opacityMapping = true)
    (c : OpacityCurve α) : f.withOpacity c = f.ensureOpacity.editOpacity fun _ => c := by
  rw [withOpacity, ← h]
  rfl

variable [Scalar α]

theorem viewedAt_run {f : TransferFunction α} {t : LookupTable α} (htable : f.table = some t)
    (edits : List (Edit α)) :
    let g := Edit.run f edits
    (∀ x, g.viewedAt x = g.valueAt x) ∨
      (∀ x, g.viewedAt x = (LookupTable.build g.toColorMap g.tableSize).valueAt x) ∨
      (∀ x, g.viewedAt x = t.valueAt x) ∧ g.toColorMap.Alike f.toColorMap := by
  intro g
  cases hstale : g.stale with
  | true => exact Or.inl (viewedAt_of_stale hstale)
  | false =>
    rcases (Edit.run_outcome f edits).table with hmarked | hbuilt | ⟨-, hkept, -, hmap⟩
    · rw [hstale] at hmarked
      cases hmarked
    · exact Or.inr (Or.inl (viewedAt_of_fresh hbuilt hstale))
    · exact Or.inr (Or.inr ⟨viewedAt_of_fresh (hkept.trans htable) hstale, hmap⟩)

/-- Attached by its maker or by edits, an opacity curve gives a function the same map and, once the
table is built again, the same view. Edits show it at once; the maker does no more than an edit
without its notice. The views agree exactly if the function had no table that was not marked, or if
that table happens to show the new opacities; it is shown until an edit marks it or builds another. -/
theorem withOpacity_viewed_iff (f : TransferFunction α) (c : OpacityCurve α) :
    let made := f.withOpacity c
    let edited := (f.setOpacity (some c)).setOpacityMapping true
    edited.toColorMap = made.toColorMap ∧
      (f.opacityMapping = true → made = f.ensureOpacity.editOpacity fun _ => c) ∧
      (∀ x, edited.finalize.viewedAt x = made.finalize.viewedAt x) ∧
      (∀ x, edited.viewedAt x = made.valueAt x) ∧
      ((∀ x, made.viewedAt x = edited.viewedAt x) ↔
        ∀ t, f.table = some t → f.stale = false → ∀ x, t.valueAt x = made.valueAt x) ∧
      ∀ t, f.table = some t → ∀ edits,
        let g := Edit.run made edits
        (∀ x, g.viewedAt x = g.valueAt x) ∨
          (∀ x, g.viewedAt x = (LookupTable.build g.toColorMap g.tableSize).valueAt x) ∨
          (∀ x, g.viewedAt x = t.valueAt x) ∧ g.toColorMap.Alike made.toColorMap := by
  intro made edited
  have hmap : edited.toColorMap = made.toColorMap :=
    toColorMap_setOpacityMapping (f.setOpacity (some c)) true
  have hsize : edited.tableSize = made.tableSize :=
    tableSize_setOpacityMapping (f.setOpacity (some c)) true
  have hedited (x : α) : edited.viewedAt x = made.valueAt x := by
    rw [viewedAt_of_stale (stale_setOpacityMapping rfl true), hmap]
  refine ⟨hmap, (withOpacity_eq_editOpacity · c), fun x => ?_, hedited, ⟨?_, fun h x => ?_⟩, ?_⟩
  · rw [viewedAt_of_fresh rfl rfl, viewedAt_of_fresh rfl rfl, hmap, hsize]
  · intro h t htable hfresh x
    rw [← viewedAt_of_fresh (f := made) htable hfresh x, h x, hedited x]
  · rw [hedited x]
    cases hstale : f.stale with
    | true => exact viewedAt_of_stale (f := made) hstale x
    | false =>
      cases htable : f.table with
      | none => exact viewedAt_of_no_table (f := made) htable x
      | some t =>
        rw [viewedAt_of_fresh (f := made) htable hstale x]
        exact h t htable hstale x
  · intro t htable edits
    exact viewedAt_run (f := made) htable edits

def tabulatedRamp : TransferFunction Binary64 :=
  Edit.run (.ofPoints [.plain 0 ⟨0, 0, 0⟩, .plain 1 ⟨1, 1, 1⟩])
    [.setOpacityMapping true, .setTableSize 2, .finalize]

theorem tabulatedRamp_hides_opacity :
    ¬∀ f : TransferFunction Binary64, Reached f → ∀ (c : OpacityCurve Binary64) (x : Binary64),
      (f.withOpacity c).viewedAt x =
        ((f.setOpacity (some c)).setOpacityMapping true).viewedAt x := by
  intro h
  have hreached : Reached tabulatedRamp :=
    .edited .finalize (.edited (.setTableSize 2) (.edited (.setOpacityMapping true) (.ofPoints _)))
  have hviews := h tabulatedRamp hreached ⟨[.plain 0 0]⟩ 0
  exact absurd hviews (by decide +kernel)

end TransferCurves.TransferFunction
