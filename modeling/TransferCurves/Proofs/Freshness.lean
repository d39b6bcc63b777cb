import TransferCurves.Json.Stored
import TransferCurves.PresetCatalog
import TransferCurves.Proofs.Edit
import TransferCurves.SharedFunction

/-!
# The table is fresh

A function that is not marked as stale carries the table of its own color map, however it came
about: made from points, read back, copied, promoted, taken from a catalog, put in the place of
another, and edited in any way. A view therefore shows that table or the curves themselves, and
never a value of the past.
-/

namespace TransferCurves

open scoped Scalar

theorem Json.transferFunction_ofValue?_eq_some {v : Json.Value} {f : TransferFunction Binary64}
    (h : Json.transferFunction.ofValue? v = some f) :
    ∃ m size, f = .ofColorMap m size := by
  simp only [Json.transferFunction] at h
  split at h
  · simp only [Option.bind_eq_bind, Option.bind_eq_some_iff] at h
    obtain ⟨points, -, opacity, -, nan, -, hf⟩ := h
    exact ⟨_, _, (Option.some.inj hf).symm⟩
  · cases h

theorem Json.read_transferFunction {text : String} {f : TransferFunction Binary64}
    (h : Json.transferFunction.read text = .ok f) : ∃ m size, f = .ofColorMap m size := by
  obtain ⟨v, -, hv⟩ := Codec.read_eq_ok_iff.1 h
  exact transferFunction_ofValue?_eq_some hv

namespace TransferFunction

def Fresh {α : Type} [Scalar α] (f : TransferFunction α) : Prop := f.stale = false → f.Tabulated

namespace Fresh

variable {α : Type} [Scalar α] {f g : TransferFunction α}

theorem of_stale (h : f.stale = true) : f.Fresh := fun hfresh => by simp [h] at hfresh

theorem of_outcome (hf : f.Fresh) (h : f.Outcome g) : g.Fresh := by
  intro hfresh
  rcases h.table with hstale | htab | ⟨hstale, htable, hsize, hmap⟩
  · simp [hstale] at hfresh
  · exact htab
  · exact (hf (hstale.symm.trans hfresh)).of_alike htable hsize hmap

theorem withOpacity (hf : f.Fresh) (htable : f.table = none) (c : OpacityCurve α) :
    (f.withOpacity c).Fresh := by
  refine of_stale ?_
  cases hstale : f.stale with
  | true => exact hstale
  | false =>
    have htab := hf hstale
    rw [Tabulated, htable] at htab
    cases htab

theorem copy (hf : f.Fresh) : f.copy.Fresh := hf

theorem promote (f : TransferFunction α) (config : EditorConfig α) : (f.promote config).Fresh :=
  of_stale rfl

theorem replaceWith (held incoming : TransferFunction α) : (held.replaceWith incoming).Fresh :=
  of_stale rfl

theorem instantiate? {k : PresetCatalog α} {index : Nat} (h : k.instantiate? index = some f) :
    f.Fresh := by
  obtain ⟨preset, -, rfl⟩ := Option.map_eq_some_iff.1 h
  exact fun _ => rfl

end Fresh

/-- The functions that come about by any sequence of operations. What other objects an operation
takes, a function to copy points from, a controller, a catalog, may be any. -/
inductive Reached : TransferFunction Binary64 → Prop
  | ofPoints (points : List (ColorPoint Binary64)) : Reached (.ofPoints points)
  | withOpacity {f} (c : OpacityCurve Binary64) : Reached f → f.table = none →
      Reached (f.withOpacity c)
  | restored {f} (text : String) : Json.transferFunction.read text = .ok f → Reached f
  | edited {f} (edit : Edit Binary64) : Reached f → Reached (edit.apply f)
  | copied {f} : Reached f → Reached f.copy
  | promoted {f} (config : EditorConfig Binary64) : Reached f → Reached (f.promote config)
  | instantiated {f} (k : PresetCatalog Binary64) (index : Nat) :
      k.instantiate? index = some f → Reached f
  | replaced {incoming} (held : TransferFunction Binary64) : Reached incoming →
      Reached (held.replaceWith incoming)

theorem Reached.fresh {f : TransferFunction Binary64} (h : Reached f) : f.Fresh := by
  -- Copying and editing carry the invariant over; the other ways start stale or with a new table.
  induction h with
  | ofPoints points => exact .of_stale rfl
  | withOpacity c _ htable ih => exact ih.withOpacity htable c
  | restored text hread =>
    obtain ⟨m, size, rfl⟩ := Json.read_transferFunction hread
    exact .of_stale rfl
  | edited edit _ ih => exact ih.of_outcome (edit.apply_outcome _)
  | copied _ ih => exact ih.copy
  | promoted config _ _ => exact .promote _ config
  | instantiated k index hk => exact .instantiate? hk
  | replaced held _ _ => exact .replaceWith held _

/-- Whenever a function that came about by any operations is not stale, its table is there and is
the one of its present map and size. A view shows that table then, and the curves otherwise. -/
theorem reached_table_is_current {f : TransferFunction Binary64} (h : Reached f) :
    (f.stale = false → f.table = some (LookupTable.build f.toColorMap f.tableSize)) ∧
      ∀ x, f.viewedAt x =
        if f.stale then f.valueAt x
        else (LookupTable.build f.toColorMap f.tableSize).valueAt x := by
  refine ⟨h.fresh, fun x => ?_⟩
  cases hstale : f.stale with
  | true =>
    rw [viewedAt, hstale]
    cases f.table <;> rfl
  | false =>
    have htable : f.table = some (LookupTable.build f.toColorMap f.tableSize) := h.fresh hstale
    rw [viewedAt, htable, hstale]

def copiedInVain : TransferFunction Binary64 :=
  Edit.apply (Edit.apply (.ofPoints [.plain 1 ⟨0, 0, 0⟩, .plain 1 ⟨1, 1, 1⟩]) .finalize)
    (.remapFrom .empty ⟨1, 1⟩ 0 2)

theorem copiedInVain_table_is_current :
    Reached copiedInVain ∧ copiedInVain.stale = false ∧ (copiedInVain.stale = false → copiedInVain.table =
        some (LookupTable.build copiedInVain.toColorMap copiedInVain.tableSize)) ∧
      ∀ x, copiedInVain.viewedAt x =
        if copiedInVain.stale then copiedInVain.valueAt x
        else (LookupTable.build copiedInVain.toColorMap copiedInVain.tableSize).valueAt x := by
  have hreached : Reached copiedInVain := .edited _ (.edited .finalize (.ofPoints _))
  have hstale : copiedInVain.stale = false := by decide +kernel
  exact ⟨hreached, hstale, reached_table_is_current hreached⟩

end TransferFunction

end TransferCurves
