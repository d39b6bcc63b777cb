import TransferCurves.TransferFunction

/-!
# Shared functions

A chart that only reads a transfer function sees it through a view: it takes the table while that is
up to date and evaluates the curves otherwise. The editor may put another function in the place of
the one that is viewed; the observers of the place stay.
-/

namespace TransferCurves.TransferFunction

variable {α : Type}

/-- Put a function in the place of another. Those who observed the place go on observing it and are
told that everything changed; the observers that came with the new function are dropped. -/
def replaceWith (held incoming : TransferFunction α) : TransferFunction α :=
  opacityModified (modified { incoming with observers := held.observers })

def viewedAt [Scalar α] (f : TransferFunction α) (x : α) : Rgba α :=
  match f.table with
  | some table => if f.stale then f.valueAt x else table.valueAt x
  | none => f.valueAt x

variable [Scalar α] {f : TransferFunction α}

theorem viewedAt_of_stale (h : f.stale = true) (x : α) : f.viewedAt x = f.valueAt x := by
  rw [viewedAt, h]
  cases f.table <;> rfl

theorem viewedAt_of_fresh {t : LookupTable α} (htable : f.table = some t) (h : f.stale = false)
    (x : α) : f.viewedAt x = t.valueAt x := by
  rw [viewedAt, htable, h]
  rfl

theorem viewedAt_of_no_table (htable : f.table = none) (x : α) : f.viewedAt x = f.valueAt x := by
  rw [viewedAt, htable]

end TransferCurves.TransferFunction
