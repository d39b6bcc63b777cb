import TransferCurves.LookupTable
import TransferCurves.Observers

/-!
# Transfer functions

A transfer function is the color map of an editing session together with what is derived from it:
the lookup table, the mark that says whether the table is out of date, and a revision that grows
with every change. Changes are told to the observers. The table is rebuilt only on request, by
`finalize`.
-/

namespace TransferCurves

structure TransferFunction (α : Type) extends ColorMap α where
  tableSize : Nat
  revision : Nat
  table : Option (LookupTable α)
  stale : Bool
  observers : Observers α
deriving DecidableEq

namespace TransferFunction

variable {α : Type}

def ofColorMap (m : ColorMap α) (tableSize : Nat) : TransferFunction α :=
  { m with tableSize, revision := 0, table := none, stale := true, observers := {} }

def ofPoints [Scalar α] (points : List (ColorPoint α)) : TransferFunction α :=
  ofColorMap (.ofPoints points) LookupTable.defaultSize

def empty [Scalar α] : TransferFunction α := ofPoints []

def copy (f : TransferFunction α) : TransferFunction α := { f with observers := {} }

/-- Attach and use an opacity curve before the function is edited: this counts as no change. -/
def withOpacity (f : TransferFunction α) (c : OpacityCurve α) : TransferFunction α :=
  { f with opacity := some c, opacityMapping := true }

def notify (f : TransferFunction α) (event : CurveEvent α) : TransferFunction α :=
  { f with observers := f.observers.emit event }

def touch (f : TransferFunction α) (event : CurveEvent α) : TransferFunction α :=
  { f with revision := f.revision + 1, stale := true, observers := f.observers.emit event }

def modified (f : TransferFunction α) : TransferFunction α := f.touch .pointsChanged

def opacityModified (f : TransferFunction α) : TransferFunction α := f.touch .opacityChanged

def subscribe (f : TransferFunction α) : SubscriptionId × TransferFunction α :=
  let (id, observers) := f.observers.subscribe
  (id, { f with observers })

def unsubscribe (f : TransferFunction α) (id : SubscriptionId) : Bool × TransferFunction α :=
  let (found, observers) := f.observers.unsubscribe id
  (found, { f with observers })

def size (f : TransferFunction α) : Nat := f.points.length

def isEmpty (f : TransferFunction α) : Bool := f.points.isEmpty

def point (f : TransferFunction α) (index : Nat) : Except (CurveError α) (ColorPoint α) :=
  match f.points[index]? with
  | some p => .ok p
  | none => .error (.pointOutOfBounds index f.size)

def setPoint (f : TransferFunction α) (index : Nat) (p : ColorPoint α) :
    Attempt α (TransferFunction α) :=
  if index < f.size then .done (modified { f with points := f.points.set index p })
  else .fail f (.pointOutOfBounds index f.size)

def addPoint (f : TransferFunction α) (p : ColorPoint α) : TransferFunction α :=
  modified { f with points := f.points ++ [p] }

def removeAllPoints (f : TransferFunction α) : TransferFunction α :=
  modified { f with points := [] }

def setOpacity (f : TransferFunction α) (c : Option (OpacityCurve α)) : TransferFunction α :=
  opacityModified { f with opacity := c }

def ensureOpacity (f : TransferFunction α) : TransferFunction α :=
  { f with opacity := some (f.opacity.getD {}) }

/-- Edit the attached opacity curve without counting a change; the editor owes `opacityModified`. -/
def editOpacity (f : TransferFunction α) (edit : OpacityCurve α → OpacityCurve α) :
    TransferFunction α :=
  { f with opacity := f.opacity.map edit }

def setOpacityMapping (f : TransferFunction α) (on : Bool) : TransferFunction α :=
  if f.opacityMapping = on then f else opacityModified { f with opacityMapping := on }

theorem setOpacityMapping_of_eq {f : TransferFunction α} {on : Bool} (h : f.opacityMapping = on) :
    f.setOpacityMapping on = f := if_pos h

theorem toColorMap_setOpacityMapping (f : TransferFunction α) (on : Bool) :
    (f.setOpacityMapping on).toColorMap = { f.toColorMap with opacityMapping := on } := by
  rw [setOpacityMapping]
  split
  · next hsame => rw [← hsame]
  · rfl

theorem stale_setOpacityMapping {f : TransferFunction α} (h : f.stale = true) (on : Bool) :
    (f.setOpacityMapping on).stale = true := by
  rw [setOpacityMapping]
  split
  · exact h
  · rfl

theorem tableSize_setOpacityMapping (f : TransferFunction α) (on : Bool) :
    (f.setOpacityMapping on).tableSize = f.tableSize := by
  rw [setOpacityMapping]
  split
  · rfl
  · rfl

def setDiscretize (f : TransferFunction α) (on : Bool) : TransferFunction α :=
  if f.discretize = on then f else modified { f with discretize := on }

def setNumberOfValues (f : TransferFunction α) (count : Nat) : TransferFunction α :=
  let count := max count 1
  if f.numberOfValues = count then f else modified { f with numberOfValues := count }

def setNanColor (f : TransferFunction α) (c : Rgba α) : TransferFunction α :=
  modified { f with nanColor := c }

def setTableSize (f : TransferFunction α) (size : Nat) : TransferFunction α :=
  { f with tableSize := max size 2, stale := true }

def finalize [Scalar α] (f : TransferFunction α) : TransferFunction α :=
  { f with
    table := some (LookupTable.build f.toColorMap f.tableSize)
    stale := false
    observers := f.observers.emit .rebuilt }

end TransferFunction

end TransferCurves
