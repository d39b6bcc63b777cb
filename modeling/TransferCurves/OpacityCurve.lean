import TransferCurves.Evaluation
import TransferCurves.Range

/-!
# Opacity curves

An opacity curve is a list of control points in the order in which they were stored. The list is
sorted only to be evaluated.
-/

namespace TransferCurves

open scoped Scalar

structure OpacityCurve (α : Type) where
  points : List (OpacityPoint α) := []
deriving DecidableEq

namespace OpacityCurve

variable {α : Type}

def ramp [Scalar α] (x₀ a₀ x₁ a₁ : α) : OpacityCurve α :=
  ⟨[.plain x₀ a₀, .plain x₁ a₁]⟩

def size (c : OpacityCurve α) : Nat := c.points.length

def isEmpty (c : OpacityCurve α) : Bool := c.points.isEmpty

def point (c : OpacityCurve α) (index : Nat) : Except (CurveError α) (OpacityPoint α) :=
  match c.points[index]? with
  | some p => .ok p
  | none => .error (.pointOutOfBounds index c.size)

def setPoint (c : OpacityCurve α) (index : Nat) (p : OpacityPoint α) :
    Attempt α (OpacityCurve α) :=
  if index < c.size then .done ⟨c.points.set index p⟩
  else .fail c (.pointOutOfBounds index c.size)

def addPoint (c : OpacityCurve α) (p : OpacityPoint α) : OpacityCurve α := ⟨c.points ++ [p]⟩

def add [Scalar α] (c : OpacityCurve α) (position opacity : α) : OpacityCurve α :=
  c.addPoint (.plain position opacity)

def range [Scalar α] (c : OpacityCurve α) : Range α := .ofPositions (c.points.map (·.position))

def evaluate [Scalar α] (c : OpacityCurve α) (x : α) : Option α :=
  ControlPoint.evaluate (ControlPoint.sortByPosition c.points) x

end OpacityCurve

end TransferCurves
