import TransferCurves.Scalar
import TransferCurves.Error

/-!
# Ranges

A range is a pair of bounds: the span of a curve's positions, the window it is moved to, the part of
the data a marker pair encloses. The bounds may stand in either order and may be any values; the
functions below say what each of them makes of that.
-/

namespace TransferCurves

open scoped Scalar

variable {α : Type} [Scalar α]

structure Range (α : Type) where
  min : α
  max : α
deriving DecidableEq

namespace Range

def ordered (a b : α) : Range α := if a ≤ b then ⟨a, b⟩ else ⟨b, a⟩

def byte : Range α := ⟨0, 255⟩

def width (r : Range α) : α := r.max - r.min

def center (r : Range α) : α := 0.5 * (r.min + r.max)

def isDegenerate (r : Range α) : Bool := Scalar.equal r.max r.min

def isFinite (r : Range α) : Bool := Scalar.isFinite r.min && Scalar.isFinite r.max

def contains (r : Range α) (x : α) : Bool := decide (r.min ≤ x) && decide (x ≤ r.max)

/-- The value held between the bounds; what is not a number becomes a bound. -/
def clamp (r : Range α) (x : α) : α := Scalar.max (Scalar.min x r.max) r.min

def denormalize (r : Range α) (t : α) : α := r.min + t * r.width

def checkNormalizable (r : Range α) : Except (CurveError α) Unit :=
  if !r.isFinite then .error (.nonFinite .rangeBound)
  else if r.isDegenerate then .error (.degenerateRange r.min r.max)
  else .ok ()

def normalize (r : Range α) (x : α) : Except (CurveError α) α :=
  r.checkNormalizable.map fun _ => (x - r.min) / r.width

/-- The least range that holds all the given positions that are numbers. Both bounds are zero if no
position is given, and both are no numbers if no position is one. -/
def ofPositions : List α → Range α
  | [] => ⟨0, 0⟩
  | x :: xs => xs.foldl (fun r x => ⟨Scalar.min r.min x, Scalar.max r.max x⟩) ⟨x, x⟩

end Range

end TransferCurves
