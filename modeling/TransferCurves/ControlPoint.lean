import TransferCurves.Scalar

/-!
# Control points

A control point fixes the value of a curve at a position and shapes the segment that leaves it to
the right. Color curves and opacity curves have the same points, with values of different kinds.
Main statement: sorting rearranges points and does nothing else to them.
-/

namespace TransferCurves

open scoped Scalar

structure Rgb (α : Type) where
  r : α
  g : α
  b : α
deriving DecidableEq

structure Rgba (α : Type) where
  r : α
  g : α
  b : α
  a : α
deriving DecidableEq

class Channels (α V : Type) where
  zipWith : (α → α → α) → V → V → V

instance (α : Type) : Channels α α := ⟨fun f => f⟩

instance (α : Type) : Channels α (Rgb α) := ⟨fun f c d => ⟨f c.r d.r, f c.g d.g, f c.b d.b⟩⟩

structure ControlPoint (α V : Type) where
  position : α
  value : V
  /-- The fraction of the segment at which half of the way to the next value is reached. -/
  midpoint : α
  /-- The shape of the segment, from a line at zero to a step at one. -/
  sharpness : α
deriving DecidableEq

abbrev ColorPoint (α : Type) := ControlPoint α (Rgb α)

abbrev OpacityPoint (α : Type) := ControlPoint α α

namespace ControlPoint

variable {α V : Type}

def plain [Scalar α] (position : α) (value : V) : ControlPoint α V :=
  ⟨position, value, 0.5, 0⟩

def reposition (f : α → α) (p : ControlPoint α V) : ControlPoint α V :=
  { p with position := f p.position }

/-- Put a point into a list sorted by position, in front of the points at its own position. -/
def insertByPosition [Scalar α] (p : ControlPoint α V) :
    List (ControlPoint α V) → List (ControlPoint α V)
  | [] => [p]
  | q :: qs =>
    if Scalar.totalLE p.position q.position then p :: q :: qs else q :: insertByPosition p qs

def sortByPosition [Scalar α] (points : List (ControlPoint α V)) : List (ControlPoint α V) :=
  points.foldr insertByPosition []

theorem insertByPosition_perm [Scalar α] (p : ControlPoint α V) (qs : List (ControlPoint α V)) :
    (insertByPosition p qs).Perm (p :: qs) := by
  induction qs with
  | nil => exact .refl _
  | cons q qs ih =>
    rw [insertByPosition]
    split
    · exact .refl _
    · exact (ih.cons q).trans (.swap p q qs)

theorem sortByPosition_perm [Scalar α] (points : List (ControlPoint α V)) :
    (sortByPosition points).Perm points := by
  induction points with
  | nil => exact .refl _
  | cons p points ih => exact (insertByPosition_perm p _).trans (ih.cons p)

end ControlPoint

end TransferCurves
