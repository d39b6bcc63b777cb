import TransferCurves.OpacityCurve

/-!
# Color maps

A color map is what a transfer function shows: a color curve, perhaps an opacity curve, and the
options for tabulating them. It assigns a color with opacity to every scalar.
-/

namespace TransferCurves

open scoped Scalar

structure ColorMap (α : Type) where
  points : List (ColorPoint α)
  opacity : Option (OpacityCurve α)
  opacityMapping : Bool
  discretize : Bool
  numberOfValues : Nat
  nanColor : Rgba α
deriving DecidableEq

structure Sampler (α : Type) where
  colors : List (ColorPoint α)
  opacities : List (OpacityPoint α)
  opacityMapping : Bool

variable {α : Type} [Scalar α]

namespace Sampler

def color (s : Sampler α) (x : α) : Rgb α := (ControlPoint.evaluate s.colors x).getD ⟨0, 0, 0⟩

/-- The opacity at `x`; opaque without opacity points or without mapping. -/
def opacity (s : Sampler α) (x : α) : α :=
  if s.opacityMapping then (ControlPoint.evaluate s.opacities x).getD 1 else 1

def rgba (s : Sampler α) (x : α) : Rgba α :=
  let c := s.color x
  ⟨c.r, c.g, c.b, s.opacity x⟩

end Sampler

namespace ColorMap

def ofPoints (points : List (ColorPoint α)) : ColorMap α where
  points := points
  opacity := none
  opacityMapping := false
  discretize := false
  numberOfValues := 256
  nanColor := ⟨0.5, 0, 0, 1⟩

def opacityPoints (m : ColorMap α) : List (OpacityPoint α) :=
  match m.opacity with
  | some c => c.points
  | none => []

def range (m : ColorMap α) : Range α := .ofPositions (m.points.map (·.position))

def sampler (m : ColorMap α) : Sampler α where
  colors := ControlPoint.sortByPosition m.points
  opacities := ControlPoint.sortByPosition m.opacityPoints
  opacityMapping := m.opacityMapping

def valueAt (m : ColorMap α) (x : α) : Rgba α :=
  if Scalar.isNaN x then m.nanColor else m.sampler.rgba x

end ColorMap

end TransferCurves
