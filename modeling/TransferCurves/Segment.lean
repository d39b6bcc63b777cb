import TransferCurves.ControlPoint

/-!
# Segments

Between two control points a curve runs from the left value to the right one along a fraction `t` of
the segment. The midpoint of the left point first bends `t`, so that half of the way is reached
there. Its sharpness then chooses a straight line, a step, or a cubic blend between the two.
-/

namespace TransferCurves.Segment

open scoped Scalar

variable {α : Type} [Scalar α]

def heldMidpoint (midpoint : α) : α := Scalar.clamp 1e-5 (1 - 1e-5) midpoint

def bend (m t : α) : α := if t < m then 0.5 * t / m else 0.5 + 0.5 * (t - m) / (1 - m)

def cubic (sharpness v₁ v₂ t : α) : α :=
  let t₂ := t * t
  let t₃ := t₂ * t
  let fromLeft := 2 * t₃ - 3 * t₂ + 1
  let fromRight := (-2) * t₃ + 3 * t₂
  let leftTangent := t₃ - 2 * t₂ + t
  let rightTangent := t₃ - t₂
  let tangent := (1 - sharpness) * (v₂ - v₁)
  fromLeft * v₁ + fromRight * v₂ + (leftTangent + rightTangent) * tangent

/-- The blend of two values at a bent fraction: a line at low sharpness, a step at high sharpness,
a cubic between. -/
def blend (sharpness v₁ v₂ t : α) : α :=
  if sharpness < 0.01 then v₁ + t * (v₂ - v₁)
  else if 0.99 < sharpness then (if t < 0.5 then v₁ else v₂)
  else cubic sharpness v₁ v₂ t

def value (v₁ v₂ t midpoint sharpness : α) : α :=
  blend sharpness v₁ v₂ (bend (heldMidpoint midpoint) t)

end TransferCurves.Segment
