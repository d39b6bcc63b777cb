import TransferCurves.Range

/-!
# Plot transforms

A plot draws data positions at pixels by an affine map of the plane, and reads pixels back by the
inverse map. Only the horizontal axis is used: a position is the point on it, and the horizontal
coordinate of an image is what counts.
-/

namespace TransferCurves

open scoped Scalar

structure AffineMap (α : Type) where
  xx : α
  xy : α
  yx : α
  yy : α
  tx : α
  ty : α
deriving DecidableEq

structure PlotTransform (α : Type) where
  drawing : AffineMap α
  reading : AffineMap α
deriving DecidableEq

variable {α : Type} [Scalar α]

namespace AffineMap

def shift (x y : α) : AffineMap α := ⟨1, 0, 0, 1, x, y⟩

def scaling (x y : α) : AffineMap α := ⟨x, 0, 0, y, 0, 0⟩

def linearX (m : AffineMap α) (x y : α) : α := m.xx * x + m.yx * y

def linearY (m : AffineMap α) (x y : α) : α := m.xy * x + m.yy * y

def applyX (m : AffineMap α) (x y : α) : α := m.linearX x y + m.tx

def applyY (m : AffineMap α) (x y : α) : α := m.linearY x y + m.ty

/-- The map that applies `n` first and `m` to its image. -/
def comp (m n : AffineMap α) : AffineMap α where
  xx := m.linearX n.xx n.xy
  xy := m.linearY n.xx n.xy
  yx := m.linearX n.yx n.yy
  yy := m.linearY n.yx n.yy
  tx := m.applyX n.tx n.ty
  ty := m.applyY n.tx n.ty

def inverse (m : AffineMap α) : AffineMap α :=
  let d := 1 / (m.xx * m.yy - m.xy * m.yx)
  let linear : AffineMap α := ⟨m.yy * d, m.xy * (-d), m.yx * (-d), m.xx * d, 0, 0⟩
  { linear with tx := -linear.linearX m.tx m.ty, ty := -linear.linearY m.tx m.ty }

def isFinite (m : AffineMap α) : Bool :=
  Scalar.isFinite m.xx && Scalar.isFinite m.xy && Scalar.isFinite m.yx && Scalar.isFinite m.yy &&
    Scalar.isFinite m.tx && Scalar.isFinite m.ty

end AffineMap

namespace PlotTransform

def ofSpan (span : Range α) (left width : α) : Except (CurveError α) (PlotTransform α) :=
  match span.checkNormalizable with
  | .error e => .error e
  | .ok () =>
    if ¬(Scalar.isFinite width ∧ 0 < width) ∨ ¬Scalar.isFinite left then
      .error (.nonFinite .plotExtent)
    else
      let scale := width / span.width
      let drawing :=
        ((AffineMap.shift left 0).comp (.scaling scale 1)).comp (.shift (-span.min) 0)
      .ok ⟨drawing, drawing.inverse⟩

def ofAffine (drawing : AffineMap α) : Except (CurveError α) (PlotTransform α) :=
  if drawing.inverse.isFinite then .ok ⟨drawing, drawing.inverse⟩
  else .error (.nonFinite .plotInverse)

def toPixel (t : PlotTransform α) (x : α) : α := t.drawing.applyX x 0

def toData (t : PlotTransform α) (pixel : α) : α := t.reading.applyX pixel 0

end PlotTransform

end TransferCurves
