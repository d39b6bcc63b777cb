import TransferCurves.TransferFunction

/-!
# Retiming

Retiming moves the control points of a function from a source range to a target window: a position
keeps its fraction of the range. Values and shapes stay. The opacity points are measured against the
range of the color points, so both curves stay aligned. A window with its bounds inverted is
allowed; the points keep their stored order, so positions then descend.
-/

namespace TransferCurves.TransferFunction

open scoped Scalar

variable {α : Type} [Scalar α]

def retimed (source : Range α) (newMin newMax x : α) : α :=
  newMin + (x - source.min) / source.width * (newMax - newMin)

def checkSource (f : TransferFunction α) (range : Range α) : Except (CurveError α) Unit :=
  if f.points.isEmpty && f.opacityPoints.isEmpty then .ok () else range.checkNormalizable

def overwrite (f : TransferFunction α) (colors : List (ColorPoint α))
    (opacities : List (OpacityPoint α)) : TransferFunction α :=
  finalize (opacityModified (modified { f with points := colors, opacity := some ⟨opacities⟩ }))

/-- Give `target` the points of `source`, moved from a range of the source to a window. A window
that is not finite is refused at once. Otherwise the source gets an empty opacity curve if it has
none, and only then is its range looked at. -/
def remap (source target : TransferFunction α) (range : Range α) (newMin newMax : α) :
    Attempt α (TransferFunction α × TransferFunction α) :=
  if !Scalar.isFinite newMin || !Scalar.isFinite newMax then
    .fail (source, target) (.nonFinite .targetBound)
  else
    let source := source.ensureOpacity
    match source.checkSource range with
    | .error e => .fail (source, target) e
    | .ok () =>
      let move := retimed range newMin newMax
      .done (source, target.overwrite (source.points.map (.reposition move))
        (source.opacityPoints.map (.reposition move)))

def remapInPlace (f : TransferFunction α) (newMin newMax : α) : Attempt α (TransferFunction α) :=
  let moved := f.remap empty f.range newMin newMax
  let (f, scratch) := moved.state
  match moved.verdict with
  | .ok () => .done (f.overwrite scratch.points scratch.opacityPoints)
  | .error e => .fail f e

/-- Hand the positions of the color points out in reverse order; values and shapes stay. -/
def reverse (f : TransferFunction α) : TransferFunction α :=
  let positions := (f.points.map (·.position)).reverse
  modified { f with points := f.points.zipWith (fun p x => { p with position := x }) positions }

end TransferCurves.TransferFunction
