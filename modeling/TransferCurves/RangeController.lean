import TransferCurves.Config
import TransferCurves.PlotTransform
import TransferCurves.Retiming

/-!
# Range controllers

A chart marks the current range of its function inside the fixed range of the data. A press near a
marker grabs it, a drag moves it, never out of the data and never past the other marker, and a
release drops it. Every move retimes the function onto the new range. The controller holds the state
of this protocol and the selection of a control point; painting and pointer dispatch are the
chart's.
-/

namespace TransferCurves

open scoped Scalar

inductive RangeHandle where
  | min
  | max
deriving DecidableEq

structure RangeController (α : Type) where
  dataRange : Range α
  currentRange : Range α
  moving : Option RangeHandle
  catchWidth : α
  emptyRange : Range α
  currentPoint : Option Nat
deriving DecidableEq

namespace RangeController

variable {α : Type} [Scalar α]

def ofConfig (config : EditorConfig α) : RangeController α where
  dataRange := config.emptyRange
  currentRange := config.emptyRange
  moving := none
  catchWidth := config.catchWidth
  emptyRange := config.emptyRange
  currentPoint := none

def attach (c : RangeController α) (data : Range α) : RangeController α :=
  { c with dataRange := data, currentRange := data, moving := none, currentPoint := none }

def attachFunction (c : RangeController α) (f : Option (TransferFunction α)) :
    RangeController α :=
  c.attach (match f with
    | some f => f.range
    | none => c.emptyRange)

def inGrabZone (c : RangeController α) (t : PlotTransform α) (pixel marker : α) : Bool :=
  let center := t.toPixel marker
  decide (center - c.catchWidth ≤ pixel) && decide (pixel < center + c.catchWidth)

def handleAt (c : RangeController α) (t : PlotTransform α) (pixel : α) : Option RangeHandle :=
  if c.inGrabZone t pixel c.currentRange.min then some .min
  else if c.inGrabZone t pixel c.currentRange.max then some .max
  else none

def press (c : RangeController α) (pixel : α) (t : PlotTransform α) : RangeController α :=
  match c.moving with
  | some _ => c
  | none => { c with moving := c.handleAt t pixel }

def release (c : RangeController α) : RangeController α := { c with moving := none }

/-- The current range after moving one marker towards a value: out of the data it stops at the bound
on its side, and it stays where it was if it would meet the other marker. -/
def moved (c : RangeController α) (handle : RangeHandle) (value : α) : Range α :=
  let current := c.currentRange
  match handle with
  | .min =>
    if value < c.dataRange.min then { current with min := c.dataRange.min }
    else if value < current.max then { current with min := value }
    else current
  | .max =>
    if c.dataRange.max < value then { current with max := c.dataRange.max }
    else if current.min < value then { current with max := value }
    else current

/-- Retime the function, if there is one, onto a range, tell its observers and make the range
current. If the retiming fails the current range stays. -/
def commit (c : RangeController α) (candidate : Range α) (f : Option (TransferFunction α)) :
    Attempt α (RangeController α × Option (TransferFunction α)) :=
  match f with
  | none => .done ({ c with currentRange := candidate }, none)
  | some f =>
    let retiming := f.remapInPlace candidate.min candidate.max
    match retiming.verdict with
    | .error e => .fail (c, some retiming.state) e
    | .ok () =>
      .done ({ c with currentRange := candidate },
        some (retiming.state.notify (.rangeChanged candidate.min candidate.max)))

def dragTo (c : RangeController α) (pixel : α) (t : PlotTransform α)
    (f : Option (TransferFunction α)) :
    Attempt α (RangeController α × Option (TransferFunction α)) :=
  match c.moving with
  | none => .done (c, f)
  | some handle => c.commit (c.moved handle (t.toData pixel)) f

def proposed (c : RangeController α) (min max : α) : Range α :=
  let min := c.dataRange.clamp min
  let max := c.dataRange.clamp max
  if min < max then ⟨min, max⟩ else c.currentRange

def setCurrentRange (c : RangeController α) (min max : α) (f : Option (TransferFunction α)) :
    Attempt α (RangeController α × Option (TransferFunction α)) :=
  c.commit (c.proposed min max) f

def resetRange (c : RangeController α) (f : Option (TransferFunction α)) :
    Attempt α (RangeController α × Option (TransferFunction α)) :=
  c.setCurrentRange c.dataRange.min c.dataRange.max f

def centerRange (c : RangeController α) (center : α) (f : Option (TransferFunction α)) :
    Attempt α (RangeController α × Option (TransferFunction α)) :=
  let half := c.currentRange.width / 2
  let allowed : Range α := ⟨c.dataRange.min + half, c.dataRange.max - half⟩
  let newMin := allowed.clamp center - half
  c.setCurrentRange newMin (newMin + 2 * half) f

def setCurrentPoint (c : RangeController α) (index : Option Nat) (f : TransferFunction α) :
    RangeController α × TransferFunction α :=
  if c.currentPoint = index then (c, f)
  else ({ c with currentPoint := index }, f.notify (.currentPointChanged index))

def currentPointColor (c : RangeController α) (f : TransferFunction α) : Option (Rgb α) := do
  let index ← c.currentPoint
  let p ← f.points[index]?
  return p.value

def setCurrentPointColor (c : RangeController α) (f : TransferFunction α) (color : Rgb α) :
    Attempt α (TransferFunction α) :=
  match c.currentPoint with
  | none => .done f
  | some index =>
    match f.point index with
    | .error e => .fail f e
    | .ok p => f.setPoint index { p with value := color }

end RangeController

end TransferCurves
