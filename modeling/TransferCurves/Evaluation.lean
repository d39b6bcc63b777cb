import TransferCurves.Segment

/-!
# Evaluation of a curve

A curve is evaluated on its points sorted by position. At or beyond an end the value of the end
point is held; inside, the segment around the position is found by bisection. The search is written
on indices with their bounds, so it reads no point that is not there.
-/

namespace TransferCurves.ControlPoint

open scoped Scalar

variable {α V : Type} [Scalar α]

def between [Channels α V] (left right : ControlPoint α V) (x : α) : V :=
  let span := right.position - left.position
  if span ≤ 0 then right.value
  else
    let t := (x - left.position) / span
    Channels.zipWith (fun v₁ v₂ => Segment.value v₁ v₂ t left.midpoint left.sharpness)
      left.value right.value

/-- Bisect the points from index `lo` to index `hi`, keeping `x` at or above the left one and below
the right one, until the two are neighbours. -/
def bisect (nodes : List (ControlPoint α V)) (x : α) (lo hi : Nat) (hlo : lo ≤ hi)
    (hhi : hi < nodes.length) : ControlPoint α V × ControlPoint α V :=
  if h : hi - lo > 1 then
    let mid := (lo + hi) / 2
    have hmid : mid < nodes.length := by omega
    if nodes[mid].position ≤ x then bisect nodes x mid hi (by omega) hhi
    else bisect nodes x lo mid (by omega) hmid
  else (nodes[lo], nodes[hi])
termination_by hi - lo

def evaluate [Channels α V] (nodes : List (ControlPoint α V)) (x : α) : Option V :=
  if h : 0 < nodes.length then
    let first := nodes[0]
    let last := nodes[nodes.length - 1]
    if x ≤ first.position then some first.value
    else if last.position ≤ x then some last.value
    else
      let ends := bisect nodes x 0 (nodes.length - 1) (by omega) (by omega)
      some (between ends.1 ends.2 x)
  else none

end TransferCurves.ControlPoint
