import TransferCurves.Binary64
import TransferCurves.Decimal.Digits

/-!
# Shortest decimals

The decimal text of a double has the fewest digits that read back as that double, and among those it
is the nearest one. A double stands for the reals that round to it: half a unit to either side, a
quarter below a power of two, ends included where the mantissa is even. On every decimal grid, from
the coarsest down, the two neighbours of the value are tried against that interval.
-/

namespace TransferCurves

structure Decimal where
  digits : Nat
  exponent : Int
deriving DecidableEq

namespace Decimal

inductive Tie where
  | even
  | up
deriving DecidableEq

/-- The numerator of `x * 2 ^ (e - 2)`, a count of quarter units, measured in steps of the grid
`10 ^ k`. The denominator is `gridUnit e k`. -/
def onGrid (x : Nat) (e k : Int) : Nat := x * Nat.pow 2 (e - 2).toNat * Nat.pow 10 (-k).toNat

def gridUnit (e k : Int) : Nat := Nat.pow 2 (2 - e).toNat * Nat.pow 10 k.toNat

def readsBack (m : Nat) (e k : Int) (c : Nat) : Bool :=
  let low := onGrid (if m = Nat.pow 2 52 ∧ -1074 < e then 4 * m - 1 else 4 * m - 2) e k
  let high := onGrid (4 * m + 2) e k
  let x := c * gridUnit e k
  if m % 2 = 0 then decide (low ≤ x) && decide (x ≤ high) else decide (low < x) && decide (x < high)

def nearestOnGrid? (tie : Tie) (m : Nat) (e k : Int) : Option Nat :=
  let x := onGrid (4 * m) e k
  let step := gridUnit e k
  let below := x / step
  match readsBack m e k below, readsBack m e k (below + 1) with
  | false, false => none
  | true, false => some below
  | false, true => some (below + 1)
  | true, true =>
    match compare (x - below * step) ((below + 1) * step - x) with
    | .lt => some below
    | .gt => some (below + 1)
    | .eq =>
      match tie with
      | .even => some (below + below % 2)
      | .up => some (below + 1)

def leadingExponent (m : Nat) (e : Int) : Int :=
  if 0 ≤ e then (digitsOf (m * Nat.pow 2 e.toNat)).length - 1
  else (digitsOf (m * Nat.pow 5 (-e).toNat)).length - 1 + e

def exact (m : Nat) (e : Int) : Decimal :=
  if 0 ≤ e then ⟨m * Nat.pow 2 e.toNat, 0⟩ else ⟨m * Nat.pow 5 (-e).toNat, e⟩

def trim (d : Decimal) : Decimal :=
  if d.digits ≠ 0 ∧ d.digits % 10 = 0 then trim ⟨d.digits / 10, d.exponent + 1⟩ else d
termination_by d.digits

/-- The shortest decimal that reads back as `m * 2 ^ e`, the nearest of those. Seventeen digits
always suffice; were they not to, the exact decimal would do. -/
def shortest (tie : Tie) (m : Nat) (e : Int) : Decimal :=
  let lead := leadingExponent m e
  let hit : Option Decimal := (List.range 17).findSome? fun (n : Nat) =>
    (nearestOnGrid? tie m e (lead - n)).map fun c => { digits := c, exponent := lead - n }
  trim (hit.getD (exact m e))

end Decimal

def Binary64.decimal? (tie : Decimal.Tie) (x : Binary64) : Option (Bool × Decimal) :=
  match x.unpack with
  | .zero sign => some (sign matches .negative, ⟨0, 0⟩)
  | .finite sign m e _ => some (sign matches .negative, Decimal.shortest tie m e)
  | _ => none

end TransferCurves
