import TransferCurves.Scalar

/-!
# Exact rational scalars

The arithmetic without rounding, without infinities and without undefined results: a quotient by
zero is zero. A definition read over it says what a curve would be if doubles were exact.
-/

namespace TransferCurves

def nearestNat (x : Rat) : Nat := (x + 1 / 2).floor.toNat

def nearestEvenNat (x : Rat) : Nat :=
  let below := x.floor
  let rest := x - below
  (if rest < 1 / 2 ∨ (rest = 1 / 2 ∧ below % 2 = 0) then below else below + 1).toNat

instance : Scalar Rat where
  add := (· + ·)
  sub := (· - ·)
  mul := (· * ·)
  div := (· / ·)
  neg := (- ·)
  ofNat n := n
  ofDecimal := OfScientific.ofScientific
  le := (· ≤ ·)
  lt := (· < ·)
  decidableLE := inferInstance
  decidableLT := inferInstance
  equal x y := x == y
  isNaN _ := false
  isFinite _ := true
  totalLE x y := x ≤ y
  floor x := x.floor
  nearest := nearestNat
  nearestEven := nearestEvenNat

end TransferCurves
