/-!
# Scalars

Curves are positioned, evaluated and sampled in an arithmetic that this module names. Everything
built on it runs on doubles (`Binary64`) and can be read, definition for definition, over the exact
rationals (`Scalar.Rational`). The class has operations only. The laws of order, which is all that
the two arithmetics share, are added in `Proofs.Order`; what else holds of one of them is a theorem
about that one.
-/

namespace TransferCurves

class Scalar (α : Type) where
  add : α → α → α
  sub : α → α → α
  mul : α → α → α
  div : α → α → α
  neg : α → α
  ofNat : Nat → α
  /-- The value nearest to a decimal numeral: digits, whether the exponent is negative, exponent. -/
  ofDecimal : Nat → Bool → Nat → α
  le : α → α → Prop
  lt : α → α → Prop
  decidableLE : ∀ x y, Decidable (le x y)
  decidableLT : ∀ x y, Decidable (lt x y)
  /-- Numerical equality, which tells zeros of either sign equal and not-a-number different from
  itself. -/
  equal : α → α → Bool
  isNaN : α → Bool
  isFinite : α → Bool
  totalLE : α → α → Bool
  floor : α → α
  /-- The nearest natural number that the arithmetic can count to, halves going up; zero for what is
  negative or not a number. -/
  nearest : α → Nat
  /-- The same with halves going to the even neighbour. -/
  nearestEven : α → Nat

namespace Scalar

variable {α : Type} [Scalar α]

-- The operators and numerals are in force where this namespace is opened.

scoped instance (priority := low) : Add α := ⟨add⟩
scoped instance (priority := low) : Sub α := ⟨sub⟩
scoped instance (priority := low) : Mul α := ⟨mul⟩
scoped instance (priority := low) : Div α := ⟨div⟩
scoped instance (priority := low) : Neg α := ⟨neg⟩
scoped instance (priority := low) : NatCast α := ⟨ofNat⟩
scoped instance (priority := low) (n : Nat) : OfNat α n := ⟨ofNat n⟩
scoped instance (priority := low) : OfScientific α := ⟨ofDecimal⟩
scoped instance (priority := low) : LE α := ⟨le⟩
scoped instance (priority := low) : LT α := ⟨lt⟩
scoped instance (priority := low) : DecidableLE α := decidableLE
scoped instance (priority := low) : DecidableLT α := decidableLT

/-- The lesser of two values. A value that is not a number gives way to the other one, and of two
equal values the first is taken. -/
protected def min (x y : α) : α :=
  if isNaN x then y else if y < x then y else x

protected def max (x y : α) : α :=
  if isNaN x then y else if x < y then y else x

protected def clamp (lo hi x : α) : α :=
  if x < lo then lo else if hi < x then hi else x

end Scalar

end TransferCurves
