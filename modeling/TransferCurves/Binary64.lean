import TransferCurves.Scalar

/-!
# Doubles by their bits

A double is kept as its 64 bits. Its arithmetic and its comparisons are those of `Float`; what the
bits add is the sign and the payload of a value that is not a number, which no arithmetic shows but
the total order, and with it the sorting of control points, does.
-/

namespace TransferCurves

structure Binary64 where
  bits : UInt64
deriving DecidableEq, Inhabited

namespace Binary64

def toFloat (x : Binary64) : Float := Float.ofBits x.bits

def isNaN (x : Binary64) : Bool := x.toFloat.isNaN

def isFinite (x : Binary64) : Bool := x.toFloat.isFinite

def quiet (x : Binary64) : Binary64 := ⟨x.bits ||| 0x0008000000000000⟩

def invalid : Binary64 := ⟨0xFFF8000000000000⟩

def ofFloat (x : Float) : Binary64 := if x.isNaN then invalid else ⟨x.toBits⟩

/-- An operation of two operands. One that is not a number is passed on, the first before the
second. -/
def arith (op : Float → Float → Float) (x y : Binary64) : Binary64 :=
  if x.isNaN then x.quiet
  else if y.isNaN then y.quiet
  else ofFloat (op x.toFloat y.toFloat)

def neg (x : Binary64) : Binary64 := ⟨x.bits ^^^ 0x8000000000000000⟩

def ofNat (n : Nat) : Binary64 := ofFloat (Float.ofNat n)

def ofDecimal (digits : Nat) (negative : Bool) (exponent : Nat) : Binary64 :=
  ofFloat (Float.ofScientific digits negative exponent)

/-- The place of a bit pattern in the total order: below a set sign bit, larger magnitudes come
first. -/
def rank (x : Binary64) : Int :=
  let magnitude := (x.bits &&& 0x7FFFFFFFFFFFFFFF).toNat
  if x.bits < 0x8000000000000000 then magnitude else -magnitude - 1

def unpack (x : Binary64) : Float.Model.UnpackedFloat :=
  .unpack .binary64 x.bits.toBitVec

def wholePart (m : Nat) (e : Int) : Nat := if 0 ≤ e then m <<< e.toNat else m >>> (-e).toNat

def fractionPart (m : Nat) (e : Int) : Nat := if 0 ≤ e then 0 else m % Nat.pow 2 (-e).toNat

def compareHalf (m : Nat) (e : Int) : Ordering :=
  compare (2 * fractionPart m e) (Nat.pow 2 (-e).toNat)

def floor (x : Binary64) : Binary64 :=
  match x.unpack with
  | .finite sign m e _ =>
    if fractionPart m e = 0 then x
    else
      match sign with
      | .positive => ofNat (wholePart m e)
      | .negative => neg (ofNat (wholePart m e + 1))
  | _ => x

/-- A double as a count of 64 bits, rounded by its whole part and by how its fraction compares with
one half. What is beyond the largest count becomes that. -/
def toCount (round : Nat → Ordering → Nat) (x : Binary64) : Nat :=
  match x.unpack with
  | .finite .positive m e _ => min (round (wholePart m e) (compareHalf m e)) (UInt64.size - 1)
  | .infinity .positive => UInt64.size - 1
  | _ => 0

def nearest : Binary64 → Nat := toCount fun below half => if half.isGE then below + 1 else below

def nearestEven : Binary64 → Nat := toCount fun below half =>
  match half with
  | .lt => below
  | .eq => below + below % 2
  | .gt => below + 1

instance : Scalar Binary64 where
  add := arith (· + ·)
  sub := arith (· - ·)
  mul := arith (· * ·)
  div := arith (· / ·)
  neg := neg
  ofNat := ofNat
  ofDecimal := ofDecimal
  le x y := x.toFloat ≤ y.toFloat
  lt x y := x.toFloat < y.toFloat
  decidableLE x y := inferInstanceAs (Decidable (x.toFloat ≤ y.toFloat))
  decidableLT x y := inferInstanceAs (Decidable (x.toFloat < y.toFloat))
  equal x y := x.toFloat == y.toFloat
  isNaN := isNaN
  isFinite := isFinite
  totalLE x y := decide (x.rank ≤ y.rank)
  floor := floor
  nearest := nearest
  nearestEven := nearestEven

end Binary64

end TransferCurves
