import TransferCurves.Json.Scan
import TransferCurves.Text.Number

/-!
# The value of a JSON numeral

The digits of a numeral are taken as one whole number for as long as it fits 64 bits. That number,
as a double, is multiplied or divided by one power of ten; powers beyond the largest double are
divided out in steps. Numerals of up to fifteen digits and moderate size are exact or rounded once.
A numeral beyond the doubles is no JSON.
-/

namespace TransferCurves.Json

open scoped Scalar
open Decimal (Digit)

def absorb (acc : Nat) : List Digit → Nat × List Digit
  | [] => (acc, [])
  | d :: ds =>
    if acc * 10 + d.val < Text.countLimit then absorb (acc * 10 + d.val) ds else (acc, d :: ds)

def greatestPower : Nat := 308

def powerOfTen (n : Nat) : Binary64 := Binary64.ofDecimal 1 false n

/-- A double divided by a power of ten, a large one in steps until nothing is left. -/
def dividedByPower (x : Binary64) (n : Nat) : Binary64 :=
  if n ≤ greatestPower then x / powerOfTen n
  else
    if Scalar.equal x (0 : Binary64) then x
    else dividedByPower (x / powerOfTen greatestPower) (n - greatestPower)
termination_by n
decreasing_by simp only [greatestPower] at *; omega

def scaled? (digits : Nat) (power : Int) : Option Binary64 :=
  let x : Binary64 := .ofNat digits
  if power < 0 then some (dividedByPower x power.natAbs)
  else if power.toNat ≤ greatestPower then
    let y := x * powerOfTen power.toNat
    if Scalar.isFinite y then some y else none
  else if Scalar.equal x (0 : Binary64) then some x
  else none

def Numeral.value? (n : Numeral) : Option Binary64 :=
  let (digits, wholeLeft) := absorb 0 n.whole
  let (digits, fractionLeft) := absorb digits n.fraction
  let exponent : Int :=
    match n.exponent with
    | none => 0
    | some (negative, ds) =>
      if negative then -(Decimal.ofDigits ds : Int) else Decimal.ofDigits ds
  let power := exponent + wholeLeft.length - (n.fraction.length - fractionLeft.length : Nat)
  (scaled? digits power).map fun x => if n.negative then x.neg else x

def Numeral.count? (n : Numeral) : Option Nat :=
  if n.negative ∨ n.fraction ≠ [] ∨ n.exponent.isSome then none
  else
    match absorb 0 n.whole with
    | (digits, []) => some digits
    | _ => none

def scanNumber (text : List Char) : Scan ((Numeral × Binary64) × List Char) := do
  let (n, rest) ← scanNumeral text
  match Numeral.value? n with
  | some x => .ok ((n, x), rest)
  | none => .error .malformed

end TransferCurves.Json
