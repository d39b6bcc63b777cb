import TransferCurves.Decimal.Shortest

/-!
# Numerals

A numeral is a decimal number as it is written: a sign, digits before and after the point, perhaps
an exponent. A number format decides which numeral a decimal gets.
-/

namespace TransferCurves

open Decimal (Digit)

structure Numeral where
  negative : Bool
  whole : List Digit
  fraction : List Digit
  exponent : Option (Bool × List Digit)
deriving DecidableEq

def Decimal.digitChars (ds : List Digit) : List Char := ds.map Digit.toChar

def Numeral.chars (n : Numeral) : List Char :=
  (if n.negative then ['-'] else []) ++ Decimal.digitChars n.whole ++
    (if n.fraction.isEmpty then [] else '.' :: Decimal.digitChars n.fraction) ++
    (match n.exponent with
      | none => []
      | some (negative, ds) => 'e' :: (if negative then '-' else '+') :: Decimal.digitChars ds)

structure NumberFormat where
  tie : Decimal.Tie
  /-- The least and the greatest power of ten of the first digit at which no exponent is written; no
  bounds if an exponent is never written. -/
  plain : Option (Int × Int)
  pointZero : Bool

namespace NumberFormat

def plainNumeral (format : NumberFormat) (negative : Bool) (d : Decimal) : Numeral :=
  let ds := Decimal.digitsOf d.digits
  if 0 ≤ d.exponent then
    { negative, exponent := none
      whole := ds ++ List.replicate d.exponent.toNat 0
      fraction := if format.pointZero then [0] else [] }
  else
    let places := (-d.exponent).toNat
    if places < ds.length then
      { negative, exponent := none
        whole := ds.take (ds.length - places)
        fraction := ds.drop (ds.length - places) }
    else
      { negative, exponent := none
        whole := [0]
        fraction := List.replicate (places - ds.length) 0 ++ ds }

def scientificNumeral (negative : Bool) (d : Decimal) : Numeral :=
  let ds := Decimal.digitsOf d.digits
  let power : Int := ds.length - 1 + d.exponent
  { negative
    whole := ds.take 1
    fraction := ds.drop 1
    exponent := some (decide (power < 0), Decimal.digitsOf power.natAbs) }

def numeral (format : NumberFormat) (negative : Bool) (d : Decimal) : Numeral :=
  let power : Int := (Decimal.digitsOf d.digits).length - 1 + d.exponent
  match format.plain with
  | none => format.plainNumeral negative d
  | some (least, most) =>
    if least ≤ power ∧ power ≤ most then format.plainNumeral negative d
    else scientificNumeral negative d

end NumberFormat

end TransferCurves
