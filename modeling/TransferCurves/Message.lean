import TransferCurves.Decimal.Numeral
import TransferCurves.Error

/-!
# Wording of failures

The sentences in which failures are reported. Scalars in them are written with the fewest digits
that read back and never with an exponent.
-/

namespace TransferCurves

/-- Scalars in a sentence: no exponent, no zero after the point of a whole number. -/
def sentenceFormat : NumberFormat := ⟨.up, none, false⟩

def Binary64.inSentence (x : Binary64) : String :=
  match x.decimal? sentenceFormat.tie with
  | some (negative, d) => String.ofList (sentenceFormat.numeral negative d).chars
  | none => if x.isNaN then "NaN" else if x.rank < 0 then "-inf" else "inf"

def Quantity.name : Quantity → String
  | .rangeBound => "range bound"
  | .targetBound => "target bound"
  | .plotExtent => "plot pixel extent"
  | .plotInverse => "plot transform inverse"

def boundsInSentence (a b : Binary64) : String :=
  "[" ++ a.inSentence ++ ", " ++ b.inSentence ++ "]"

def ConfigFault.message : ConfigFault Binary64 → String
  | .catchWidth w => "catch_width_px must be positive, got " ++ w.inSentence
  | .tableSize n => "lookup_table_size must be at least 2, got " ++ toString n
  | .transparencyBounds a b =>
    "transparency bounds must satisfy 0 < floor <= ceiling, got " ++ boundsInSentence a b
  | .emptyRange a b =>
    "empty_function_range must be an increasing finite range, got " ++ boundsInSentence a b
  | .paletteWidth => "palette_width must be non-zero"

def CurveError.message : CurveError Binary64 → String
  | .degenerateRange lo hi =>
    "degenerate source range " ++ boundsInSentence lo hi ++ ": cannot normalize positions"
  | .nonFinite what => "non-finite value for " ++ what.name
  | .pointOutOfBounds index size =>
    "control point index " ++ toString index ++ " out of bounds (len " ++ toString size ++ ")"
  | .invalidConfig fault => "invalid configuration: " ++ fault.message

end TransferCurves
