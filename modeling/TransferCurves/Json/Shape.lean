import TransferCurves.Json.Number

/-!
# Shapes of JSON values

What is stored as JSON has a fixed shape: numbers, counts, truth values, lists, and records with
named fields. A value of a shape is a tree of scalars; the names of the fields are in the shape. The
shape says how a value is written and (in the next module) how it is read.
-/

namespace TransferCurves.Json

inductive Value where
  | null
  | flag (b : Bool)
  | count (n : Nat)
  | number (x : Binary64)
  | parts (vs : List Value)

mutual

inductive Shape where
  | number
  | count
  | flag
  | optional (shape : Shape)
  | list (shape : Shape)
  | tuple (size : Nat) (shape : Shape)
  | record (fields : Fields)

inductive Fields where
  | done
  | field (name : String) (shape : Shape) (absent : Option Value) (rest : Fields)

end

def Shape.isOptional : Shape → Bool
  | .optional _ => true
  | _ => false

inductive Style where
  | compact
  | indented

def Style.lineBreak (style : Style) (depth : Nat) : List Char :=
  match style with
  | .compact => []
  | .indented => '\n' :: List.replicate (2 * depth) ' '

def Style.colon : Style → List Char
  | .compact => [':']
  | .indented => [':', ' ']

/-- Numbers in JSON text: powers of ten from the -5th to the 15th are written out, and a number
without an exponent always has a point. -/
def numberFormat : NumberFormat := ⟨.even, some (-5, 15), true⟩

def nullChars : List Char := ['n', 'u', 'l', 'l']

def numberChars (x : Binary64) : List Char :=
  match x.decimal? numberFormat.tie with
  | some (negative, d) => (numberFormat.numeral negative d).chars
  | none => nullChars

def flagChars : Bool → List Char
  | true => ['t', 'r', 'u', 'e']
  | false => ['f', 'a', 'l', 's', 'e']

def enclose (style : Style) (depth : Nat) (opening closing : Char) : List (List Char) → List Char
  | [] => [opening, closing]
  | part :: parts =>
    opening :: style.lineBreak (depth + 1) ++ part ++
      (parts.map fun p => ',' :: style.lineBreak (depth + 1) ++ p).flatten ++
      style.lineBreak depth ++ [closing]

mutual

def Shape.write (style : Style) : Shape → Nat → Value → List Char
  | .number, _, .number x => numberChars x
  | .count, _, .count n => Decimal.digitChars (Decimal.digitsOf n)
  | .flag, _, .flag b => flagChars b
  | .optional _, _, .null => nullChars
  | .optional shape, depth, v => shape.write style depth v
  | .list shape, depth, .parts vs =>
    enclose style depth '[' ']' (vs.map (shape.write style (depth + 1)))
  | .tuple _ shape, depth, .parts vs =>
    enclose style depth '[' ']' (vs.map (shape.write style (depth + 1)))
  | .record fields, depth, .parts vs =>
    enclose style depth '\x7b' '\x7d' (fields.write style (depth + 1) vs)
  | _, _, _ => nullChars

def Fields.write (style : Style) : Fields → Nat → List Value → List (List Char)
  | .field name shape _ rest, depth, v :: vs =>
    ('"' :: name.toList ++ '"' :: style.colon ++ shape.write style depth v) ::
      rest.write style depth vs
  | _, _, _ => []

end

end TransferCurves.Json
