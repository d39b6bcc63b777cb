import TransferCurves.Binary64
import TransferCurves.Decimal.Digits

/-!
# Numbers in free text

Settings are given as text. A count is a run of digits, a plus sign allowed in front. A scalar is a
decimal with an optional sign, point and exponent, at least one digit in front of the exponent, or
one of the words for an infinity or for what is no number, in letters of either case.
-/

namespace TransferCurves.Text

open Decimal (Digit spanDigits ofDigits)

def countLimit : Nat := Nat.pow 2 64

def count? (text : List Char) : Option Nat :=
  let digits :=
    match text with
    | '+' :: rest => rest
    | _ => text
  match spanDigits digits with
  | (d :: ds, []) =>
    let n := ofDigits (d :: ds)
    if n < countLimit then some n else none
  | _ => none

def exponent? (text : List Char) : Option (Int × List Char) :=
  let (negative, digits) :=
    match text with
    | '+' :: rest => (false, rest)
    | '-' :: rest => (true, rest)
    | _ => (false, text)
  match spanDigits digits with
  | ([], _) => none
  | (ds, rest) => some (if negative then -(ofDigits ds : Int) else ofDigits ds, rest)

def decimal? (text : List Char) : Option Binary64 :=
  let (whole, rest) := spanDigits text
  let (fraction, rest) :=
    match rest with
    | '.' :: rest => spanDigits rest
    | _ => ([], rest)
  let exponent :=
    match rest with
    | [] => some 0
    | c :: rest =>
      if c = 'e' ∨ c = 'E' then
        match exponent? rest with
        | some (e, []) => some e
        | _ => none
      else none
  match whole ++ fraction, exponent with
  | [], _ => none
  | _, none => none
  | ds, some e =>
    let power := e - fraction.length
    some (Binary64.ofDecimal (ofDigits ds) (decide (power < 0)) power.natAbs)

def word? (text : List Char) : Option Binary64 :=
  let word := String.ofList (text.map Char.toLower)
  if word = "inf" ∨ word = "infinity" then some ⟨0x7FF0000000000000⟩
  else if word = "nan" then some ⟨0x7FF8000000000000⟩
  else none

def scalar? (text : List Char) : Option Binary64 :=
  let (negative, magnitude) :=
    match text with
    | '+' :: rest => (false, rest)
    | '-' :: rest => (true, rest)
    | _ => (false, text)
  ((decimal? magnitude).or (word? magnitude)).map fun x => if negative then x.neg else x

end TransferCurves.Text
