import TransferCurves.Decimal.Numeral

/-!
# Scanning JSON text

The words of JSON text: blanks, literals, numerals and strings, and the skipping of a whole value
whose content does not matter. Text is scanned from left to right and the first fault met ends the
scan. A fault is one of three: the text ends too early, it is no JSON, or it is JSON that does not
fit what is to be read.
-/

namespace TransferCurves.Json

open Decimal (Digit spanDigits)

inductive Fault where
  | truncated
  | malformed
  | mismatch
deriving DecidableEq

abbrev Scan (τ : Type) := Except Fault τ

def isBlank (c : Char) : Bool := c = ' ' ∨ c = '\n' ∨ c = '\t' ∨ c = '\r'

def skipBlanks (text : List Char) : List Char := text.dropWhile isBlank

def scanLetters : List Char → List Char → Scan (List Char)
  | [], text => .ok text
  | _ :: _, [] => .error .truncated
  | l :: ls, c :: text => if l = c then scanLetters ls text else .error .malformed

def scanDigits (text : List Char) : Scan (List Digit × List Char) :=
  match spanDigits text with
  | ([], []) => .error .truncated
  | ([], _ :: _) => .error .malformed
  | (ds, rest) => .ok (ds, rest)

def hasLeadingZero : List Digit → Bool
  | d :: _ :: _ => d.val == 0
  | _ => false

def scanWhole (text : List Char) : Scan (List Digit × List Char) := do
  let (ds, rest) ← scanDigits text
  if hasLeadingZero ds then .error .malformed else .ok (ds, rest)

def scanFraction : List Char → Scan (List Digit × List Char)
  | '.' :: rest => scanDigits rest
  | text => .ok ([], text)

def scanExponent : List Char → Scan (Option (Bool × List Digit) × List Char)
  | c :: rest => do
    if c = 'e' ∨ c = 'E' then
      let (negative, rest) :=
        match rest with
        | '+' :: rest => (false, rest)
        | '-' :: rest => (true, rest)
        | _ => (false, rest)
      let (ds, rest) ← scanDigits rest
      .ok (some (negative, ds), rest)
    else .ok (none, c :: rest)
  | [] => .ok (none, [])

def scanNumeral (text : List Char) : Scan (Numeral × List Char) := do
  let (negative, text) :=
    match text with
    | '-' :: rest => (true, rest)
    | _ => (false, text)
  let (whole, text) ← scanWhole text
  let (fraction, text) ← scanFraction text
  let (exponent, text) ← scanExponent text
  .ok ({ negative, whole, fraction, exponent }, text)

def hexDigit? (c : Char) : Option Nat :=
  if '0' ≤ c ∧ c ≤ '9' then some (c.toNat - '0'.toNat)
  else if 'a' ≤ c ∧ c ≤ 'f' then some (c.toNat - 'a'.toNat + 10)
  else if 'A' ≤ c ∧ c ≤ 'F' then some (c.toNat - 'A'.toNat + 10)
  else none

/-- The sixteen-bit unit that four hexadecimal digits show. Four bytes are taken before their form
is looked at. -/
def scanUnit : List Char → Scan (Nat × List Char)
  | a :: b :: c :: d :: rest =>
    match hexDigit? a, hexDigit? b, hexDigit? c, hexDigit? d with
    | some a, some b, some c, some d => .ok (((a * 16 + b) * 16 + c) * 16 + d, rest)
    | _, _, _, _ => .error .malformed
  | short => .error (if (String.ofList short).utf8ByteSize < 4 then .truncated else .malformed)

def pairedSurrogates (high low : Nat) : Char :=
  Char.ofNat (0x10000 + (high - 0xD800) * 0x400 + (low - 0xDC00))

def scanLowSurrogate (high : Nat) (text : List Char) : Scan (Char × List Char) :=
  match text with
  | [] | ['\\'] => .error .truncated
  | '\\' :: 'u' :: rest => do
    let (low, rest) ← scanUnit rest
    if 0xDC00 ≤ low ∧ low ≤ 0xDFFF then .ok (pairedSurrogates high low, rest)
    else .error .malformed
  | _ => .error .malformed

def escaped? (c : Char) : Option Char :=
  if c = '"' ∨ c = '\\' ∨ c = '/' then some c
  else if c = 'b' then some '\x08'
  else if c = 'f' then some '\x0c'
  else if c = 'n' then some '\n'
  else if c = 'r' then some '\r'
  else if c = 't' then some '\t'
  else none

def scanEscape (strict : Bool) : List Char → Scan (Char × List Char)
  | [] => .error .truncated
  | 'u' :: rest => do
    let (unit, rest) ← scanUnit rest
    if !strict then .ok (Char.ofNat unit, rest)
    else if 0xDC00 ≤ unit ∧ unit ≤ 0xDFFF then .error .malformed
    else if 0xD800 ≤ unit ∧ unit ≤ 0xDBFF then scanLowSurrogate unit rest
    else .ok (Char.ofNat unit, rest)
  | c :: rest =>
    match escaped? c with
    | some c => .ok (c, rest)
    | none => .error .malformed

def scanStringWithin (strict : Bool) : Nat → List Char → Scan (List Char × List Char)
  | 0, _ => .error .truncated
  | _ + 1, [] => .error .truncated
  | fuel + 1, c :: rest => do
    if c = '"' then .ok ([], rest)
    else if c = '\\' then
      let (c, rest) ← scanEscape strict rest
      let (cs, rest) ← scanStringWithin strict fuel rest
      .ok (c :: cs, rest)
    else if c < ' ' then .error .malformed
    else
      let (cs, rest) ← scanStringWithin strict fuel rest
      .ok (c :: cs, rest)

def scanString (strict : Bool) (text : List Char) : Scan (List Char × List Char) :=
  scanStringWithin strict (text.length + 1) text

def scanColon (text : List Char) : Scan (List Char) :=
  match skipBlanks text with
  | [] => .error .truncated
  | ':' :: rest => .ok rest
  | _ => .error .malformed

inductive Enclosure where
  | list
  | record
deriving DecidableEq

def Enclosure.closing : Enclosure → Char
  | .list => ']'
  | .record => '\x7d'

inductive Expected where
  | value
  | firstPart
  | part
  | separator

def skipScalar : List Char → Scan (List Char)
  | [] => .error .truncated
  | c :: rest => do
    if c = 'n' then scanLetters ['u', 'l', 'l'] rest
    else if c = 't' then scanLetters ['r', 'u', 'e'] rest
    else if c = 'f' then scanLetters ['a', 'l', 's', 'e'] rest
    else if c = '"' then return (← scanString false rest).2
    else if c = '-' ∨ (Digit.ofChar? c).isSome then
      match scanNumeral (c :: rest) with
      | .ok (_, rest) => .ok rest
      | .error _ => .error .malformed
    else .error .malformed

/-- Skip what is expected inside the given enclosures, the innermost first, in at most `fuel`
steps. -/
def skipWithin : Nat → Expected → List Enclosure → List Char → Scan (List Char)
  | 0, _, _, _ => .error .truncated
  | fuel + 1, .value, outer, text =>
    match skipBlanks text with
    | [] => .error .truncated
    | c :: rest =>
      if c = '[' then skipWithin fuel .firstPart (.list :: outer) rest
      else if c = '\x7b' then skipWithin fuel .firstPart (.record :: outer) rest
      else do skipWithin fuel .separator outer (← skipScalar (c :: rest))
  | _ + 1, .separator, [], text => .ok text
  | fuel + 1, .separator, inner :: outer, text =>
    match skipBlanks text with
    | [] => .error .truncated
    | c :: rest =>
      if c = ',' then skipWithin fuel .part (inner :: outer) rest
      else if c = inner.closing then skipWithin fuel .separator outer rest
      else .error .malformed
  | fuel + 1, .part, .record :: outer, text =>
    match skipBlanks text with
    | [] => .error .truncated
    | '"' :: rest => do
      let (_, rest) ← scanString false rest
      skipWithin fuel .value (.record :: outer) (← scanColon rest)
    | _ => .error .malformed
  | fuel + 1, .part, outer, text => skipWithin fuel .value outer text
  | fuel + 1, .firstPart, outer, text =>
    match skipBlanks text, outer with
    | [], _ => .error .truncated
    | c :: rest, inner :: outer =>
      if c = inner.closing then skipWithin fuel .separator outer rest
      else skipWithin fuel .part (inner :: outer) (c :: rest)
    | _, [] => skipWithin fuel .value [] text

def skipValue (text : List Char) : Scan (List Char) :=
  skipWithin (4 * text.length + 4) .value [] text

end TransferCurves.Json
