import TransferCurves.Json.Shape

/-!
# Reading a value of a shape

A value is read from left to right, guided by its shape, and the first fault met is reported. A
record may be given by named fields in any order, where unknown fields are skipped and a known one
may not come twice, or as the list of its fields in their order.
-/

namespace TransferCurves.Json

abbrev Reader := List Char → Scan (Value × List Char)

/-- The fault of text that starts with a character that cannot start the value to be read: a
mismatch if another value starts there, once its first word has been scanned. -/
def wrongStart (text : List Char) : Fault :=
  let word : Except Fault Unit :=
    match text with
    | [] => .error .truncated
    | c :: rest =>
      if c = 'n' then (scanLetters ['u', 'l', 'l'] rest).map fun _ => ()
      else if c = 't' then (scanLetters ['r', 'u', 'e'] rest).map fun _ => ()
      else if c = 'f' then (scanLetters ['a', 'l', 's', 'e'] rest).map fun _ => ()
      else if c = '"' then (scanString true rest).map fun _ => ()
      else if c = '-' ∨ (Decimal.Digit.ofChar? c).isSome then
        (scanNumber (c :: rest)).map fun _ => ()
      else if c = '[' ∨ c = '\x7b' then .ok ()
      else .error .malformed
  match word with
  | .ok () => .mismatch
  | .error fault => fault

def readNumeral (text : List Char) : Scan ((Numeral × Binary64) × List Char) :=
  match skipBlanks text with
  | [] => .error .truncated
  | c :: rest =>
    if c = '-' ∨ (Decimal.Digit.ofChar? c).isSome then scanNumber (c :: rest)
    else .error (wrongStart (c :: rest))

def readNumber : Reader := fun text => do
  let ((_, x), rest) ← readNumeral text
  .ok (.number x, rest)

def readCount : Reader := fun text => do
  let ((n, _), rest) ← readNumeral text
  match Numeral.count? n with
  | some k => .ok (.count k, rest)
  | none => .error .mismatch

def readFlag : Reader := fun text =>
  match skipBlanks text with
  | [] => .error .truncated
  | 't' :: rest => do .ok (.flag true, ← scanLetters ['r', 'u', 'e'] rest)
  | 'f' :: rest => do .ok (.flag false, ← scanLetters ['a', 'l', 's', 'e'] rest)
  | text => .error (wrongStart text)

def readOptional (reader : Reader) : Reader := fun text =>
  match skipBlanks text with
  | 'n' :: rest => do .ok (.null, ← scanLetters ['u', 'l', 'l'] rest)
  | _ => reader text

def nextPart (first : Bool) (text : List Char) : Except Fault (Option (List Char)) :=
  match skipBlanks text with
  | [] => .error .truncated
  | ']' :: _ => .ok none
  | c :: rest =>
    if first then .ok (some (c :: rest))
    else if c = ',' then
      match skipBlanks rest with
      | [] => .error .truncated
      | ']' :: _ => .error .malformed
      | text => .ok (some text)
    else .error .malformed

def closeList (text : List Char) : Scan (List Char) :=
  match skipBlanks text with
  | [] => .error .truncated
  | ']' :: rest => .ok rest
  | _ => .error .malformed

def readParts (reader : Reader) : Nat → Bool → List Char → Scan (List Value × List Char)
  | 0, _, _ => .error .truncated
  | fuel + 1, first, text => do
    match ← nextPart first text with
    | none => .ok ([], text)
    | some text =>
      let (v, rest) ← reader text
      let (vs, rest) ← readParts reader fuel false rest
      .ok (v :: vs, rest)

def readExactly (reader : Reader) : Nat → Bool → List Char → Scan (List Value × List Char)
  | 0, _, text => .ok ([], text)
  | n + 1, first, text => do
    match ← nextPart first text with
    | none => .error .mismatch
    | some text =>
      let (v, rest) ← reader text
      let (vs, rest) ← readExactly reader n false rest
      .ok (v :: vs, rest)

def readBracketed (parts : List Char → Scan (List Value × List Char)) : Reader := fun text =>
  match skipBlanks text with
  | [] => .error .truncated
  | '[' :: rest => do
    let (vs, rest) ← parts rest
    .ok (.parts vs, ← closeList rest)
  | text => .error (wrongStart text)

structure FieldReader where
  name : String
  read : Reader
  absent : Option Value
  isOptional : Bool

def FieldReader.unnamed? (f : FieldReader) : Option Value :=
  f.absent.or (if f.isOptional then some .null else none)

def readPositional : List FieldReader → Bool → List Char → Scan (List Value × List Char)
  | [], _, text => .ok ([], text)
  | f :: fs, first, text => do
    match ← nextPart first text with
    | none =>
      match f.absent with
      | none => .error .mismatch
      | some v =>
        let (vs, rest) ← readPositional fs first text
        .ok (v :: vs, rest)
    | some text =>
      let (v, rest) ← f.read text
      let (vs, rest) ← readPositional fs false rest
      .ok (v :: vs, rest)

def nextKey (first : Bool) (text : List Char) : Except Fault (Option (List Char)) :=
  match skipBlanks text with
  | [] => .error .truncated
  | '\x7d' :: _ => .ok none
  | c :: rest =>
    let afterComma : Scan (List Char) :=
      if first then .ok (c :: rest)
      else if c = ',' then .ok (skipBlanks rest)
      else .error .malformed
    match afterComma with
    | .error fault => .error fault
    | .ok [] => .error .truncated
    | .ok ('"' :: rest) => .ok (some rest)
    | .ok _ => .error .malformed

def readNamed (fields : List FieldReader) :
    Nat → Bool → List (String × Value) → List Char → Scan (List (String × Value) × List Char)
  | 0, _, _, _ => .error .truncated
  | fuel + 1, first, found, text => do
    match ← nextKey first text with
    | none => .ok (found, text)
    | some text =>
      let (key, rest) ← scanString true text
      let key := String.ofList key
      match fields.find? (·.name = key) with
      | none =>
        let rest ← skipValue (← scanColon rest)
        readNamed fields fuel false found rest
      | some field =>
        if (found.lookup key).isSome then .error .mismatch
        else
          let (v, rest) ← field.read (← scanColon rest)
          readNamed fields fuel false ((key, v) :: found) rest

def supplied (fields : List FieldReader) (found : List (String × Value)) :
    Except Fault (List Value) :=
  fields.mapM fun f =>
    match (found.lookup f.name).or f.unnamed? with
    | some v => .ok v
    | none => .error .mismatch

def readRecord (fields : List FieldReader) : Reader := fun text =>
  match skipBlanks text with
  | [] => .error .truncated
  | '[' :: rest => do
    let (vs, rest) ← readPositional fields true rest
    .ok (.parts vs, ← closeList rest)
  | '\x7b' :: rest => do
    let (found, rest) ← readNamed fields (rest.length + 1) true [] rest
    let vs ← supplied fields found
    .ok (.parts vs, (skipBlanks rest).drop 1)
  | text => .error (wrongStart text)

mutual

def Shape.reader : Shape → Reader
  | .number => readNumber
  | .count => readCount
  | .flag => readFlag
  | .optional shape => readOptional shape.reader
  | .list shape => readBracketed fun text => readParts shape.reader (text.length + 1) true text
  | .tuple size shape => readBracketed (readExactly shape.reader size true)
  | .record fields => readRecord fields.readers

def Fields.readers : Fields → List FieldReader
  | .done => []
  | .field name shape absent rest =>
    ⟨name, shape.reader, absent, shape.isOptional⟩ :: rest.readers

end

def Shape.read (shape : Shape) (text : List Char) : Except Fault Value := do
  let (v, rest) ← shape.reader text
  if (skipBlanks rest).isEmpty then .ok v else .error .malformed

end TransferCurves.Json
