import TransferCurves.Json.Reader

/-!
# Codecs

A codec ties a type to the shape in which it is stored: how one of its values becomes a value of
that shape, and back. Main statements: the codecs of scalars, lists and optional values give back
what they were given.
-/

namespace TransferCurves.Json

structure Codec (τ : Type) where
  shape : Shape
  toValue : τ → Value
  ofValue? : Value → Option τ

namespace Codec

variable {τ : Type}

def write (c : Codec τ) (style : Style) (t : τ) : String :=
  String.ofList (c.shape.write style 0 (c.toValue t))

def read (c : Codec τ) (text : String) : Except Fault τ := do
  match c.ofValue? (← c.shape.read text.toList) with
  | some t => .ok t
  | none => .error .mismatch

theorem read_eq_ok_iff {c : Codec τ} {text : String} {t : τ} :
    c.read text = .ok t ↔ ∃ v, c.shape.read text.toList = .ok v ∧ c.ofValue? v = some t := by
  rw [read]
  cases c.shape.read text.toList with
  | error fault => simp [bind, Except.bind]
  | ok v =>
    simp only [bind, Except.bind, Except.ok.injEq]
    cases h : c.ofValue? v <;> simp [h]

def parts? (decode : Value → Option τ) : Value → Option (List τ)
  | .parts vs => vs.mapM decode
  | _ => none

def number : Codec Binary64 where
  shape := .number
  toValue := .number
  ofValue?
    | .number x => some x
    | _ => none

def optional (c : Codec τ) : Codec (Option τ) where
  shape := .optional c.shape
  toValue
    | some t => c.toValue t
    | none => .null
  ofValue?
    | .null => some none
    | v => (c.ofValue? v).map some

def list (c : Codec τ) : Codec (List τ) where
  shape := .list c.shape
  toValue ts := .parts (ts.map c.toValue)
  ofValue? := parts? c.ofValue?

def Lawful (c : Codec τ) : Prop := ∀ t, c.ofValue? (c.toValue t) = some t

theorem number_lawful : number.Lawful := fun _ => rfl

theorem optional_lawful {c : Codec τ} (h : c.Lawful) (hnull : ∀ t, c.toValue t ≠ .null) :
    c.optional.Lawful := by
  intro t
  cases t with
  | none => rfl
  | some t =>
    have hsome := hnull t
    simp [optional, h t]

theorem list_lawful {c : Codec τ} (h : c.Lawful) : c.list.Lawful := by
  intro ts
  simp only [list, parts?]
  induction ts with
  | nil => rfl
  | cons t ts ih => simp [h t, ih]

end Codec

end TransferCurves.Json
