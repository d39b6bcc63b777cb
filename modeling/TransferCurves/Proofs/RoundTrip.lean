import TransferCurves.Proofs.ShapeReading

/-!
# Round trips

A shape whose records have distinct plain names, and where only lists and records may be absent,
reads back every value that fits it. With it a codec reads back what it has written.
-/

namespace TransferCurves.Json

open scoped Scalar

def Shape.isBracketed : Shape → Bool
  | .list _ | .tuple _ _ | .record _ => true
  | _ => false

def Fields.names : Fields → List String
  | .done => []
  | .field name _ _ rest => name :: rest.names

mutual

def Shape.isSound : Shape → Bool
  | .number | .count | .flag => true
  | .optional shape => shape.isBracketed && shape.isSound
  | .list shape | .tuple _ shape => shape.isSound
  | .record fields => decide fields.names.Nodup && fields.isSound

def Fields.isSound : Fields → Bool
  | .done => true
  | .field name shape _ rest => isPlain name.toList && shape.isSound && rest.isSound

end

mutual

def Shape.Fits : Shape → Value → Prop
  | .number, .number _ => True
  | .count, .count n => n < Text.countLimit
  | .flag, .flag _ => True
  | .optional _, .null => True
  | .optional shape, v => shape.Fits v
  | .list shape, .parts vs => ∀ v ∈ vs, shape.Fits v
  | .tuple size shape, .parts vs => vs.length = size ∧ ∀ v ∈ vs, shape.Fits v
  | .record fields, .parts vs => fields.Fits vs
  | _, _ => False

def Fields.Fits : Fields → List Value → Prop
  | .done, [] => True
  | .field _ shape _ rest, v :: vs => shape.Fits v ∧ rest.Fits vs
  | _, _ => False

end

def Fields.entries (style : Style) (depth : Nat) : Fields → List Value → List Entry
  | .field name shape absent rest, v :: vs =>
    ⟨⟨name, shape.reader, absent, shape.isOptional⟩, shape.write style depth v, v⟩ ::
      rest.entries style depth vs
  | _, _ => []

section

variable (style : Style) (depth : Nat)

theorem Fields.write_eq : ∀ (fields : Fields) (vs : List Value),
    fields.write style depth vs = (fields.entries style depth vs).map (Entry.chars style)
  | .done, [] => rfl
  | .done, _ :: _ => rfl
  | .field _ _ _ _, [] => rfl
  | .field _ _ _ rest, _ :: vs => congrArg _ (Fields.write_eq rest vs)

theorem Fields.entries_map : ∀ (fields : Fields) (vs : List Value), fields.Fits vs →
    (fields.entries style depth vs).map (·.field) = fields.readers ∧
      (fields.entries style depth vs).map (·.value) = vs ∧
      ((fields.entries style depth vs).map fun e => e.field.name) = fields.names
  | .done, [], _ => ⟨rfl, rfl, rfl⟩
  | .field _ _ _ rest, _ :: vs, h => by
    obtain ⟨hfields, hvalues, hnames⟩ := Fields.entries_map rest vs h.2
    exact ⟨congrArg _ hfields, congrArg _ hvalues, congrArg _ hnames⟩

end

theorem reads_number {x : Binary64} (hx : Scalar.isFinite x = true → ReadsBack x) :
    Reads readNumber (numberChars x) (.number x) := by
  refine ⟨?_, fun blanks rest hblanks hrest => ?_⟩
  · by_cases hfinite : Scalar.isFinite x = true
    · obtain ⟨n, hchars, hn⟩ := numberChars_of_isFinite hfinite
      obtain ⟨c, cs, hstart, hc, -⟩ := Numeral.chars_start hn
      exact ⟨c, cs, hchars.trans hstart, hc⟩
    · rw [numberChars_of_not_isFinite (Bool.eq_false_of_not_eq_true hfinite)]
      exact ⟨'n', _, rfl, rfl, by decide⟩
  · rw [readNumber_numberChars hx hblanks hrest, outcome]
    simp only [Value.numbers, List.all_cons, List.all_nil, Bool.and_true]

theorem reads_count {n : Nat} (hn : n < Text.countLimit) :
    Reads readCount (Decimal.digitChars (Decimal.digitsOf n)) (.count n) := by
  refine ⟨?_, fun blanks rest hblanks hrest => readCount_digitChars hn hblanks hrest⟩
  obtain ⟨c, cs, hstart, hc, -⟩ := Numeral.chars_start (wellFormed_ofDigits n)
  rw [← digitChars_digitsOf] at hstart
  exact ⟨c, cs, hstart, hc⟩

theorem reads_flag (b : Bool) : Reads readFlag (flagChars b) (.flag b) := by
  cases b with
  | true =>
    refine ⟨⟨'t', _, rfl, rfl, by decide⟩, fun blanks rest hblanks hrest => ?_⟩
    have hword : skipBlanks (flagChars true ++ rest) = 't' :: (['r', 'u', 'e'] ++ rest) :=
      skipBlanks_cons rfl _
    rw [readFlag, skipBlanks_append hblanks, hword]
    simp only [scanLetters_append, ok_bind]
    rfl
  | false =>
    refine ⟨⟨'f', _, rfl, rfl, by decide⟩, fun blanks rest hblanks hrest => ?_⟩
    have hword : skipBlanks (flagChars false ++ rest) = 'f' :: (['a', 'l', 's', 'e'] ++ rest) :=
      skipBlanks_cons rfl _
    rw [readFlag, skipBlanks_append hblanks, hword]
    simp only [scanLetters_append, ok_bind]
    rfl

section

variable {reader : Reader}

theorem reads_null : Reads (readOptional reader) nullChars .null := by
  refine ⟨⟨'n', _, rfl, rfl, by decide⟩, fun blanks rest hblanks hrest => ?_⟩
  have hword : skipBlanks (nullChars ++ rest) = 'n' :: (['u', 'l', 'l'] ++ rest) :=
    skipBlanks_cons rfl _
  rw [readOptional, skipBlanks_append hblanks, hword]
  simp only [scanLetters_append, ok_bind]
  rfl

theorem reads_present {text : List Char} {v : Value} (h : Reads reader text v)
    (hstart : ∀ cs, text ≠ 'n' :: cs) : Reads (readOptional reader) text v := by
  refine ⟨h.starts, fun blanks rest hblanks hrest => ?_⟩
  rw [← h.reads blanks rest hblanks hrest, readOptional, skipBlanks_append hblanks]
  obtain ⟨c, cs, rfl, hblank, -⟩ := h.starts
  rw [List.cons_append, skipBlanks_cons hblank]
  split
  · next heq => exact absurd (congrArg (· :: cs) (List.cons.inj heq).1) (hstart cs)
  · rfl

end

section

variable (style : Style)

theorem writes_ne_nil {reader : Reader} {text : Value → List Char} {vs : List Value}
    (h : ∀ v ∈ vs, Reads reader (text v) v) : ∀ p ∈ vs.map text, p ≠ [] := by
  intro p hp
  obtain ⟨v, hv, rfl⟩ := List.mem_map.1 hp
  obtain ⟨c, cs, hstart, -⟩ := (h v hv).starts
  exact hstart ▸ List.cons_ne_nil c cs

theorem enclose_start (depth : Nat) (opening closing : Char) (ps : List (List Char)) :
    ∃ cs, enclose style depth opening closing ps = opening :: cs := by
  obtain ⟨close, -, henclose⟩ := enclose_eq style depth opening closing ps
  exact ⟨_, henclose⟩

theorem Shape.write_start {shape : Shape} (hshape : shape.isBracketed = true) {v : Value}
    (hv : shape.Fits v) (depth : Nat) (cs : List Char) :
    shape.write style depth v ≠ 'n' :: cs := by
  have hlist : ∀ ps, enclose style depth '[' ']' ps ≠ 'n' :: cs := by
    intro ps heq
    obtain ⟨tail, htail⟩ := enclose_start style depth '[' ']' ps
    rw [htail] at heq
    cases heq
  have hrecord : ∀ ps, enclose style depth '\x7b' '\x7d' ps ≠ 'n' :: cs := by
    intro ps heq
    obtain ⟨tail, htail⟩ := enclose_start style depth '\x7b' '\x7d' ps
    rw [htail] at heq
    cases heq
  match shape, v, hv with
  | .list _, .parts _, _ => exact hlist _
  | .tuple _ _, .parts _, _ => exact hlist _
  | .record _, .parts _, _ => exact hrecord _

theorem reads_parts {shape : Shape} {text : Value → List Char} {vs : List Value}
    (h : ∀ v, shape.Fits v → (∀ x ∈ v.numbers, Scalar.isFinite x = true → ReadsBack x) →
      Reads shape.reader (text v) v)
    (hvs : ∀ v ∈ vs, shape.Fits v)
    (hx : ∀ x ∈ partNumbers vs, Scalar.isFinite x = true → ReadsBack x) :
    ∀ v ∈ vs, Reads shape.reader (text v) v :=
  fun v hv => h v (hvs v hv) fun x hmem => hx x (mem_partNumbers.2 ⟨v, hv, hmem⟩)

mutual

/-- What a shape writes for a value that fits it is read as that value. -/
theorem Shape.reads_write : ∀ (shape : Shape) (depth : Nat) (v : Value), shape.isSound = true →
    shape.Fits v → (∀ x ∈ v.numbers, Scalar.isFinite x = true → ReadsBack x) →
    Reads shape.reader (shape.write style depth v) v
  | .number, _, .number x, _, _, hx => reads_number (hx x (.head []))
  | .count, _, .count n, _, hn, _ => reads_count hn
  | .flag, _, .flag b, _, _, _ => reads_flag b
  | .optional shape, depth, v, hshape, hv, hx => by
    obtain ⟨hbracketed, hsound⟩ := Bool.and_eq_true_iff.1 hshape
    cases v with
    | null => exact reads_null
    -- What starts with a bracket is not taken for an absent value.
    | flag b | count n | number x | parts vs =>
      exact reads_present (Shape.reads_write shape depth _ hsound hv hx)
        (Shape.write_start style hbracketed hv depth)
  | .list shape, depth, .parts vs, hshape, hvs, hx => by
    have hparts := reads_parts (fun v => Shape.reads_write shape (depth + 1) v hshape) hvs hx
    refine readBracketed_enclose style depth fun close rest hclose => ?_
    refine readParts_partsText (lineBreak_isGap style (depth + 1)) hclose hparts true ?_
    have hlength := length_le_partsText (writes_ne_nil hparts) (style.lineBreak (depth + 1)) true
    rw [List.length_map] at hlength
    rw [List.length_append]
    omega
  | .tuple size shape, depth, .parts vs, hshape, ⟨hsize, hvs⟩, hx => by
    have hparts := reads_parts (fun v => Shape.reads_write shape (depth + 1) v hshape) hvs hx
    subst hsize
    exact readBracketed_enclose style depth fun close rest hclose =>
      readExactly_partsText (lineBreak_isGap style (depth + 1)) hclose hparts true
  | .record fields, depth, .parts vs, hshape, hvs, hx => by
    obtain ⟨hnodup, hsound⟩ := Bool.and_eq_true_iff.1 hshape
    obtain ⟨hreaders, hvalues, hnames⟩ := Fields.entries_map style (depth + 1) fields vs hvs
    have hes := Fields.entries_sound fields (depth + 1) vs hsound hvs hx
    have hrecord := readRecord_enclose style depth hes
      (by rw [hnames]; exact of_decide_eq_true hnodup)
    rw [hreaders, hvalues, ← Fields.write_eq] at hrecord
    exact hrecord

theorem Fields.entries_sound : ∀ (fields : Fields) (depth : Nat) (vs : List Value),
    fields.isSound = true → fields.Fits vs →
    (∀ x ∈ partNumbers vs, Scalar.isFinite x = true → ReadsBack x) →
    ∀ e ∈ fields.entries style depth vs, e.Sound
  | .done, _, [], _, _, _ => nofun
  | .field name shape absent rest, depth, v :: vs, hfields, ⟨hv, hvs⟩, hx => by
    obtain ⟨hfield, hrest⟩ := Bool.and_eq_true_iff.1 hfields
    obtain ⟨hname, hshape⟩ := Bool.and_eq_true_iff.1 hfield
    intro e he
    rcases List.mem_cons.1 he with rfl | he
    · exact ⟨hname, Shape.reads_write shape depth v hshape hv fun x hmem =>
        hx x (List.mem_append_left _ hmem)⟩
    · exact Fields.entries_sound rest depth vs hrest hvs
        (fun x hmem => hx x (List.mem_append_right _ hmem)) e he

end

end

theorem Shape.read_write {shape : Shape} {v : Value} (hshape : shape.isSound = true)
    (hv : shape.Fits v) (hx : ∀ x ∈ v.numbers, Scalar.isFinite x = true → ReadsBack x)
    (style : Style) (depth : Nat) :
    shape.read (shape.write style depth v) =
      if v.numbers.all Scalar.isFinite then .ok v else .error .mismatch := by
  have hread := (shape.reads_write style depth v hshape hv hx).reads [] [] nofun closes_nil
  rw [List.nil_append, List.append_nil] at hread
  rw [Shape.read, hread]
  by_cases hfinite : v.numbers.all Scalar.isFinite = true
  · rw [outcome, if_pos hfinite, if_pos hfinite]
    rfl
  · rw [outcome, if_neg hfinite, if_neg hfinite]
    rfl

/-- What a codec has written it reads back, unless there is a number in it that is not finite: that
is a mismatch. -/
theorem Codec.read_write {τ : Type} {c : Codec τ} {t t' : τ}
    (hback : c.ofValue? (c.toValue t) = some t') (hshape : c.shape.isSound = true)
    (hfits : c.shape.Fits (c.toValue t))
    (hx : ∀ x ∈ (c.toValue t).numbers, Scalar.isFinite x = true → ReadsBack x) (style : Style) :
    c.read (c.write style t) =
      if (c.toValue t).numbers.all Scalar.isFinite then .ok t' else .error .mismatch := by
  have hread := Shape.read_write hshape hfits hx style 0
  rw [Codec.read, Codec.write, String.toList_ofList, hread]
  by_cases hfinite : (c.toValue t).numbers.all Scalar.isFinite = true
  · simp only [if_pos hfinite, ok_bind, hback]
  · rw [if_neg hfinite, if_neg hfinite]
    rfl

end TransferCurves.Json
