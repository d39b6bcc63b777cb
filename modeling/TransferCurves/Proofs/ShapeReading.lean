import TransferCurves.Proofs.NumeralScanning

/-!
# Reading what was written

What a shape writes for a value that fits it is read back as that value, wherever it stands in a
text: behind blanks and in front of what may follow a value. A value with a number that is infinite
or no number at all is a mismatch instead. The lists and the records are read part by part; their
parts stand behind separators that the writer chooses by its style.
-/

namespace TransferCurves.Json

open scoped Scalar
open Decimal (Digit)

mutual

def Value.numbers : Value → List Binary64
  | .number x => [x]
  | .parts vs => partNumbers vs
  | _ => []

def partNumbers : List Value → List Binary64
  | [] => []
  | v :: vs => v.numbers ++ partNumbers vs

end

theorem mem_partNumbers {x : Binary64} {vs : List Value} :
    x ∈ partNumbers vs ↔ ∃ v ∈ vs, x ∈ v.numbers := by
  induction vs with
  | nil => simp [partNumbers]
  | cons v vs ih => simp [partNumbers, ih]

/-- What is read is `t`, or a mismatch if there is a number that is not finite. -/
def outcome {τ : Type} (xs : List Binary64) (t : τ) (rest : List Char) : Scan (τ × List Char) :=
  if xs.all Scalar.isFinite then .ok (t, rest) else .error .mismatch

theorem ok_bind {τ σ : Type} (t : τ) (k : τ → Scan σ) : ((.ok t : Scan τ) >>= k) = k t := rfl

theorem outcome_bind {τ σ : Type} {xs ys : List Binary64} {t : τ} {s : σ}
    {rest rest' : List Char} {k : τ × List Char → Scan (σ × List Char)}
    (hk : k (t, rest) = outcome ys s rest') :
    (outcome xs t rest >>= k) = outcome (xs ++ ys) s rest' := by
  by_cases h : xs.all Scalar.isFinite = true
  · have houtcome : outcome xs t rest = .ok (t, rest) := if_pos h
    rw [houtcome, outcome, List.all_append, h, Bool.true_and]
    exact hk
  · have houtcome : outcome xs t rest = .error .mismatch := if_neg h
    rw [houtcome, outcome, List.all_append, Bool.eq_false_of_not_eq_true h]
    rfl

theorem outcome_map {τ σ : Type} {xs : List Binary64} {t : τ} {s : σ} {rest rest' : List Char}
    {k : τ × List Char → Scan (σ × List Char)} (hk : k (t, rest) = .ok (s, rest')) :
    (outcome xs t rest >>= k) = outcome xs s rest' := by
  have hout : k (t, rest) = outcome [] s rest' := hk
  rw [outcome_bind hout, List.append_nil]

/-- The text is read as the value in every context, and it cannot be taken for the end of a list. -/
structure Reads (reader : Reader) (text : List Char) (v : Value) : Prop where
  starts : ∃ c cs, text = c :: cs ∧ isBlank c = false ∧ c ≠ ']'
  reads : ∀ blanks rest : List Char, Blanks blanks → Closes rest →
    reader (blanks ++ (text ++ rest)) = outcome v.numbers v rest

/-- Nothing, or a line break and the indentation behind it. -/
def IsGap (gap : List Char) : Prop := gap = [] ∨ ∃ n, gap = '\n' :: List.replicate n ' '

theorem lineBreak_isGap (style : Style) (depth : Nat) : IsGap (style.lineBreak depth) := by
  cases style with
  | compact => exact Or.inl rfl
  | indented => exact Or.inr ⟨2 * depth, rfl⟩

section

variable {gap rest : List Char}

theorem IsGap.blanks (h : IsGap gap) : Blanks gap := by
  rcases h with rfl | ⟨n, rfl⟩
  · exact nofun
  · intro c hc
    rcases List.mem_cons.1 hc with rfl | hc
    · rfl
    · rw [List.eq_of_mem_replicate hc]
      rfl

theorem IsGap.closes (h : IsGap gap) (hrest : Closes rest) : Closes (gap ++ rest) := by
  rcases h with rfl | ⟨n, rfl⟩
  · exact hrest
  · exact closes_cons.2 (by decide)

theorem IsGap.skipBlanks_append (h : IsGap gap) {c : Char} (hc : isBlank c = false)
    (rest : List Char) : skipBlanks (gap ++ c :: rest) = c :: rest := by
  rw [Json.skipBlanks_append h.blanks, skipBlanks_cons hc]

def separator (gap : List Char) (first : Bool) : List Char := if first then gap else ',' :: gap

def partsText (gap : List Char) : Bool → List (List Char) → List Char
  | _, [] => []
  | first, p :: ps => separator gap first ++ (p ++ partsText gap false ps)

theorem partsText_later (gap : List Char) (ps : List (List Char)) :
    (ps.map fun p => ',' :: (gap ++ p)).flatten = partsText gap false ps := by
  induction ps with
  | nil => rfl
  | cons p ps ih => simp [partsText, separator, ih]

theorem length_le_partsText {ps : List (List Char)} (h : ∀ p ∈ ps, p ≠ []) (gap : List Char)
    (first : Bool) : ps.length ≤ (partsText gap first ps).length := by
  induction ps generalizing first with
  | nil => exact Nat.le_refl 0
  | cons p ps ih =>
    have hp : 0 < p.length := List.length_pos_iff.2 (h p (.head ps))
    have hps := ih (fun q hq => h q (.tail p hq)) false
    simp only [partsText, List.length_cons, List.length_append]
    omega

theorem partsText_closes (gap : List Char) (ps : List (List Char)) (hrest : Closes rest) :
    Closes (partsText gap false ps ++ rest) := by
  cases ps with
  | nil => exact hrest
  | cons p ps => exact closes_cons.2 (by decide)

theorem enclose_eq (style : Style) (depth : Nat) (opening closing : Char)
    (ps : List (List Char)) :
    ∃ gap, IsGap gap ∧ enclose style depth opening closing ps =
      opening :: (partsText (style.lineBreak (depth + 1)) true ps ++ (gap ++ [closing])) := by
  cases ps with
  | nil => exact ⟨[], Or.inl rfl, rfl⟩
  | cons p ps =>
    refine ⟨style.lineBreak depth, lineBreak_isGap style depth, ?_⟩
    simp only [enclose, partsText_later, partsText, separator, if_true, List.cons_append,
      List.append_assoc]

variable {first : Bool} {reader : Reader} {text : Value → List Char}

theorem nextPart_end (hgap : IsGap gap) : nextPart first (gap ++ ']' :: rest) = .ok none := by
  have hskip := hgap.skipBlanks_append (c := ']') rfl rest
  simp only [nextPart, hskip]

theorem nextPart_part (hgap : IsGap gap) {p : List Char}
    (hp : ∃ c cs, p = c :: cs ∧ isBlank c = false ∧ c ≠ ']') :
    nextPart first (separator gap first ++ (p ++ rest)) = .ok (some (p ++ rest)) := by
  obtain ⟨c, cs, rfl, hblank, hend⟩ := hp
  have hskip := hgap.skipBlanks_append hblank (cs ++ rest)
  rw [List.cons_append]
  cases first with
  | true =>
    simp only [separator, if_true, nextPart, hskip]
  | false =>
    have hcomma := skipBlanks_cons (c := ',') rfl (gap ++ c :: (cs ++ rest))
    simp only [separator, Bool.false_eq_true, if_false, List.cons_append, nextPart, hcomma]
    split
    · next heq => cases heq
    · next heq => cases heq
    · next heq =>
      cases heq
      simp only [if_true, hskip]
      split
      · next heq => cases heq
      · next heq => exact absurd (List.cons.inj heq).1 hend
      · rfl

theorem readParts_partsText {close : List Char} (hgap : IsGap gap) (hclose : IsGap close)
    {vs : List Value} (h : ∀ v ∈ vs, Reads reader (text v) v) (first : Bool) {fuel : Nat}
    (hfuel : vs.length < fuel) :
    readParts reader fuel first (partsText gap first (vs.map text) ++ (close ++ ']' :: rest)) =
      outcome (partNumbers vs) vs (close ++ ']' :: rest) := by
  have hrest : Closes (close ++ ']' :: rest) := hclose.closes (closes_cons.2 (by decide))
  induction vs generalizing first fuel with
  | nil =>
    obtain ⟨fuel, rfl⟩ := Nat.exists_eq_succ_of_ne_zero (Nat.ne_of_gt hfuel)
    simp only [List.map_nil, partsText, List.nil_append, readParts, nextPart_end hclose]
    rfl
  | cons v vs ih =>
    obtain ⟨fuel, rfl⟩ := Nat.exists_eq_succ_of_ne_zero (Nat.ne_of_gt (Nat.zero_lt_of_lt hfuel))
    have hv := h v (.head vs)
    have hread := hv.reads [] _ nofun (partsText_closes gap (vs.map text) hrest)
    have hparts := ih (fun w hw => h w (.tail v hw)) false (Nat.lt_of_succ_lt_succ hfuel)
    simp only [List.map_cons, partsText, List.append_assoc, readParts, nextPart_part hgap hv.starts,
      ok_bind]
    rw [← List.nil_append (text v ++ _), hread]
    refine outcome_bind ?_
    rw [hparts]
    exact outcome_map rfl

theorem readExactly_partsText {close : List Char} (hgap : IsGap gap) (hclose : IsGap close)
    {vs : List Value} (h : ∀ v ∈ vs, Reads reader (text v) v) (first : Bool) :
    readExactly reader vs.length first
        (partsText gap first (vs.map text) ++ (close ++ ']' :: rest)) =
      outcome (partNumbers vs) vs (close ++ ']' :: rest) := by
  have hrest : Closes (close ++ ']' :: rest) := hclose.closes (closes_cons.2 (by decide))
  induction vs generalizing first with
  | nil => rfl
  | cons v vs ih =>
    have hv := h v (.head vs)
    have hread := hv.reads [] _ nofun (partsText_closes gap (vs.map text) hrest)
    have hparts := ih (fun w hw => h w (.tail v hw)) false
    simp only [List.map_cons, partsText, List.append_assoc, List.length_cons, readExactly,
      nextPart_part hgap hv.starts, ok_bind]
    rw [← List.nil_append (text v ++ _), hread]
    refine outcome_bind ?_
    rw [hparts]
    exact outcome_map rfl

theorem readBracketed_enclose (style : Style) (depth : Nat)
    {parts : List Char → Scan (List Value × List Char)} {vs : List Value}
    (h : ∀ close rest, IsGap close →
      parts (partsText (style.lineBreak (depth + 1)) true (vs.map text) ++ (close ++ ']' :: rest)) =
        outcome (partNumbers vs) vs (close ++ ']' :: rest)) :
    Reads (readBracketed parts) (enclose style depth '[' ']' (vs.map text)) (.parts vs) := by
  obtain ⟨close, hclose, henclose⟩ := enclose_eq style depth '[' ']' (vs.map text)
  rw [henclose]
  refine ⟨⟨'[', _, rfl, rfl, by decide⟩, ?_⟩
  intro blanks rest hblanks hrest
  have hend : closeList (close ++ ']' :: rest) = .ok rest := by
    have hskip := hclose.skipBlanks_append (c := ']') rfl rest
    simp only [closeList, hskip]
  have hparts := h close rest hclose
  rw [readBracketed, skipBlanks_append hblanks, List.cons_append, skipBlanks_cons rfl]
  simp only [List.append_assoc, List.cons_append, List.nil_append]
  rw [hparts]
  refine outcome_map ?_
  simp only [hend, ok_bind]

def isPlain (name : List Char) : Bool := name.all fun c => c ≠ '"' ∧ c ≠ '\\' ∧ ¬c < ' '

theorem scanStringWithin_append {name : List Char} (h : isPlain name = true) {fuel : Nat}
    (hfuel : name.length < fuel) :
    scanStringWithin true fuel (name ++ '"' :: rest) = .ok (name, rest) := by
  induction name generalizing fuel with
  | nil =>
    obtain ⟨fuel, rfl⟩ := Nat.exists_eq_succ_of_ne_zero (Nat.ne_of_gt hfuel)
    rfl
  | cons c name ih =>
    obtain ⟨fuel, rfl⟩ := Nat.exists_eq_succ_of_ne_zero (Nat.ne_of_gt (Nat.zero_lt_of_lt hfuel))
    obtain ⟨hc, hname⟩ := Bool.and_eq_true_iff.1 h
    obtain ⟨hquote, hbackslash, hcontrol⟩ := of_decide_eq_true hc
    have htail := ih hname (Nat.lt_of_succ_lt_succ hfuel)
    simp only [List.cons_append, scanStringWithin, if_neg hquote, if_neg hbackslash,
      if_neg hcontrol, htail, ok_bind]

theorem scanString_append {name : List Char} (h : isPlain name = true) (rest : List Char) :
    scanString true (name ++ '"' :: rest) = .ok (name, rest) :=
  scanStringWithin_append h (by simp only [List.length_append]; omega)

theorem nextKey_end (hgap : IsGap gap) :
    nextKey first (gap ++ '\x7d' :: rest) = .ok none := by
  have hskip := hgap.skipBlanks_append (c := '\x7d') rfl rest
  simp only [nextKey, hskip]

theorem nextKey_key (hgap : IsGap gap) :
    nextKey first (separator gap first ++ '"' :: rest) = .ok (some rest) := by
  have hskip := hgap.skipBlanks_append (c := '"') rfl rest
  cases first with
  | true =>
    simp only [separator, if_true, nextKey, hskip]
    rfl
  | false =>
    have hcomma := skipBlanks_cons (c := ',') rfl (gap ++ '"' :: rest)
    simp only [separator, Bool.false_eq_true, if_false, List.cons_append, nextKey, hcomma]
    split
    · next heq => cases heq
    · next heq => cases heq
    · next heq =>
      cases heq
      simp only [if_true, hskip]

theorem scanColon_colon (style : Style) :
    ∃ blanks, Blanks blanks ∧ ∀ rest, scanColon (style.colon ++ rest) = .ok (blanks ++ rest) := by
  cases style with
  | compact => exact ⟨[], nofun, fun rest => rfl⟩
  | indented => exact ⟨[' '], by simp [Blanks, isBlank], fun rest => rfl⟩

structure Entry where
  field : FieldReader
  text : List Char
  value : Value

namespace Entry

def chars (style : Style) (e : Entry) : List Char :=
  '"' :: e.field.name.toList ++ '"' :: style.colon ++ e.text

def found (e : Entry) : String × Value := (e.field.name, e.value)

structure Sound (e : Entry) : Prop where
  plain : isPlain e.field.name.toList = true
  reads : Reads e.field.read e.text e.value

end Entry

variable {es : List Entry} {style : Style}

theorem find?_name {fs : List FieldReader} (h : (fs.map (·.name)).Nodup) {f : FieldReader}
    (hf : f ∈ fs) : fs.find? (·.name = f.name) = some f := by
  induction fs with
  | nil => cases hf
  | cons g fs ih =>
    obtain ⟨hg, hfs⟩ := List.nodup_cons.1 h
    rcases List.mem_cons.1 hf with rfl | hf
    · exact List.find?_cons_of_pos (decide_eq_true rfl)
    · have hne : g.name ≠ f.name := fun heq => hg (List.mem_map.2 ⟨f, hf, heq.symm⟩)
      rw [List.find?_cons_of_neg (by simpa using hne), ih hfs hf]

theorem lookup_of_mem {found : List (String × Value)} (h : (found.map (·.1)).Nodup)
    {key : String} {v : Value} (hmem : (key, v) ∈ found) : found.lookup key = some v := by
  induction found with
  | nil => cases hmem
  | cons e found ih =>
    obtain ⟨he, hfound⟩ := List.nodup_cons.1 h
    rcases List.mem_cons.1 hmem with rfl | hmem
    · exact List.lookup_cons_self
    · have hne : key ≠ e.1 := fun heq => he (List.mem_map.2 ⟨(key, v), hmem, heq⟩)
      rw [List.lookup_cons, beq_false_of_ne hne]
      exact ih hfound hmem

theorem readNamed_partsText {fields : List FieldReader} {close : List Char} (hgap : IsGap gap)
    (hclose : IsGap close) (hes : ∀ e ∈ es, e.Sound)
    (hfind : ∀ e ∈ es, fields.find? (·.name = e.field.name) = some e.field)
    (hnames : (es.map fun e => e.field.name).Nodup) {found : List (String × Value)}
    (hnew : ∀ e ∈ es, found.lookup e.field.name = none) (first : Bool) {fuel : Nat}
    (hfuel : es.length < fuel) (style : Style) (rest : List Char) :
    readNamed fields fuel first found
        (partsText gap first (es.map (Entry.chars style)) ++ (close ++ '\x7d' :: rest)) =
      outcome (partNumbers (es.map (·.value))) ((es.map Entry.found).reverse ++ found)
        (close ++ '\x7d' :: rest) := by
  have hrest : Closes (close ++ '\x7d' :: rest) := hclose.closes (closes_cons.2 (by decide))
  induction es generalizing first found fuel with
  | nil =>
    obtain ⟨fuel, rfl⟩ := Nat.exists_eq_succ_of_ne_zero (Nat.ne_of_gt hfuel)
    simp only [List.map_nil, partsText, List.nil_append, readNamed, nextKey_end hclose, ok_bind]
    rfl
  | cons e es ih =>
    obtain ⟨fuel, rfl⟩ := Nat.exists_eq_succ_of_ne_zero (Nat.ne_of_gt (Nat.zero_lt_of_lt hfuel))
    obtain ⟨hname, hnames⟩ := List.nodup_cons.1 hnames
    obtain ⟨blanks, hblanks, hcolon⟩ := scanColon_colon style
    have he := hes e (.head es)
    have hread := he.reads.reads blanks _ hblanks
      (partsText_closes gap (es.map (Entry.chars style)) hrest)
    -- No name that is left is the one just found, so none is taken for a duplicate.
    have hnew' : ∀ e' ∈ es, (e.found :: found).lookup e'.field.name = none := by
      intro e' he'
      have hne : e'.field.name ≠ e.field.name :=
        fun heq => hname (List.mem_map.2 ⟨e', he', heq⟩)
      rw [List.lookup_cons, Entry.found, beq_false_of_ne hne]
      exact hnew e' (.tail e he')
    have hparts := ih (fun e' he' => hes e' (.tail e he'))
      (fun e' he' => hfind e' (.tail e he')) hnames hnew' false
      (Nat.lt_of_succ_lt_succ hfuel)
    simp only [List.map_cons, partsText, Entry.chars, List.append_assoc, List.cons_append,
      readNamed, nextKey_key hgap, scanString_append he.plain, ok_bind, String.ofList_toList,
      hfind e (.head es), hnew e (.head es), hcolon, Option.isSome_none, Bool.false_eq_true,
      if_false]
    rw [hread]
    refine outcome_bind ?_
    rw [List.reverse_cons, List.append_assoc]
    exact hparts

theorem supplied_eq {found : List (String × Value)}
    (h : ∀ e ∈ es, found.lookup e.field.name = some e.value) :
    supplied (es.map (·.field)) found = .ok (es.map (·.value)) := by
  rw [supplied]
  induction es with
  | nil => rfl
  | cons e es ih =>
    have htail := ih fun e' he' => h e' (.tail e he')
    simp only [List.map_cons, List.mapM_cons, h e (.head es), Option.some_or, ok_bind, htail]
    rfl

theorem supplied_found (hnames : (es.map fun e => e.field.name).Nodup) :
    supplied (es.map (·.field)) ((es.map Entry.found).reverse ++ []) = .ok (es.map (·.value)) := by
  -- The fields are found last first, which does not show where the names are distinct.
  have hkeys : ((es.map Entry.found).reverse.map (·.1)).Nodup := by
    rw [List.map_reverse, List.map_map]
    exact List.pairwise_reverse.2 (hnames.imp Ne.symm)
  rw [List.append_nil]
  exact supplied_eq fun e he => lookup_of_mem hkeys (List.mem_reverse.2 (List.mem_map_of_mem he))

theorem readRecord_enclose (style : Style) (depth : Nat) (hes : ∀ e ∈ es, e.Sound)
    (hnames : (es.map fun e => e.field.name).Nodup) :
    Reads (readRecord (es.map (·.field)))
      (enclose style depth '\x7b' '\x7d' (es.map (Entry.chars style)))
      (.parts (es.map (·.value))) := by
  obtain ⟨close, hclose, henclose⟩ :=
    enclose_eq style depth '\x7b' '\x7d' (es.map (Entry.chars style))
  rw [henclose]
  refine ⟨⟨'\x7b', _, rfl, rfl, by decide⟩, ?_⟩
  intro blanks rest hblanks hrest
  have hfind : ∀ e ∈ es, (es.map (·.field)).find? (·.name = e.field.name) = some e.field := by
    intro e he
    refine find?_name ?_ (List.mem_map_of_mem he)
    rw [List.map_map]
    exact hnames
  have hlength : es.length ≤
      (partsText (style.lineBreak (depth + 1)) true (es.map (Entry.chars style))).length := by
    rw [← List.length_map (Entry.chars style)]
    refine length_le_partsText ?_ (style.lineBreak (depth + 1)) true
    intro p hp
    obtain ⟨e, -, rfl⟩ := List.mem_map.1 hp
    exact List.cons_ne_nil _ _
  have hfuel : es.length <
      (partsText (style.lineBreak (depth + 1)) true (es.map (Entry.chars style)) ++
        (close ++ '\x7d' :: rest)).length + 1 := by
    rw [List.length_append]
    omega
  have hnamed := readNamed_partsText (lineBreak_isGap style (depth + 1)) hclose hes hfind hnames
    (fun e he => List.lookup_nil) true hfuel style rest
  rw [readRecord, skipBlanks_append hblanks, List.cons_append, skipBlanks_cons rfl]
  simp only [List.append_assoc, List.cons_append, List.nil_append]
  rw [hnamed]
  refine outcome_map ?_
  simp only [supplied_found hnames, ok_bind, hclose.skipBlanks_append (c := '\x7d') rfl rest]
  rfl

end

end TransferCurves.Json
