import TransferCurves.Json.Codec
import TransferCurves.Proofs.Binary64Whole

/-!
# Scanning written numerals

A written numeral has digits, no leading zeros and, where it has an exponent, digits there too. Such
a numeral is scanned back whole wherever a character stands behind it that may stand behind a value:
a comma, a closing bracket or a line break. Counts below `2 ^ 64` are read back, and so is every
double whose numeral has its value. What is no finite double is written as a word, which is a
mismatch where a number is expected.
-/

namespace TransferCurves

open scoped Scalar

namespace Decimal

theorem digitsOf_eq_cons {n : Nat} (h : n ≠ 0) : ∃ d ds, digitsOf n = d :: ds ∧ d ≠ 0 := by
  fun_induction digitsOf n with
  | case1 n hn => exact ⟨⟨n, hn⟩, [], rfl, fun hzero => h (congrArg Fin.val hzero)⟩
  | case2 n hn ih =>
    obtain ⟨d, ds, hds, hd⟩ := ih (by omega)
    exact ⟨d, ds ++ [⟨n % 10, Nat.mod_lt n (by decide)⟩], by rw [hds]; rfl, hd⟩

theorem Digit.toChar_ne {c : Char} (hc : Digit.ofChar? c = none) (d : Digit) : d.toChar ≠ c := by
  rintro rfl
  rw [Digit.ofChar?_toChar] at hc
  cases hc

theorem trim_digits_ne_zero {d : Decimal} (h : d.digits ≠ 0) : (trim d).digits ≠ 0 := by
  fun_induction trim d with
  | case1 d hd ih => exact ih (by simp only; omega)
  | case2 d hd => exact h

variable {m : Nat} {e k : Int}

theorem readsBack_zero (hm : 0 < m) : readsBack m e k 0 = false := by
  have hlow : 0 < onGrid (if m = Nat.pow 2 52 ∧ -1074 < e then 4 * m - 1 else 4 * m - 2) e k := by
    refine Nat.mul_pos (Nat.mul_pos ?_ (Nat.two_pow_pos _)) (Nat.pow_pos (by omega))
    split <;> omega
  simp only [readsBack, Nat.zero_mul]
  split <;> simp [Nat.ne_of_gt hlow]

theorem nearestOnGrid?_ne_zero {tie : Tie} {c : Nat} (hm : 0 < m)
    (h : nearestOnGrid? tie m e k = some c) : c ≠ 0 := by
  have hzero : readsBack m e k 0 = false := readsBack_zero hm
  -- The lower neighbour is taken only where it reads back, as zero does not.
  have hbelow : readsBack m e k (onGrid (4 * m) e k / gridUnit e k) = true →
      onGrid (4 * m) e k / gridUnit e k ≠ 0 := by
    intro hreads hdiv
    rw [hdiv, hzero] at hreads
    cases hreads
  unfold nearestOnGrid? at h
  grind

theorem exact_digits_ne_zero (hm : 0 < m) : (exact m e).digits ≠ 0 := by
  rw [exact]
  split
  · exact (Nat.mul_pos hm (Nat.two_pow_pos _)).ne'
  · exact (Nat.mul_pos hm (Nat.pow_pos (by omega))).ne'

theorem shortest_digits_ne_zero (tie : Tie) (hm : 0 < m) : (shortest tie m e).digits ≠ 0 := by
  refine trim_digits_ne_zero ?_
  cases hhit : (List.range 17).findSome? fun (n : Nat) =>
      (nearestOnGrid? tie m e (leadingExponent m e - n)).map fun c =>
        ({ digits := c, exponent := leadingExponent m e - n } : Decimal) with
  | none => exact exact_digits_ne_zero hm
  | some d =>
    obtain ⟨n, -, hn⟩ := List.exists_of_findSome?_eq_some hhit
    obtain ⟨c, hc, rfl⟩ := Option.map_eq_some_iff.1 hn
    exact nearestOnGrid?_ne_zero hm hc

end Decimal

theorem Binary64.decimal?_digits {tie : Decimal.Tie} {x : Binary64} {negative : Bool} {d : Decimal}
    (h : x.decimal? tie = some (negative, d)) : d.digits ≠ 0 ∨ d.exponent = 0 := by
  rw [Binary64.decimal?] at h
  cases hx : x.unpack with
  | zero s =>
    rw [hx] at h
    cases h
    exact Or.inr rfl
  | finite s m e hm =>
    rw [hx] at h
    cases h
    exact Or.inl (Decimal.shortest_digits_ne_zero tie hm)
  | _ =>
    rw [hx] at h
    cases h

theorem Binary64.decimal?_eq_none_iff {tie : Decimal.Tie} {x : Binary64} :
    x.decimal? tie = none ↔ Scalar.isFinite x = false := by
  have hfinite : Scalar.isFinite x = x.unpack.isFinite := by
    rw [← Binary64.decoded_eq_unpack]
    rfl
  rw [hfinite, Binary64.decimal?]
  cases x.unpack <;> simp [Float.Model.UnpackedFloat.isFinite]

namespace Json

open Decimal (Digit digitChars digitsOf)

/-- What may stand behind a written value. -/
def Closes (rest : List Char) : Prop := ∀ c ∈ rest.head?, c ∈ [',', ']', '\x7d', '\n']

theorem closes_nil : Closes [] := nofun

theorem closes_cons {c : Char} {rest : List Char} :
    Closes (c :: rest) ↔ c ∈ [',', ']', '\x7d', '\n'] := by
  simp only [Closes, List.head?_cons, Option.mem_some_iff, forall_eq']

structure Numeral.WellFormed (n : Numeral) : Prop where
  whole_ne_nil : n.whole ≠ []
  whole_start : hasLeadingZero n.whole = false
  exponent_ne_nil : ∀ negative ds, n.exponent = some (negative, ds) → ds ≠ []

theorem hasLeadingZero_cons {d : Digit} (h : d ≠ 0) (ds : List Digit) :
    hasLeadingZero (d :: ds) = false := by
  cases ds with
  | nil => rfl
  | cons d' ds => exact beq_false_of_ne fun hzero => h (Fin.ext hzero)

theorem hasLeadingZero_digitsOf (n : Nat) : hasLeadingZero (digitsOf n) = false := by
  by_cases hn : n = 0
  · subst hn
    rw [digitsOf]
    rfl
  · obtain ⟨d, ds, hds, hd⟩ := Decimal.digitsOf_eq_cons hn
    rw [hds]
    exact hasLeadingZero_cons hd ds

theorem digitsOf_take {n k : Nat} (hk : k ≠ 0) :
    (digitsOf n).take k ≠ [] ∧ hasLeadingZero ((digitsOf n).take k) = false := by
  obtain ⟨k, rfl⟩ := Nat.exists_eq_succ_of_ne_zero hk
  by_cases hn : n = 0
  · subst hn
    rw [digitsOf]
    exact ⟨nofun, by rw [dif_pos (by decide)]; cases k <;> rfl⟩
  · obtain ⟨d, ds, hds, hd⟩ := Decimal.digitsOf_eq_cons hn
    rw [hds, List.take_succ_cons]
    exact ⟨nofun, hasLeadingZero_cons hd _⟩

theorem wellFormed_ofDigits (n : Nat) : Numeral.WellFormed ⟨false, digitsOf n, [], none⟩ :=
  ⟨Decimal.digitsOf_ne_nil n, hasLeadingZero_digitsOf n, nofun⟩

section

variable {format : NumberFormat} {negative : Bool} {d : Decimal}

theorem wellFormed_plainNumeral (h : d.digits ≠ 0 ∨ d.exponent = 0) :
    Numeral.WellFormed (format.plainNumeral negative d) := by
  unfold NumberFormat.plainNumeral
  split
  · refine ⟨?_, ?_, nofun⟩
    · exact fun hnil => Decimal.digitsOf_ne_nil d.digits (List.append_eq_nil_iff.1 hnil).1
    · rcases h with hdigits | hexponent
      · obtain ⟨d', ds, hds, hd⟩ := Decimal.digitsOf_eq_cons hdigits
        simp only [hds, List.cons_append, hasLeadingZero_cons hd]
      · simp only [hexponent, Int.toNat_zero, List.replicate_zero, List.append_nil,
          hasLeadingZero_digitsOf]
  · simp only
    split
    · obtain ⟨hne, hstart⟩ :=
        digitsOf_take (n := d.digits) (k := (digitsOf d.digits).length - (-d.exponent).toNat)
          (by omega)
      exact ⟨hne, hstart, nofun⟩
    · exact ⟨nofun, rfl, nofun⟩

theorem wellFormed_scientificNumeral :
    Numeral.WellFormed (NumberFormat.scientificNumeral negative d) := by
  obtain ⟨hne, hstart⟩ := digitsOf_take (n := d.digits) one_ne_zero
  refine ⟨hne, hstart, ?_⟩
  rintro s ds hds
  cases hds
  exact Decimal.digitsOf_ne_nil _

theorem wellFormed_numeral (h : d.digits ≠ 0 ∨ d.exponent = 0) :
    Numeral.WellFormed (format.numeral negative d) := by
  unfold NumberFormat.numeral
  simp only
  split
  · exact wellFormed_plainNumeral h
  · split
    · exact wellFormed_plainNumeral h
    · exact wellFormed_scientificNumeral

end

def NoDigit (text : List Char) : Prop := ∀ c cs, text = c :: cs → Digit.ofChar? c = none

section

variable {rest : List Char}

theorem Closes.noDigit (h : Closes rest) : NoDigit rest := by
  rintro c cs rfl
  have hc := closes_cons.1 h
  simp only [List.mem_cons, List.not_mem_nil, or_false] at hc
  rcases hc with rfl | rfl | rfl | rfl <;> rfl

theorem scanDigits_digitChars {ds : List Digit} (hds : ds ≠ []) (hrest : NoDigit rest) :
    scanDigits (digitChars ds ++ rest) = .ok (ds, rest) := by
  obtain ⟨d, ds, rfl⟩ := List.exists_cons_of_ne_nil hds
  rw [scanDigits, digitChars, Decimal.spanDigits_toChar_append _ rest hrest]

theorem scanWhole_digitChars {ds : List Digit} (hds : ds ≠ []) (hstart : hasLeadingZero ds = false)
    (hrest : NoDigit rest) : scanWhole (digitChars ds ++ rest) = .ok (ds, rest) := by
  rw [scanWhole, scanDigits_digitChars hds hrest]
  simp [bind, Except.bind, hstart]

/-- The scanner of a fraction looks at the first character only, so it has to be no point where
there is no fraction. -/
theorem scanFraction_chars (ds : List Digit) (hrest : NoDigit rest)
    (hpoint : ∀ cs, rest ≠ '.' :: cs) :
    scanFraction ((if ds.isEmpty then [] else '.' :: digitChars ds) ++ rest) = .ok (ds, rest) := by
  by_cases hds : ds = []
  · subst hds
    simp only [List.isEmpty_nil, if_true, List.nil_append]
    unfold scanFraction
    split
    · next cs => exact absurd rfl (hpoint cs)
    · rfl
  · simp [hds, scanFraction, scanDigits_digitChars hds hrest]

def exponentChars : Option (Bool × List Digit) → List Char
  | none => []
  | some (negative, ds) => 'e' :: (if negative then '-' else '+') :: digitChars ds

theorem scanExponent_chars (h : Closes rest) {exponent : Option (Bool × List Digit)}
    (hexponent : ∀ negative ds, exponent = some (negative, ds) → ds ≠ []) :
    scanExponent (exponentChars exponent ++ rest) = .ok (exponent, rest) := by
  cases exponent with
  | none =>
    cases rest with
    | nil => rfl
    | cons c cs =>
      have hc := closes_cons.1 h
      simp only [List.mem_cons, List.not_mem_nil, or_false] at hc
      rcases hc with rfl | rfl | rfl | rfl <;> rfl
  | some e =>
    obtain ⟨negative, ds⟩ := e
    have hdigits := scanDigits_digitChars (hexponent negative ds rfl) h.noDigit
    cases negative <;> simp [exponentChars, scanExponent, hdigits, bind, Except.bind]

theorem exponentChars_start (h : Closes rest) (exponent : Option (Bool × List Digit)) :
    NoDigit (exponentChars exponent ++ rest) ∧
      ∀ cs, exponentChars exponent ++ rest ≠ '.' :: cs := by
  cases exponent with
  | none =>
    refine ⟨h.noDigit, ?_⟩
    rintro cs rfl
    exact absurd (closes_cons.1 h) (by decide)
  | some e =>
    refine ⟨?_, nofun⟩
    rintro c cs hcs
    cases hcs
    rfl

theorem fractionChars_start {tail : List Char} (h : NoDigit tail) (ds : List Digit) :
    NoDigit ((if ds.isEmpty then [] else '.' :: digitChars ds) ++ tail) := by
  cases ds with
  | nil => exact h
  | cons d ds =>
    rintro c cs hcs
    cases hcs
    rfl

theorem scanNumeral_chars {n : Numeral} (hn : Numeral.WellFormed n) (h : Closes rest) :
    scanNumeral (n.chars ++ rest) = .ok (n, rest) := by
  obtain ⟨negative, whole, fraction, exponent⟩ := n
  obtain ⟨hwhole, hstart, hexponent⟩ := hn
  obtain ⟨hdigit, hpoint⟩ := exponentChars_start h exponent
  have hfraction := scanFraction_chars fraction hdigit hpoint
  have hscan := scanWhole_digitChars hwhole hstart (fractionChars_start hdigit fraction)
  -- Whatever the sign, what is behind it is scanned alike: no digit is a minus sign.
  have hsign : scanNumeral ((⟨negative, whole, fraction, exponent⟩ : Numeral).chars ++ rest) =
      (do
        let w ← scanWhole (digitChars whole ++
          ((if fraction.isEmpty then [] else '.' :: digitChars fraction) ++
            (exponentChars exponent ++ rest)))
        let f ← scanFraction w.2
        let e ← scanExponent f.2
        .ok (⟨negative, w.1, f.1, e.1⟩, e.2)) := by
    obtain ⟨d, ds, rfl⟩ := List.exists_cons_of_ne_nil hwhole
    have hd : d.toChar ≠ '-' := d.toChar_ne rfl
    unfold scanNumeral Numeral.chars
    cases negative with
    | true =>
      simp only [if_true, List.append_assoc]
      rfl
    | false =>
      simp only [Bool.false_eq_true, if_false, List.append_assoc, List.nil_append, digitChars,
        List.map_cons, List.cons_append]
      split
      · next heq => exact absurd (List.cons.inj heq).1 hd
      · rfl
  rw [hsign, hscan]
  simp only [bind, Except.bind, hfraction, scanExponent_chars h hexponent]

def Blanks (text : List Char) : Prop := ∀ c ∈ text, isBlank c = true

theorem skipBlanks_append {blanks : List Char} (hblanks : Blanks blanks)
    (text : List Char) : skipBlanks (blanks ++ text) = skipBlanks text :=
  List.dropWhile_append_of_pos hblanks

theorem skipBlanks_cons {c : Char} (hc : isBlank c = false) (text : List Char) :
    skipBlanks (c :: text) = c :: text :=
  List.dropWhile_cons_of_neg (by rw [hc]; exact Bool.false_ne_true)

theorem scanLetters_append (ls rest : List Char) : scanLetters ls (ls ++ rest) = .ok rest := by
  induction ls with
  | nil => rfl
  | cons l ls ih => simp [scanLetters, ih]

theorem digit_not_blank (d : Digit) : isBlank d.toChar = false := by
  revert d
  decide

theorem Numeral.chars_start {n : Numeral} (hn : Numeral.WellFormed n) :
    ∃ c cs, n.chars = c :: cs ∧ (isBlank c = false ∧ c ≠ ']') ∧
      (c = '-' ∨ (Digit.ofChar? c).isSome = true) := by
  obtain ⟨negative, whole, fraction, exponent⟩ := n
  obtain ⟨d, ds, rfl⟩ := List.exists_cons_of_ne_nil hn.whole_ne_nil
  cases negative with
  | true => exact ⟨'-', _, rfl, ⟨rfl, by decide⟩, Or.inl rfl⟩
  | false =>
    have hd : (Digit.ofChar? d.toChar).isSome = true := by
      rw [Digit.ofChar?_toChar]
      rfl
    exact ⟨d.toChar, _, rfl, ⟨digit_not_blank d, d.toChar_ne rfl⟩, Or.inr hd⟩

theorem readNumeral_chars {n : Numeral} (hn : Numeral.WellFormed n) {blanks : List Char}
    (hblanks : Blanks blanks) (h : Closes rest) :
    readNumeral (blanks ++ (n.chars ++ rest)) =
      match Numeral.value? n with
      | some x => .ok ((n, x), rest)
      | none => .error .malformed := by
  obtain ⟨c, cs, hchars, ⟨hblank, -⟩, hstart⟩ := Numeral.chars_start hn
  have hnumeral := scanNumeral_chars hn h
  rw [hchars, List.cons_append] at hnumeral
  rw [readNumeral, skipBlanks_append hblanks, hchars, List.cons_append, skipBlanks_cons hblank]
  cases hvalue : Numeral.value? n <;>
    simp only [if_pos hstart, scanNumber, hnumeral, bind, Except.bind, hvalue]

theorem readNumeral_null {blanks : List Char} (hblanks : Blanks blanks) :
    readNumeral (blanks ++ (nullChars ++ rest)) = .error .mismatch := by
  have hword : skipBlanks (nullChars ++ rest) = 'n' :: (['u', 'l', 'l'] ++ rest) :=
    skipBlanks_cons rfl _
  have hwrong : wrongStart ('n' :: (['u', 'l', 'l'] ++ rest)) = .mismatch := by
    simp only [wrongStart, if_true, scanLetters_append]
    rfl
  have hdigit : ¬('n' = '-' ∨ (Digit.ofChar? 'n').isSome = true) := by decide
  rw [readNumeral, skipBlanks_append hblanks, hword]
  simp only [if_neg hdigit, hwrong]

end

/-- Written as a number and read again, the double is the same. -/
def ReadsBack (x : Binary64) : Prop := Codec.number.read (Codec.number.write .compact x) = .ok x

instance (x : Binary64) : Decidable (ReadsBack x) :=
  inferInstanceAs (Decidable (Codec.number.read (Codec.number.write .compact x) = .ok x))

theorem numberChars_of_not_isFinite {x : Binary64} (h : Scalar.isFinite x = false) :
    numberChars x = nullChars := by
  rw [numberChars, Binary64.decimal?_eq_none_iff.2 h]

theorem numberChars_of_isFinite {x : Binary64} (h : Scalar.isFinite x = true) :
    ∃ n, numberChars x = Numeral.chars n ∧ Numeral.WellFormed n := by
  cases hd : x.decimal? numberFormat.tie with
  | none =>
    rw [Binary64.decimal?_eq_none_iff.1 hd] at h
    cases h
  | some d =>
    obtain ⟨negative, d⟩ := d
    exact ⟨numberFormat.numeral negative d, by rw [numberChars, hd],
      wellFormed_numeral (Binary64.decimal?_digits hd)⟩

theorem ReadsBack.value?_eq {x : Binary64} (hx : ReadsBack x) {n : Numeral}
    (hchars : numberChars x = n.chars) (hn : Numeral.WellFormed n) :
    Numeral.value? n = some x := by
  obtain ⟨v, hv, hvalue⟩ := Codec.read_eq_ok_iff.1 hx
  have htext : (Codec.number.write .compact x).toList = [] ++ (n.chars ++ []) := by
    rw [List.nil_append, List.append_nil, ← hchars]
    exact String.toList_ofList
  have hread : Codec.number.shape.reader (Codec.number.write .compact x).toList =
      (readNumeral ([] ++ (n.chars ++ []))).map fun r => (.number r.1.2, r.2) := by
    rw [htext]
    change readNumber _ = _
    rw [readNumber]
    cases readNumeral ([] ++ (n.chars ++ [])) <;> rfl
  have hblanks : Blanks [] := nofun
  have hnumeral := readNumeral_chars hn hblanks closes_nil
  rw [Shape.read] at hv
  cases hy : Numeral.value? n with
  | none =>
    rw [hread, hnumeral, hy] at hv
    cases hv
  | some y =>
    rw [hread, hnumeral, hy] at hv
    cases hv
    cases hvalue
    rfl

theorem readNumber_numberChars {x : Binary64} (hx : Scalar.isFinite x = true → ReadsBack x)
    {blanks rest : List Char} (hblanks : Blanks blanks) (h : Closes rest) :
    readNumber (blanks ++ (numberChars x ++ rest)) =
      if Scalar.isFinite x then .ok (.number x, rest) else .error .mismatch := by
  by_cases hfinite : Scalar.isFinite x = true
  · obtain ⟨n, hchars, hn⟩ := numberChars_of_isFinite hfinite
    have hvalue := (hx hfinite).value?_eq hchars hn
    rw [readNumber, hchars, readNumeral_chars hn hblanks h, hvalue, if_pos hfinite]
    rfl
  · have hnull := numberChars_of_not_isFinite (Bool.eq_false_of_not_eq_true hfinite)
    rw [readNumber, hnull, readNumeral_null hblanks, if_neg hfinite]
    rfl

theorem le_ofDigitsFrom (acc : Nat) (ds : List Digit) : acc ≤ Decimal.ofDigitsFrom acc ds := by
  induction ds generalizing acc with
  | nil => exact Nat.le_refl acc
  | cons d ds ih =>
    have htail : 10 * acc + d.val ≤ Decimal.ofDigitsFrom acc (d :: ds) := ih (10 * acc + d.val)
    omega

theorem absorb_eq {acc : Nat} {ds : List Digit}
    (h : Decimal.ofDigitsFrom acc ds < Text.countLimit) :
    absorb acc ds = (Decimal.ofDigitsFrom acc ds, []) := by
  induction ds generalizing acc with
  | nil => rfl
  | cons d ds ih =>
    have hstep : Decimal.ofDigitsFrom acc (d :: ds) =
        Decimal.ofDigitsFrom (acc * 10 + d.val) ds := by
      rw [Nat.mul_comm acc 10]
      rfl
    rw [hstep] at h ⊢
    rw [absorb, if_pos ((le_ofDigitsFrom _ ds).trans_lt h), ih h]

theorem absorb_digitsOf {n : Nat} (h : n < Text.countLimit) : absorb 0 (digitsOf n) = (n, []) := by
  have hn : Decimal.ofDigitsFrom 0 (digitsOf n) = n := Decimal.ofDigits_digitsOf n
  rw [absorb_eq (by rwa [hn]), hn]

theorem value?_digitsOf {n : Nat} (h : n < Text.countLimit) :
    (Numeral.value? ⟨false, digitsOf n, [], none⟩).isSome = true := by
  have hfinite : Scalar.isFinite (Binary64.ofNat n * powerOfTen 0) = true :=
    Binary64.isFinite_ofNat_mul_one h
  simp [Numeral.value?, absorb_digitsOf h, absorb, scaled?, hfinite]

theorem digitChars_digitsOf (n : Nat) :
    digitChars (digitsOf n) = Numeral.chars ⟨false, digitsOf n, [], none⟩ := by
  simp [Numeral.chars]

theorem readCount_digitChars {n : Nat} (hn : n < Text.countLimit) {blanks rest : List Char}
    (hblanks : Blanks blanks) (h : Closes rest) :
    readCount (blanks ++ (digitChars (digitsOf n) ++ rest)) = .ok (.count n, rest) := by
  obtain ⟨x, hx⟩ := Option.isSome_iff_exists.1 (value?_digitsOf hn)
  have hcount : Numeral.count? ⟨false, digitsOf n, [], none⟩ = some n := by
    simp [Numeral.count?, absorb_digitsOf hn]
  rw [readCount, digitChars_digitsOf, readNumeral_chars (wellFormed_ofDigits n) hblanks h, hx]
  simp only [bind, Except.bind, hcount]

end Json

end TransferCurves
