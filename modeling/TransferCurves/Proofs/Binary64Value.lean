import TransferCurves.Proofs.Binary64Nearest

/-!
# Values of doubles

A finite double stands for a rational. The result of an operation on finite doubles is finite as
long as the exact result does not overflow, and then stands for what that is rounded to. Comparing
finite doubles is comparing their values, and apart from the two zeros a value belongs to one double
only.
-/

namespace TransferCurves.Binary64

open scoped Scalar
open Float.Model (UnpackedFloat Format)
open Float.Model.UnpackedFloat

/-- The number that a double stands for; zero for one that is infinite or not a number. -/
def value (x : Binary64) : ℚ := decodedValue (decoded x)

/-- The double nearest to a rational: not finite if that overflows. -/
structure Nearest (x : Binary64) (q : ℚ) : Prop where
  finite_iff : Scalar.isFinite x = true ↔ |q| < overflow
  value_eq : Scalar.isFinite x = true → value x = rounded q

theorem inRange_iff {u : UnpackedFloat} (hu : Canonical u) :
    InRange u ↔ |decodedValue u| < 2 ^ 1024 := by
  cases u with
  | finite s m e hm =>
    obtain ⟨-, hfit, hfull⟩ := hu
    have hpos : (0 : ℚ) ≤ m * 2 ^ e := by positivity
    have hpow (k : ℕ) : (2 : ℚ) ^ k * 2 ^ (971 : ℤ) = 2 ^ (k + 971) := by
      rw [pow_add, zpow_ofNat]
    rw [decodedValue_finite, abs_signed s hpos]
    constructor
    · intro he
      calc (m * 2 ^ e : ℚ) < 2 ^ 53 * 2 ^ e :=
            mul_lt_mul_of_pos_right (by exact_mod_cast hfit) (two_zpow_pos e)
        _ ≤ 2 ^ 53 * 2 ^ (971 : ℤ) := mul_le_mul_of_nonneg_left (two_zpow_le.2 he) (by positivity)
        _ = 2 ^ 1024 := hpow 53
    · intro hlt
      by_contra he
      have he' : 972 ≤ e := by
        have hgt : 971 < e := not_le.1 he
        omega
      have hfull' : 2 ^ 52 ≤ m := hfull.resolve_right (by omega)
      refine hlt.not_ge ?_
      calc (2 : ℚ) ^ 1024 = 2 ^ 53 * 2 ^ (971 : ℤ) := (hpow 53).symm
        _ = 2 ^ 52 * 2 ^ (1 + 971 : ℤ) := by
            rw [two_zpow_add, zpow_one, ← mul_assoc, ← pow_succ]
        _ ≤ 2 ^ 52 * 2 ^ e := mul_le_mul_of_nonneg_left (two_zpow_le.2 he') (by positivity)
        _ ≤ m * 2 ^ e :=
            mul_le_mul_of_nonneg_right (by exact_mod_cast hfull') (two_zpow_pos e).le
  | _ =>
    refine iff_of_true trivial ?_
    rw [decodedValue, abs_zero]
    · exact pow_pos two_pos 1024
    · exact fun s m e hm => UnpackedFloat.noConfusion

theorem nearest_of_rounds {x : Binary64} {u : UnpackedFloat} {q : ℚ} (h : Rounds u q)
    (hx : decoded x = UnpackedFloat.unpack .binary64 (UnpackedFloat.pack .binary64 u)) :
    Nearest x q := by
  have hrange : InRange u ↔ |q| < overflow := by
    rw [inRange_iff h.canonical, h.value, abs_rounded_lt_iff]
  by_cases hin : InRange u
  · have hdecoded : decoded x = u := hx.trans (unpack_pack h.canonical hin)
    have hfinite : Scalar.isFinite x = true :=
      (congrArg UnpackedFloat.isFinite hdecoded).trans h.finite
    exact ⟨iff_of_true hfinite (hrange.1 hin),
      fun _ => (congrArg decodedValue hdecoded).trans h.value⟩
  · rcases finite_cases h.finite with ⟨s, rfl⟩ | ⟨s, m, e, hm, rfl⟩
    · exact absurd trivial hin
    · have hdecoded : decoded x = .infinity s := hx.trans (unpack_pack_large hm (not_le.1 hin))
      have hinfinite : Scalar.isFinite x ≠ true := by
        change (decoded x).isFinite ≠ true
        rw [hdecoded]
        exact Bool.false_ne_true
      exact ⟨iff_of_false hinfinite fun hlt => hin (hrange.2 hlt),
        fun hfinite => absurd hfinite hinfinite⟩

theorem unpack_add (a b : Float) :
    (a + b).toModel.unpack = UnpackedFloat.unpack .binary64 (UnpackedFloat.pack .binary64
      (.add .binary64 a.toModel.unpack b.toModel.unpack)) := rfl

theorem unpack_div (a b : Float) :
    (a / b).toModel.unpack = UnpackedFloat.unpack .binary64 (UnpackedFloat.pack .binary64
      (.div .binary64 a.toModel.unpack b.toModel.unpack)) := rfl

/-- The operation decodes its operands, and packs what another one makes of them. -/
def Performs (op : Float → Float → Float) (exact : UnpackedFloat → UnpackedFloat → UnpackedFloat) :
    Prop :=
  ∀ a b : Float, (op a b).toModel.unpack = UnpackedFloat.unpack .binary64
    (UnpackedFloat.pack .binary64 (exact a.toModel.unpack b.toModel.unpack))

theorem packed_number {u : UnpackedFloat} {q : ℚ} (h : Rounds u q) :
    (UnpackedFloat.unpack .binary64 (UnpackedFloat.pack .binary64 u)).isNaN = false := by
  by_cases hin : InRange u
  · rw [unpack_pack h.canonical hin]
    exact number_of_finite h.finite
  · rcases finite_cases h.finite with ⟨s, rfl⟩ | ⟨s, m, e, hm, rfl⟩
    · exact absurd trivial hin
    · rw [unpack_pack_large hm (not_le.1 hin)]
      rfl

section

variable {x y : Binary64} (hx : Scalar.isFinite x = true) (hy : Scalar.isFinite y = true)

include hx hy

variable {op : Float → Float → Float} {exact : UnpackedFloat → UnpackedFloat → UnpackedFloat}
  {q : ℚ} (hop : Performs op exact) (h : Rounds (exact (decoded x) (decoded y)) q)

include hop h

theorem decoded_arith : decoded (arith op x y) = UnpackedFloat.unpack .binary64
    (UnpackedFloat.pack .binary64 (exact (decoded x) (decoded y))) := by
  rw [arith_eq op (Scalar.Ordered.number_of_finite hx) (Scalar.Ordered.number_of_finite hy),
    decoded_ofFloat, hop]
  · rfl
  · change (op x.toFloat y.toFloat).toModel.unpack.isNaN = false
    rw [hop]
    exact packed_number h

theorem nearest_arith : Nearest (arith op x y) q :=
  nearest_of_rounds h (decoded_arith hx hy hop h)

omit hop h

theorem isNaN_sub : Scalar.isNaN (x - y) = false := by
  have h := rounds_sub (decoded_bounds x).1 (decoded_bounds y).1 hx hy
  exact (congrArg UnpackedFloat.isNaN (decoded_arith hx hy unpack_sub h)).trans (packed_number h)

theorem nearest_add : Nearest (x + y) (value x + value y) :=
  nearest_arith hx hy unpack_add (rounds_add (decoded_bounds x).1 (decoded_bounds y).1 hx hy)

theorem nearest_sub : Nearest (x - y) (value x - value y) :=
  nearest_arith hx hy unpack_sub (rounds_sub (decoded_bounds x).1 (decoded_bounds y).1 hx hy)

theorem nearest_mul : Nearest (x * y) (value x * value y) :=
  nearest_arith hx hy unpack_mul (rounds_mul (decoded_bounds x).1 (decoded_bounds y).1 hx hy)

theorem nearest_div (hzero : value y ≠ 0) : Nearest (x / y) (value x / value y) :=
  nearest_arith hx hy unpack_div (rounds_div (decoded_bounds x).1 hx hy hzero)

end

section

variable {u v : UnpackedFloat}

theorem decodedValue_lt (hu : Canonical u) (hv : Canonical v) (hu' : u.isFinite = true)
    (hv' : v.isFinite = true) (h : place u < place v) : decodedValue u < decodedValue v := by
  rcases finite_cases hu' with ⟨s, rfl⟩ | ⟨s, m, e, hm, rfl⟩ <;>
    rcases finite_cases hv' with ⟨s', rfl⟩ | ⟨s', m', e', hm', rfl⟩
  · exact absurd h (lt_irrefl _)
  · cases s' with
    | negative => exact absurd h (lt_of_class (by decide)).not_gt
    | positive => exact mul_pos (Nat.cast_pos.2 hm') (two_zpow_pos e')
  · cases s with
    | negative => exact neg_neg_of_pos (mul_pos (Nat.cast_pos.2 hm) (two_zpow_pos e))
    | positive => exact absurd h (lt_of_class (by decide)).not_gt
  · rw [decodedValue_eq_scaled hm (min_le_right e' e),
      decodedValue_eq_scaled hm' (min_le_left e' e)]
    exact mul_lt_mul_of_pos_right (by exact_mod_cast sub_finite_pos hv hu h) (two_zpow_pos _)

theorem class_eq {a b : ℤ} {p q : ℤ ×ₗ ℤ} (h : toLex (a, p) = toLex (b, q)) : a = b :=
  congrArg Prod.fst (toLex_inj.1 h)

theorem eq_of_place_eq (hu' : u.isFinite = true) (hv' : v.isFinite = true) (h : place u = place v) :
    u = v ∨ ∃ s s', u = .zero s ∧ v = .zero s' := by
  rcases finite_cases hu' with ⟨s, rfl⟩ | ⟨s, m, e, hm, rfl⟩ <;>
    rcases finite_cases hv' with ⟨s', rfl⟩ | ⟨s', m', e', hm', rfl⟩
  · exact Or.inr ⟨s, s', rfl, rfl⟩
  · cases s' <;> exact absurd (class_eq h) (by decide)
  · cases s <;> exact absurd (class_eq h) (by decide)
  · refine Or.inl ?_
    cases s <;> cases s' <;>
      first
      | exact absurd (class_eq h) (by decide)
      | simp only [place, toLex_inj, Prod.mk.injEq, true_and] at h
        obtain ⟨he, hm⟩ := h
        obtain rfl : e = e' := by omega
        obtain rfl : m = m' := by omega
        rfl

end

section

variable {x y : Binary64} (hx : Scalar.isFinite x = true) (hy : Scalar.isFinite y = true)

include hx hy

theorem value_le_of_place_le (h : place (decoded x) ≤ place (decoded y)) : value x ≤ value y := by
  rcases h.lt_or_eq with hlt | heq
  · exact (decodedValue_lt (decoded_bounds x).1 (decoded_bounds y).1 hx hy hlt).le
  · rcases eq_of_place_eq (u := decoded x) (v := decoded y) hx hy heq with hsame | ⟨s, s', hs, hs'⟩
    · rw [value, value, hsame]
    · rw [value, value, hs, hs', decodedValue_zero, decodedValue_zero]

theorem lt_iff_value_lt : x < y ↔ value x < value y := by
  rw [lt_iff]
  constructor
  · rintro ⟨-, -, hlt⟩
    exact decodedValue_lt (decoded_bounds x).1 (decoded_bounds y).1 hx hy hlt
  · intro hlt
    refine ⟨Scalar.Ordered.number_of_finite hx, Scalar.Ordered.number_of_finite hy, ?_⟩
    exact lt_of_not_ge fun hle => hlt.not_ge (value_le_of_place_le hy hx hle)

theorem value_le_of_le (h : x ≤ y) : value x ≤ value y :=
  value_le_of_place_le hx hy (le_iff.1 h).2.2

theorem place_eq_of_value_eq (h : value x = value y) : place (decoded x) = place (decoded y) := by
  rcases lt_trichotomy (place (decoded x)) (place (decoded y)) with hlt | heq | hgt
  · have hvalue := decodedValue_lt (decoded_bounds x).1 (decoded_bounds y).1 hx hy hlt
    exact absurd h hvalue.ne
  · exact heq
  · have hvalue := decodedValue_lt (decoded_bounds y).1 (decoded_bounds x).1 hy hx hgt
    exact absurd h hvalue.ne'

end

section

variable {x y : Binary64}

theorem eq_of_decoded_eq (hx : Scalar.isNaN x = false) (h : decoded x = decoded y) : x = y := by
  have hpacked (z : Binary64) (hz : (decoded z).isNaN = false) :
      UnpackedFloat.pack .binary64 (decoded z) = z.bits.toBitVec := by
    rw [decoded_eq_unpack] at hz ⊢
    exact pack_unpack hz
  have hbits : x.bits.toBitVec = y.bits.toBitVec := by
    rw [← hpacked x hx, ← hpacked y (h ▸ hx), h]
  obtain ⟨⟨bits⟩⟩ := x
  obtain ⟨⟨bits'⟩⟩ := y
  exact congrArg (fun b => Binary64.mk (UInt64.ofBitVec b)) hbits

theorem decoded_of_value_pos (hx : Scalar.isFinite x = true) (h : 0 < value x) :
    ∃ m e hm, decoded x = .finite .positive m e hm := by
  rcases finite_cases (u := decoded x) hx with ⟨s, hs⟩ | ⟨s, m, e, hm, hs⟩
  · exact absurd h (congrArg decodedValue hs).not_gt
  cases s with
  | negative =>
    have hneg : value x = -(m * 2 ^ e) := congrArg decodedValue hs
    have hpos : (0 : ℚ) < m * 2 ^ e := mul_pos (Nat.cast_pos.2 hm) (two_zpow_pos e)
    linarith
  | positive => exact ⟨m, e, hm, hs⟩

theorem eq_of_value_eq (hx : Scalar.isFinite x = true) (hy : Scalar.isFinite y = true)
    (h : value x = value y) (hzero : value x ≠ 0) : x = y := by
  have hplace := place_eq_of_value_eq hx hy h
  rcases eq_of_place_eq (u := decoded x) (v := decoded y) hx hy hplace with hsame | ⟨s, -, hs, -⟩
  · exact eq_of_decoded_eq (Scalar.Ordered.number_of_finite hx) hsame
  · exact absurd (congrArg decodedValue hs) hzero

end

theorem natCast_lt_overflow {n : ℕ} (h : n ≤ 2 ^ 53) : |(n : ℚ)| < overflow := by
  have hpow : (2 : ℚ) ^ 53 < 2 ^ 1023 := pow_lt_pow_right₀ one_lt_two (by norm_num)
  rw [abs_of_nonneg n.cast_nonneg]
  exact ((Nat.cast_le.2 h).trans_lt (by exact_mod_cast hpow)).trans two_pow_1023_lt_overflow

theorem Rounds.packed {u : UnpackedFloat} {q : ℚ} (h : Rounds u q) (hq : |q| < overflow) :
    UnpackedFloat.unpack .binary64 (UnpackedFloat.pack .binary64 u) = u :=
  unpack_pack h.canonical ((inRange_iff h.canonical).2 (by rwa [h.value, abs_rounded_lt_iff]))

theorem decodedValue_unit : decodedValue unit = 1 := by
  rw [unit, decodedValue_finite, signed]
  norm_num

theorem decodedValue_toFloat {n : ℕ} (h : n < 2 ^ 53) :
    (Float.ofNat n).toModel.unpack.isFinite = true ∧
      decodedValue (Float.ofNat n).toModel.unpack = n := by
  have hover := natCast_lt_overflow h.le
  have hrounds : Rounds (UnpackedFloat.ofNat .binary64 n) n := by
    have hnormalize := rounds_normalize n 0 .positive
    rwa [zpow_zero, mul_one, Int.cast_natCast] at hnormalize
  have hproduct : Rounds (.mul .binary64 (UnpackedFloat.ofNat .binary64 n) unit) n := by
    have hmul := rounds_mul (v := unit) hrounds.canonical ⟨by decide, by decide, by decide⟩
      hrounds.finite rfl
    rwa [hrounds.value, rounded_natCast h.le, decodedValue_unit, mul_one] at hmul
  rw [unpack_ofNat_small h, hrounds.packed hover, hproduct.packed hover]
  exact ⟨hproduct.finite, hproduct.value.trans (rounded_natCast h.le)⟩

theorem natCast_values {n : ℕ} (h : n ≤ 2 ^ 53) :
    Scalar.isFinite (n : Binary64) = true ∧ value (n : Binary64) = n := by
  rcases h.lt_or_eq with hlt | rfl
  · obtain ⟨hfinite, hvalue⟩ := decodedValue_toFloat hlt
    have hdecoded : decoded (n : Binary64) = (Float.ofNat n).toModel.unpack :=
      decoded_ofFloat (number_of_finite hfinite)
    refine ⟨(congrArg UnpackedFloat.isFinite hdecoded).trans hfinite, ?_⟩
    rw [value, hdecoded, hvalue]
  · have hdecoded : decoded ((2 ^ 53 : ℕ) : Binary64) =
        .finite .positive (2 ^ 52) 1 (by decide) := rfl
    refine ⟨congrArg UnpackedFloat.isFinite hdecoded, ?_⟩
    rw [value, hdecoded, decodedValue_finite, signed]
    norm_num

section

variable {a b n : ℕ}

theorem isFinite_natCast (h : n ≤ 2 ^ 53) : Scalar.isFinite (n : Binary64) = true :=
  (natCast_values h).1

theorem value_natCast (h : n ≤ 2 ^ 53) : value (n : Binary64) = n := (natCast_values h).2

theorem value_one : value 1 = 1 := (value_natCast (n := 1) (by norm_num)).trans Nat.cast_one

theorem natCast_min (ha : a ≤ 2 ^ 53) (hb : b ≤ 2 ^ 53) :
    Scalar.min (a : Binary64) (b : Binary64) = ((min a b : ℕ) : Binary64) := by
  have hnumber : Scalar.isNaN (a : Binary64) = false :=
    Scalar.Ordered.number_of_finite (isFinite_natCast ha)
  have hlt : (b : Binary64) < (a : Binary64) ↔ b < a := by
    rw [lt_iff_value_lt (isFinite_natCast hb) (isFinite_natCast ha), value_natCast ha,
      value_natCast hb, Nat.cast_lt]
  rw [Scalar.min, hnumber, if_neg Bool.false_ne_true]
  rcases Nat.lt_or_ge b a with h | h
  · rw [if_pos (hlt.2 h), min_eq_right h.le]
  · rw [if_neg fun h' => h.not_gt (hlt.1 h'), min_eq_left h]

theorem natCast_sub_one (hn : 1 ≤ n) (h : n ≤ 2 ^ 53) :
    (n : Binary64) - 1 = ((n - 1 : ℕ) : Binary64) := by
  rcases hn.eq_or_lt with rfl | hgt
  · rfl
  have hle : n - 1 ≤ 2 ^ 53 := (Nat.sub_le n 1).trans h
  have hnearest : Nearest ((n : Binary64) - 1) ((n - 1 : ℕ) : ℚ) := by
    have hsub := nearest_sub (isFinite_natCast h) (y := 1) rfl
    rwa [value_natCast h, value_one, ← Nat.cast_one, ← Nat.cast_sub hn] at hsub
  have hfinite := hnearest.finite_iff.2 (natCast_lt_overflow hle)
  have hvalue := (hnearest.value_eq hfinite).trans (rounded_natCast hle)
  refine eq_of_value_eq hfinite (isFinite_natCast hle) (hvalue.trans (value_natCast hle).symm) ?_
  rw [hvalue]
  exact Nat.cast_ne_zero.2 (by omega)

theorem decoded_natCast (hn : 0 < n) (h : n ≤ 2 ^ 53) :
    ∃ m e hm, decoded (n : Binary64) = .finite .positive m e hm := by
  refine decoded_of_value_pos (isFinite_natCast h) ?_
  rw [value_natCast h]
  exact Nat.cast_pos.2 hn

theorem decoded_zero : decoded (0 : Binary64) = .zero .positive := rfl

theorem isFinite_zero : Scalar.isFinite (0 : Binary64) = true := rfl

theorem isFinite_one : Scalar.isFinite (1 : Binary64) = true := rfl

theorem eq_zero_of_decoded {x : Binary64} (h : decoded x = .zero .positive) : x = 0 :=
  eq_of_decoded_eq (congrArg UnpackedFloat.isNaN h) h

theorem arith_eq_zero {x y : Binary64} {op : Float → Float → Float}
    {exact : UnpackedFloat → UnpackedFloat → UnpackedFloat} (hop : Performs op exact)
    (hx : Scalar.isFinite x = true) (hy : Scalar.isFinite y = true)
    (h : exact (decoded x) (decoded y) = .zero .positive) : arith op x y = 0 := by
  have hdecoded := decoded_arith hx hy hop (h ▸ rounds_zero .positive)
  rw [h] at hdecoded
  exact eq_zero_of_decoded hdecoded

theorem zero_div_natCast (hn : 0 < n) (h : n ≤ 2 ^ 53) : (0 : Binary64) / (n : Binary64) = 0 := by
  obtain ⟨m, e, hm, hs⟩ := decoded_natCast hn h
  refine arith_eq_zero unpack_div isFinite_zero (isFinite_natCast h) ?_
  rw [decoded_zero, hs]
  rfl

theorem zero_mul_natCast (hn : 0 < n) (h : n ≤ 2 ^ 53) : (0 : Binary64) * (n : Binary64) = 0 := by
  obtain ⟨m, e, hm, hs⟩ := decoded_natCast hn h
  refine arith_eq_zero unpack_mul isFinite_zero (isFinite_natCast h) ?_
  rw [decoded_zero, hs]
  rfl

end

theorem floor_wholePart (m : ℕ) (e : ℤ) : ⌊(m * 2 ^ e : ℚ)⌋₊ = wholePart m e := by
  rcases le_or_gt 0 e with he | he
  · obtain ⟨k, rfl⟩ := Int.eq_ofNat_of_zero_le he
    rw [wholePart, if_pos he, Int.toNat_natCast, Nat.shiftLeft_eq, zpow_natCast]
    exact_mod_cast Nat.floor_natCast (R := ℚ) (m * 2 ^ k)
  · obtain ⟨k, hk⟩ := Int.eq_ofNat_of_zero_le (neg_nonneg.2 he.le)
    obtain rfl : e = -k := by omega
    rw [wholePart, if_neg he.not_ge, neg_neg, Int.toNat_natCast, Nat.shiftRight_eq_div_pow,
      zpow_neg, zpow_natCast, ← div_eq_mul_inv]
    exact_mod_cast Nat.floor_div_eq_div (K := ℚ) m (2 ^ k)

theorem wholePart_add_fraction (m : ℕ) (e : ℤ) :
    (m * 2 ^ e : ℚ) = wholePart m e + fractionPart m e * 2 ^ e := by
  rcases le_or_gt 0 e with he | he
  · obtain ⟨k, rfl⟩ := Int.eq_ofNat_of_zero_le he
    rw [wholePart, fractionPart, if_pos he, if_pos he, Int.toNat_natCast, Nat.shiftLeft_eq,
      zpow_natCast]
    push_cast
    rw [zero_mul, add_zero]
  · obtain ⟨k, hk⟩ := Int.eq_ofNat_of_zero_le (neg_nonneg.2 he.le)
    obtain rfl : e = -k := by omega
    have hpow : (2 : ℚ) ^ k ≠ 0 := by positivity
    have hsplit : (m : ℚ) = (m / 2 ^ k : ℕ) * 2 ^ k + (m % 2 ^ k : ℕ) := by
      exact_mod_cast (Nat.div_add_mod' m (2 ^ k)).symm
    rw [wholePart, fractionPart, if_neg he.not_ge, if_neg he.not_ge, neg_neg, Int.toNat_natCast,
      Nat.shiftRight_eq_div_pow, zpow_neg, zpow_natCast, ← div_eq_mul_inv, ← div_eq_mul_inv,
      div_eq_iff hpow, add_mul, div_mul_cancel₀ _ hpow]
    exact hsplit

theorem fractionPart_eq_zero (m : ℕ) (e : ℤ) (h : fractionPart m e = 0) :
    (m * 2 ^ e : ℚ) = wholePart m e := by
  rw [wholePart_add_fraction, h, Nat.cast_zero, zero_mul, add_zero]

theorem wholePart_lt {m : ℕ} {e : ℤ} (h : fractionPart m e ≠ 0) :
    (wholePart m e : ℚ) < m * 2 ^ e := by
  rw [wholePart_add_fraction]
  exact lt_add_of_pos_right _ (mul_pos (Nat.cast_pos.2 (Nat.pos_of_ne_zero h)) (two_zpow_pos e))

/-- Below `2 ^ 53` the whole part of a positive double is a double. -/
theorem floor_eq {x : Binary64} (hx : Scalar.isFinite x = true) (hpos : 0 < value x)
    (hlarge : value x ≤ 2 ^ 53) : Scalar.floor x = (⌊value x⌋₊ : Binary64) := by
  have hle : ⌊value x⌋₊ ≤ 2 ^ 53 := Nat.floor_le_of_le (by exact_mod_cast hlarge)
  obtain ⟨m, e, hm, hs⟩ := decoded_of_value_pos hx hpos
  have hvalue : value x = m * 2 ^ e := congrArg decodedValue hs
  have hfloor : Scalar.floor x = if fractionPart m e = 0 then x else ofNat (wholePart m e) := by
    change floor x = _
    rw [floor, ← decoded_eq_unpack, hs]
  rw [hvalue, floor_wholePart] at hle ⊢
  rw [hfloor]
  split_ifs with hwhole
  · refine eq_of_value_eq hx (isFinite_natCast hle) ?_ hpos.ne'
    rw [hvalue, value_natCast hle, fractionPart_eq_zero m e hwhole]
  · rfl

theorem nearest_of_isNaN {x : Binary64} (h : Scalar.isNaN x = true) : Scalar.nearest x = 0 := by
  change (decoded x).isNaN = true at h
  change nearest x = 0
  rw [nearest, toCount, ← decoded_eq_unpack]
  generalize decoded x = u at *
  cases u with
  | notANumber => rfl
  | infinity s => exact absurd h Bool.false_ne_true
  | zero s => rfl
  | finite s m e hm => exact absurd h Bool.false_ne_true

theorem nearest_le {x : Binary64} {n : ℕ} (hx : Scalar.isFinite x = true) (h : value x ≤ n) :
    Scalar.nearest x ≤ n := by
  change (decoded x).isFinite = true at hx
  change decodedValue (decoded x) ≤ n at h
  change nearest x ≤ n
  rw [nearest, toCount, ← decoded_eq_unpack]
  generalize decoded x = u at *
  rcases finite_cases hx with ⟨s, rfl⟩ | ⟨_ | _, m, e, hm, rfl⟩
  · exact Nat.zero_le n
  · exact Nat.zero_le n
  · rw [decodedValue_finite, signed] at h
    refine (min_le_left _ _).trans ?_
    split_ifs with hhalf
    · have hfraction : fractionPart m e ≠ 0 := by
        intro hzero
        have hbelow : compareHalf m e = .lt := by
          rw [compareHalf, hzero]
          exact compare_lt_iff_lt.2 (Nat.two_pow_pos _)
        rw [hbelow] at hhalf
        exact Bool.false_ne_true hhalf
      have hwhole : wholePart m e < n := by exact_mod_cast (wholePart_lt hfraction).trans_le h
      exact hwhole
    · rw [← floor_wholePart]
      exact Nat.floor_le_of_le h

theorem place_unit_le_ofNat {n : ℕ} (h : 2 ^ 53 ≤ n) :
    (Float.ofNat n).toModel.unpack.isNaN = false ∧
      place unit ≤ place (Float.ofNat n).toModel.unpack := by
  have hpos : 0 < n := (Nat.two_pow_pos 53).trans_le h
  have hlog : 53 ≤ n.log2 := (Nat.le_log2 hpos.ne').2 h
  have hwide := log2_mul_two_pow hpos 53
  obtain ⟨m, e, hm, hround, hcanonical, hlow, -⟩ := roundWithAccuracy_of_wide (s := .positive)
    (e := -53) (Nat.mul_pos hpos (Nat.two_pow_pos 53)) (by omega) (by omega)
  rw [unpack_ofNat_large h, hround]
  rcases le_or_gt e 971 with he | he
  · rw [unpack_pack hcanonical he]
    have hmagnitude : toLex ((-52 : ℤ), ((2 ^ 52 : ℕ) : ℤ)) < toLex (e, (m : ℤ)) :=
      Prod.Lex.toLex_lt_toLex.2 (Or.inl (by omega))
    exact ⟨rfl, le_of_lt (compares_class (o := .lt) (a := 1) hmagnitude)⟩
  · rw [unpack_pack_large hm he]
    exact ⟨rfl, (lt_of_class (by decide)).le⟩

/-- A natural number that is not zero is at least one as a double too, also where it has to be
rounded or overflows. -/
theorem one_le_natCast {n : ℕ} (hn : 1 ≤ n) : (1 : Binary64) ≤ (n : Binary64) := by
  rcases Nat.lt_or_ge n (2 ^ 53) with hsmall | hlarge
  · have hfinite := isFinite_natCast hsmall.le
    refine Scalar.le_of_not_lt (Scalar.Ordered.number_of_finite hfinite) rfl fun hlt => ?_
    rw [lt_iff_value_lt hfinite isFinite_one, value_natCast hsmall.le, value_one] at hlt
    exact (Nat.one_le_cast.2 hn).not_gt hlt
  · obtain ⟨hnumber, hplace⟩ := place_unit_le_ofNat hlarge
    have hdecoded : decoded (n : Binary64) = (Float.ofNat n).toModel.unpack :=
      decoded_ofFloat hnumber
    refine le_iff.2 ⟨rfl, (congrArg UnpackedFloat.isNaN hdecoded).trans hnumber, ?_⟩
    rw [hdecoded]
    exact hplace

end TransferCurves.Binary64
