import TransferCurves.Proofs.Binary64Difference
import TransferCurves.Proofs.Binary64Whole
import TransferCurves.Proofs.NearestDouble

/-!
# Operations round to the nearest

Each of the four operations computes a mantissa with a round bit and a sticky bit, which say where
the exact result lies between two whole numbers. Shifting keeps what they say, so the mantissa that
is rounded at the end is the number of grid steps nearest to the exact result. What comes out is its
`rounded` value in canonical form, before it is looked at whether it is too large.
-/

namespace TransferCurves.Binary64

open Float.Model (UnpackedFloat Format)
open Float.Model.UnpackedFloat

/-- The magnitude lies above the mantissa by half of what the round bit counts and a rest `f`, and
the sticky bit tells whether there is a rest. -/
def Describes (em : ExtendedMantissa) (x : ℚ) : Prop :=
  ∃ f : ℚ, 0 ≤ f ∧ f < 1 ∧ 2 * x = 2 * em.mantissa + em.roundBit.toNat + f ∧
    (em.stickyBit = true ↔ f ≠ 0)

namespace Describes

variable {em : ExtendedMantissa} {x : ℚ}

theorem roundedMantissa (h : Describes em x) : em.roundedMantissa = nearestEvenNat x := by
  obtain ⟨m, r, s⟩ := em
  obtain ⟨f, hf, hf', hx, hs⟩ := h
  cases r with
  | false =>
    have hsplit : x = m + f / 2 := by
      simp only [Bool.toNat_false, Nat.cast_zero] at hx
      linarith
    rw [hsplit, nearestEvenNat_add m (by linarith) (by linarith), if_pos (Or.inl (by linarith))]
    cases s <;> rfl
  | true =>
    have hsplit : x = m + (1 + f) / 2 := by
      simp only [Bool.toNat_true, Nat.cast_one] at hx
      linarith
    rw [hsplit, nearestEvenNat_add m (by linarith) (by linarith)]
    cases s with
    | false =>
      obtain rfl : f = 0 := by simpa using hs
      change m + m % 2 = _
      split_ifs with hlow
      · rcases hlow with hlt | ⟨-, heven⟩
        · norm_num at hlt
        · omega
      · have hodd : ¬m % 2 = 0 := fun heven => hlow (Or.inr ⟨by norm_num, heven⟩)
        omega
    | true =>
      have hpos : 0 < f := hf.lt_of_ne (hs.1 rfl).symm
      have hhigh : ¬((1 + f) / 2 < 1 / 2 ∨ (1 + f) / 2 = 1 / 2 ∧ m % 2 = 0) := by
        rintro (hlt | ⟨heq, -⟩) <;> linarith
      rw [if_neg hhigh]
      rfl

theorem half (h : Describes em x) : Describes em.shiftRightOne (x / 2) := by
  obtain ⟨m, r, s⟩ := em
  obtain ⟨f, hf, hf', hx, hs⟩ := h
  have hsplit : (m : ℚ) = 2 * (m / 2 : ℕ) + (m % 2 : ℕ) := by
    exact_mod_cast (Nat.div_add_mod m 2).symm
  have hbit : (((m % 2 != 0) : Bool).toNat : ℚ) = (m % 2 : ℕ) := by
    rcases Nat.mod_two_eq_zero_or_one m with h0 | h1
    · rw [h0]
      rfl
    · rw [h1]
      rfl
  have hr : (r.toNat : ℚ) = 0 ∧ r = false ∨ (r.toNat : ℚ) = 1 ∧ r = true := by cases r <;> simp
  refine ⟨(r.toNat + f) / 2, ?_, ?_, ?_, ?_⟩
  · positivity
  · rcases hr with ⟨h0, -⟩ | ⟨h1, -⟩ <;> linarith
  · simp only [ExtendedMantissa.shiftRightOne, hbit]
    simp only at hx
    linarith
  · simp only [ExtendedMantissa.shiftRightOne, Bool.or_eq_true]
    rcases hr with ⟨h0, rfl⟩ | ⟨h1, rfl⟩
    · simp [hs]
    · refine iff_of_true (Or.inl rfl) ?_
      rw [h1]
      linarith

theorem shift (h : Describes em x) (k : ℕ) : Describes (em >>> k) (x / 2 ^ k) := by
  induction k with
  | zero =>
    rw [pow_zero, div_one]
    exact h
  | succ k ih =>
    rw [pow_succ, ← div_div]
    exact ih.half

theorem exact (m : ℕ) : Describes (.ofMantissaAndAccuracy m .exact) m :=
  ⟨0, le_rfl, one_pos, by simp [ExtendedMantissa.ofMantissaAndAccuracy],
    by simp [ExtendedMantissa.ofMantissaAndAccuracy]⟩

theorem quotient (a : ℕ) {b : ℕ} (hb : 0 < b) :
    Describes (.ofMantissaAndAccuracy (a / b) (accuracyOfFraction (a % b) b)) (a / b : ℚ) := by
  have hb' : (0 : ℚ) < b := by exact_mod_cast hb
  have hrest : (0 : ℚ) ≤ ((a % b : ℕ) : ℚ) / b := by positivity
  have hbelow : ((a % b : ℕ) : ℚ) / b < 1 := by
    rw [div_lt_one hb']
    exact_mod_cast Nat.mod_lt a hb
  have hsplit : (a : ℚ) / b = (a / b : ℕ) + ((a % b : ℕ) : ℚ) / b := by
    rw [div_eq_iff hb'.ne', add_mul, div_mul_cancel₀ _ hb'.ne', mul_comm]
    exact_mod_cast (Nat.div_add_mod a b).symm
  have hdouble : 2 * (((a % b : ℕ) : ℚ) / b) = (2 * (a % b) : ℕ) / b := by
    push_cast
    ring
  rw [hsplit, accuracyOfFraction]
  split_ifs with hzero
  · rw [hzero, Nat.cast_zero, zero_div, add_zero]
    exact exact _
  · have hpos : ((a % b : ℕ) : ℚ) / b ≠ 0 := by
      rw [div_ne_zero_iff]
      exact ⟨by exact_mod_cast hzero, hb'.ne'⟩
    rcases lt_trichotomy (2 * (a % b)) b with hlt | heq | hgt
    · have hlt' : ((2 * (a % b) : ℕ) : ℚ) / b < 1 := by
        rw [div_lt_one hb']
        exact_mod_cast hlt
      rw [compare_lt_iff_lt.2 hlt]
      refine ⟨2 * (((a % b : ℕ) : ℚ) / b), by linarith, by linarith, ?_, ?_⟩
      · simp only [ExtendedMantissa.ofMantissaAndAccuracy, Bool.toNat_false, Nat.cast_zero]
        ring
      · exact iff_of_true rfl (mul_ne_zero two_ne_zero hpos)
    · have heq' : ((2 * (a % b) : ℕ) : ℚ) / b = 1 := by rw [heq, div_self hb'.ne']
      rw [compare_eq_iff_eq.2 heq]
      refine ⟨0, le_rfl, one_pos, ?_, ?_⟩
      · simp only [ExtendedMantissa.ofMantissaAndAccuracy, Bool.toNat_true, Nat.cast_one]
        linarith
      · exact iff_of_false Bool.false_ne_true (not_not.2 rfl)
    · have hgt' : 1 < ((2 * (a % b) : ℕ) : ℚ) / b := by
        rw [one_lt_div hb']
        exact_mod_cast hgt
      rw [compare_gt_iff_gt.2 hgt]
      refine ⟨2 * (((a % b : ℕ) : ℚ) / b) - 1, by linarith, by linarith, ?_, ?_⟩
      · simp only [ExtendedMantissa.ofMantissaAndAccuracy, Bool.toNat_true, Nat.cast_one]
        ring
      · exact iff_of_true rfl (by linarith)

end Describes

def signed : Sign → ℚ → ℚ
  | .negative, q => -q
  | .positive, q => q

/-- The number that a decoded double stands for; zero for what is infinite or not a number. -/
def decodedValue : UnpackedFloat → ℚ
  | .finite s m e _ => signed s (m * 2 ^ e)
  | _ => 0

@[simp] theorem decodedValue_zero (s : Sign) : decodedValue (.zero s) = 0 := rfl

@[simp] theorem decodedValue_finite (s : Sign) {m : ℕ} (e : ℤ) (hm : 0 < m) :
    decodedValue (.finite s m e hm) = signed s (m * 2 ^ e) := rfl

theorem abs_signed (s : Sign) {q : ℚ} (h : 0 ≤ q) : |signed s q| = q := by
  cases s with
  | negative => exact (abs_neg q).trans (abs_of_nonneg h)
  | positive => exact abs_of_nonneg h

theorem rounded_signed (s : Sign) (q : ℚ) : rounded (signed s q) = signed s (rounded q) := by
  cases s with
  | negative => exact rounded_neg q
  | positive => rfl

theorem signed_mul_signed (s t : Sign) (q r : ℚ) :
    signed s q * signed t r = signed (s * t) (q * r) := by
  cases s <;> cases t
  · exact neg_mul_neg q r
  · exact neg_mul q r
  · exact mul_neg q r
  · rfl

theorem signed_div_signed (s t : Sign) (q r : ℚ) :
    signed s q / signed t r = signed (s / t) (q / r) := by
  cases s <;> cases t
  · exact neg_div_neg_eq q r
  · exact neg_div r q
  · exact div_neg q
  · rfl

theorem cast_apply (s : Sign) (n : ℕ) : ((s.apply n : ℤ) : ℚ) = signed s n := by
  cases s with
  | negative => exact Int.cast_neg _
  | positive => rfl

/-- The decoded double is what a rational is rounded to, though it may be too large to be packed. -/
structure Rounds (u : UnpackedFloat) (q : ℚ) : Prop where
  canonical : Canonical u
  finite : u.isFinite = true
  value : decodedValue u = rounded q

theorem rounds_zero (s : Sign) : Rounds (.zero s) 0 := ⟨trivial, rfl, rounded_zero.symm⟩

theorem rounds_self {u : UnpackedFloat} (hu : Canonical u) (hfinite : u.isFinite = true) :
    Rounds u (decodedValue u) := by
  refine ⟨hu, hfinite, ?_⟩
  cases u with
  | finite s m e hm =>
    rw [decodedValue, rounded_signed, rounded_of_nonneg (by positivity),
      roundedMagnitude_of_fits hu.2.1 hu.1]
  | _ => exact rounded_zero.symm

section

variable {s : Sign} {m : ℕ} {e : ℤ}

theorem log_mul_two_zpow {y : ℚ} (hm : 0 < m) (hlow : m * 2 ^ e ≤ y) (hhigh : y < (m + 1) * 2 ^ e) :
    Int.log 2 y = m.log2 + e := by
  obtain ⟨hbelow, habove⟩ := (Nat.log2_eq_iff hm.ne').1 rfl
  have hpos : 0 < y := (mul_pos (Nat.cast_pos.2 hm) (two_zpow_pos e)).trans_le hlow
  have hstep := (two_zpow_pos e).le
  refine le_antisymm (Int.lt_add_one_iff.1 (log_lt_of_lt hpos ?_)) (le_log_of_le ?_)
  · calc y < (m + 1) * 2 ^ e := hhigh
      _ ≤ (2 ^ (m.log2 + 1) : ℕ) * 2 ^ e :=
          mul_le_mul_of_nonneg_right (by exact_mod_cast habove) hstep
      _ = 2 ^ ((m.log2 : ℤ) + e + 1) := by
          rw [Nat.cast_pow, Nat.cast_ofNat, ← zpow_natCast, ← two_zpow_add]
          congr 1
          push_cast
          ring
  · calc (2 : ℚ) ^ ((m.log2 : ℤ) + e) = (2 ^ m.log2 : ℕ) * 2 ^ e := by
          rw [Nat.cast_pow, Nat.cast_ofNat, ← zpow_natCast, ← two_zpow_add]
      _ ≤ m * 2 ^ e := mul_le_mul_of_nonneg_right (by exact_mod_cast hbelow) hstep
      _ ≤ y := hlow

/-- The exponent to which a mantissa is shifted is that of the grid around what it describes, if
there are bits enough: a full mantissa, or all down to the least double. -/
theorem targetExponent_eq_gridExponent {acc : Accuracy} {y : ℚ} (hy : 0 < y)
    (h : Describes (.ofMantissaAndAccuracy m acc) (y / 2 ^ e)) (hbits : 52 ≤ m.log2 ∨ e ≤ -1074) :
    Format.binary64.targetExponent (Float.Model.totalExponent m e) = gridExponent y := by
  have hmantissa : (ExtendedMantissa.ofMantissaAndAccuracy m acc).mantissa = m := by
    rcases acc with _ | (_ | _ | _) <;> rfl
  obtain ⟨f, hf, hf', hx, -⟩ := h
  rw [hmantissa] at hx
  have hround : ((ExtendedMantissa.ofMantissaAndAccuracy m acc).roundBit.toNat : ℚ) ≤ 1 := by
    exact_mod_cast Bool.toNat_le _
  have hround' : (0 : ℚ) ≤ (ExtendedMantissa.ofMantissaAndAccuracy m acc).roundBit.toNat :=
    Nat.cast_nonneg _
  have hlow : m * 2 ^ e ≤ y := (le_div_iff₀ (two_zpow_pos e)).1 (by linarith)
  have hhigh : y < (m + 1) * 2 ^ e := (div_lt_iff₀ (two_zpow_pos e)).1 (by linarith)
  rw [targetExponent_eq, gridExponent]
  rcases Nat.eq_zero_or_pos m with rfl | hm
  · rw [Nat.cast_zero, zero_add, one_mul] at hhigh
    have hlog := log_lt_of_lt hy hhigh
    have hzero : Nat.log2 0 = 0 := Nat.log2_zero
    omega
  · rw [log_mul_two_zpow hm hlow hhigh]

theorem shiftToTargetExponent_zero (e : ℤ) :
    (shiftToTargetExponent .binary64 0 e .exact).1.mantissa = 0 := by
  simp only [shiftToTargetExponent, shiftToExponent, mantissa_shiftRight]
  exact Nat.zero_div _

theorem rounds_roundWithAccuracy {acc : Accuracy} {y : ℚ} (hy : 0 < y)
    (h : Describes (.ofMantissaAndAccuracy m acc) (y / 2 ^ e)) (hbits : 52 ≤ m.log2 ∨ e ≤ -1074) :
    Rounds (roundWithAccuracy .binary64 s m e acc) (signed s y) := by
  have htarget := targetExponent_eq_gridExponent hy h hbits
  have hle : e ≤ gridExponent y := by
    rw [← htarget, targetExponent_eq]
    omega
  obtain ⟨k, hk⟩ := Int.eq_ofNat_of_zero_le (sub_nonneg.2 hle)
  have hgrid : e + k = gridExponent y := by omega
  have hshift : shiftToTargetExponent .binary64 m e acc =
      (ExtendedMantissa.ofMantissaAndAccuracy m acc >>> k, gridExponent y) := by
    simp only [shiftToTargetExponent, shiftToExponent, htarget, hk, Int.toNat_natCast, hgrid]
  have hsteps : (ExtendedMantissa.ofMantissaAndAccuracy m acc >>> k).roundedMantissa =
      nearestEvenNat (y / 2 ^ gridExponent y) := by
    rw [(h.shift k).roundedMantissa, ← hgrid, two_zpow_add, zpow_natCast, div_div]
  have hleast : -1074 ≤ gridExponent y := le_max_right _ _
  have hmost := nearest_steps_le hy.le
  have hfull : gridExponent y ≠ -1074 → 2 ^ 52 ≤ nearestEvenNat (y / 2 ^ gridExponent y) :=
    le_nearest_steps hy
  have hvalue : rounded (signed s y) =
      signed s (nearestEvenNat (y / 2 ^ gridExponent y) * 2 ^ gridExponent y) := by
    rw [rounded_signed, rounded_of_nonneg hy.le, roundedMagnitude]
  rw [roundWithAccuracy, hshift]
  simp only [hsteps]
  generalize nearestEvenNat (y / 2 ^ gridExponent y) = n at *
  generalize gridExponent y = g at *
  rcases Nat.eq_zero_or_pos n with rfl | hn
  · rw [dif_pos (shiftToTargetExponent_zero g)]
    refine ⟨trivial, rfl, hvalue.symm ▸ ?_⟩
    rw [Nat.cast_zero, zero_mul]
    cases s <;> rfl
  rcases hmost.lt_or_eq with hfit | rfl
  · simp only [shiftToTargetExponent_exact hn hfit hleast, dif_neg hn.ne']
    exact ⟨⟨hleast, hfit, (eq_or_ne g (-1074)).symm.imp_left hfull⟩, rfl, hvalue.symm⟩
  · simp only [shiftToTargetExponent_carry hleast, dif_neg (show ¬2 ^ 52 = 0 by norm_num)]
    refine ⟨⟨by omega, by omega, Or.inl le_rfl⟩, rfl, hvalue.symm ▸ ?_⟩
    rw [decodedValue, two_zpow_add]
    congr 1
    norm_num
    ring

theorem rounds_round (hm : 0 < m) :
    Rounds (UnpackedFloat.round .binary64 s m e) (signed s (m * 2 ^ e)) := by
  rw [UnpackedFloat.round, targetExponent_eq]
  have hpos : (0 : ℚ) < m * 2 ^ e := mul_pos (Nat.cast_pos.2 hm) (two_zpow_pos e)
  rcases le_or_gt (max ((m.log2 : Int) + e - 52) (-1074)) e with hnarrow | hwide
  · obtain ⟨k, hk, hlower⟩ := decreaseExponent_of_le m hnarrow
    have hsame : (m * 2 ^ e : ℚ) / 2 ^ (e - k) = (m * 2 ^ k : ℕ) := by
      rw [mul_div_assoc, ← zpow_sub₀ two_ne_zero, sub_sub_cancel, zpow_natCast]
      push_cast
      rfl
    have hlog := log2_mul_two_pow hm k
    rw [hlower]
    refine rounds_roundWithAccuracy hpos ?_ (by omega)
    rw [hsame]
    exact Describes.exact _
  · rw [decreaseExponent_of_lt m hwide]
    refine rounds_roundWithAccuracy hpos ?_ (by omega)
    rw [mul_div_cancel_right₀ _ (two_zpow_pos e).ne']
    exact Describes.exact m

theorem rounds_normalize (d e : ℤ) (s : Sign) :
    Rounds (UnpackedFloat.normalize .binary64 d e s) (d * 2 ^ e) := by
  rw [UnpackedFloat.normalize]
  rcases lt_trichotomy d 0 with hneg | rfl | hpos
  · have hcast : (d : ℚ) * 2 ^ e = signed .negative (((-d).toNat : ℚ) * 2 ^ e) := by
      have hnat : (((-d).toNat : ℕ) : ℚ) = -d := by
        exact_mod_cast congrArg (Int.cast : ℤ → ℚ) (Int.toNat_of_nonneg (neg_nonneg.2 hneg.le))
      rw [hnat, signed, neg_mul, neg_neg]
    rw [compare_lt_iff_lt.2 hneg, hcast]
    exact rounds_round (by omega)
  · rw [compare_eq_iff_eq.2 rfl, Int.cast_zero, zero_mul]
    exact rounds_zero s
  · have hcast : (d : ℚ) * 2 ^ e = signed .positive ((d.toNat : ℚ) * 2 ^ e) := by
      have hnat : ((d.toNat : ℕ) : ℚ) = d := by
        exact_mod_cast congrArg (Int.cast : ℤ → ℚ) (Int.toNat_of_nonneg hpos.le)
      rw [hnat, signed]
    rw [compare_gt_iff_gt.2 hpos, hcast]
    exact rounds_round (by omega)

end

section

variable {u v : UnpackedFloat}

theorem decodedValue_eq_scaled {s : Sign} {m : ℕ} {e k : ℤ} (hm : 0 < m) (hk : k ≤ e) :
    decodedValue (.finite s m e hm) = (s.apply (m * 2 ^ (e - k).toNat : ℕ) : ℤ) * 2 ^ k := by
  have hsplit : (2 : ℚ) ^ e = 2 ^ (e - k).toNat * 2 ^ k := by
    rw [← zpow_natCast, Int.toNat_of_nonneg (sub_nonneg.2 hk), ← two_zpow_add, sub_add_cancel]
  rw [cast_apply, decodedValue, hsplit, Nat.cast_mul, Nat.cast_pow, Nat.cast_ofNat]
  cases s with
  | negative =>
    simp only [signed]
    ring
  | positive =>
    simp only [signed]
    ring

theorem decodedValue_opposite (s : Sign) {m : ℕ} (e : ℤ) (hm : 0 < m) :
    decodedValue (.finite (-s) m e hm) = -decodedValue (.finite s m e hm) := by
  cases s with
  | negative => exact (neg_neg _).symm
  | positive => rfl

theorem finite_cases (h : u.isFinite = true) :
    (∃ s, u = .zero s) ∨ ∃ s m e hm, u = .finite s m e hm := by
  cases u with
  | zero s => exact Or.inl ⟨s, rfl⟩
  | finite s m e hm => exact Or.inr ⟨s, m, e, hm, rfl⟩
  | _ => exact absurd h Bool.false_ne_true

variable (hu : Canonical u) (hv : Canonical v) (hu' : u.isFinite = true) (hv' : v.isFinite = true)

include hu hv hu' hv'

theorem rounds_add : Rounds (.add .binary64 u v) (decodedValue u + decodedValue v) := by
  rcases finite_cases hu' with ⟨s, rfl⟩ | ⟨s, m, e, hm, rfl⟩ <;>
    rcases finite_cases hv' with ⟨s', rfl⟩ | ⟨s', m', e', hm', rfl⟩
  · have hzero : UnpackedFloat.add .binary64 (.zero s) (.zero s') =
        .zero (if s == s' then s else .positive) := by
      cases s <;> cases s' <;> rfl
    rw [hzero, decodedValue_zero, decodedValue_zero, add_zero]
    exact rounds_zero _
  · rw [decodedValue_zero, zero_add]
    exact rounds_self hv hv'
  · rw [decodedValue_zero, add_zero]
    exact rounds_self hu hu'
  · rw [decodedValue_eq_scaled hm (min_le_left e e'),
      decodedValue_eq_scaled hm' (min_le_right e e'), ← add_mul, ← Int.cast_add]
    simp only [UnpackedFloat.add, decreaseExponent, Nat.shiftLeft_eq]
    exact rounds_normalize _ _ _

theorem rounds_sub : Rounds (.sub .binary64 u v) (decodedValue u - decodedValue v) := by
  rcases finite_cases hu' with ⟨s, rfl⟩ | ⟨s, m, e, hm, rfl⟩ <;>
    rcases finite_cases hv' with ⟨s', rfl⟩ | ⟨s', m', e', hm', rfl⟩
  · have hzero : UnpackedFloat.sub .binary64 (.zero s) (.zero s') =
        .zero (if s == -s' then s else .positive) := by
      cases s <;> cases s' <;> rfl
    rw [hzero, decodedValue_zero, decodedValue_zero, sub_zero]
    exact rounds_zero _
  · rw [decodedValue_zero, zero_sub, ← decodedValue_opposite]
    exact rounds_self (u := .finite (-s') m' e' hm') hv rfl
  · rw [decodedValue_zero, sub_zero]
    exact rounds_self hu hu'
  · rw [decodedValue_eq_scaled hm (min_le_left e e'),
      decodedValue_eq_scaled hm' (min_le_right e e'), ← sub_mul, ← Int.cast_sub, sub_finite_eq]
    exact rounds_normalize _ _ _

theorem rounds_mul : Rounds (.mul .binary64 u v) (decodedValue u * decodedValue v) := by
  rcases finite_cases hu' with ⟨s, rfl⟩ | ⟨s, m, e, hm, rfl⟩ <;>
    rcases finite_cases hv' with ⟨s', rfl⟩ | ⟨s', m', e', hm', rfl⟩
  · exact (mul_zero (0 : ℚ)).symm ▸ rounds_zero _
  · exact (zero_mul (decodedValue _)).symm ▸ rounds_zero _
  · exact (mul_zero (decodedValue _)).symm ▸ rounds_zero _
  · obtain ⟨hleast, -, hfull⟩ := hu
    obtain ⟨hleast', -, hfull'⟩ := hv
    have hpos : (0 : ℚ) < m * 2 ^ e * (m' * 2 ^ e') := by positivity
    have hscaled : (m * 2 ^ e * (m' * 2 ^ e') : ℚ) / 2 ^ (e + e') = (m * m' : ℕ) := by
      rw [two_zpow_add, mul_mul_mul_comm, mul_div_cancel_right₀ _ (by positivity), Nat.cast_mul]
    have hbits : 52 ≤ (m * m').log2 ∨ e + e' ≤ -1074 := by
      have hwide (h : 2 ^ 52 ≤ m * m') : 52 ≤ (m * m').log2 := (Nat.le_log2 (by omega)).2 h
      rcases hfull with hfull | rfl
      · exact Or.inl (hwide (hfull.trans (Nat.le_mul_of_pos_right m hm')))
      · rcases hfull' with hfull' | rfl
        · exact Or.inl (hwide (hfull'.trans (Nat.le_mul_of_pos_left m' hm)))
        · exact Or.inr (by omega)
    rw [decodedValue_finite, decodedValue_finite, signed_mul_signed]
    refine rounds_roundWithAccuracy hpos ?_ hbits
    rw [hscaled]
    exact Describes.exact _

omit hv in
theorem rounds_div (hzero : decodedValue v ≠ 0) :
    Rounds (.div .binary64 u v) (decodedValue u / decodedValue v) := by
  rcases finite_cases hv' with ⟨s', rfl⟩ | ⟨s', m', e', hm', rfl⟩
  · exact absurd rfl hzero
  rcases finite_cases hu' with ⟨s, rfl⟩ | ⟨s, m, e, hm, rfl⟩
  · exact (zero_div (decodedValue _)).symm ▸ rounds_zero _
  have hpos : (0 : ℚ) < m * 2 ^ e / (m' * 2 ^ e') := by positivity
  have htarget : Format.binary64.targetExponent
      (Float.Model.totalExponent m e - Float.Model.totalExponent m' e') =
        max ((m.log2 : ℤ) + e - (m'.log2 + e') - 53) (-1074) := by
    change max ((m.log2 : ℤ) + 1 + e - (m'.log2 + 1 + e') - 53) (-1074) = _
    omega
  rw [decodedValue_finite, decodedValue_finite, signed_div_signed]
  simp only [UnpackedFloat.div, divCore, htarget]
  generalize htake : min (e - e') (max ((m.log2 : ℤ) + e - (m'.log2 + e') - 53) (-1074)) = t
  obtain ⟨k, hk⟩ := Int.eq_ofNat_of_zero_le (show 0 ≤ e - e' - t by omega)
  simp only [hk, Int.toNat_natCast, Nat.shiftLeft_eq]
  refine rounds_roundWithAccuracy hpos ?_ ?_
  · have hscaled : (m * 2 ^ e / (m' * 2 ^ e') : ℚ) / 2 ^ t = (m * 2 ^ k : ℕ) / m' := by
      have hsplit : e = k + e' + t := by omega
      have hsteps : (2 : ℚ) ^ e = 2 ^ k * 2 ^ e' * 2 ^ t := by
        rw [hsplit, two_zpow_add, two_zpow_add, zpow_natCast]
      rw [hsteps]
      push_cast
      field_simp
    rw [hscaled]
    exact Describes.quotient _ hm'
  -- Enough bits were shifted in for a full mantissa, unless the exponent is the least.
  · refine or_iff_not_imp_right.2 fun hgreater => ?_
    obtain ⟨hlow, -⟩ := (Nat.log2_eq_iff hm.ne').1 rfl
    obtain ⟨-, hhigh⟩ := (Nat.log2_eq_iff hm'.ne').1 rfl
    have hfull : 2 ^ 52 ≤ m * 2 ^ k / m' := by
      rw [Nat.le_div_iff_mul_le hm']
      calc 2 ^ 52 * m' ≤ 2 ^ 52 * 2 ^ (m'.log2 + 1) := Nat.mul_le_mul_left _ hhigh.le
        _ = 2 ^ (52 + (m'.log2 + 1)) := (Nat.pow_add ..).symm
        _ ≤ 2 ^ (m.log2 + k) := Nat.pow_le_pow_right Nat.two_pos (by omega)
        _ = 2 ^ m.log2 * 2 ^ k := Nat.pow_add ..
        _ ≤ m * 2 ^ k := Nat.mul_le_mul_right _ hlow
    exact (Nat.le_log2 (by omega)).2 hfull

end

end TransferCurves.Binary64
