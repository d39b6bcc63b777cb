import TransferCurves.Proofs.Binary64Decoding

/-!
# Rounding to doubles

Rounding a number that is a multiple of the least double: a mantissa that fits is kept, surplus bits
are rounded off, and where that gives the next power of two the exponent takes it up. The result is
in canonical form, before it is looked at whether it is too large.
-/

namespace TransferCurves.Binary64

open Float.Model (UnpackedFloat Format)
open Float.Model.UnpackedFloat

theorem targetExponent_eq (m : Nat) (e : Int) :
    Format.binary64.targetExponent (Float.Model.totalExponent m e) =
      max (m.log2 + e - 52) (-1074) := by
  change max ((m.log2 : Int) + 1 + e - 53) (-1074) = _
  omega

theorem mantissa_shiftRight (em : ExtendedMantissa) (k : Nat) :
    (em >>> k).mantissa = em.mantissa / 2 ^ k := by
  induction k with
  | zero => exact (Nat.div_one _).symm
  | succ k ih =>
    change (em >>> k).mantissa / 2 = _
    rw [ih, Nat.div_div_eq_div_mul, Nat.pow_succ]

theorem roundedMantissa_bounds (em : ExtendedMantissa) :
    em.mantissa ≤ em.roundedMantissa ∧ em.roundedMantissa ≤ em.mantissa + 1 := by
  obtain ⟨m, r, s⟩ := em
  have hodd := Nat.mod_lt m Nat.two_pos
  cases r <;> cases s <;>
    simp only [ExtendedMantissa.roundedMantissa, ExtendedMantissa.accuracy,
      Accuracy.roundToNearestEven] <;> omega

theorem shiftToTargetExponent_exact {m : Nat} {e : Int} (hm : 0 < m) (hfit : m < 2 ^ 53)
    (hleast : -1074 ≤ e) :
    shiftToTargetExponent .binary64 m e .exact = (⟨m, false, false⟩, e) := by
  have hlog : m.log2 < 53 := (Nat.log2_lt hm.ne').2 hfit
  have hshift : (Format.binary64.targetExponent (Float.Model.totalExponent m e) - e).toNat = 0 := by
    rw [targetExponent_eq]
    omega
  simp only [shiftToTargetExponent, shiftToExponent, hshift]
  exact congrArg (Prod.mk _) (Int.add_zero e)

theorem shiftToTargetExponent_carry {e : Int} (hleast : -1074 ≤ e) :
    shiftToTargetExponent .binary64 (2 ^ 53) e .exact = (⟨2 ^ 52, false, false⟩, e + 1) := by
  have hshift :
      (Format.binary64.targetExponent (Float.Model.totalExponent (2 ^ 53) e) - e).toNat = 1 := by
    rw [targetExponent_eq, Nat.log2_two_pow]
    omega
  simp only [shiftToTargetExponent, shiftToExponent, hshift]
  rfl

section

variable {s : Sign} {m : Nat} {e : Int}

theorem roundWithAccuracy_of_fits (hm : 0 < m) (hfit : m < 2 ^ 53) (hleast : -1074 ≤ e) :
    roundWithAccuracy .binary64 s m e .exact = .finite s m e hm := by
  have hrounded : (ExtendedMantissa.mk m false false).roundedMantissa = m := rfl
  rw [roundWithAccuracy, shiftToTargetExponent_exact hm hfit hleast]
  simp only [hrounded, shiftToTargetExponent_exact hm hfit hleast, dif_neg hm.ne']

theorem div_pow_bounds {n : Nat} (hm : 0 < m) (hlog : m.log2 = 52 + n) :
    2 ^ 52 ≤ m / 2 ^ n ∧ m / 2 ^ n < 2 ^ 53 := by
  obtain ⟨hlow, hhigh⟩ := (Nat.log2_eq_iff hm.ne').1 hlog
  rw [Nat.le_div_iff_mul_le (Nat.two_pow_pos n), Nat.div_lt_iff_lt_mul (Nat.two_pow_pos n),
    ← Nat.pow_add, ← Nat.pow_add]
  exact ⟨hlow, by rwa [Nat.add_right_comm] at hhigh⟩

/-- Surplus bits are rounded off, which leaves a full mantissa. -/
theorem roundWithAccuracy_of_wide (hm : 0 < m) (hleast : -1074 ≤ e) (hwide : 52 ≤ m.log2) :
    ∃ m' e' hm', roundWithAccuracy .binary64 s m e .exact = .finite s m' e' hm' ∧
      Canonical (.finite s m' e' hm') ∧ m.log2 + e - 52 ≤ e' ∧ e' ≤ m.log2 + e - 51 := by
  obtain ⟨n, hlog⟩ := Nat.exists_eq_add_of_le hwide
  have hshift : shiftToTargetExponent .binary64 m e .exact =
      ((⟨m, false, false⟩ : ExtendedMantissa) >>> n, e + n) := by
    have htarget :
        (Format.binary64.targetExponent (Float.Model.totalExponent m e) - e).toNat = n := by
      rw [targetExponent_eq]
      omega
    simp only [shiftToTargetExponent, shiftToExponent, htarget]
    rfl
  obtain ⟨hlow, hhigh⟩ := div_pow_bounds hm hlog
  obtain ⟨hbelow, habove⟩ := roundedMantissa_bounds ((⟨m, false, false⟩ : ExtendedMantissa) >>> n)
  simp only [mantissa_shiftRight] at hbelow habove
  rw [roundWithAccuracy, hshift]
  simp only
  generalize ((⟨m, false, false⟩ : ExtendedMantissa) >>> n).roundedMantissa = r at *
  have hr : 0 < r := by omega
  rcases Nat.lt_or_ge r (2 ^ 53) with hfit | hcarry
  · simp only [shiftToTargetExponent_exact hr hfit (e := e + n) (by omega), dif_neg hr.ne']
    exact ⟨r, e + n, hr, rfl, ⟨by omega, hfit, by omega⟩, by omega, by omega⟩
  · obtain rfl : r = 2 ^ 53 := by omega
    simp only [shiftToTargetExponent_carry (e := e + n) (by omega)]
    exact ⟨2 ^ 52, e + n + 1, by omega, rfl, ⟨by omega, by omega, by omega⟩, by omega, by omega⟩

theorem decreaseExponent_of_le (m : Nat) {e t : Int} (h : t ≤ e) :
    ∃ k : Nat, e - t = k ∧ decreaseExponent m e t = (m * 2 ^ k, e - k) := by
  obtain ⟨k, hk⟩ := Int.eq_ofNat_of_zero_le (sub_nonneg.2 h)
  exact ⟨k, hk, by rw [decreaseExponent, hk, Int.toNat_natCast, Nat.shiftLeft_eq]⟩

theorem decreaseExponent_of_lt (m : Nat) {e t : Int} (h : e < t) :
    decreaseExponent m e t = (m, e) := by
  rw [decreaseExponent, Int.toNat_of_nonpos (sub_nonpos.2 h.le)]
  exact congrArg (Prod.mk _) (Int.sub_zero e)

theorem round_canonical (hm : 0 < m) (hleast : -1074 ≤ e) :
    ∃ m' e' hm', UnpackedFloat.round .binary64 s m e = .finite s m' e' hm' ∧
      Canonical (.finite s m' e' hm') ∧ m.log2 + e - 52 ≤ e' ∧
        e' ≤ max (m.log2 + e - 51) (-1074) := by
  rw [UnpackedFloat.round, targetExponent_eq]
  rcases le_or_gt (max ((m.log2 : Int) + e - 52) (-1074)) e with hnarrow | hwide
  -- The exponent is lowered until the mantissa fills its bits or the exponent is the least.
  · obtain ⟨k, hk, hlower⟩ := decreaseExponent_of_le m hnarrow
    obtain ⟨hlow, hhigh⟩ := (Nat.log2_eq_iff hm.ne').1 rfl
    have hpos : 0 < m * 2 ^ k := Nat.mul_pos hm (Nat.two_pow_pos k)
    have hfit : m * 2 ^ k < 2 ^ 53 :=
      calc m * 2 ^ k < 2 ^ (m.log2 + 1) * 2 ^ k :=
            Nat.mul_lt_mul_of_pos_right hhigh (Nat.two_pow_pos k)
        _ = 2 ^ (m.log2 + 1 + k) := (Nat.pow_add ..).symm
        _ ≤ 2 ^ 53 := Nat.pow_le_pow_right Nat.two_pos (by omega)
    have hfull : 2 ^ 52 ≤ m * 2 ^ k ∨ e - k = -1074 := by
      rcases eq_or_ne (m.log2 + k) 52 with hfull | hshort
      · have hle := Nat.mul_le_mul_right (2 ^ k) hlow
        rw [← Nat.pow_add, hfull] at hle
        exact Or.inl hle
      · exact Or.inr (by omega)
    rw [hlower]
    exact ⟨m * 2 ^ k, e - k, hpos, roundWithAccuracy_of_fits hpos hfit (by omega),
      ⟨by omega, hfit, hfull⟩, by omega, by omega⟩
  · rw [decreaseExponent_of_lt m hwide]
    obtain ⟨m', e', hm', hround, hcanonical, hlow, hhigh⟩ :=
      roundWithAccuracy_of_wide (s := s) hm hleast (by omega)
    exact ⟨m', e', hm', hround, hcanonical, hlow, by omega⟩

end

end TransferCurves.Binary64
