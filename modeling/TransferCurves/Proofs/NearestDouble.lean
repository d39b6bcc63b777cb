import TransferCurves.Scalar.Rational
import Mathlib.Algebra.Order.Field.Power
import Mathlib.Data.Int.Log
import Mathlib.Data.Rat.Floor
import Mathlib.Tactic.Linarith
import Mathlib.Tactic.NormNum
import Mathlib.Tactic.Positivity
import Mathlib.Tactic.Ring

/-!
# The double nearest to a rational

Around a magnitude in `[2 ^ k, 2 ^ (k + 1))` doubles stand on the multiples of `2 ^ (k - 52)`, and
of `2 ^ (-1074)` where that is more. Rounding takes a rational to the nearest point of this grid,
halves to the even one. It keeps the order, leaves doubles alone, and is off by at most one part in
`2 ^ 53` from the least normal double on. There is no largest number here: a rational overflows if
it is rounded to `2 ^ 1024` or beyond.
-/

namespace TransferCurves

theorem nearestEvenNat_add (m : ℕ) {f : ℚ} (hf : 0 ≤ f) (hf' : f < 1) :
    nearestEvenNat (m + f) = if f < 1 / 2 ∨ (f = 1 / 2 ∧ m % 2 = 0) then m else m + 1 := by
  have hfloor : Rat.floor ((m : ℚ) + f) = (m : ℤ) := by
    change ⌊(m : ℚ) + f⌋ = (m : ℤ)
    rw [Int.floor_natCast_add, Int.floor_eq_zero_iff.2 ⟨hf, hf'⟩, add_zero]
  have hparity : (m : ℤ) % 2 = 0 ↔ m % 2 = 0 := by omega
  simp only [nearestEvenNat, hfloor, Int.cast_natCast, add_sub_cancel_left, hparity]
  split_ifs
  · rfl
  · rfl

theorem nearestEvenNat_natCast (m : ℕ) : nearestEvenNat m = m := by
  have hadd := nearestEvenNat_add m le_rfl one_pos
  rwa [add_zero, if_pos (Or.inl (by norm_num))] at hadd

section

variable {x y : ℚ}

theorem exists_fraction (h : 0 ≤ x) : ∃ (m : ℕ) (f : ℚ), x = m + f ∧ 0 ≤ f ∧ f < 1 := by
  have hbelow := Nat.floor_le h
  have habove := Nat.lt_floor_add_one x
  exact ⟨⌊x⌋₊, x - ⌊x⌋₊, by ring, by linarith, by linarith⟩

theorem abs_nearestEvenNat_sub_le (h : 0 ≤ x) : |(nearestEvenNat x : ℚ) - x| ≤ 1 / 2 := by
  obtain ⟨m, f, rfl, hf, hf'⟩ := exists_fraction h
  rw [nearestEvenNat_add m hf hf', abs_le]
  split_ifs with hlow
  · have hhalf : f ≤ 1 / 2 := hlow.elim le_of_lt fun htie => htie.1.le
    constructor <;> linarith
  · have hhalf : 1 / 2 ≤ f := not_lt.1 fun hlt => hlow (Or.inl hlt)
    push_cast
    constructor <;> linarith

theorem nearestEvenNat_mono (h : 0 ≤ x) (hxy : x ≤ y) : nearestEvenNat x ≤ nearestEvenNat y := by
  obtain ⟨m, f, rfl, hf, hf'⟩ := exists_fraction h
  obtain ⟨n, g, rfl, hg, hg'⟩ := exists_fraction (h.trans hxy)
  rw [nearestEvenNat_add m hf hf', nearestEvenNat_add n hg hg']
  have hle : m ≤ n := by
    have hlt : (m : ℚ) < (n + 1 : ℕ) := by
      push_cast
      linarith
    exact Nat.lt_succ_iff.1 (by exact_mod_cast hlt)
  rcases hle.lt_or_eq with hlt | rfl
  · split_ifs <;> omega
  · have hfg : f ≤ g := by linarith
    split_ifs with hlow hlow' hlow'
    · exact le_rfl
    · exact Nat.le_succ m
    · refine absurd ?_ hlow
      rcases hlow' with hlt | ⟨rfl, heven⟩
      · exact Or.inl (hfg.trans_lt hlt)
      · exact hfg.lt_or_eq.imp_right fun heq => ⟨heq, heven⟩
    · exact le_rfl

theorem nearestEvenNat_le {n : ℕ} (h : 0 ≤ x) (hn : x ≤ n) : nearestEvenNat x ≤ n :=
  (nearestEvenNat_mono h hn).trans_eq (nearestEvenNat_natCast n)

theorem le_nearestEvenNat {n : ℕ} (hn : n ≤ x) : n ≤ nearestEvenNat x :=
  (nearestEvenNat_natCast n).symm.trans_le (nearestEvenNat_mono n.cast_nonneg hn)

end

namespace Binary64

theorem two_zpow_pos (e : ℤ) : (0 : ℚ) < 2 ^ e := zpow_pos two_pos e

theorem two_zpow_le {d e : ℤ} : (2 : ℚ) ^ d ≤ 2 ^ e ↔ d ≤ e := zpow_le_zpow_iff_right₀ one_lt_two

theorem two_zpow_add (d e : ℤ) : (2 : ℚ) ^ (d + e) = 2 ^ d * 2 ^ e := zpow_add₀ two_ne_zero d e

theorem two_zpow_log_le {q : ℚ} (h : 0 < q) : 2 ^ Int.log 2 q ≤ q :=
  Int.zpow_log_le_self one_lt_two h

theorem lt_two_zpow_log (q : ℚ) : q < 2 ^ (Int.log 2 q + 1) :=
  Int.lt_zpow_succ_log_self one_lt_two q

theorem log_lt_of_lt {q : ℚ} {k : ℤ} (h : 0 < q) (hk : q < 2 ^ k) : Int.log 2 q < k :=
  (Int.lt_zpow_iff_log_lt one_lt_two h).1 hk

theorem le_log_of_le {q : ℚ} {k : ℤ} (hk : 2 ^ k ≤ q) : k ≤ Int.log 2 q :=
  (Int.zpow_le_iff_le_log one_lt_two ((two_zpow_pos k).trans_le hk)).1 hk

/-- The exponent of the grid of doubles around a magnitude. -/
def gridExponent (q : ℚ) : ℤ := max (Int.log 2 q - 52) (-1074)

def roundedMagnitude (q : ℚ) : ℚ := nearestEvenNat (q / 2 ^ gridExponent q) * 2 ^ gridExponent q

/-- The double nearest to a rational, or what would be if doubles had no largest one. -/
def rounded (q : ℚ) : ℚ := if 0 ≤ q then roundedMagnitude q else -roundedMagnitude (-q)

section

variable {q r : ℚ}

theorem gridExponent_mono (h : 0 < q) (hqr : q ≤ r) : gridExponent q ≤ gridExponent r :=
  max_le_max (sub_le_sub_right (Int.log_mono_right h hqr) 52) le_rfl

theorem roundedMagnitude_nonneg (q : ℚ) : 0 ≤ roundedMagnitude q :=
  mul_nonneg (Nat.cast_nonneg _) (two_zpow_pos _).le

theorem roundedMagnitude_of_steps {n : ℕ} (h : q = n * 2 ^ gridExponent q) :
    roundedMagnitude q = q := by
  have hsteps : q / 2 ^ gridExponent q = n := (div_eq_iff (two_zpow_pos _).ne').2 h
  rw [roundedMagnitude, hsteps, nearestEvenNat_natCast, ← h]

@[simp] theorem roundedMagnitude_zero : roundedMagnitude 0 = 0 :=
  roundedMagnitude_of_steps (n := 0) (by rw [Nat.cast_zero, zero_mul])

theorem roundedMagnitude_of_fits {m : ℕ} {e : ℤ} (hfit : m < 2 ^ 53) (hleast : -1074 ≤ e) :
    roundedMagnitude (m * 2 ^ e) = m * 2 ^ e := by
  rcases Nat.eq_zero_or_pos m with rfl | hm
  · rw [Nat.cast_zero, zero_mul, roundedMagnitude_zero]
  · have hpos : (0 : ℚ) < m * 2 ^ e := mul_pos (Nat.cast_pos.2 hm) (two_zpow_pos e)
    have hlog : Int.log 2 ((m : ℚ) * 2 ^ e) < 53 + e := by
      refine log_lt_of_lt hpos ?_
      rw [two_zpow_add]
      exact mul_lt_mul_of_pos_right (by exact_mod_cast hfit) (two_zpow_pos e)
    have hgrid : gridExponent ((m : ℚ) * 2 ^ e) ≤ e := max_le (by omega) hleast
    obtain ⟨k, hk⟩ := Int.eq_ofNat_of_zero_le (sub_nonneg.2 hgrid)
    refine roundedMagnitude_of_steps (n := m * 2 ^ k) ?_
    have hsplit : e = (k : ℤ) + gridExponent ((m : ℚ) * 2 ^ e) := by omega
    calc (m : ℚ) * 2 ^ e = m * (2 ^ (k : ℤ) * 2 ^ gridExponent ((m : ℚ) * 2 ^ e)) := by
          rw [← two_zpow_add, ← hsplit]
      _ = (m * 2 ^ k : ℕ) * 2 ^ gridExponent ((m : ℚ) * 2 ^ e) := by
          push_cast
          rw [zpow_natCast, mul_assoc]

theorem nearest_steps_le (h : 0 ≤ q) : nearestEvenNat (q / 2 ^ gridExponent q) ≤ 2 ^ 53 := by
  refine nearestEvenNat_le (div_nonneg h (two_zpow_pos _).le) ?_
  have hgrid : Int.log 2 q - 52 ≤ gridExponent q := le_max_left _ _
  rw [div_le_iff₀ (two_zpow_pos _)]
  calc q ≤ 2 ^ (Int.log 2 q + 1) := (lt_two_zpow_log q).le
    _ ≤ 2 ^ (53 + gridExponent q) := two_zpow_le.2 (by omega)
    _ = (2 ^ 53 : ℕ) * 2 ^ gridExponent q := by
        rw [two_zpow_add]
        norm_num

theorem le_nearest_steps (h : 0 < q) (hgrid : gridExponent q ≠ -1074) :
    2 ^ 52 ≤ nearestEvenNat (q / 2 ^ gridExponent q) := by
  have hstart : gridExponent q = Int.log 2 q - 52 := (max_choice _ _).resolve_right hgrid
  refine le_nearestEvenNat ?_
  rw [le_div_iff₀ (two_zpow_pos _)]
  calc ((2 ^ 52 : ℕ) : ℚ) * 2 ^ gridExponent q = 2 ^ (52 + gridExponent q) := by
        rw [two_zpow_add]
        norm_num
    _ = 2 ^ Int.log 2 q := by rw [hstart, add_sub_cancel]
    _ ≤ q := two_zpow_log_le h

theorem roundedMagnitude_mono (h : 0 ≤ q) (hqr : q ≤ r) :
    roundedMagnitude q ≤ roundedMagnitude r := by
  rcases h.eq_or_lt with rfl | hpos
  · rw [roundedMagnitude_zero]
    exact roundedMagnitude_nonneg r
  have hstep := two_zpow_pos (gridExponent q)
  rcases (gridExponent_mono hpos hqr).eq_or_lt with hsame | hcoarser
  · rw [roundedMagnitude, roundedMagnitude, ← hsame]
    have hquotient : q / 2 ^ gridExponent q ≤ r / 2 ^ gridExponent q :=
      div_le_div_of_nonneg_right hqr hstep.le
    refine mul_le_mul_of_nonneg_right ?_ hstep.le
    exact_mod_cast nearestEvenNat_mono (div_nonneg h hstep.le) hquotient
  -- The power of two at which the grid of `r` begins lies on both grids and between the numbers.
  · have hleast : -1074 ≤ gridExponent q := le_max_right _ _
    have hhigh := le_nearest_steps (hpos.trans_le hqr) (by omega)
    calc roundedMagnitude q ≤ (2 ^ 53 : ℕ) * 2 ^ gridExponent q :=
          mul_le_mul_of_nonneg_right (by exact_mod_cast nearest_steps_le h) hstep.le
      _ = (2 ^ 52 : ℕ) * 2 ^ (gridExponent q + 1) := by
          rw [two_zpow_add]
          norm_num
          ring
      _ ≤ (2 ^ 52 : ℕ) * 2 ^ gridExponent r :=
          mul_le_mul_of_nonneg_left (two_zpow_le.2 hcoarser) (Nat.cast_nonneg _)
      _ ≤ roundedMagnitude r :=
          mul_le_mul_of_nonneg_right (by exact_mod_cast hhigh) (two_zpow_pos _).le

theorem abs_roundedMagnitude_sub_le (h : 0 ≤ q) :
    |roundedMagnitude q - q| ≤ 1 / 2 * 2 ^ gridExponent q := by
  have hstep := two_zpow_pos (gridExponent q)
  have hquotient := abs_nearestEvenNat_sub_le (div_nonneg h hstep.le)
  have hsplit : roundedMagnitude q - q =
      (nearestEvenNat (q / 2 ^ gridExponent q) - q / 2 ^ gridExponent q) * 2 ^ gridExponent q := by
    rw [sub_mul, div_mul_cancel₀ q hstep.ne', roundedMagnitude]
  rw [hsplit, abs_mul, abs_of_pos hstep]
  exact mul_le_mul_of_nonneg_right hquotient hstep.le

theorem abs_roundedMagnitude_sub_le_mul (h : 2 ^ (-1022 : ℤ) ≤ q) :
    |roundedMagnitude q - q| ≤ q / 2 ^ 53 := by
  have hpos : 0 < q := (two_zpow_pos _).trans_le h
  have hgrid : gridExponent q = Int.log 2 q - 52 := by
    have hlog := le_log_of_le h
    exact max_eq_left (by omega)
  calc |roundedMagnitude q - q| ≤ 1 / 2 * 2 ^ gridExponent q := abs_roundedMagnitude_sub_le hpos.le
    _ = 2 ^ Int.log 2 q / 2 ^ 53 := by
        rw [hgrid, zpow_sub₀ two_ne_zero]
        norm_num
        ring
    _ ≤ q / 2 ^ 53 := div_le_div_of_nonneg_right (two_zpow_log_le hpos) (by positivity)

/-- The least magnitude that overflows: it lies half way between the largest double and what would
be the next one. -/
def overflow : ℚ := 2 ^ 1024 - 2 ^ 970

theorem two_pow_add_970 (k : ℕ) : (2 : ℚ) ^ (k + 970) = 2 ^ k * 2 ^ 970 := pow_add 2 k 970

theorem overflow_eq : overflow = (2 ^ 54 - 1) * 2 ^ 970 := by
  rw [sub_mul, ← two_pow_add_970, one_mul, overflow]

theorem two_pow_1023_lt_overflow : (2 : ℚ) ^ 1023 < overflow := by
  rw [overflow_eq, two_pow_add_970 53]
  exact mul_lt_mul_of_pos_right (by norm_num) (pow_pos two_pos 970)

theorem overflow_pos : 0 < overflow := (pow_pos two_pos 1023).trans two_pow_1023_lt_overflow

theorem overflow_lt : overflow < 2 ^ 1024 := sub_lt_self _ (pow_pos two_pos 970)

theorem gridExponent_last (hlow : 2 ^ 1023 ≤ q) (hhigh : q < 2 ^ 1024) : gridExponent q = 971 := by
  have hpos : 0 < q := (pow_pos two_pos 1023).trans_le hlow
  have hbelow : (1023 : ℤ) ≤ Int.log 2 q := le_log_of_le (by exact_mod_cast hlow)
  have habove : Int.log 2 q < (1024 : ℤ) := log_lt_of_lt hpos (by exact_mod_cast hhigh)
  have hlog : Int.log 2 q = 1023 := by omega
  rw [gridExponent, hlog]
  rfl

theorem roundedMagnitude_overflow : roundedMagnitude overflow = 2 ^ 1024 := by
  have hstep : (2 : ℚ) ^ (971 : ℤ) = 2 * 2 ^ 970 := by
    rw [← pow_succ', zpow_ofNat]
  have hpos : (0 : ℚ) < 2 ^ 970 := pow_pos two_pos 970
  have hquotient : overflow / 2 ^ (971 : ℤ) = (2 ^ 53 - 1 : ℕ) + 1 / 2 := by
    rw [overflow_eq, hstep, mul_div_mul_right _ _ hpos.ne']
    norm_num
  rw [roundedMagnitude, gridExponent_last two_pow_1023_lt_overflow.le overflow_lt, hquotient,
    nearestEvenNat_add _ (by norm_num) (by norm_num), if_neg (by norm_num), hstep,
    two_pow_add_970 54, ← mul_assoc]
  norm_num

theorem roundedMagnitude_lt_iff (h : 0 ≤ q) : roundedMagnitude q < 2 ^ 1024 ↔ q < overflow := by
  constructor
  · intro hlt
    by_contra hge
    have hmono := roundedMagnitude_mono overflow_pos.le (not_lt.1 hge)
    rw [roundedMagnitude_overflow] at hmono
    exact hlt.not_ge hmono
  · intro hlt
    rcases lt_or_ge q (2 ^ 1023) with hsmall | hlarge
    · have hexact := roundedMagnitude_of_fits (m := 1) (e := 1023) (by norm_num) (by norm_num)
      rw [Nat.cast_one, one_mul, zpow_ofNat] at hexact
      calc roundedMagnitude q ≤ roundedMagnitude (2 ^ 1023) := roundedMagnitude_mono h hsmall.le
        _ = 2 ^ 1023 := hexact
        _ < overflow := two_pow_1023_lt_overflow
        _ < 2 ^ 1024 := overflow_lt
    · have habs := abs_roundedMagnitude_sub_le h
      have hhalf : (1 / 2 : ℚ) * 2 ^ (971 : ℤ) = 2 ^ 970 := by
        rw [zpow_ofNat, pow_succ', ← mul_assoc, one_div_mul_cancel two_ne_zero, one_mul]
      rw [gridExponent_last hlarge (hlt.trans overflow_lt), hhalf] at habs
      have habove := (abs_le.1 habs).2
      calc roundedMagnitude q ≤ q + 2 ^ 970 := sub_le_iff_le_add'.1 habove
        _ < 2 ^ 1024 := lt_sub_iff_add_lt.1 hlt

theorem rounded_of_nonneg (h : 0 ≤ q) : rounded q = roundedMagnitude q := if_pos h

@[simp] theorem rounded_zero : rounded 0 = 0 := by
  rw [rounded_of_nonneg le_rfl, roundedMagnitude_zero]

@[simp] theorem rounded_neg (q : ℚ) : rounded (-q) = -rounded q := by
  rcases lt_trichotomy q 0 with hneg | rfl | hpos
  · rw [rounded_of_nonneg (neg_nonneg.2 hneg.le), rounded, if_neg hneg.not_ge, neg_neg]
  · rw [neg_zero, rounded_zero, neg_zero]
  · rw [rounded_of_nonneg hpos.le, rounded, if_neg (neg_neg_of_pos hpos).not_ge, neg_neg]

theorem abs_rounded (q : ℚ) : |rounded q| = roundedMagnitude |q| := by
  rcases le_total 0 q with hpos | hneg
  · rw [rounded_of_nonneg hpos, abs_of_nonneg hpos, abs_of_nonneg (roundedMagnitude_nonneg q)]
  · rw [← neg_neg q, rounded_neg, abs_neg, abs_neg, rounded_of_nonneg (neg_nonneg.2 hneg),
      abs_of_nonneg (neg_nonneg.2 hneg), abs_of_nonneg (roundedMagnitude_nonneg _)]

theorem abs_rounded_lt_iff (q : ℚ) : |rounded q| < 2 ^ 1024 ↔ |q| < overflow := by
  rw [abs_rounded, roundedMagnitude_lt_iff (abs_nonneg q)]

theorem rounded_nonneg (h : 0 ≤ q) : 0 ≤ rounded q := by
  rw [rounded_of_nonneg h]
  exact roundedMagnitude_nonneg q

theorem rounded_mono : Monotone rounded := by
  intro q r hqr
  rcases le_total 0 q with hq | hq
  · rw [rounded_of_nonneg hq, rounded_of_nonneg (hq.trans hqr)]
    exact roundedMagnitude_mono hq hqr
  · have hneg : 0 ≤ rounded (-q) := rounded_nonneg (neg_nonneg.2 hq)
    rw [rounded_neg] at hneg
    rcases le_total 0 r with hr | hr
    · linarith [rounded_nonneg hr]
    · have hmono := roundedMagnitude_mono (neg_nonneg.2 hr) (neg_le_neg hqr)
      rw [← rounded_of_nonneg (neg_nonneg.2 hr), ← rounded_of_nonneg (neg_nonneg.2 hq), rounded_neg,
        rounded_neg] at hmono
      exact neg_le_neg_iff.1 hmono

theorem rounded_two_zpow {k : ℤ} (h : -1074 ≤ k) : rounded (2 ^ k) = 2 ^ k := by
  have hfits := roundedMagnitude_of_fits (m := 1) (e := k) (by norm_num) h
  rwa [Nat.cast_one, one_mul, ← rounded_of_nonneg (two_zpow_pos k).le] at hfits

theorem abs_rounded_le {k : ℤ} (hk : -1074 ≤ k) (h : |q| ≤ 2 ^ k) : |rounded q| ≤ 2 ^ k := by
  rw [abs_rounded, ← rounded_two_zpow hk, rounded_of_nonneg (two_zpow_pos k).le]
  exact roundedMagnitude_mono (abs_nonneg q) h

theorem le_abs_rounded {k : ℤ} (hk : -1074 ≤ k) (h : 2 ^ k ≤ |q|) : 2 ^ k ≤ |rounded q| := by
  rw [abs_rounded, ← rounded_of_nonneg (abs_nonneg q), ← rounded_two_zpow hk]
  exact rounded_mono h

theorem abs_rounded_le_two_mul (h : 2 ^ (-1074 : ℤ) ≤ |q|) : |rounded q| ≤ 2 * |q| := by
  have hlog : -1074 ≤ Int.log 2 |q| := le_log_of_le h
  calc |rounded q| ≤ 2 ^ (Int.log 2 |q| + 1) := abs_rounded_le (by omega) (lt_two_zpow_log _).le
    _ = 2 * 2 ^ Int.log 2 |q| := by rw [two_zpow_add, zpow_one, mul_comm]
    _ ≤ 2 * |q| :=
        mul_le_mul_of_nonneg_left (two_zpow_log_le ((two_zpow_pos _).trans_le h)) two_pos.le

theorem rounded_natCast {n : ℕ} (h : n ≤ 2 ^ 53) : rounded n = n := by
  rcases h.lt_or_eq with hlt | rfl
  · have hfits := roundedMagnitude_of_fits (m := n) (e := 0) hlt (by norm_num)
    rwa [zpow_zero, mul_one, ← rounded_of_nonneg n.cast_nonneg] at hfits
  · have hpower := rounded_two_zpow (k := 53) (by norm_num)
    exact_mod_cast hpower

/-- From the least normal double on, rounding is off by at most one part in `2 ^ 53`. -/
theorem abs_rounded_sub_le (h : 2 ^ (-1022 : ℤ) ≤ q) : |rounded q - q| ≤ q / 2 ^ 53 := by
  rw [rounded_of_nonneg ((two_zpow_pos _).le.trans h)]
  exact abs_roundedMagnitude_sub_le_mul h

end

end Binary64

end TransferCurves
