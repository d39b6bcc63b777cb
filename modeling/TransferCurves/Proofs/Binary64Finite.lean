import TransferCurves.Proofs.Binary64Value

/-!
# Finite results

An operation whose result is finite was given numbers, and with few exceptions finite ones: a quotient
by infinity is zero, a quotient by zero is never finite. So the finite result of a formula shows
that no step of it overflowed. The other way round, a formula is followed by a bound for each step:
an exact result up to a power of two leaves a double up to that power.
-/

namespace TransferCurves.Binary64

open scoped Scalar
open Float.Model (UnpackedFloat)

section

variable {x y : Binary64}

theorem isNaN_unpack_iff (b : BitVec 64) :
    (UnpackedFloat.unpack .binary64 b).isNaN = true ↔
      @UnpackedFloat.unpackExponent .binary64 b = -1#11 ∧
        @UnpackedFloat.unpackMantissa .binary64 b ≠ 0#52 := by
  rw [UnpackedFloat.unpack]
  split_ifs with hlast hmantissa hleast hmantissa
  · exact iff_of_false Bool.false_ne_true fun h => h.2 hmantissa
  · exact iff_of_true rfl ⟨hlast, hmantissa⟩
  · exact iff_of_false Bool.false_ne_true fun h => hlast h.1
  · exact iff_of_false Bool.false_ne_true fun h => hlast h.1
  · exact iff_of_false Bool.false_ne_true fun h => hlast h.1

theorem isNaN_quiet (h : Scalar.isNaN x = true) : Scalar.isNaN x.quiet = true := by
  change (decoded x).isNaN = true at h
  change (decoded x.quiet).isNaN = true
  rw [decoded_eq_unpack, unpack, isNaN_unpack_iff] at h ⊢
  have hlast : x.bits.toBitVec.extractLsb' 52 11 = -1#11 := h.1
  change (x.bits.toBitVec ||| 0x0008000000000000#64).extractLsb' 52 11 = -1#11 ∧
    (x.bits.toBitVec ||| 0x0008000000000000#64).extractLsb' 0 52 ≠ 0#52
  rw [BitVec.extractLsb'_or, BitVec.extractLsb'_or, hlast]
  refine ⟨by decide, fun hzero => ?_⟩
  have hmark := congrArg (·.getLsbD 51) hzero
  simp at hmark

theorem isFinite_quiet (h : Scalar.isNaN x = true) : Scalar.isFinite x.quiet ≠ true := by
  intro hfinite
  have hnumber := Scalar.Ordered.number_of_finite hfinite
  rw [isNaN_quiet h] at hnumber
  exact Bool.false_ne_true hnumber.symm

theorem isNaN_arith (op : Float → Float → Float) (h : Scalar.isNaN x = true) :
    Scalar.isNaN (arith op x y) = true := by
  have hquiet : arith op x y = x.quiet := if_pos h
  rw [hquiet, isNaN_quiet h]

/-- A finite result comes from numbers, and is that of the decoded operation. -/
theorem decoded_of_isFinite_arith {op : Float → Float → Float}
    {exact : UnpackedFloat → UnpackedFloat → UnpackedFloat} (hop : Performs op exact)
    (h : Scalar.isFinite (arith op x y) = true) :
    Scalar.isNaN x = false ∧ Scalar.isNaN y = false ∧
      decoded (arith op x y) = UnpackedFloat.unpack .binary64
        (UnpackedFloat.pack .binary64 (exact (decoded x) (decoded y))) := by
  cases hx : Scalar.isNaN x with
  | true =>
    have hquiet : arith op x y = x.quiet := if_pos hx
    rw [hquiet] at h
    exact absurd h (isFinite_quiet hx)
  | false =>
    cases hy : Scalar.isNaN y with
    | true =>
      have hx' : x.isNaN = false := hx
      have hy' : y.isNaN = true := hy
      have hquiet : arith op x y = y.quiet := by
        rw [arith, hx', hy']
        rfl
      rw [hquiet] at h
      exact absurd h (isFinite_quiet hy)
    | false =>
      rw [arith_eq op hx hy] at h ⊢
      have hnumber : (op x.toFloat y.toFloat).isNaN = false := by
        by_contra hnan
        rw [ofFloat, if_pos (Bool.not_eq_false _ ▸ hnan)] at h
        exact absurd h (by decide)
      refine ⟨rfl, rfl, ?_⟩
      rw [decoded_ofFloat hnumber, hop]
      rfl

theorem isFinite_of_packed {u : UnpackedFloat}
    (h : (UnpackedFloat.unpack .binary64 (UnpackedFloat.pack .binary64 u)).isFinite = true) :
    u.isFinite = true := by
  cases u with
  | notANumber =>
    rw [unpack_pack (u := .notANumber) trivial trivial] at h
    exact h
  | infinity s =>
    rw [unpack_pack (u := .infinity s) trivial trivial] at h
    exact h
  | zero s => rfl
  | finite s m e hm => rfl

theorem isFinite_of_arith {op : Float → Float → Float}
    {exact : UnpackedFloat → UnpackedFloat → UnpackedFloat} (hop : Performs op exact)
    (h : Scalar.isFinite (arith op x y) = true) :
    (exact (decoded x) (decoded y)).isFinite = true := by
  obtain ⟨-, -, hdecoded⟩ := decoded_of_isFinite_arith hop h
  refine isFinite_of_packed ?_
  rw [← hdecoded]
  exact h

theorem isFinite_of_mul (h : Scalar.isFinite (x * y) = true) :
    Scalar.isFinite x = true ∧ Scalar.isFinite y = true := by
  have hexact : (UnpackedFloat.mul .binary64 (decoded x) (decoded y)).isFinite = true :=
    isFinite_of_arith unpack_mul h
  change (decoded x).isFinite = true ∧ (decoded y).isFinite = true
  generalize decoded x = u at *
  generalize decoded y = v at *
  cases u <;> cases v <;>
    first
    | exact ⟨rfl, rfl⟩
    | exact absurd hexact Bool.false_ne_true

theorem isFinite_of_add (h : Scalar.isFinite (x + y) = true) :
    Scalar.isFinite x = true ∧ Scalar.isFinite y = true := by
  have hexact : (UnpackedFloat.add .binary64 (decoded x) (decoded y)).isFinite = true :=
    isFinite_of_arith unpack_add h
  change (decoded x).isFinite = true ∧ (decoded y).isFinite = true
  generalize decoded x = u at *
  generalize decoded y = v at *
  rcases u with (_ | _) | _ | (_ | _) | _ <;> rcases v with (_ | _) | _ | (_ | _) | _ <;>
    first
    | exact ⟨rfl, rfl⟩
    | exact absurd hexact Bool.false_ne_true

theorem isFinite_of_div (h : Scalar.isFinite (x / y) = true) : Scalar.isFinite x = true := by
  have hexact : (UnpackedFloat.div .binary64 (decoded x) (decoded y)).isFinite = true :=
    isFinite_of_arith unpack_div h
  change (decoded x).isFinite = true
  generalize decoded x = u at *
  generalize decoded y = v at *
  cases u <;> cases v <;>
    first
    | rfl
    | exact absurd hexact Bool.false_ne_true

theorem value_ne_zero_of_div (hy : Scalar.isFinite y = true)
    (h : Scalar.isFinite (x / y) = true) : value y ≠ 0 := by
  have hexact : (UnpackedFloat.div .binary64 (decoded x) (decoded y)).isFinite = true :=
    isFinite_of_arith unpack_div h
  have hdecoded : (decoded y).isFinite = true := hy
  change decodedValue (decoded y) ≠ 0
  generalize decoded x = u at *
  generalize decoded y = v at *
  rcases finite_cases hdecoded with ⟨s, rfl⟩ | ⟨s, m, e, hm, rfl⟩
  · cases u <;> exact absurd hexact Bool.false_ne_true
  · rw [decodedValue_finite, ← abs_pos, abs_signed s (by positivity)]
    positivity

theorem div_infinite (hx : Scalar.isFinite x = true) (hy : Scalar.isNaN y = false)
    (hinfinite : Scalar.isFinite y ≠ true) :
    Scalar.isFinite (x / y) = true ∧ value (x / y) = 0 := by
  obtain ⟨s, hs⟩ : ∃ s, UnpackedFloat.div .binary64 (decoded x) (decoded y) = .zero s := by
    change (decoded x).isFinite = true at hx
    change (decoded y).isNaN = false at hy
    change (decoded y).isFinite ≠ true at hinfinite
    generalize decoded x = u at *
    generalize decoded y = v at *
    cases u <;> cases v <;>
      first
      | exact ⟨_, rfl⟩
      | exact absurd hx Bool.false_ne_true
      | exact absurd hy.symm Bool.false_ne_true
      | exact absurd rfl hinfinite
  have hnumber := Scalar.Ordered.number_of_finite hx
  have hdecoded : decoded (x / y) = .zero s := by
    have hquotient : x / y = ofFloat (x.toFloat / y.toFloat) := arith_eq (· / ·) hnumber hy
    have hunpacked : (x.toFloat / y.toFloat).toModel.unpack = .zero s := by
      rw [unpack_div]
      change UnpackedFloat.unpack .binary64 (UnpackedFloat.pack .binary64
        (.div .binary64 (decoded x) (decoded y))) = _
      rw [hs, (rounds_zero s).packed (by rw [abs_zero]; exact overflow_pos)]
    rw [hquotient, decoded_ofFloat (congrArg UnpackedFloat.isNaN hunpacked), hunpacked]
  exact ⟨congrArg UnpackedFloat.isFinite hdecoded, congrArg decodedValue hdecoded⟩

theorem value_of_infinite (h : Scalar.isFinite x ≠ true) : value x = 0 := by
  change (decoded x).isFinite ≠ true at h
  change decodedValue (decoded x) = 0
  generalize decoded x = u at *
  cases u with
  | finite s m e hm => exact absurd rfl h
  | _ => rfl

theorem Nearest.value_unique {q : ℚ} (hx : Nearest x q) (hy : Nearest y q) : value x = value y := by
  by_cases hq : |q| < overflow
  · rw [hx.value_eq (hx.finite_iff.2 hq), hy.value_eq (hy.finite_iff.2 hq)]
  · rw [value_of_infinite fun h => hq (hx.finite_iff.1 h),
      value_of_infinite fun h => hq (hy.finite_iff.1 h)]

theorem equal_of_value_eq (hx : Scalar.isFinite x = true) (hy : Scalar.isFinite y = true)
    (h : value x = value y) : Scalar.equal x y = true := by
  have hplace := place_eq_of_value_eq hx hy h
  obtain ⟨o, ho, hcompares⟩ := compare_place (u := decoded x) (v := decoded y)
    (Scalar.Ordered.number_of_finite hx) (Scalar.Ordered.number_of_finite hy)
  obtain rfl : o = .eq := hcompares.eq_eq.2 hplace
  have hequal : ((decoded x).compare (decoded y) == some .eq) = true := by
    rw [ho]
    rfl
  exact hequal

theorem value_sub_ne_zero (hx : Scalar.isFinite x = true) (hy : Scalar.isFinite y = true)
    (hne : value x ≠ value y) (hfinite : Scalar.isFinite (x - y) = true) : value (x - y) ≠ 0 := by
  have hpositive {x y : Binary64} (hx : Scalar.isFinite x = true) (hy : Scalar.isFinite y = true)
      (hlt : value y < value x) (hfinite : Scalar.isFinite (x - y) = true) : 0 < value (x - y) :=
    (lt_iff_value_lt (x := 0) rfl hfinite).1 (sub_pos_of_lt ((lt_iff_value_lt hy hx).2 hlt))
  rcases hne.lt_or_gt with hlt | hgt
  · have hnearest := nearest_sub hx hy
    have hopposite := nearest_sub hy hx
    rw [← neg_sub] at hopposite
    have hfinite' : Scalar.isFinite (y - x) = true := by
      rw [hopposite.finite_iff, abs_neg]
      exact hnearest.finite_iff.1 hfinite
    have hsign : value (y - x) = -value (x - y) := by
      rw [hopposite.value_eq hfinite', rounded_neg, hnearest.value_eq hfinite]
    have hgreater := hpositive hy hx hlt hfinite'
    rw [hsign] at hgreater
    exact (neg_pos.1 hgreater).ne
  · exact (hpositive hx hy hgt hfinite).ne'

end

section

variable {q r : ℚ} {j k l : ℤ}

theorem abs_mul_le_two_zpow (hq : |q| ≤ 2 ^ j) (hr : |r| ≤ 2 ^ k) (hl : j + k ≤ l) :
    |q * r| ≤ 2 ^ l := by
  calc |q * r| = |q| * |r| := abs_mul q r
    _ ≤ 2 ^ j * 2 ^ k := mul_le_mul hq hr (abs_nonneg r) (two_zpow_pos j).le
    _ = 2 ^ (j + k) := (two_zpow_add j k).symm
    _ ≤ 2 ^ l := two_zpow_le.2 hl

theorem abs_div_le_two_zpow (hq : |q| ≤ 2 ^ j) (hr : 2 ^ k ≤ |r|) (hl : j - k ≤ l) :
    |q / r| ≤ 2 ^ l := by
  calc |q / r| = |q| / |r| := abs_div q r
    _ ≤ 2 ^ j / 2 ^ k := div_le_div₀ (two_zpow_pos j).le hq (two_zpow_pos k) hr
    _ = 2 ^ (j - k) := (zpow_sub₀ two_ne_zero j k).symm
    _ ≤ 2 ^ l := two_zpow_le.2 hl

theorem two_zpow_le_abs_div (hq : 2 ^ j ≤ |q|) (hr : |r| ≤ 2 ^ k) (hzero : r ≠ 0) (hl : l ≤ j - k) :
    2 ^ l ≤ |q / r| := by
  calc (2 : ℚ) ^ l ≤ 2 ^ (j - k) := two_zpow_le.2 hl
    _ = 2 ^ j / 2 ^ k := zpow_sub₀ two_ne_zero j k
    _ ≤ |q| / |r| := div_le_div₀ (abs_nonneg q) hq (abs_pos.2 hzero) hr
    _ = |q / r| := (abs_div q r).symm

theorem abs_sub_le_two_zpow (hq : |q| ≤ 2 ^ k) (hr : |r| ≤ 2 ^ k) : |q - r| ≤ 2 ^ (k + 1) := by
  calc |q - r| ≤ |q| + |r| := abs_sub q r
    _ ≤ 2 ^ k + 2 ^ k := add_le_add hq hr
    _ = 2 ^ (k + 1) := by rw [two_zpow_add, zpow_one, mul_two]

theorem lt_overflow_of_le (hq : |q| ≤ 2 ^ k) (hk : k ≤ 1023) : |q| < overflow := by
  have hlast := two_pow_1023_lt_overflow
  rw [← zpow_ofNat] at hlast
  exact (hq.trans (two_zpow_le.2 hk)).trans_lt hlast

theorem ne_zero_of_two_zpow_le (h : 2 ^ k ≤ |q|) : q ≠ 0 :=
  abs_pos.1 ((two_zpow_pos k).trans_le h)

variable {x : Binary64}

theorem Nearest.finite_of_le (h : Nearest x q) (hq : |q| ≤ 2 ^ k) (hk : k ≤ 1023) :
    Scalar.isFinite x = true :=
  h.finite_iff.2 (lt_overflow_of_le hq hk)

theorem Nearest.abs_value_le (h : Nearest x q) (hq : |q| ≤ 2 ^ k) (hleast : -1074 ≤ k)
    (hk : k ≤ 1023) : |value x| ≤ 2 ^ k := by
  rw [h.value_eq (h.finite_of_le hq hk)]
  exact abs_rounded_le hleast hq

theorem Nearest.le_abs_value (h : Nearest x q) (hq : 2 ^ k ≤ |q|) (hleast : -1074 ≤ k)
    (hx : Scalar.isFinite x = true) : 2 ^ k ≤ |value x| := by
  rw [h.value_eq hx]
  exact le_abs_rounded hleast hq

end

end TransferCurves.Binary64
