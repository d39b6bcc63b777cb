import TransferCurves.Proofs.Binary64Rounding

/-!
# Differences of doubles

The difference of two finite doubles is a multiple of the least one, and rounding does not take such
a number to zero: the difference of two doubles in order is positive.
-/

namespace TransferCurves.Binary64

open Float.Model (UnpackedFloat Format)
open Float.Model.UnpackedFloat

theorem magnitude_lt {m m' : Nat} {e e' k : Int} (h : e < e' ∨ (e = e' ∧ m < m'))
    (hfit : m < 2 ^ 53) (hleast : -1074 ≤ e) (hfull : 2 ^ 52 ≤ m' ∨ e' = -1074) (hk : k ≤ e) :
    m * 2 ^ (e - k).toNat < m' * 2 ^ (e' - k).toNat := by
  rcases h with hlt | ⟨rfl, hm⟩
  · have hfull' : 2 ^ 52 ≤ m' := hfull.resolve_right (by omega)
    calc m * 2 ^ (e - k).toNat < 2 ^ 53 * 2 ^ (e - k).toNat :=
          Nat.mul_lt_mul_of_pos_right hfit (Nat.two_pow_pos _)
      _ = 2 ^ 52 * 2 ^ ((e - k).toNat + 1) := by
          rw [← Nat.pow_add, ← Nat.pow_add]
          congr 1
          omega
      _ ≤ m' * 2 ^ (e' - k).toNat :=
          Nat.mul_le_mul hfull' (Nat.pow_le_pow_right Nat.two_pos (by omega))
  · exact Nat.mul_lt_mul_of_pos_right hm (Nat.two_pow_pos _)

theorem finite_lt_iff {a : Int} {e e' m m' : Int} :
    toLex (a, toLex (e, m)) < toLex (a, toLex (e', m')) ↔ e < e' ∨ (e = e' ∧ m < m') := by
  simp only [Prod.Lex.toLex_lt_toLex, lt_self_iff_false, true_and, false_or]

theorem sub_finite_pos {s s' : Sign} {m m' : Nat} {e e' : Int} {hm : 0 < m} {hm' : 0 < m'}
    (hu : Canonical (.finite s m e hm)) (hv : Canonical (.finite s' m' e' hm'))
    (h : place (.finite s' m' e' hm') < place (.finite s m e hm)) :
    s'.apply (m' * 2 ^ (e' - min e e').toNat : Nat) <
      s.apply (m * 2 ^ (e - min e e').toNat : Nat) := by
  obtain ⟨hleast, hfit, hfull⟩ := hu
  obtain ⟨hleast', hfit', hfull'⟩ := hv
  have hpos : 0 < m * 2 ^ (e - min e e').toNat := Nat.mul_pos hm (Nat.two_pow_pos _)
  have hpos' : 0 < m' * 2 ^ (e' - min e e').toNat := Nat.mul_pos hm' (Nat.two_pow_pos _)
  cases s with
  | negative =>
    cases s' with
    | negative =>
      have horder := finite_lt_iff.1 h
      have hlt := magnitude_lt (k := min e e') (by omega) hfit hleast hfull' (by omega)
      simp only [Sign.apply]
      omega
    | positive => exact absurd h (lt_of_class (by decide)).not_gt
  | positive =>
    cases s' with
    | negative =>
      simp only [Sign.apply]
      omega
    | positive =>
      have horder := finite_lt_iff.1 h
      have hlt := magnitude_lt (k := min e e') (by omega) hfit' hleast' hfull (by omega)
      simp only [Sign.apply]
      omega

def Positive (u : UnpackedFloat) : Prop := u.isNaN = false ∧ place (.zero .positive) < place u

theorem positive_infinity : Positive (.infinity .positive) := ⟨rfl, lt_of_class (by decide)⟩

theorem positive_finite {m : Nat} {e : Int} (hm : 0 < m) : Positive (.finite .positive m e hm) :=
  ⟨rfl, lt_of_class (by decide)⟩

theorem normalize_positive {d e : Int} (hd : 0 < d) (hleast : -1074 ≤ e) (s : Sign) :
    Positive (UnpackedFloat.normalize .binary64 d e s) ∧
      Canonical (UnpackedFloat.normalize .binary64 d e s) := by
  have hcompare : compare d 0 = .gt := compare_gt_iff_gt.2 hd
  rw [UnpackedFloat.normalize, hcompare]
  obtain ⟨m, e', hm, hround, hcanonical, -, -⟩ :=
    round_canonical (s := .positive) (m := d.toNat) (by omega) hleast
  simp only [hround]
  exact ⟨positive_finite hm, hcanonical⟩

theorem sub_finite_eq (s s' : Sign) {m m' : Nat} (e e' : Int) (hm : 0 < m) (hm' : 0 < m') :
    UnpackedFloat.sub .binary64 (.finite s m e hm) (.finite s' m' e' hm') =
      UnpackedFloat.normalize .binary64 (s.apply (m * 2 ^ (e - min e e').toNat : Nat) -
        s'.apply (m' * 2 ^ (e' - min e e').toNat : Nat)) (min e e') .positive := by
  simp only [UnpackedFloat.sub, decreaseExponent, Nat.shiftLeft_eq]

/-- The difference of two numbers in order is positive: finite ones are multiples of the least
double. -/
theorem sub_positive {u v : UnpackedFloat} (hu : Canonical u) (hv : Canonical v)
    (hnumber : u.isNaN = false) (h : place v < place u) :
    Positive (.sub .binary64 u v) ∧ Canonical (.sub .binary64 u v) := by
  rcases u with (_ | _) | _ | (_ | _) | ⟨_ | _, m, e, hm⟩ <;>
    rcases v with (_ | _) | _ | (_ | _) | ⟨_ | _, m', e', hm'⟩ <;>
    first
    | exact absurd hnumber (by decide)
    | exact absurd h (by decide)
    | exact absurd h (lt_of_class (by decide)).not_gt
    | exact ⟨positive_infinity, trivial⟩
    | exact ⟨positive_finite hm, hu⟩
    | exact ⟨positive_finite hm', hv⟩
    | rw [sub_finite_eq]
      exact normalize_positive (sub_pos.2 (sub_finite_pos hu hv h)) (le_min hu.1 hv.1) _

theorem unpack_pack_positive {u : UnpackedFloat} (h : Positive u) (hu : Canonical u) :
    Positive (UnpackedFloat.unpack .binary64 (UnpackedFloat.pack .binary64 u)) := by
  by_cases hrange : InRange u
  · rwa [unpack_pack hu hrange]
  · cases u with
    | finite s m e hm =>
      cases s with
      | negative => exact absurd h.2 (lt_of_class (by decide)).not_gt
      | positive =>
        rw [unpack_pack_large hm (not_le.1 hrange)]
        exact positive_infinity
    | _ => exact absurd trivial hrange

open scoped Scalar

theorem unpack_sub (a b : Float) :
    (a - b).toModel.unpack = UnpackedFloat.unpack .binary64 (UnpackedFloat.pack .binary64
      (.sub .binary64 a.toModel.unpack b.toModel.unpack)) := rfl

theorem sub_pos_of_lt {x y : Binary64} (h : x < y) : 0 < y - x := by
  obtain ⟨hx, hy, hplace⟩ := lt_iff.1 h
  obtain ⟨hpositive, hdifference⟩ :=
    sub_positive (decoded_bounds y).1 (decoded_bounds x).1 hy hplace
  have hpacked := unpack_pack_positive hpositive hdifference
  have hdecoded : decoded (y - x) = UnpackedFloat.unpack .binary64 (UnpackedFloat.pack .binary64
      (.sub .binary64 (decoded y) (decoded x))) := by
    have harith : y - x = ofFloat (y.toFloat - x.toFloat) := arith_eq (· - ·) hy hx
    rw [harith, decoded_ofFloat, unpack_sub]
    · rfl
    · change (y.toFloat - x.toFloat).toModel.unpack.isNaN = false
      rw [unpack_sub]
      exact hpacked.1
  have hzero : decoded (0 : Binary64) = .zero .positive := rfl
  refine lt_iff.2 ⟨rfl, ?_, ?_⟩
  · change (decoded (y - x)).isNaN = false
    rw [hdecoded]
    exact hpacked.1
  · rw [hdecoded, hzero]
    exact hpacked.2

end TransferCurves.Binary64
