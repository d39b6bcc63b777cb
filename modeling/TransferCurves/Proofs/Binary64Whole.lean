import TransferCurves.Proofs.Binary64Rounding

/-!
# Whole numbers as doubles

A whole number below `2 ^ 64` becomes a finite double, and stays one when it is multiplied by one.
-/

namespace TransferCurves.Binary64

open scoped Scalar
open Float.Model (UnpackedFloat Format)
open Float.Model.UnpackedFloat

def Moderate (lo hi : Int) : UnpackedFloat → Prop
  | .zero _ => True
  | .finite s m e hm => Canonical (.finite s m e hm) ∧ lo ≤ e ∧ e ≤ hi
  | _ => False

def unit : UnpackedFloat := .finite .positive (2 ^ 52) (-52) (by decide)

section

variable {lo hi : Int} {u : UnpackedFloat}

theorem Moderate.isFinite (h : Moderate lo hi u) : u.isFinite = true := by
  cases u with
  | zero s => rfl
  | finite s m e hm => rfl
  | _ => exact h.elim

theorem Moderate.mono {lo' hi' : Int} (h : Moderate lo hi u) (hlo : lo' ≤ lo) (hhi : hi ≤ hi') :
    Moderate lo' hi' u := by
  cases u with
  | zero s => exact trivial
  | finite s m e hm => exact ⟨h.1, hlo.trans h.2.1, h.2.2.trans hhi⟩
  | _ => exact h.elim

theorem Moderate.packed (h : Moderate lo hi u) (hhi : hi ≤ 971) :
    Moderate lo hi (UnpackedFloat.unpack .binary64 (UnpackedFloat.pack .binary64 u)) := by
  cases u with
  | zero s => cases s <;> exact trivial
  | finite s m e hm =>
    rw [unpack_pack h.1 (h.2.2.trans hhi)]
    exact h
  | _ => exact h.elim

theorem moderate_wide {s : Sign} {m : Nat} {e : Int} (hm : 0 < m) (hleast : -1074 ≤ e)
    (hwide : 52 ≤ m.log2) (hlo : lo ≤ m.log2 + e - 52) (hhi : m.log2 + e - 51 ≤ hi) :
    Moderate lo hi (roundWithAccuracy .binary64 s m e .exact) := by
  obtain ⟨m', e', hm', hround, hcanonical, hbelow, habove⟩ :=
    roundWithAccuracy_of_wide (s := s) hm hleast hwide
  rw [hround]
  exact ⟨hcanonical, hlo.trans hbelow, habove.trans hhi⟩

theorem log2_mul_two_pow {m : Nat} (hm : 0 < m) (k : Nat) : (m * 2 ^ k).log2 = m.log2 + k := by
  obtain ⟨hlow, hhigh⟩ := (Nat.log2_eq_iff hm.ne').1 rfl
  refine (Nat.log2_eq_iff (Nat.mul_pos hm (Nat.two_pow_pos k)).ne').2 ⟨?_, ?_⟩
  · rw [Nat.pow_add]
    exact Nat.mul_le_mul_right _ hlow
  · rw [Nat.add_right_comm, Nat.pow_add]
    exact Nat.mul_lt_mul_of_pos_right hhigh (Nat.two_pow_pos k)

theorem Moderate.mul_unit (h : Moderate lo hi u) (hlo : -1022 ≤ lo) :
    Moderate (lo - 52) (hi + 1) (.mul .binary64 u unit) := by
  cases u with
  | zero s => exact trivial
  | finite s m e hm =>
    obtain ⟨⟨-, hfit, -⟩, hlo', hhi'⟩ := h
    have hlog := log2_mul_two_pow hm 52
    have hlog' : m.log2 < 53 := (Nat.log2_lt hm.ne').2 hfit
    exact moderate_wide (Nat.mul_pos hm (Nat.two_pow_pos 52)) (by omega) (by omega) (by omega)
      (by omega)
  | _ => exact h.elim

end

theorem unpack_mul (a b : Float) :
    (a * b).toModel.unpack = UnpackedFloat.unpack .binary64 (UnpackedFloat.pack .binary64
      (.mul .binary64 a.toModel.unpack b.toModel.unpack)) := rfl

theorem moderate_ofNat {n : Nat} (h : n < 2 ^ 53) :
    Moderate (-52) 1 (UnpackedFloat.ofNat .binary64 n) := by
  rcases Nat.eq_zero_or_pos n with rfl | hpos
  · exact trivial
  · have hcompare : compare (n : Int) 0 = .gt := compare_gt_iff_gt.2 (Int.natCast_pos.2 hpos)
    have hlog : n.log2 < 53 := (Nat.log2_lt hpos.ne').2 h
    obtain ⟨m, e, hm, hround, hcanonical, hbelow, habove⟩ :=
      round_canonical (s := .positive) (e := 0) hpos (by omega)
    rw [UnpackedFloat.ofNat, UnpackedFloat.ofInt, UnpackedFloat.normalize, hcompare]
    simp only [Int.toNat_natCast, hround]
    exact ⟨hcanonical, by omega, by omega⟩

/-- Small numbers are converted and multiplied by one. -/
theorem unpack_ofNat_small {n : Nat} (h : n < 2 ^ 53) :
    (Float.ofNat n).toModel.unpack = UnpackedFloat.unpack .binary64 (UnpackedFloat.pack .binary64
      (.mul .binary64 (UnpackedFloat.unpack .binary64
        (UnpackedFloat.pack .binary64 (UnpackedFloat.ofNat .binary64 n))) unit)) := by
  have hfloat : Float.ofNat n = n.toUInt64.toFloat * Float.exactlyRepresentablePowersOfTen[0] :=
    dif_pos (c := n < 2 ^ 53 ∧ 0 ≤ 22) ⟨h, by omega⟩
  have hword : n.toUInt64.toNat = n := UInt64.toNat_ofNat_of_lt' (h.trans (by decide))
  have hconverted : n.toUInt64.toFloat.toModel.unpack = UnpackedFloat.unpack .binary64
      (UnpackedFloat.pack .binary64 (UnpackedFloat.ofNat .binary64 n.toUInt64.toNat)) := rfl
  rw [hfloat, unpack_mul, hconverted, hword]
  rfl

theorem moderate_toFloat_small {n : Nat} (h : n < 2 ^ 53) :
    Moderate (-104) 2 (Float.ofNat n).toModel.unpack := by
  have hconverted := (moderate_ofNat h).packed (by omega)
  rw [unpack_ofNat_small h]
  exact (hconverted.mul_unit (by omega)).packed (by omega)

theorem unpack_ofNat_large {n : Nat} (h : 2 ^ 53 ≤ n) :
    (Float.ofNat n).toModel.unpack = UnpackedFloat.unpack .binary64 (UnpackedFloat.pack .binary64
      (roundWithAccuracy .binary64 .positive (n * 2 ^ 53) (-53) .exact)) := by
  have hfloat : (Float.ofNat n).toModel =
      Float.Model.ofScientific n 0 := congrArg Float.toModel
    (dif_neg (c := n < 2 ^ 53 ∧ 0 ≤ 22) fun hsmall => h.not_gt hsmall.1)
  have hpos : 0 < n := (Nat.two_pow_pos 53).trans_le h
  have hunpacked : UnpackedFloat.ofScientific .binary64 n 0 =
      roundWithAccuracy .binary64 .positive (n * 2 ^ 53) (-53) .exact := by
    have hbits : (2 : Int) ^ Format.binary64.exponentBits = 2048 := rfl
    rw [UnpackedFloat.ofScientific, dif_neg hpos.ne', hbits, if_neg (by decide),
      if_neg (by omega), if_pos (Int.le_refl 0)]
    change roundWithAccuracy .binary64 .positive (n <<< 53 * 1) (-53) .exact = _
    rw [Nat.mul_one, Nat.shiftLeft_eq]
  rw [hfloat, ← hunpacked]
  rfl

theorem moderate_toFloat_large {n : Nat} (hlarge : 2 ^ 53 ≤ n) (h : n < 2 ^ 64) :
    Moderate (-104) 12 (Float.ofNat n).toModel.unpack := by
  have hpos : 0 < n := by omega
  have hlog : n.log2 < 64 := (Nat.log2_lt hpos.ne').2 h
  have hlog' : 53 ≤ n.log2 := (Nat.le_log2 hpos.ne').2 hlarge
  have hwide := log2_mul_two_pow hpos 53
  have hmoderate : Moderate (-104) 12
      (roundWithAccuracy .binary64 .positive (n * 2 ^ 53) (-53) .exact) :=
    moderate_wide (Nat.mul_pos hpos (Nat.two_pow_pos 53)) (by omega) (by omega) (by omega)
      (by omega)
  rw [unpack_ofNat_large hlarge]
  exact hmoderate.packed (by omega)

theorem moderate_toFloat {n : Nat} (h : n < 2 ^ 64) :
    Moderate (-104) 12 (Float.ofNat n).toModel.unpack := by
  rcases Nat.lt_or_ge n (2 ^ 53) with hsmall | hlarge
  · exact (moderate_toFloat_small hsmall).mono (by omega) (by omega)
  · exact moderate_toFloat_large hlarge h

theorem isFinite_ofNat_mul_one {n : Nat} (h : n < 2 ^ 64) :
    Scalar.isFinite (ofNat n * (1 : Binary64)) = true := by
  have hn := moderate_toFloat h
  have hnumber : (Float.ofNat n).isNaN = false := number_of_finite hn.isFinite
  have hdecoded : decoded (ofNat n) = (Float.ofNat n).toModel.unpack := decoded_ofFloat hnumber
  have hone : decoded (1 : Binary64) = unit := rfl
  have hx : Scalar.isNaN (ofNat n) = false := number_of_finite (u := decoded (ofNat n)) (by
    rw [hdecoded]
    exact hn.isFinite)
  have hproduct :
      Moderate (-156) 13 ((ofNat n).toFloat * (1 : Binary64).toFloat).toModel.unpack := by
    rw [unpack_mul]
    change Moderate (-156) 13 (UnpackedFloat.unpack .binary64 (UnpackedFloat.pack .binary64
      (.mul .binary64 (decoded (ofNat n)) (decoded 1))))
    rw [hdecoded, hone]
    exact (hn.mul_unit (by omega)).packed (by omega)
  have harith : ofNat n * (1 : Binary64) = ofFloat ((ofNat n).toFloat * (1 : Binary64).toFloat) :=
    arith_eq (· * ·) hx rfl
  rw [harith]
  change (decoded (ofFloat _)).isFinite = true
  rw [decoded_ofFloat (number_of_finite hproduct.isFinite)]
  exact hproduct.isFinite

end TransferCurves.Binary64
