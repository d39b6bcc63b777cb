import TransferCurves.Proofs.Binary64Order
import Mathlib

/-!
# Decoding and packing doubles

Decoding gives a number in canonical form: its mantissa fills 53 bits, or its exponent is the least.
Packing a number in that form and decoding it again gives it back, or an infinity if it is too
large. Decoding bits and packing them again loses only the payload of what is not a number.
-/

namespace TransferCurves.Binary64

open Float.Model (UnpackedFloat Format)
open Float.Model.UnpackedFloat

/-- The mantissa fits 53 bits, and it fills them unless the exponent is the least. -/
def Canonical : UnpackedFloat → Prop
  | .finite _ m e _ => -1074 ≤ e ∧ m < 2 ^ 53 ∧ (2 ^ 52 ≤ m ∨ e = -1074)
  | _ => True

def InRange : UnpackedFloat → Prop
  | .finite _ _ e _ => e ≤ 971
  | _ => True

theorem exponentBias_eq : ((Format.binary64.exponentBias : Nat) : Int) = 1023 := rfl

theorem biasedExponent_eq (e : Int) :
    (e + Format.binary64.exponentBias + (52 : Nat)).toNat = (e + 1075).toNat := by
  change (e + 1023 + 52).toNat = _
  omega

theorem toNat_one_append (v : BitVec 52) : (1#1 ++ v).toNat = 2 ^ 52 + v.toNat := by
  rw [BitVec.toNat_append, ← Nat.shiftLeft_add_eq_or_of_lt v.isLt]
  rfl

theorem canonical_unpack (b : BitVec 64) :
    Canonical (.unpack .binary64 b) ∧ InRange (.unpack .binary64 b) := by
  have hm : (@unpackMantissa .binary64 b).toNat < 2 ^ 52 :=
    (@unpackMantissa .binary64 b).isLt
  have he : (@unpackExponent .binary64 b).toNat < 2 ^ 11 :=
    (@unpackExponent .binary64 b).isLt
  rw [UnpackedFloat.unpack]
  split_ifs with hlast hmantissa hleast hmantissa
  · exact ⟨trivial, trivial⟩
  · exact ⟨trivial, trivial⟩
  · exact ⟨trivial, trivial⟩
  · have hzero : (@unpackExponent .binary64 b).toNat = 0 := congrArg BitVec.toNat hleast
    simp only [Canonical, InRange, hzero, exponentBias_eq]
    omega
  · have hpos : (@unpackExponent .binary64 b).toNat ≠ 0 :=
      fun h => hleast (BitVec.eq_of_toNat_eq h)
    have hbelow : (@unpackExponent .binary64 b).toNat ≠ 2047 :=
      fun h => hlast (BitVec.eq_of_toNat_eq h)
    have happend := toNat_one_append (@unpackMantissa .binary64 b)
    simp only [Canonical, InRange, exponentBias_eq, happend]
    omega

section

variable {s : Sign} {m : Nat} {e : Int} (hm : 0 < m)

theorem pack_normal (hfull : 2 ^ 52 ≤ m) (hfit : m < 2 ^ 53) (hgreatest : e ≤ 971) :
    UnpackedFloat.pack .binary64 (.finite s m e hm) =
      packComponents .binary64 s (BitVec.ofNat 11 (e + 1075).toNat) (BitVec.ofNat 52 m) := by
  have hlog : m.log2 = 52 := (Nat.log2_eq_iff hm.ne').2 ⟨hfull, hfit⟩
  rw [UnpackedFloat.pack]
  simp only [hlog, biasedExponent_eq]
  rw [if_neg (by omega), if_pos (by decide)]

theorem pack_subnormal (hsmall : m < 2 ^ 52) :
    UnpackedFloat.pack .binary64 (.finite s m (-1074) hm) =
      packComponents .binary64 s 0#11 (BitVec.ofNat 52 m) := by
  have hlog : m.log2 < 52 := (Nat.log2_lt hm.ne').2 hsmall
  have hbits : m.log2 + 1 ≠ Format.binary64.mantissaBits := by
    change m.log2 + 1 ≠ 53
    omega
  rw [UnpackedFloat.pack]
  simp only
  rw [if_neg (by decide), if_neg hbits]

theorem unpack_pack_normal (hfull : 2 ^ 52 ≤ m) (hfit : m < 2 ^ 53) (hleast : -1074 ≤ e)
    (hgreatest : e ≤ 971) :
    UnpackedFloat.unpack .binary64 (UnpackedFloat.pack .binary64 (.finite s m e hm)) =
      .finite s m e hm := by
  have hexponent : (BitVec.ofNat 11 (e + 1075).toNat).toNat = (e + 1075).toNat := by
    rw [BitVec.toNat_ofNat]
    omega
  have hlast : BitVec.ofNat 11 (e + 1075).toNat ≠ -1#11 := by
    intro h
    have htoNat := congrArg BitVec.toNat h
    rw [hexponent] at htoNat
    change _ = 2047 at htoNat
    omega
  have hzero : BitVec.ofNat 11 (e + 1075).toNat ≠ 0#11 := by
    intro h
    have htoNat := congrArg BitVec.toNat h
    rw [hexponent] at htoNat
    change _ = 0 at htoNat
    omega
  have hmantissa : (1#1 ++ BitVec.ofNat 52 m).toNat = m := by
    rw [toNat_one_append, BitVec.toNat_ofNat]
    omega
  rw [pack_normal hm hfull hfit hgreatest, UnpackedFloat.unpack]
  simp only [unpackMantissa_packComponents, unpackExponent_packComponents,
    unpackSign_packComponents, Sign.ofBitVec_toBitVec]
  rw [if_neg hlast, if_neg hzero]
  simp only [hmantissa, hexponent, exponentBias_eq, UnpackedFloat.finite.injEq, true_and]
  omega

theorem unpack_pack_subnormal (hsmall : m < 2 ^ 52) :
    UnpackedFloat.unpack .binary64 (UnpackedFloat.pack .binary64 (.finite s m (-1074) hm)) =
      .finite s m (-1074) hm := by
  have hmantissa : (BitVec.ofNat 52 m).toNat = m := by
    rw [BitVec.toNat_ofNat]
    omega
  have hne : BitVec.ofNat 52 m ≠ 0#52 := by
    intro h
    have htoNat := congrArg BitVec.toNat h
    rw [hmantissa] at htoNat
    exact hm.ne' htoNat
  rw [pack_subnormal hm hsmall, UnpackedFloat.unpack]
  simp only [unpackMantissa_packComponents, unpackExponent_packComponents,
    unpackSign_packComponents, Sign.ofBitVec_toBitVec]
  rw [if_neg (by decide), if_pos trivial, dif_neg hne]
  simp only [hmantissa]
  rfl

theorem unpack_pack_large (hlarge : 971 < e) :
    UnpackedFloat.unpack .binary64 (UnpackedFloat.pack .binary64 (.finite s m e hm)) =
      .infinity s := by
  have hbeyond : 2 ^ 11 ≤ (e + 1075).toNat + 1 := by omega
  rw [UnpackedFloat.pack]
  simp only [biasedExponent_eq]
  rw [if_pos hbeyond]
  cases s <;> rfl

end

theorem unpack_pack {u : UnpackedFloat} (h : Canonical u) (hrange : InRange u) :
    UnpackedFloat.unpack .binary64 (UnpackedFloat.pack .binary64 u) = u := by
  cases u with
  | notANumber => rfl
  | infinity s => cases s <;> rfl
  | zero s => cases s <;> rfl
  | finite s m e hm =>
    obtain ⟨hleast, hfit, hfull | rfl⟩ := h
    · exact unpack_pack_normal hm hfull hfit hleast hrange
    · rcases Nat.lt_or_ge m (2 ^ 52) with hsmall | hfull
      · exact unpack_pack_subnormal hm hsmall
      · exact unpack_pack_normal hm hfull hfit hleast hrange

theorem packComponents_unpack (b : BitVec 64) :
    packComponents .binary64 (Sign.ofBitVec (@unpackSign .binary64 b)) (@unpackExponent .binary64 b)
      (@unpackMantissa .binary64 b) = b := by
  have hsign (v : BitVec 1) : (Sign.ofBitVec v).toBitVec = v := by
    rcases BitVec.eq_zero_or_eq_one v with rfl | rfl <;> rfl
  have hupper : b.extractLsb' 63 1 ++ b.extractLsb' 52 11 = b.extractLsb' 52 12 :=
    BitVec.extractLsb'_append_extractLsb'_eq_extractLsb' rfl
  have hall : b.extractLsb' 52 12 ++ b.extractLsb' 0 52 = b.extractLsb' 0 64 :=
    BitVec.extractLsb'_append_extractLsb'_eq_extractLsb' rfl
  rw [packComponents, hsign]
  calc b.extractLsb' 63 1 ++ b.extractLsb' 52 11 ++ b.extractLsb' 0 52
      = b.extractLsb' 52 12 ++ b.extractLsb' 0 52 := by rw [hupper]
    _ = b := hall.trans BitVec.extractLsb'_eq_self

/-- Decoding loses nothing but the payload of what is not a number. -/
theorem pack_unpack {b : BitVec 64} (h : (UnpackedFloat.unpack .binary64 b).isNaN = false) :
    UnpackedFloat.pack .binary64 (.unpack .binary64 b) = b := by
  have hm : (@unpackMantissa .binary64 b).toNat < 2 ^ 52 := (@unpackMantissa .binary64 b).isLt
  have he : (@unpackExponent .binary64 b).toNat < 2 ^ 11 := (@unpackExponent .binary64 b).isLt
  have hpacked := packComponents_unpack b
  rw [UnpackedFloat.unpack] at h ⊢
  by_cases hlast : @unpackExponent .binary64 b = -1#11
  · by_cases hmantissa : @unpackMantissa .binary64 b = 0#52
    · rw [hlast, hmantissa] at hpacked
      rw [if_pos hlast, if_pos hmantissa]
      exact hpacked
    · rw [if_pos hlast, if_neg hmantissa] at h
      exact absurd h.symm Bool.false_ne_true
  · rw [if_neg hlast]
    by_cases hleast : @unpackExponent .binary64 b = 0#11
    · rw [if_pos hleast]
      by_cases hmantissa : @unpackMantissa .binary64 b = 0#52
      · rw [hleast, hmantissa] at hpacked
        rw [dif_pos hmantissa]
        exact hpacked
      · rw [dif_neg hmantissa]
        have hpos : 0 < (@unpackMantissa .binary64 b).toNat :=
          Nat.pos_of_ne_zero fun hzero => hmantissa (BitVec.eq_of_toNat_eq hzero)
        have hexponent : ((@unpackExponent .binary64 b).toNat : Int) -
            (Format.binary64.exponentBias + (52 : Nat)) + 1 = -1074 := by
          rw [hleast]
          rfl
        rw [hleast] at hpacked
        simp only [hexponent]
        rw [pack_subnormal hpos hm, BitVec.ofNat_toNat, BitVec.setWidth_eq]
        exact hpacked
    · rw [if_neg hleast]
      have hbelow : (@unpackExponent .binary64 b).toNat ≠ 2047 :=
        fun h => hlast (BitVec.eq_of_toNat_eq h)
      have happend := toNat_one_append (@unpackMantissa .binary64 b)
      have hmantissa : BitVec.ofNat 52 (1#1 ++ @unpackMantissa .binary64 b).toNat =
          @unpackMantissa .binary64 b := by
        refine BitVec.eq_of_toNat_eq ?_
        rw [BitVec.toNat_ofNat]
        omega
      have hexponent : ((@unpackExponent .binary64 b).toNat -
          (Format.binary64.exponentBias + (52 : Nat)) + 1075 : Int).toNat =
            (@unpackExponent .binary64 b).toNat := by
        rw [exponentBias_eq]
        omega
      have hgreatest : ((@unpackExponent .binary64 b).toNat -
          (Format.binary64.exponentBias + (52 : Nat)) : Int) ≤ 971 := by
        rw [exponentBias_eq]
        omega
      rw [pack_normal _ (by omega) (by omega) hgreatest, hmantissa, hexponent, BitVec.ofNat_toNat,
        BitVec.setWidth_eq]
      exact hpacked

theorem decoded_eq_unpack (x : Binary64) : decoded x = x.unpack :=
  unpack_pack (canonical_unpack x.bits.toBitVec).1 (canonical_unpack x.bits.toBitVec).2

theorem decoded_bounds (x : Binary64) : Canonical (decoded x) ∧ InRange (decoded x) := by
  rw [decoded_eq_unpack]
  exact canonical_unpack x.bits.toBitVec

theorem decoded_ofFloat {r : Float} (h : r.isNaN = false) :
    decoded (ofFloat r) = r.toModel.unpack := by
  rw [ofFloat, h, decoded_eq_unpack]
  rfl

open scoped Scalar

theorem arith_eq (op : Float → Float → Float) {x y : Binary64} (hx : Scalar.isNaN x = false)
    (hy : Scalar.isNaN y = false) : arith op x y = ofFloat (op x.toFloat y.toFloat) := by
  have hx' : x.isNaN = false := hx
  have hy' : y.isNaN = false := hy
  rw [arith, hx', hy']
  rfl

end TransferCurves.Binary64
