import TransferCurves.Proofs.Binary64Decoding

/-!
# Bits in order

Read as a whole number, the bits of a double without its sign count the doubles from zero up to its
magnitude. So the total order, which compares bits, agrees with the numerical order wherever that
tells two numbers apart.
-/

namespace TransferCurves.Binary64

open scoped Scalar
open Float.Model (UnpackedFloat Format)
open Float.Model.UnpackedFloat

/-- How many doubles there are from zero up to the number with a mantissa and an exponent. -/
def countUpTo (m : ℕ) (e : ℤ) : ℤ := (e + 1074) * 2 ^ 52 + m

def countUpToInfinity : ℤ := countUpTo (2 ^ 52) 972

def signedRank : Sign → ℤ → ℤ
  | .positive, n => n
  | .negative, n => -n - 1

def decodedRank : UnpackedFloat → ℤ
  | .zero s => signedRank s 0
  | .finite s m e _ => signedRank s (countUpTo m e)
  | .infinity s => signedRank s countUpToInfinity
  | .notANumber => 0

section

variable {m m' : ℕ} {e e' : ℤ} {s s' : Sign} {hm : 0 < m} {hm' : 0 < m'}

theorem countUpTo_pos (h : Canonical (.finite s m e hm)) : 0 < countUpTo m e := by
  obtain ⟨hleast, -, -⟩ := h
  rw [countUpTo]
  omega

theorem countUpTo_lt_infinity (h : Canonical (.finite s m e hm))
    (hrange : InRange (.finite s m e hm)) : countUpTo m e < countUpToInfinity := by
  obtain ⟨-, hfit, -⟩ := h
  have hgreatest : e ≤ 971 := hrange
  rw [countUpToInfinity, countUpTo, countUpTo]
  omega

theorem countUpTo_lt (h : Canonical (.finite s m e hm)) (h' : Canonical (.finite s' m' e' hm'))
    (hlt : e < e' ∨ e = e' ∧ m < m') : countUpTo m e < countUpTo m' e' := by
  obtain ⟨hleast, hfit, -⟩ := h
  obtain ⟨-, -, hfull | hleast'⟩ := h'
  · rw [countUpTo, countUpTo]
    omega
  · rw [countUpTo, countUpTo]
    omega

end

section

variable {u v : UnpackedFloat}

/-- The classes of numbers, from one infinity over the two zeros to the other, take up the ranks one
after the other. -/
theorem decodedRank_class (hu : Canonical u) (hrange : InRange u) (hnumber : u.isNaN = false) :
    let c := (ofLex (place u)).1
    (c = -2 ∧ decodedRank u = -countUpToInfinity - 1) ∨
      (c = -1 ∧ -countUpToInfinity - 1 < decodedRank u ∧ decodedRank u < -1) ∨
      (c = 0 ∧ -1 ≤ decodedRank u ∧ decodedRank u ≤ 0) ∨
      (c = 1 ∧ 0 < decodedRank u ∧ decodedRank u < countUpToInfinity) ∨
      (c = 2 ∧ decodedRank u = countUpToInfinity) := by
  intro c
  cases u with
  | notANumber => exact absurd hnumber (by decide)
  | zero s =>
    refine Or.inr (Or.inr (Or.inl ⟨rfl, ?_⟩))
    cases s <;> decide
  | infinity s =>
    cases s with
    | negative => exact Or.inl ⟨rfl, rfl⟩
    | positive => exact Or.inr (Or.inr (Or.inr (Or.inr ⟨rfl, rfl⟩)))
  | finite s m e hm =>
    have hpos := countUpTo_pos hu
    have hlt := countUpTo_lt_infinity hu hrange
    cases s with
    | negative =>
      refine Or.inr (Or.inl ⟨rfl, ?_⟩)
      simp only [decodedRank, signedRank]
      omega
    | positive => exact Or.inr (Or.inr (Or.inr (Or.inl ⟨rfl, hpos, hlt⟩)))

theorem decodedRank_lt (hu : Canonical u) (hv : Canonical v) (hu' : InRange u) (hv' : InRange v)
    (hnumber : u.isNaN = false) (hnumber' : v.isNaN = false) (h : place u < place v) :
    decodedRank u < decodedRank v := by
  rcases Prod.Lex.lt_iff.1 h with hclass | ⟨hclass, hinner⟩
  · have hclass_u := decodedRank_class hu hu' hnumber
    have hclass_v := decodedRank_class hv hv' hnumber'
    have hinfinity : 0 < countUpToInfinity := by decide
    omega
  -- Within a class only finite numbers differ, and the negative ones count downwards.
  · rcases u with (_ | _) | _ | (_ | _) | ⟨_ | _, m, e, hm⟩ <;>
      rcases v with (_ | _) | _ | (_ | _) | ⟨_ | _, m', e', hm'⟩ <;>
      simp only [place, ofLex_toLex] at hclass hinner <;>
      first
      | exact absurd hclass (by decide)
      | exact absurd hinner (lt_irrefl _)
      | rw [Prod.Lex.toLex_lt_toLex] at hinner
    · have hcount := countUpTo_lt hv hu (by omega)
      simp only [decodedRank, signedRank]
      omega
    · exact countUpTo_lt hu hv (by omega)

end

theorem toNat_fields (b : BitVec 64) :
    b.toNat = (@unpackSign .binary64 b).toNat * 2 ^ 63 +
      (@unpackExponent .binary64 b).toNat * 2 ^ 52 + (@unpackMantissa .binary64 b).toNat := by
  have hsign : (@unpackSign .binary64 b).toNat = b.toNat >>> 63 % 2 ^ 1 :=
    BitVec.extractLsb'_toNat 63 1 b
  have hexponent : (@unpackExponent .binary64 b).toNat = b.toNat >>> 52 % 2 ^ 11 :=
    BitVec.extractLsb'_toNat 52 11 b
  have hmantissa : (@unpackMantissa .binary64 b).toNat = b.toNat >>> 0 % 2 ^ 52 :=
    BitVec.extractLsb'_toNat 0 52 b
  have hlt := b.isLt
  rw [hsign, hexponent, hmantissa, Nat.shiftRight_eq_div_pow, Nat.shiftRight_eq_div_pow,
    Nat.shiftRight_eq_div_pow]
  omega

theorem rank_eq_signedRank {x : Binary64} {b : BitVec 1} {n : ℕ} (hn : n < 2 ^ 63)
    (h : x.bits.toNat = b.toNat * 2 ^ 63 + n) : x.rank = signedRank (Sign.ofBitVec b) n := by
  rw [rank_eq]
  rcases BitVec.eq_zero_or_eq_one b with rfl | rfl
  · change x.bits.toNat = 0 * 2 ^ 63 + n at h
    rw [if_pos (by omega)]
    change (x.bits.toNat : ℤ) = n
    omega
  · change x.bits.toNat = 1 * 2 ^ 63 + n at h
    rw [if_neg (by omega)]
    change 2 ^ 63 - 1 - (x.bits.toNat : ℤ) = -n - 1
    omega

theorem rank_eq_decodedRank {x : Binary64} (hx : Scalar.isNaN x = false) :
    x.rank = decodedRank (decoded x) := by
  have hnumber : (decoded x).isNaN = false := hx
  have hm : (@unpackMantissa .binary64 x.bits.toBitVec).toNat < 2 ^ 52 :=
    (@unpackMantissa .binary64 x.bits.toBitVec).isLt
  have he : (@unpackExponent .binary64 x.bits.toBitVec).toNat < 2 ^ 11 :=
    (@unpackExponent .binary64 x.bits.toBitVec).isLt
  have hfields := toNat_fields x.bits.toBitVec
  rw [Nat.add_assoc] at hfields
  rw [rank_eq_signedRank (by omega) hfields]
  rw [decoded_eq_unpack, Binary64.unpack, UnpackedFloat.unpack] at hnumber ⊢
  split_ifs at hnumber ⊢ with hlast hmantissa hleast hmantissa
  · simp only [decodedRank, hlast, hmantissa]
    rfl
  · exact absurd hnumber (by decide)
  · simp only [decodedRank, hleast, hmantissa]
    rfl
  · have hzero : (@unpackExponent .binary64 x.bits.toBitVec).toNat = 0 :=
      congrArg BitVec.toNat hleast
    simp only [decodedRank, hzero, exponentBias_eq, countUpTo]
    refine congrArg (signedRank _) ?_
    push_cast
    omega
  · have happend := toNat_one_append (@unpackMantissa .binary64 x.bits.toBitVec)
    simp only [decodedRank, exponentBias_eq, countUpTo, happend]
    refine congrArg (signedRank _) ?_
    push_cast
    omega

theorem rank_lt_of_lt {x y : Binary64} (h : x < y) : x.rank < y.rank := by
  obtain ⟨hx, hy, hplace⟩ := lt_iff.1 h
  obtain ⟨hcanonical_x, hrange_x⟩ := decoded_bounds x
  obtain ⟨hcanonical_y, hrange_y⟩ := decoded_bounds y
  rw [rank_eq_decodedRank hx, rank_eq_decodedRank hy]
  exact decodedRank_lt hcanonical_x hcanonical_y hrange_x hrange_y hx hy hplace

theorem totalLE_of_lt {x y : Binary64} (h : x < y) :
    Scalar.totalLE x y = true ∧ Scalar.totalLE y x = false := by
  have hrank := rank_lt_of_lt h
  exact ⟨decide_eq_true hrank.le, decide_eq_false hrank.not_ge⟩

end TransferCurves.Binary64
