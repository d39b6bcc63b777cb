import TransferCurves.Proofs.Binary64Value

/-!
# Operations without rounding

An operation whose exact result is a double gives that double, apart from the sign of a zero. So it
is for the opposite of a double, for sums with zero and for products with zero or one: none of them
can overflow.
-/

namespace TransferCurves.Binary64

open scoped Scalar
open Float.Model (UnpackedFloat)
open Float.Model.UnpackedFloat

theorem extract_xor {b mark : BitVec 64} {i n : ℕ} (h : mark.extractLsb' i n = 0#n) :
    (b ^^^ mark).extractLsb' i n = b.extractLsb' i n := by
  rw [BitVec.extractLsb'_xor, h, BitVec.xor_zero]

theorem decoded_neg (x : Binary64) : decoded (-x) = (decoded x).neg := by
  let b := x.bits.toBitVec
  let mark : BitVec 64 := 0x8000000000000000#64
  have hexponent : @unpackExponent .binary64 (b ^^^ mark) = @unpackExponent .binary64 b :=
    extract_xor (by decide)
  have hmantissa : @unpackMantissa .binary64 (b ^^^ mark) = @unpackMantissa .binary64 b :=
    extract_xor (by decide)
  have hsign : Sign.ofBitVec (@unpackSign .binary64 (b ^^^ mark)) =
      -Sign.ofBitVec (@unpackSign .binary64 b) := by
    have hmark : mark.extractLsb' 63 1 = 1#1 := by decide
    change Sign.ofBitVec ((b ^^^ mark).extractLsb' 63 1) = -Sign.ofBitVec (b.extractLsb' 63 1)
    rw [BitVec.extractLsb'_xor, hmark]
    rcases BitVec.eq_zero_or_eq_one (b.extractLsb' 63 1) with h | h <;> rw [h] <;> rfl
  rw [decoded_eq_unpack, decoded_eq_unpack]
  change UnpackedFloat.unpack .binary64 (b ^^^ mark) = (UnpackedFloat.unpack .binary64 b).neg
  simp only [UnpackedFloat.unpack, hexponent, hmantissa, hsign]
  split_ifs <;> rfl

theorem isFinite_neg (x : Binary64) : Scalar.isFinite (-x) = Scalar.isFinite x := by
  change (decoded (-x)).isFinite = (decoded x).isFinite
  rw [decoded_neg]
  cases decoded x <;> rfl

theorem value_neg (x : Binary64) : value (-x) = -value x := by
  rw [value, value, decoded_neg]
  cases decoded x with
  | finite s m e hm =>
    cases s with
    | negative => exact (neg_neg _).symm
    | positive => rfl
  | _ => exact neg_zero.symm

/-- The double is finite and stands for `q`. -/
structure Denotes (x : Binary64) (q : ℚ) : Prop where
  finite : Scalar.isFinite x = true
  value_eq : value x = q

section

variable {x y z : Binary64} {p q : ℚ}

theorem denotes_value (h : Scalar.isFinite x = true) : Denotes x (value x) := ⟨h, rfl⟩

theorem denotes_zero : Denotes 0 0 := ⟨rfl, rfl⟩

theorem denotes_one : Denotes 1 1 := ⟨rfl, value_one⟩

theorem Denotes.neg (h : Denotes x q) : Denotes (-x) (-q) :=
  ⟨(isFinite_neg x).trans h.finite, by rw [value_neg, h.value_eq]⟩

theorem Denotes.rounded_eq (h : Denotes x q) : rounded q = q := by
  have hrounds := rounds_self (decoded_bounds x).1 h.finite
  rw [← h.value_eq]
  exact hrounds.value.symm

theorem Denotes.lt_overflow (h : Denotes x q) : |q| < overflow := by
  obtain ⟨hcanonical, hrange⟩ := decoded_bounds x
  have hlt : |value x| < 2 ^ 1024 := (inRange_iff hcanonical).1 hrange
  rwa [h.value_eq, ← h.rounded_eq, abs_rounded_lt_iff] at hlt

theorem Nearest.denotes (h : Nearest x q) (hz : Denotes z q) : Denotes x q := by
  have hfinite := h.finite_iff.2 hz.lt_overflow
  exact ⟨hfinite, (h.value_eq hfinite).trans hz.rounded_eq⟩

theorem Denotes.nearest_add (hx : Denotes x p) (hy : Denotes y q) : Nearest (x + y) (p + q) := by
  rw [← hx.value_eq, ← hy.value_eq]
  exact Binary64.nearest_add hx.finite hy.finite

theorem Denotes.nearest_sub (hx : Denotes x p) (hy : Denotes y q) : Nearest (x - y) (p - q) := by
  rw [← hx.value_eq, ← hy.value_eq]
  exact Binary64.nearest_sub hx.finite hy.finite

theorem Denotes.nearest_mul (hx : Denotes x p) (hy : Denotes y q) : Nearest (x * y) (p * q) := by
  rw [← hx.value_eq, ← hy.value_eq]
  exact Binary64.nearest_mul hx.finite hy.finite

theorem Denotes.nearest_div (hx : Denotes x p) (hy : Denotes y q) (hzero : q ≠ 0) :
    Nearest (x / y) (p / q) := by
  rw [← hy.value_eq] at hzero
  rw [← hx.value_eq, ← hy.value_eq]
  exact Binary64.nearest_div hx.finite hy.finite hzero

theorem Denotes.add_zero (hx : Denotes x p) (hy : Denotes y 0) : Denotes (x + y) p :=
  Nearest.denotes (by simpa using hx.nearest_add hy) hx

theorem Denotes.zero_add (hx : Denotes x 0) (hy : Denotes y q) : Denotes (x + y) q :=
  Nearest.denotes (by simpa using hx.nearest_add hy) hy

theorem Denotes.sub_zero (hx : Denotes x p) (hy : Denotes y 0) : Denotes (x - y) p :=
  Nearest.denotes (by simpa using hx.nearest_sub hy) hx

theorem Denotes.mul_zero (hx : Denotes x p) (hy : Denotes y 0) : Denotes (x * y) 0 :=
  Nearest.denotes (by simpa using hx.nearest_mul hy) hy

theorem Denotes.zero_mul (hx : Denotes x 0) (hy : Denotes y q) : Denotes (x * y) 0 :=
  Nearest.denotes (by simpa using hx.nearest_mul hy) hx

theorem Denotes.mul_one (hx : Denotes x p) (hy : Denotes y 1) : Denotes (x * y) p :=
  Nearest.denotes (by simpa using hx.nearest_mul hy) hx

theorem Denotes.one_mul (hx : Denotes x 1) (hy : Denotes y q) : Denotes (x * y) q :=
  Nearest.denotes (by simpa using hx.nearest_mul hy) hy

end

end TransferCurves.Binary64
