import TransferCurves.Binary64
import TransferCurves.Proofs.Order
import Mathlib.Data.Prod.Lex
import Mathlib.Order.Compare

/-!
# The order of doubles

A decoded double has a place in a linear order: infinities at both ends, numbers of either sign
around the two zeros, and among numbers of one sign the exponent before the mantissa. Comparing
doubles that are numbers is comparing their places, so doubles obey the laws of order.
-/

namespace TransferCurves.Binary64

open scoped Scalar
open Float.Model (UnpackedFloat)

/-- The place of a decoded double: its class, then exponent and mantissa, which count downwards for
negative numbers. What is not a number is put beyond all others. -/
def place : UnpackedFloat → ℤ ×ₗ ℤ ×ₗ ℤ
  | .infinity .negative => toLex (-2, toLex (0, 0))
  | .finite .negative m e _ => toLex (-1, toLex (-e, -m))
  | .zero _ => toLex (0, toLex (0, 0))
  | .finite .positive m e _ => toLex (1, toLex (e, m))
  | .infinity .positive => toLex (2, toLex (0, 0))
  | .notANumber => toLex (3, toLex (0, 0))

theorem magnitude_compares (e e' : ℤ) (m m' : ℕ) :
    ((compare e e').then (compare m m')).Compares (toLex (e, (m : ℤ))) (toLex (e', (m' : ℤ))) := by
  rcases lt_trichotomy e e' with he | rfl | he
  · rw [compare_lt_iff_lt.2 he, Ordering.lt_then]
    exact Prod.Lex.toLex_lt_toLex.2 (Or.inl he)
  · rw [compare_eq_iff_eq.2 rfl, Ordering.eq_then]
    rcases lt_trichotomy m m' with hm | rfl | hm
    · rw [compare_lt_iff_lt.2 hm]
      exact Prod.Lex.toLex_lt_toLex.2 (Or.inr ⟨rfl, Int.ofNat_lt.2 hm⟩)
    · rw [compare_eq_iff_eq.2 rfl]
      rfl
    · rw [compare_gt_iff_gt.2 hm]
      exact Prod.Lex.toLex_lt_toLex.2 (Or.inr ⟨rfl, Int.ofNat_lt.2 hm⟩)
  · rw [compare_gt_iff_gt.2 he, Ordering.gt_then]
    exact Prod.Lex.toLex_lt_toLex.2 (Or.inl he)

theorem lt_of_class {a b : ℤ} {p q : ℤ ×ₗ ℤ} (h : a < b) : toLex (a, p) < toLex (b, q) :=
  Prod.Lex.toLex_lt_toLex.2 (Or.inl h)

theorem compares_class {o : Ordering} {a : ℤ} {p q : ℤ ×ₗ ℤ} (h : o.Compares p q) :
    o.Compares (toLex (a, p)) (toLex (a, q)) := by
  cases o with
  | lt => exact Prod.Lex.toLex_lt_toLex.2 (Or.inr ⟨rfl, h⟩)
  | eq => exact congrArg (fun p => toLex (a, p)) h
  | gt => exact Prod.Lex.toLex_lt_toLex.2 (Or.inr ⟨rfl, h⟩)

theorem compares_neg {o : Ordering} {a b c d : ℤ}
    (h : o.Compares (toLex (a, b)) (toLex (c, d))) :
    o.swap.Compares (toLex (-a, -b)) (toLex (-c, -d)) := by
  cases o <;>
    simp only [Ordering.swap, Ordering.Compares, Prod.Lex.toLex_lt_toLex, toLex_inj,
      Prod.mk.injEq] at h ⊢ <;> omega

theorem compare_place {u v : UnpackedFloat} (hu : u.isNaN = false) (hv : v.isNaN = false) :
    ∃ o, u.compare v = some o ∧ o.Compares (place u) (place v) := by
  -- Different classes settle the comparison; within one, only finite numbers differ.
  rcases u with (_ | _) | _ | (_ | _) | ⟨_ | _, m, e, hm⟩ <;>
    rcases v with (_ | _) | _ | (_ | _) | ⟨_ | _, m', e', hm'⟩ <;>
    first
    | exact absurd hu (by decide)
    | exact absurd hv (by decide)
    | exact ⟨.lt, rfl, lt_of_class (by decide)⟩
    | exact ⟨.gt, rfl, lt_of_class (by decide)⟩
    | exact ⟨.eq, rfl, rfl⟩
    | exact ⟨_, rfl, compares_class (magnitude_compares e e' m m')⟩
    | exact ⟨_, rfl, compares_class (compares_neg (magnitude_compares e e' m m'))⟩

theorem number_of_compare {u v : UnpackedFloat} {o : Ordering} (h : u.compare v = some o) :
    u.isNaN = false ∧ v.isNaN = false := by
  rcases u with s | _ | s | ⟨s, m, e, hm⟩ <;> rcases v with s' | _ | s' | ⟨s', m', e', hm'⟩ <;>
    first
    | exact ⟨rfl, rfl⟩
    | exact absurd h.symm (Option.some_ne_none o)

theorem le_place_iff {u v : UnpackedFloat} :
    u.le v = true ↔ u.isNaN = false ∧ v.isNaN = false ∧ place u ≤ place v := by
  rw [UnpackedFloat.le, Option.any_eq_true]
  constructor
  · rintro ⟨o, ho, hle⟩
    obtain ⟨hu, hv⟩ := number_of_compare ho
    obtain ⟨o', ho', hplace⟩ := compare_place hu hv
    obtain rfl : o = o' := Option.some.inj (ho.symm.trans ho')
    exact ⟨hu, hv, hplace.ne_gt.1 (Ordering.isLE_iff_ne_gt.1 hle)⟩
  · rintro ⟨hu, hv, hle⟩
    obtain ⟨o, ho, hplace⟩ := compare_place hu hv
    exact ⟨o, ho, Ordering.isLE_iff_ne_gt.2 (hplace.ne_gt.2 hle)⟩

theorem lt_place_iff {u v : UnpackedFloat} :
    u.lt v = true ↔ u.isNaN = false ∧ v.isNaN = false ∧ place u < place v := by
  rw [UnpackedFloat.lt, beq_iff_eq]
  constructor
  · intro h
    obtain ⟨hu, hv⟩ := number_of_compare h
    obtain ⟨o, ho, hplace⟩ := compare_place hu hv
    obtain rfl : Ordering.lt = o := Option.some.inj (h.symm.trans ho)
    exact ⟨hu, hv, hplace⟩
  · rintro ⟨hu, hv, hlt⟩
    obtain ⟨o, ho, hplace⟩ := compare_place hu hv
    rw [ho, hplace.eq_lt.2 hlt]

theorem number_of_finite {u : UnpackedFloat} (h : u.isFinite = true) : u.isNaN = false := by
  cases u with
  | notANumber => exact absurd h (by decide)
  | infinity s => rfl
  | zero s => rfl
  | finite s m e hm => rfl

def decoded (x : Binary64) : UnpackedFloat := x.toFloat.toModel.unpack

theorem le_iff {x y : Binary64} :
    x ≤ y ↔ Scalar.isNaN x = false ∧ Scalar.isNaN y = false ∧
      place (decoded x) ≤ place (decoded y) :=
  decide_eq_true_iff.trans (le_place_iff (u := decoded x) (v := decoded y))

theorem lt_iff {x y : Binary64} :
    x < y ↔ Scalar.isNaN x = false ∧ Scalar.isNaN y = false ∧
      place (decoded x) < place (decoded y) :=
  decide_eq_true_iff.trans (lt_place_iff (u := decoded x) (v := decoded y))

instance : Scalar.Ordered Binary64 where
  number_of_le h := ⟨(le_iff.1 h).1, (le_iff.1 h).2.1⟩
  total hx hy := (le_total _ _).imp (fun h => le_iff.2 ⟨hx, hy, h⟩) (fun h => le_iff.2 ⟨hy, hx, h⟩)
  trans hxy hyz := by
    obtain ⟨hx, -, hxy⟩ := le_iff.1 hxy
    obtain ⟨-, hz, hyz⟩ := le_iff.1 hyz
    exact le_iff.2 ⟨hx, hz, hxy.trans hyz⟩
  lt_iff := by
    intro x y
    rw [lt_iff, le_iff, le_iff]
    constructor
    · rintro ⟨hx, hy, h⟩
      exact ⟨⟨hx, hy, h.le⟩, fun h' => h.not_ge h'.2.2⟩
    · rintro ⟨⟨hx, hy, h⟩, h'⟩
      exact ⟨hx, hy, lt_of_not_ge fun hge => h' ⟨hy, hx, hge⟩⟩
  number_of_finite {x} h := number_of_finite (u := decoded x) h

theorem place_of_finite {u : UnpackedFloat} (h : u.isFinite = true) :
    place (.infinity .negative) < place u ∧ place u < place (.infinity .positive) := by
  rcases u with s | _ | s | ⟨_ | _, m, e, hm⟩ <;>
    first
    | exact absurd h Bool.false_ne_true
    | exact ⟨lt_of_class (by decide), lt_of_class (by decide)⟩

theorem finite_between {x y z : Binary64} (hx : Scalar.isFinite x = true)
    (hz : Scalar.isFinite z = true) (hxy : x ≤ y) (hyz : y ≤ z) : Scalar.isFinite y = true := by
  obtain ⟨-, hnumber, hlower⟩ := le_iff.1 hxy
  have hbelow := (place_of_finite (u := decoded x) hx).1.trans_le hlower
  have habove := (le_iff.1 hyz).2.2.trans_lt (place_of_finite (u := decoded z) hz).2
  change (decoded y).isNaN = false at hnumber
  change (decoded y).isFinite = true
  generalize decoded y = u at *
  rcases u with (_ | _) | _ | s | ⟨s, m, e, hm⟩
  · exact absurd hbelow (lt_irrefl _)
  · exact absurd habove (lt_irrefl _)
  · exact absurd hnumber.symm Bool.false_ne_true
  · rfl
  · rfl

theorem rank_eq (x : Binary64) : x.rank =
    if x.bits.toNat < 2 ^ 63 then (x.bits.toNat : ℤ) else 2 ^ 63 - 1 - x.bits.toNat := by
  have hmagnitude : (x.bits &&& 0x7FFFFFFFFFFFFFFF).toNat = x.bits.toNat % 2 ^ 63 := by
    rw [UInt64.toNat_and]
    exact Nat.and_two_pow_sub_one_eq_mod x.bits.toNat 63
  have hbits := x.bits.toNat_lt
  simp only [rank, hmagnitude, UInt64.lt_iff_toNat_lt, UInt64.reduceToNat]
  split_ifs <;> omega

theorem rank_injective : Function.Injective rank := by
  intro x y h
  rw [rank_eq, rank_eq] at h
  have hx := x.bits.toNat_lt
  have hy := y.bits.toNat_lt
  -- Ranks are negative just where the sign bit is set.
  have hbits : x.bits.toNat = y.bits.toNat := by
    split_ifs at h <;> omega
  obtain ⟨x⟩ := x
  obtain ⟨y⟩ := y
  exact congrArg Binary64.mk (UInt64.toNat_inj.1 hbits)

end TransferCurves.Binary64
