import TransferCurves.Range
import TransferCurves.Scalar.Rational
import Mathlib.Algebra.Order.Ring.Rat

/-!
# The order of scalars

Both arithmetics order their numbers totally, and a value that is not a number stands in no order.
These laws are all that the bounds of ranges and markers rest on: the lesser and the greater of two
values, holding a value inside a range, and the range of a list of positions are treated here once
for doubles and rationals alike.
-/

namespace TransferCurves

open scoped Scalar

/-- The laws of order that doubles and exact rationals share. -/
class Scalar.Ordered (α : Type) [Scalar α] : Prop where
  number_of_le {x y : α} : x ≤ y → isNaN x = false ∧ isNaN y = false
  total {x y : α} : isNaN x = false → isNaN y = false → x ≤ y ∨ y ≤ x
  trans {x y z : α} : x ≤ y → y ≤ z → x ≤ z
  lt_iff {x y : α} : x < y ↔ x ≤ y ∧ ¬y ≤ x
  number_of_finite {x : α} : isFinite x = true → isNaN x = false

instance : Scalar.Ordered Rat where
  number_of_le := fun _ => ⟨rfl, rfl⟩
  total := fun {x y} _ _ => le_total x y
  trans := fun {x y z} (hxy : x ≤ y) (hyz : y ≤ z) => hxy.trans hyz
  lt_iff := fun {x y} => lt_iff_le_not_ge (a := x) (b := y)
  number_of_finite := fun _ => rfl

namespace Scalar

variable {α : Type} [Scalar α] {x y z : α}

theorem max_le (hx : x ≤ z) (hy : y ≤ z) : Scalar.max x y ≤ z := by
  rw [Scalar.max]
  split_ifs
  · exact hy
  · exact hy
  · exact hx

variable [Ordered α]

theorem le_refl (hx : isNaN x = false) : x ≤ x :=
  (Ordered.total hx hx).elim id id

theorem le_of_lt (h : x < y) : x ≤ y := (Ordered.lt_iff.1 h).1

theorem number_of_lt (h : x < y) : isNaN x = false ∧ isNaN y = false :=
  Ordered.number_of_le (le_of_lt h)

theorem le_of_not_lt (hx : isNaN x = false) (hy : isNaN y = false) (h : ¬x < y) : y ≤ x := by
  rcases Ordered.total hx hy with hle | hle
  · by_contra hn
    exact h (Ordered.lt_iff.2 ⟨hle, hn⟩)
  · exact hle

theorem lt_of_le_of_lt (h : x ≤ y) (h' : y < z) : x < z := by
  obtain ⟨hyz, hzy⟩ := Ordered.lt_iff.1 h'
  exact Ordered.lt_iff.2 ⟨Ordered.trans h hyz, fun hzx => hzy (Ordered.trans hzx h)⟩

theorem lt_of_lt_of_le (h : x < y) (h' : y ≤ z) : x < z := by
  obtain ⟨hxy, hyx⟩ := Ordered.lt_iff.1 h
  exact Ordered.lt_iff.2 ⟨Ordered.trans hxy h', fun hzx => hyx (Ordered.trans h' hzx)⟩

theorem min_le_left (hx : isNaN x = false) : Scalar.min x y ≤ x := by
  rw [Scalar.min, hx, if_neg Bool.false_ne_true]
  split_ifs with h
  · exact le_of_lt h
  · exact le_refl hx

theorem min_le_right (hy : isNaN y = false) : Scalar.min x y ≤ y := by
  rw [Scalar.min]
  split_ifs with hx h
  · exact le_refl hy
  · exact le_refl hy
  · exact le_of_not_lt hy (Bool.eq_false_iff.2 hx) h

theorem le_max_left (hx : isNaN x = false) : x ≤ Scalar.max x y := by
  rw [Scalar.max, hx, if_neg Bool.false_ne_true]
  split_ifs with h
  · exact le_of_lt h
  · exact le_refl hx

theorem le_max_right (hy : isNaN y = false) : y ≤ Scalar.max x y := by
  rw [Scalar.max]
  split_ifs with hx h
  · exact le_refl hy
  · exact le_refl hy
  · exact le_of_not_lt (Bool.eq_false_iff.2 hx) hy h

theorem min_eq (a b : Rat) : Scalar.min a b = min a b := by
  rcases le_or_gt a b with h | h
  · rw [min_eq_left h]
    exact if_neg (not_lt.2 h)
  · rw [min_eq_right (h.le)]
    exact if_pos h

theorem max_eq (a b : Rat) : Scalar.max a b = max a b := by
  rcases le_or_gt b a with h | h
  · rw [max_eq_left h]
    exact if_neg (not_lt.2 h)
  · rw [max_eq_right (h.le)]
    exact if_pos h

section

variable {lo hi x : Rat}

theorem clamp_of_mem (h : lo ≤ x) (h' : x ≤ hi) : Scalar.clamp lo hi x = x :=
  (if_neg h.not_gt).trans (if_neg h'.not_gt)

theorem clamp_of_le (h : x ≤ lo) (hbounds : lo ≤ hi) : Scalar.clamp lo hi x = lo := by
  rcases h.eq_or_lt with rfl | hlt
  · exact clamp_of_mem le_rfl hbounds
  · exact if_pos hlt

theorem clamp_of_ge (h : hi ≤ x) (hbounds : lo ≤ hi) : Scalar.clamp lo hi x = hi := by
  rcases h.eq_or_lt with rfl | hlt
  · exact clamp_of_mem hbounds le_rfl
  · exact (if_neg (hbounds.trans h).not_gt).trans (if_pos hlt)

theorem clamp_eq (hbounds : lo ≤ hi) (x : Rat) : Scalar.clamp lo hi x = max lo (min x hi) := by
  rcases le_total x lo with hlow | hlow
  · rw [clamp_of_le hlow hbounds, min_eq_left (hlow.trans hbounds), max_eq_left hlow]
  rcases le_total x hi with hhigh | hhigh
  · rw [clamp_of_mem hlow hhigh, min_eq_left hhigh, max_eq_right hlow]
  · rw [clamp_of_ge hhigh hbounds, min_eq_right hhigh, max_eq_right hbounds]

theorem clamp_le (hbounds : lo ≤ hi) (x : Rat) : Scalar.clamp lo hi x ≤ hi := by
  rw [Scalar.clamp]
  split_ifs with hlow hhigh
  · exact hbounds
  · exact le_rfl
  · exact le_of_not_gt hhigh

end

end Scalar

namespace Range

variable {α : Type} [Scalar α]

def extend (r : Range α) (x : α) : Range α := ⟨Scalar.min r.min x, Scalar.max r.max x⟩

theorem ofPositions_cons (x : α) (xs : List α) :
    ofPositions (x :: xs) = xs.foldl extend ⟨x, x⟩ := rfl

theorem extend_of_isNaN {r : Range α} (hmin : Scalar.isNaN r.min = true)
    (hmax : Scalar.isNaN r.max = true) (x : α) : r.extend x = ⟨x, x⟩ := by
  simp only [extend, Scalar.min, Scalar.max, hmin, hmax, if_true]

/-- The bounds are in order, or both are no number. -/
def Coherent (r : Range α) : Prop :=
  (Scalar.isNaN r.min = true ∧ Scalar.isNaN r.max = true) ∨ r.min ≤ r.max

variable [Scalar.Ordered α]

theorem le_clamp {r : Range α} (h : r.min ≤ r.max) (x : α) : r.min ≤ r.clamp x :=
  Scalar.le_max_right (Scalar.Ordered.number_of_le h).1

theorem clamp_le {r : Range α} (h : r.min ≤ r.max) (x : α) : r.clamp x ≤ r.max :=
  Scalar.max_le (Scalar.min_le_right (Scalar.Ordered.number_of_le h).2) h

theorem coherent_point (x : α) : Coherent (⟨x, x⟩ : Range α) := by
  cases hx : Scalar.isNaN x with
  | true => exact Or.inl ⟨hx, hx⟩
  | false => exact Or.inr (Scalar.le_refl hx)

theorem Coherent.extend {r : Range α} (h : r.Coherent) (x : α) : (r.extend x).Coherent := by
  rcases h with ⟨hmin, hmax⟩ | h
  · rw [extend_of_isNaN hmin hmax]
    exact coherent_point x
  · obtain ⟨hmin, hmax⟩ := Scalar.Ordered.number_of_le h
    have hinner := Scalar.Ordered.trans (Scalar.min_le_left (y := x) hmin) h
    exact Or.inr (Scalar.Ordered.trans hinner (Scalar.le_max_left hmax))

theorem Coherent.foldl_extend {r : Range α} (h : r.Coherent) (xs : List α) :
    (xs.foldl Range.extend r).Coherent := by
  induction xs generalizing r with
  | nil => exact h
  | cons x xs ih => exact ih (h.extend x)

theorem ofPositions_ordered {xs : List α} (h : Scalar.isNaN (ofPositions xs).min = false) :
    (ofPositions xs).min ≤ (ofPositions xs).max := by
  cases xs with
  | nil => exact Scalar.le_refl h
  | cons x xs =>
    rw [ofPositions_cons] at h ⊢
    rcases (coherent_point x).foldl_extend xs with ⟨hmin, -⟩ | hle
    · rw [h] at hmin
      exact absurd hmin Bool.false_ne_true
    · exact hle

end Range

end TransferCurves
