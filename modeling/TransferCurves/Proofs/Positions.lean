import TransferCurves.Binary64
import TransferCurves.ControlPoint
import TransferCurves.Proofs.Order

/-!
# The positions of a curve

Sorting puts the points of a curve in the total order of their positions, and leaves them alone if
they are in it. The range of the positions holds every position that is a number, and its bounds are
positions.
-/

namespace TransferCurves

open scoped Scalar

/-- The laws of the order that points are sorted by. -/
class Scalar.TotallyOrdered (α : Type) [Scalar α] : Prop where
  total {x y : α} : totalLE x y = false → totalLE y x = true
  trans {x y z : α} : totalLE x y = true → totalLE y z = true → totalLE x z = true

theorem Scalar.totalLE_iff {x y : Rat} : totalLE x y = true ↔ x ≤ y := decide_eq_true_iff

instance : Scalar.TotallyOrdered Rat where
  total h := Scalar.totalLE_iff.2 (le_of_not_ge (of_decide_eq_false h))
  trans hxy hyz := Scalar.totalLE_iff.2 ((Scalar.totalLE_iff.1 hxy).trans (Scalar.totalLE_iff.1 hyz))

instance : Scalar.TotallyOrdered Binary64 where
  total h := decide_eq_true (le_of_not_ge (of_decide_eq_false h))
  trans hxy hyz := decide_eq_true ((of_decide_eq_true hxy).trans (of_decide_eq_true hyz))

namespace ControlPoint

variable {α V : Type} [Scalar α]

def Sorted (nodes : List (ControlPoint α V)) : Prop :=
  nodes.Pairwise fun p q => Scalar.totalLE p.position q.position = true

theorem sorted_iff {nodes : List (ControlPoint Rat V)} :
    Sorted nodes ↔ nodes.Pairwise fun p q => p.position ≤ q.position := by
  simp only [Sorted, Scalar.totalLE_iff]

theorem le_of_index_le {nodes : List (ControlPoint Rat V)} {f : ControlPoint Rat V → Rat}
    (h : nodes.Pairwise fun p q => f p ≤ f q) {i j : Nat} (hij : i ≤ j) (hj : j < nodes.length) :
    f nodes[i] ≤ f nodes[j] := by
  rcases hij.eq_or_lt with rfl | hlt
  · exact le_refl _
  · exact List.pairwise_iff_getElem.1 h i j _ hj hlt

theorem sortByPosition_of_sorted {nodes : List (ControlPoint α V)} (h : Sorted nodes) :
    sortByPosition nodes = nodes := by
  induction nodes with
  | nil => rfl
  | cons p nodes ih =>
    obtain ⟨hp, hnodes⟩ := List.pairwise_cons.1 h
    change insertByPosition p (sortByPosition nodes) = p :: nodes
    rw [ih hnodes]
    cases nodes with
    | nil => rfl
    | cons q nodes => exact if_pos (hp q List.mem_cons_self)

variable [Scalar.TotallyOrdered α]

theorem insertByPosition_sorted (p : ControlPoint α V) {qs : List (ControlPoint α V)}
    (h : Sorted qs) : Sorted (insertByPosition p qs) := by
  induction qs with
  | nil => exact List.pairwise_singleton _ p
  | cons q qs ih =>
    obtain ⟨hq, hqs⟩ := List.pairwise_cons.1 h
    rw [insertByPosition]
    split_ifs with hle
    · refine List.pairwise_cons.2 ⟨?_, h⟩
      intro r hr
      rcases List.mem_cons.1 hr with rfl | hr
      · exact hle
      · exact Scalar.TotallyOrdered.trans hle (hq r hr)
    · refine List.pairwise_cons.2 ⟨?_, ih hqs⟩
      intro r hr
      rcases List.mem_cons.1 ((insertByPosition_perm p qs).mem_iff.1 hr) with rfl | hr
      · exact Scalar.TotallyOrdered.total (Bool.eq_false_iff.2 hle)
      · exact hq r hr

theorem sortByPosition_sorted (points : List (ControlPoint α V)) :
    Sorted (sortByPosition points) := by
  induction points with
  | nil => exact List.Pairwise.nil
  | cons p points ih => exact insertByPosition_sorted p ih

end ControlPoint

namespace Range

variable {α : Type} [Scalar α]

theorem foldl_extend_mem {r : Range α} {xs ys : List α} (hr : r.min ∈ ys ∧ r.max ∈ ys)
    (hxs : ∀ x ∈ xs, x ∈ ys) :
    (xs.foldl extend r).min ∈ ys ∧ (xs.foldl extend r).max ∈ ys := by
  induction xs generalizing r with
  | nil => exact hr
  | cons x xs ih =>
    obtain ⟨hx, hxs⟩ := List.forall_mem_cons.1 hxs
    refine ih ⟨?_, ?_⟩ hxs
    · change Scalar.min r.min x ∈ ys
      rw [Scalar.min]
      split_ifs
      exacts [hx, hx, hr.1]
    · change Scalar.max r.max x ∈ ys
      rw [Scalar.max]
      split_ifs
      exacts [hx, hx, hr.2]

theorem ofPositions_mem {xs : List α} (h : xs ≠ []) :
    (ofPositions xs).min ∈ xs ∧ (ofPositions xs).max ∈ xs := by
  cases xs with
  | nil => exact absurd rfl h
  | cons x xs =>
    exact foldl_extend_mem (r := ⟨x, x⟩) ⟨List.mem_cons_self, List.mem_cons_self⟩
      fun _ => List.mem_cons_of_mem x

def Holds (r : Range α) (x : α) : Prop := r.min ≤ x ∧ x ≤ r.max

variable [Scalar.Ordered α] {r : Range α} {x y : α}

theorem extend_holds (hx : Scalar.isNaN x = false) : (r.extend x).Holds x :=
  ⟨Scalar.min_le_right hx, Scalar.le_max_right hx⟩

theorem Holds.extend (h : r.Holds y) (x : α) : (r.extend x).Holds y := by
  have hmin := (Scalar.Ordered.number_of_le h.1).1
  have hmax := (Scalar.Ordered.number_of_le h.2).2
  exact ⟨Scalar.Ordered.trans (Scalar.min_le_left hmin) h.1,
    Scalar.Ordered.trans h.2 (Scalar.le_max_left hmax)⟩

theorem Holds.foldl_extend (h : r.Holds y) (xs : List α) : (xs.foldl Range.extend r).Holds y := by
  induction xs generalizing r with
  | nil => exact h
  | cons x xs ih => exact ih (h.extend x)

theorem foldl_extend_holds (r : Range α) {xs : List α} (hx : x ∈ xs)
    (hnumber : Scalar.isNaN x = false) : (xs.foldl Range.extend r).Holds x := by
  induction xs generalizing r with
  | nil => cases hx
  | cons z xs ih =>
    rcases List.mem_cons.1 hx with rfl | hx
    · exact (extend_holds hnumber).foldl_extend xs
    · exact ih (r.extend z) hx

theorem ofPositions_holds {xs : List α} (hx : x ∈ xs) (hnumber : Scalar.isNaN x = false) :
    (ofPositions xs).Holds x := by
  cases xs with
  | nil => cases hx
  | cons z xs =>
    rcases List.mem_cons.1 hx with rfl | hx
    · have hpoint : (⟨x, x⟩ : Range α).Holds x := ⟨Scalar.le_refl hnumber, Scalar.le_refl hnumber⟩
      exact hpoint.foldl_extend xs
    · exact foldl_extend_holds ⟨z, z⟩ hx hnumber

end Range

end TransferCurves
