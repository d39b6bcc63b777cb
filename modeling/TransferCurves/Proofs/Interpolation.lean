import TransferCurves.Proofs.Bracketing
import TransferCurves.Proofs.Mixture
import TransferCurves.Proofs.Positions
import Mathlib.Tactic.SplitIfs

/-!
# Curves pass through their points

Over the exact rationals, what a curve takes at the position of a control point is the value of a point
stored there. Sorting keeps the points of one position in their stored order. Of several, the search
finds the last one, since the segment that starts there is the only one with a length; at the least
position of all there is nothing to search, and the first one is held.
-/

namespace TransferCurves.ControlPoint

open scoped Scalar

variable {V : Type}

theorem filter_insertByPosition (x : Rat) (p : ControlPoint Rat V) (qs : List (ControlPoint Rat V)) :
    (insertByPosition p qs).filter (·.position = x) = (p :: qs).filter (·.position = x) := by
  induction qs with
  | nil => rfl
  | cons q qs ih =>
    rw [insertByPosition]
    split_ifs with hle
    · rfl
    -- The point goes past `q`, so they are not both at `x`.
    · have hlt : q.position < p.position := not_le.1 fun h => hle (Scalar.totalLE_iff.2 h)
      rw [List.filter_cons, ih]
      by_cases hp : p.position = x
      · have hq : ¬q.position = x := fun hq => hlt.ne (hq.trans hp.symm)
        simp only [List.filter_cons, hp, hq, decide_true, decide_false, if_true,
          Bool.false_eq_true, if_false]
      · simp only [List.filter_cons, hp, decide_false, Bool.false_eq_true, if_false]

theorem filter_sortByPosition (x : Rat) (points : List (ControlPoint Rat V)) :
    (sortByPosition points).filter (·.position = x) = points.filter (·.position = x) := by
  induction points with
  | nil => rfl
  | cons p points ih =>
    calc (insertByPosition p (sortByPosition points)).filter (·.position = x)
        = (p :: sortByPosition points).filter (·.position = x) := filter_insertByPosition x p _
      _ = (p :: points).filter (·.position = x) := by
          rw [List.filter_cons, List.filter_cons, ih]

section

variable {points before after : List (ControlPoint Rat V)} {p : ControlPoint Rat V}

theorem sort_first (h : points = before ++ p :: after)
    (hbefore : ∀ q ∈ before, q.position ≠ p.position) :
    ∃ l r, sortByPosition points = l ++ p :: r ∧ ∀ q ∈ l, q.position ≠ p.position := by
  have hnone : before.filter (·.position = p.position) = [] :=
    List.filter_eq_nil_iff.2 fun q hq => by simpa using hbefore q hq
  have hstack : (sortByPosition points).filter (·.position = p.position) =
      p :: after.filter (·.position = p.position) := by
    rw [filter_sortByPosition, h, List.filter_append, hnone, List.nil_append,
      List.filter_cons_of_pos (by simp)]
  obtain ⟨l, r, hsort, hl, -, -⟩ := List.filter_eq_cons_iff.1 hstack
  exact ⟨l, r, hsort, fun q hq => by simpa using hl q hq⟩

theorem sort_last (h : points = before ++ p :: after)
    (hafter : ∀ q ∈ after, q.position ≠ p.position) :
    ∃ l r, sortByPosition points = l ++ p :: r ∧ ∀ q ∈ r, q.position ≠ p.position := by
  have hnone : after.filter (·.position = p.position) = [] :=
    List.filter_eq_nil_iff.2 fun q hq => by simpa using hafter q hq
  have hstack : (sortByPosition points).filter (·.position = p.position) =
      before.filter (·.position = p.position) ++ [p] := by
    rw [filter_sortByPosition, h, List.filter_append, List.filter_cons_of_pos (by simp), hnone]
  obtain ⟨l₁, l₂, hsort, -, hl₂⟩ := List.filter_eq_append_iff.1 hstack
  obtain ⟨l, r, rfl, -, -, hr⟩ := List.filter_eq_cons_iff.1 hl₂
  refine ⟨l₁ ++ l, r, by rw [hsort, List.append_assoc], fun q hq => ?_⟩
  simpa using List.filter_eq_nil_iff.1 hr q hq

end

theorem position_le_iff {before after : List (ControlPoint Rat V)} {p : ControlPoint Rat V}
    (hsorted : (before ++ p :: after).Pairwise fun p q => p.position ≤ q.position)
    (hlast : ∀ q ∈ after, q.position ≠ p.position) {i : Nat}
    (hi : i < (before ++ p :: after).length) :
    (before ++ p :: after)[i].position ≤ p.position ↔ i ≤ before.length := by
  have hat : (before ++ p :: after)[before.length] = p := List.getElem_of_append rfl rfl
  constructor
  · intro hle
    by_contra hlt
    obtain ⟨k, rfl⟩ := Nat.exists_eq_add_of_lt (Nat.lt_of_not_le hlt)
    have hmem : (before ++ p :: after)[before.length + k + 1] ∈ after := by
      simp [List.getElem_append_right, Nat.add_assoc]
    obtain ⟨-, hrest, -⟩ := List.pairwise_append.1 hsorted
    exact hlast _ hmem (le_antisymm hle ((List.pairwise_cons.1 hrest).1 _ hmem))
  · intro hle
    calc (before ++ p :: after)[i].position
        ≤ (before ++ p :: after)[before.length].position := le_of_index_le hsorted hle (by simp)
      _ = p.position := by rw [hat]

variable [Channels Rat V]

section

variable {before after : List (ControlPoint Rat V)} {p : ControlPoint Rat V}
  (hsorted : (before ++ p :: after).Pairwise fun p q => p.position ≤ q.position)

include hsorted

theorem evaluate_least (hleast : ∀ q ∈ before ++ p :: after, p.position ≤ q.position)
    (hfirst : ∀ q ∈ before, q.position ≠ p.position) :
    evaluate (before ++ p :: after) p.position = some p.value := by
  obtain ⟨-, -, hbefore⟩ := List.pairwise_append.1 hsorted
  have hnil : before = [] := by
    refine List.eq_nil_iff_forall_not_mem.2 fun q hq => hfirst q hq ?_
    exact le_antisymm (hbefore q hq p List.mem_cons_self) (hleast q (List.mem_append_left _ hq))
  subst hnil
  have hpos : 0 < (p :: after).length := Nat.zero_lt_succ _
  exact evaluate_first hpos (le_refl p.position)

theorem evaluate_later [Channels.Readable V] (hlast : ∀ q ∈ after, q.position ≠ p.position)
    (hstart : ∃ q ∈ before ++ p :: after, q.position < p.position) :
    evaluate (before ++ p :: after) p.position = some p.value := by
  have hat : (before ++ p :: after)[before.length] = p := List.getElem_of_append rfl rfl
  have hlength : before.length < (before ++ p :: after).length := by simp
  obtain ⟨q, hq, hlt⟩ := hstart
  obtain ⟨j, hj, rfl⟩ := List.getElem_of_mem hq
  obtain ⟨v, hv, htakes⟩ := evaluate_takes (List.ne_nil_of_mem hq) (fun _ _ => rfl)
    (x := p.position) rfl
  rw [hv]
  cases htakes with
  | first hpos hx =>
    have hfirst := le_of_index_le hsorted (Nat.zero_le j) hj
    exact absurd (hx.trans hfirst) hlt.not_ge
  | last n hn _ hx =>
    have hle := (position_le_iff hsorted hlast _).1 hx
    obtain rfl : n = before.length := by omega
    rw [hat]
  | inside i hi _ hleft hright =>
    have hle := (position_le_iff hsorted hlast _).1 hleft
    have hgt := mt (position_le_iff hsorted hlast hi).2 hright.not_ge
    obtain rfl : i = before.length := by omega
    simp only [hat]
    rw [between_left hright]

end

/-- What a curve takes at the positions of its points: of a point that is alone at its position the
value, and where several share one, the value of the point stored first at the least position and of
the point stored last at any other. -/
structure PassesThrough (points : List (ControlPoint Rat V)) : Prop where
  alone : ∀ before p after, points = before ++ p :: after →
    (∀ q ∈ before ++ after, q.position ≠ p.position) →
    evaluate (sortByPosition points) p.position = some p.value
  first : ∀ before p after, points = before ++ p :: after →
    (∀ q ∈ before, q.position ≠ p.position) → (∀ q ∈ points, p.position ≤ q.position) →
    evaluate (sortByPosition points) p.position = some p.value
  last : ∀ before p after, points = before ++ p :: after →
    (∀ q ∈ after, q.position ≠ p.position) → (∃ q ∈ points, q.position < p.position) →
    evaluate (sortByPosition points) p.position = some p.value

section

variable {points before after : List (ControlPoint Rat V)} {p : ControlPoint Rat V}

theorem evaluate_sort_first (h : points = before ++ p :: after)
    (hfirst : ∀ q ∈ before, q.position ≠ p.position)
    (hleast : ∀ q ∈ points, p.position ≤ q.position) :
    evaluate (sortByPosition points) p.position = some p.value := by
  obtain ⟨l, r, hsort, hl⟩ := sort_first h hfirst
  have hsorted := sorted_iff.1 (sortByPosition_sorted points)
  have hperm := sortByPosition_perm points
  rw [hsort] at hsorted hperm ⊢
  exact evaluate_least hsorted (fun q hq => hleast q (hperm.mem_iff.1 hq)) hl

variable [Channels.Readable V]

theorem evaluate_sort_last (h : points = before ++ p :: after)
    (hlast : ∀ q ∈ after, q.position ≠ p.position)
    (hstart : ∃ q ∈ points, q.position < p.position) :
    evaluate (sortByPosition points) p.position = some p.value := by
  obtain ⟨l, r, hsort, hr⟩ := sort_last h hlast
  have hsorted := sorted_iff.1 (sortByPosition_sorted points)
  have hperm := sortByPosition_perm points
  obtain ⟨q, hq, hlt⟩ := hstart
  rw [hsort] at hsorted hperm ⊢
  exact evaluate_later hsorted hr ⟨q, hperm.mem_iff.2 hq, hlt⟩

theorem passesThrough (points : List (ControlPoint Rat V)) : PassesThrough points where
  alone before p after h halone := by
    obtain ⟨hbefore, hafter⟩ := List.forall_mem_append.1 halone
    by_cases hleast : ∀ q ∈ points, p.position ≤ q.position
    · exact evaluate_sort_first h hbefore hleast
    · push Not at hleast
      exact evaluate_sort_last h hafter hleast
  first _ _ _ h hfirst hleast := evaluate_sort_first h hfirst hleast
  last _ _ _ h hlast hstart := evaluate_sort_last h hlast hstart

end

/-- Color curves and opacity curves, stored in any order and with any shapes, pass through their
points. -/
theorem curves_pass_through_points :
    (∀ points : List (ColorPoint Rat), PassesThrough points) ∧
      ∀ points : List (OpacityPoint Rat), PassesThrough points :=
  ⟨passesThrough, passesThrough⟩

def jumpsAtEnds : List (OpacityPoint Rat) :=
  [⟨2, 1 / 2, 0.3, 0.5⟩, ⟨0, 1 / 5, 0.5, 1⟩, .plain 1 1, ⟨0, 2 / 5, 7, -1⟩, .plain 2 (3 / 4)]

theorem jumpsAtEnds_passed :
    evaluate (sortByPosition jumpsAtEnds) 0 = some (1 / 5) ∧
      evaluate (sortByPosition jumpsAtEnds) 1 = some 1 ∧
      evaluate (sortByPosition jumpsAtEnds) 2 = some (3 / 4) := by
  have hthrough := curves_pass_through_points.2 jumpsAtEnds
  refine ⟨?_, ?_, ?_⟩
  · exact hthrough.first [_] _ _ rfl (by decide +kernel) (by decide +kernel)
  · exact hthrough.alone [_, _] _ _ rfl (by decide +kernel)
  · exact hthrough.last [_, _, _, _] _ _ rfl (List.forall_mem_nil _) (by decide +kernel)

end TransferCurves.ControlPoint
