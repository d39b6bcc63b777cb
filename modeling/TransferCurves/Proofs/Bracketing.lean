import TransferCurves.Evaluation
import TransferCurves.Proofs.Order

/-!
# Around a position

What a curve takes at a position is described here by the points around it: the end that is held, or
the two neighbours that enclose the position. Main statements: the search ends at such neighbours,
and a curve with points takes a value so described at every position.
-/

namespace TransferCurves

open scoped Scalar

theorem Scalar.lt_of_not_le {α : Type} [Scalar α] [Scalar.Ordered α] {x y : α}
    (hx : isNaN x = false) (hy : isNaN y = false) (h : ¬x ≤ y) : y < x :=
  Ordered.lt_iff.2 ⟨(Ordered.total hx hy).resolve_left h, h⟩

namespace ControlPoint

variable {α V : Type} [Scalar α]

theorem bisect_brackets (nodes : List (ControlPoint α V)) (x : α) (lo hi : Nat)
    (hhi : hi < nodes.length) (hlo : lo ≤ hi) (hleft : nodes[lo].position ≤ x)
    (hright : ¬nodes[hi].position ≤ x) :
    ∃ i, ∃ h : i + 1 < nodes.length, bisect nodes x lo hi hlo hhi = (nodes[i], nodes[i + 1]) ∧
      nodes[i].position ≤ x ∧ ¬nodes[i + 1].position ≤ x := by
  induction lo, hi, hlo, hhi using bisect.induct nodes x with
  | case1 lo hi hlo hhi hwide mid hmid hle ih =>
    rw [bisect, dif_pos hwide, if_pos hle]
    exact ih hle hright
  | case2 lo hi hlo hhi hwide mid hmid hgt ih =>
    rw [bisect, dif_pos hwide, if_neg hgt]
    exact ih hleft hgt
  | case3 lo hi hlo hhi hnarrow =>
    have hne : lo ≠ hi := by
      rintro rfl
      exact hright hleft
    obtain rfl : hi = lo + 1 := by omega
    refine ⟨lo, hhi, ?_, hleft, hright⟩
    rw [bisect, dif_neg hnarrow]

/-- The value of a curve at a position, by the points around it. -/
inductive Takes [Channels α V] (nodes : List (ControlPoint α V)) (x : α) : V → Prop
  | first (h : 0 < nodes.length) (hx : x ≤ nodes[0].position) : Takes nodes x nodes[0].value
  | last (n : Nat) (h : nodes.length = n + 1) (hfirst : nodes[0].position < x)
      (hx : nodes[n].position ≤ x) : Takes nodes x nodes[n].value
  | inside (i : Nat) (h : i + 1 < nodes.length) (hfirst : nodes[0].position < x)
      (hleft : nodes[i].position ≤ x) (hright : x < nodes[i + 1].position) :
      Takes nodes x (between nodes[i] nodes[i + 1] x)

variable [Channels α V]

theorem evaluate_nil (x : α) : evaluate ([] : List (ControlPoint α V)) x = none :=
  dif_neg (Nat.lt_irrefl 0)

theorem evaluate_first {nodes : List (ControlPoint α V)} {x : α} (h : 0 < nodes.length)
    (hx : x ≤ nodes[0].position) : evaluate nodes x = some nodes[0].value :=
  (dif_pos h).trans (if_pos hx)

theorem evaluate_last {nodes : List (ControlPoint α V)} {x : α} {n : Nat}
    (h : nodes.length = n + 1) (hfirst : ¬x ≤ nodes[0].position) (hx : nodes[n].position ≤ x) :
    evaluate nodes x = some nodes[n].value := by
  obtain rfl : n = nodes.length - 1 := by omega
  have hpos : 0 < nodes.length := by omega
  rw [evaluate, dif_pos hpos]
  exact (if_neg hfirst).trans (if_pos hx)

variable [Scalar.Ordered α]

theorem evaluate_takes {nodes : List (ControlPoint α V)} (h : nodes ≠ [])
    (hnumbers : ∀ p ∈ nodes, Scalar.isNaN p.position = false) {x : α}
    (hx : Scalar.isNaN x = false) : ∃ v, evaluate nodes x = some v ∧ Takes nodes x v := by
  have hpos : 0 < nodes.length := List.length_pos_iff.2 h
  have hnumber (i : Nat) (hi : i < nodes.length) : Scalar.isNaN nodes[i].position = false :=
    hnumbers _ (List.getElem_mem hi)
  by_cases hfirst : x ≤ nodes[0].position
  · exact ⟨_, evaluate_first hpos hfirst, .first hpos hfirst⟩
  · have hlt := Scalar.lt_of_not_le hx (hnumber 0 hpos) hfirst
    by_cases hlast : nodes[nodes.length - 1].position ≤ x
    · have hlength : nodes.length = nodes.length - 1 + 1 := by omega
      exact ⟨_, evaluate_last hlength hfirst hlast, .last _ hlength hlt hlast⟩
    · obtain ⟨i, hi, hends, hleft, hright⟩ := bisect_brackets nodes x 0 (nodes.length - 1)
        (by omega) (Nat.zero_le _) (Scalar.le_of_lt hlt) hlast
      have hright' := Scalar.lt_of_not_le (hnumber (i + 1) hi) hx hright
      refine ⟨_, ?_, .inside i hi hlt hleft hright'⟩
      simp only [evaluate, dif_pos hpos, if_neg hfirst, if_neg hlast, hends]

end ControlPoint

end TransferCurves
