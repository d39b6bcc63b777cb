import TransferCurves.Proofs.Binary64Difference
import TransferCurves.Proofs.Bracketing
import Mathlib.Tactic.SplitIfs

/-!
# The search for a segment

The search stays inside the list: written with every subtraction and every index checked it never
fails, and a number of rounds that grows with the logarithm of the length suffices. On sorted points
it finds what a scan from the left finds, the last point at or below the position, and the segment
that starts there has a length.
-/

namespace TransferCurves

open scoped Scalar

class Scalar.PositiveDifferences (α : Type) [Scalar α] : Prop where
  sub_pos {x y : α} : x < y → 0 < y - x

instance : Scalar.PositiveDifferences Rat where
  sub_pos := fun {x y} (h : x < y) => (sub_pos (a := y) (b := x)).2 h

instance : Scalar.PositiveDifferences Binary64 where
  sub_pos := Binary64.sub_pos_of_lt

namespace ControlPoint

variable {α V : Type} [Scalar α]

def minus? (a b : Nat) : Option Nat := if b ≤ a then some (a - b) else none

/-- The search for a segment in at most so many rounds. It fails where an index would be outside the
list, where a difference would be below zero, and where the rounds do not suffice. -/
def search? (nodes : List (ControlPoint α V)) (x : α) :
    Nat → Nat → Nat → Option (ControlPoint α V × ControlPoint α V)
  | 0, _, _ => none
  | rounds + 1, lo, hi => do
    if (← minus? hi lo) > 1 then
      let mid := (lo + hi) / 2
      if (← nodes[mid]?).position ≤ x then search? nodes x rounds mid hi
      else search? nodes x rounds lo mid
    else return (← nodes[lo]?, ← nodes[hi]?)

def evaluate? [Channels α V] (rounds : Nat) (nodes : List (ControlPoint α V)) (x : α) :
    Option (Option V) :=
  match nodes[0]? with
  | none => some none
  | some first => do
    let last ← nodes[← minus? nodes.length 1]?
    if x ≤ first.position then return some first.value
    else if last.position ≤ x then return some last.value
    else
      let (left, right) ← search? nodes x rounds 0 (← minus? nodes.length 1)
      return some (between left right x)

theorem minus?_of_le {a b : Nat} (h : b ≤ a) : minus? a b = some (a - b) := if_pos h

section

variable (nodes : List (ControlPoint α V)) (x : α) {lo hi : Nat}

theorem search?_narrow (rounds : Nat) (hle : lo ≤ hi) (hlo : lo < nodes.length)
    (hhi : hi < nodes.length) (hnarrow : ¬hi - lo > 1) :
    search? nodes x (rounds + 1) lo hi = some (nodes[lo], nodes[hi]) := by
  simp only [search?, minus?_of_le hle, Option.bind_eq_bind, Option.bind_some, if_neg hnarrow,
    List.getElem?_eq_getElem hlo, List.getElem?_eq_getElem hhi]
  rfl

theorem search?_wide (rounds : Nat) (hlo : lo ≤ hi) (hmid : (lo + hi) / 2 < nodes.length)
    (hwide : hi - lo > 1) :
    search? nodes x (rounds + 1) lo hi =
      if nodes[(lo + hi) / 2].position ≤ x then search? nodes x rounds ((lo + hi) / 2) hi
      else search? nodes x rounds lo ((lo + hi) / 2) := by
  simp only [search?, minus?_of_le hlo, Option.bind_eq_bind, Option.bind_some, if_pos hwide,
    List.getElem?_eq_getElem hmid]

end

theorem search?_eq_bisect (nodes : List (ControlPoint α V)) (x : α) (rounds lo hi : Nat)
    (hlo : lo ≤ hi) (hhi : hi < nodes.length) (hwidth : hi - lo ≤ 2 ^ rounds) :
    search? nodes x (rounds + 1) lo hi = some (bisect nodes x lo hi hlo hhi) := by
  induction lo, hi, hlo, hhi using bisect.induct nodes x generalizing rounds with
  | case1 lo hi hlo hhi hwide mid hmid hle ih =>
    cases rounds with
    | zero => omega
    | succ rounds =>
      rw [search?_wide nodes x _ hlo hmid hwide, bisect, dif_pos hwide, if_pos hle, if_pos hle]
      exact ih rounds (by omega)
  | case2 lo hi hlo hhi hwide mid hmid hgt ih =>
    cases rounds with
    | zero => omega
    | succ rounds =>
      rw [search?_wide nodes x _ hlo hmid hwide, bisect, dif_pos hwide, if_neg hgt, if_neg hgt]
      exact ih rounds (by omega)
  | case3 lo hi hlo hhi hnarrow =>
    rw [search?_narrow nodes x rounds hlo (hlo.trans_lt hhi) hhi hnarrow, bisect, dif_neg hnarrow]

theorem evaluate?_eq [Channels α V] (nodes : List (ControlPoint α V)) (x : α) :
    evaluate? (nodes.length.log2 + 2) nodes x = some (evaluate nodes x) := by
  by_cases hpos : 0 < nodes.length
  · have hlast : nodes.length - 1 < nodes.length := by omega
    have hwidth : nodes.length - 1 - 0 ≤ 2 ^ (nodes.length.log2 + 1) := by
      have hlog := Nat.lt_log2_self (n := nodes.length)
      omega
    have hsearch := search?_eq_bisect nodes x _ 0 _ (Nat.zero_le _) hlast hwidth
    simp only [evaluate?, List.getElem?_eq_getElem hpos, minus?_of_le hpos, Option.bind_eq_bind,
      Option.bind_some, List.getElem?_eq_getElem hlast, hsearch]
    have hevaluate : evaluate nodes x =
        if x ≤ nodes[0].position then some nodes[0].value
        else if nodes[nodes.length - 1].position ≤ x then some nodes[nodes.length - 1].value
        else
          let ends := bisect nodes x 0 (nodes.length - 1) (Nat.zero_le _) hlast
          some (between ends.1 ends.2 x) := dif_pos hpos
    rw [hevaluate]
    split_ifs
    · rfl
    · rfl
    · rfl
  · rw [evaluate?, List.getElem?_eq_none (Nat.not_lt.1 hpos), evaluate, dif_neg hpos]

def onSegment [Channels α V] (left right : ControlPoint α V) (x : α) : V :=
  let t := (x - left.position) / (right.position - left.position)
  Channels.zipWith (fun v₁ v₂ => Segment.value v₁ v₂ t left.midpoint left.sharpness)
    left.value right.value

section

variable [Scalar.Ordered α] {nodes : List (ControlPoint α V)} {x : α} {i : Nat}

theorem span_pos [Scalar.PositiveDifferences α] {left right : ControlPoint α V}
    (h : left.position < right.position) : ¬right.position - left.position ≤ 0 :=
  (Scalar.Ordered.lt_iff.1 (Scalar.PositiveDifferences.sub_pos h)).2

theorem between_of_lt [Channels α V] [Scalar.PositiveDifferences α] {left right : ControlPoint α V}
    (h : left.position < right.position) (x : α) : between left right x = onSegment left right x :=
  if_neg (span_pos h)

theorem index_le_of_position_le (hsorted : nodes.Pairwise fun p q => p.position ≤ q.position)
    (hi : i + 1 < nodes.length) (hright : x < nodes[i + 1].position) {j : Nat}
    (hj : j < nodes.length) (hle : nodes[j].position ≤ x) : j ≤ i := by
  by_contra hlt
  have hback : nodes[i + 1].position ≤ nodes[j].position := by
    rcases Nat.eq_or_lt_of_le (Nat.lt_of_not_le hlt) with rfl | hbeyond
    · exact Scalar.le_refl (Scalar.number_of_lt hright).2
    · exact List.pairwise_iff_getElem.1 hsorted _ _ hi hj hbeyond
  exact (Scalar.Ordered.lt_iff.1 hright).2 (Scalar.Ordered.trans hback hle)

theorem evaluate_inside [Channels α V] (hpos : 0 < nodes.length)
    (hend : nodes.length - 1 < nodes.length)
    (hnumbers : ∀ p ∈ nodes, Scalar.isNaN p.position = false) (hx : Scalar.isNaN x = false)
    (hfirst : ¬x ≤ nodes[0].position) (hlast : ¬nodes[nodes.length - 1].position ≤ x) :
    ∃ i, ∃ hi : i < nodes.length, ∃ hi' : i + 1 < nodes.length,
      nodes[i].position ≤ x ∧ x < nodes[i + 1].position ∧
        evaluate nodes x = some (between nodes[i] nodes[i + 1] x) := by
  obtain ⟨v, hv, htakes⟩ := evaluate_takes (List.length_pos_iff.1 hpos) hnumbers hx
  cases htakes with
  | first _ hle => exact absurd hle hfirst
  | last n h _ hle =>
    obtain rfl : n = nodes.length - 1 := by omega
    exact absurd hle hlast
  | inside i hi _ hleft hright => exact ⟨i, by omega, hi, hleft, hright, hv⟩

end

/-- Evaluation never leaves the list and never counts below zero, for any points in any order and
any position. On points sorted by positions that are numbers, at a position that is a number, it
gives what a scan gives: the end that is held, or else the segment from the last point at or below
the position, which has a length. -/
theorem evaluate_scans [Channels Binary64 V] (nodes : List (ControlPoint Binary64 V))
    (x : Binary64) :
    evaluate? (nodes.length.log2 + 2) nodes x = some (evaluate nodes x) ∧
      ∀ hpos : 0 < nodes.length, nodes.Pairwise (fun p q => p.position ≤ q.position) →
        (∀ p ∈ nodes, Scalar.isNaN p.position = false) → Scalar.isNaN x = false →
        (x ≤ nodes[0].position → evaluate nodes x = some nodes[0].value) ∧
        (¬x ≤ nodes[0].position → nodes[nodes.length - 1].position ≤ x →
          evaluate nodes x = some nodes[nodes.length - 1].value) ∧
        (¬x ≤ nodes[0].position → ¬nodes[nodes.length - 1].position ≤ x →
          ∃ i, ∃ h : i + 1 < nodes.length,
            (nodes[i].position ≤ x ∧ ∀ j, (hj : j < nodes.length) → nodes[j].position ≤ x → j ≤ i) ∧
            x < nodes[i + 1].position ∧ ¬nodes[i + 1].position - nodes[i].position ≤ 0 ∧
            evaluate nodes x = some (onSegment nodes[i] nodes[i + 1] x)) := by
  refine ⟨evaluate?_eq nodes x, fun hpos hsorted hnumbers hx => ⟨?_, ?_, ?_⟩⟩
  · exact evaluate_first hpos
  · exact evaluate_last (by omega)
  · intro hfirst hlast
    obtain ⟨i, _, hi, hleft, hright, hvalue⟩ :=
      evaluate_inside hpos (by omega) hnumbers hx hfirst hlast
    have hlt := Scalar.lt_of_le_of_lt hleft hright
    rw [between_of_lt hlt] at hvalue
    refine ⟨i, hi, ⟨hleft, fun j hj => ?_⟩, hright, span_pos hlt, hvalue⟩
    exact index_le_of_position_le hsorted hi hright hj

def stackedOpacities : List (OpacityPoint Binary64) :=
  [.plain (-1) 0, ⟨0, 0.25, 0.5, 1⟩, ⟨0, 0.5, 0.25, 0⟩, .plain 2 1]

theorem stackedOpacities_scanned :
    0 < stackedOpacities.length ∧
      (stackedOpacities.Pairwise fun p q => p.position ≤ q.position) ∧
      (∀ p ∈ stackedOpacities, Scalar.isNaN p.position = false) ∧
      Scalar.isNaN (0 : Binary64) = false ∧
      ∃ i, ∃ h : i + 1 < stackedOpacities.length,
        (stackedOpacities[i].position ≤ 0 ∧ ∀ j, (hj : j < stackedOpacities.length) →
          stackedOpacities[j].position ≤ 0 → j ≤ i) ∧
        0 < stackedOpacities[i + 1].position ∧
        ¬stackedOpacities[i + 1].position - stackedOpacities[i].position ≤ 0 ∧
        evaluate stackedOpacities 0 =
          some (onSegment stackedOpacities[i] stackedOpacities[i + 1] 0) := by
  have hpos : 0 < stackedOpacities.length := by decide
  have hsorted : stackedOpacities.Pairwise fun p q => p.position ≤ q.position := by decide +kernel
  have hnumbers : ∀ p ∈ stackedOpacities, Scalar.isNaN p.position = false := by decide +kernel
  have hx : Scalar.isNaN (0 : Binary64) = false := by decide +kernel
  obtain ⟨-, -, hinside⟩ := (evaluate_scans stackedOpacities 0).2 hpos hsorted hnumbers hx
  have hfirst : ¬(0 : Binary64) ≤ -1 := by decide +kernel
  have hlast : ¬(2 : Binary64) ≤ 0 := by decide +kernel
  exact ⟨hpos, hsorted, hnumbers, hx, hinside hfirst hlast⟩

end ControlPoint

end TransferCurves
