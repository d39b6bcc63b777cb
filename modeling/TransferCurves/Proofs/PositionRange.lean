import TransferCurves.Proofs.PointTransfer
import TransferCurves.Proofs.Reversal
import TransferCurves.Proofs.StoredOrder

/-!
# The range of positions, in any order

The range of a list of positions comes of one pass that keeps the least and the greatest position
met so far. A position that is no number is passed over wherever it stands, in front too; only where
there is no number at all are the bounds no numbers. So the bounds of two lists that differ in order
compare equal, and neither reversing a curve nor the order in which its points were added moves its
range.
-/

namespace TransferCurves

open scoped Scalar

namespace Range

section

variable {α : Type} [Scalar α] [Scalar.Ordered α] {r : Range α} {x : α} {xs ys : List α}

theorem extend_passes (h : r.min ≤ r.max) (hx : Scalar.isNaN x = true) : r.extend x = r := by
  obtain ⟨hmin, hmax⟩ := Scalar.Ordered.number_of_le h
  have hbelow : ¬x < r.min := fun hlt => by
    rw [(Scalar.number_of_lt hlt).1] at hx
    cases hx
  have habove : ¬r.max < x := fun hlt => by
    rw [(Scalar.number_of_lt hlt).2] at hx
    cases hx
  simp only [extend, Scalar.min, Scalar.max, hmin, hmax, hbelow, habove, Bool.false_eq_true,
    if_false]

theorem extend_ordered (hx : Scalar.isNaN x = false) : (r.extend x).min ≤ (r.extend x).max :=
  Scalar.Ordered.trans (extend_holds hx).1 (extend_holds hx).2

theorem foldl_extend_filter (h : r.min ≤ r.max) (xs : List α) :
    (xs.filter fun x => !Scalar.isNaN x).foldl extend r = xs.foldl extend r := by
  induction xs generalizing r with
  | nil => rfl
  | cons x xs ih =>
    cases hx : Scalar.isNaN x with
    | true =>
      rw [List.filter_cons_of_neg (by simp [hx]), List.foldl_cons, extend_passes h hx]
      exact ih h
    | false =>
      rw [List.filter_cons_of_pos (by simp [hx]), List.foldl_cons, List.foldl_cons]
      exact ih (extend_ordered hx)

omit [Scalar.Ordered α] in
theorem ofPositions_cons_of_isNaN (hx : Scalar.isNaN x = true) (h : xs ≠ []) :
    ofPositions (x :: xs) = ofPositions xs := by
  cases xs with
  | nil => exact absurd rfl h
  | cons y ys => rw [ofPositions_cons, List.foldl_cons, extend_of_isNaN hx hx, ofPositions_cons]

theorem ofPositions_filter (h : ∃ x ∈ xs, Scalar.isNaN x = false) :
    ofPositions (xs.filter fun x => !Scalar.isNaN x) = ofPositions xs := by
  induction xs with
  | nil =>
    obtain ⟨x, hx, -⟩ := h
    cases hx
  | cons y ys ih =>
    cases hy : Scalar.isNaN y with
    | true =>
      obtain ⟨x, hx, hnumber⟩ := h
      have hmem : x ∈ ys := (List.mem_cons.1 hx).resolve_left fun heq => by
        rw [heq, hy] at hnumber
        cases hnumber
      rw [List.filter_cons_of_neg (by simp [hy]),
        ofPositions_cons_of_isNaN hy (List.ne_nil_of_mem hmem)]
      exact ih ⟨x, hmem, hnumber⟩
    | false =>
      rw [List.filter_cons_of_pos (by simp [hy]), ofPositions_cons, ofPositions_cons]
      exact foldl_extend_filter (Scalar.le_refl hy) ys

theorem ofPositions_numbers (hx : x ∈ xs) (hnumber : Scalar.isNaN x = false) :
    Scalar.isNaN (ofPositions xs).min = false ∧ Scalar.isNaN (ofPositions xs).max = false := by
  obtain ⟨hmin, hmax⟩ := ofPositions_holds hx hnumber
  exact ⟨(Scalar.Ordered.number_of_le hmin).1, (Scalar.Ordered.number_of_le hmax).2⟩

theorem ofPositions_perm [Scalar.Separated α] (hperm : xs.Perm ys) (hne : xs ≠ [])
    (hnumber : ∀ x ∈ xs, Scalar.isNaN x = false) :
    Scalar.equal (ofPositions xs).min (ofPositions ys).min = true ∧
      Scalar.equal (ofPositions xs).max (ofPositions ys).max = true := by
  have hne' : ys ≠ [] := fun hnil => hne (hperm.trans (.of_eq hnil)).eq_nil
  have hwithin := ofPositions_within (fun y => hperm.mem_iff.2) hne' hnumber
  have hwithin' := ofPositions_within (fun x => hperm.mem_iff.1) hne
    fun y hy => hnumber y (hperm.mem_iff.2 hy)
  exact ⟨Scalar.Separated.equal_of_le hwithin.1 hwithin'.1,
    Scalar.Separated.equal_of_le hwithin'.2 hwithin.2⟩

end

/-- The bounds of two ranges compare equal, or none of them is a number. -/
def Agrees {α : Type} [Scalar α] (r s : Range α) : Prop :=
  (Scalar.equal r.min s.min = true ∧ Scalar.equal r.max s.max = true) ∨
    (Scalar.isNaN r.min = true ∧ Scalar.isNaN r.max = true) ∧
      Scalar.isNaN s.min = true ∧ Scalar.isNaN s.max = true

variable {xs ys : List Binary64}

theorem ofPositions_agrees (hperm : xs.Perm ys) : (ofPositions xs).Agrees (ofPositions ys) := by
  rcases eq_or_ne xs [] with rfl | hne
  · rw [hperm.symm.eq_nil]
    exact Or.inl ⟨rfl, rfl⟩
  by_cases hnumber : ∃ x ∈ xs, Scalar.isNaN x = false
  · obtain ⟨x, hx, hx'⟩ := hnumber
    have hkept : xs.filter (fun x => !Scalar.isNaN x) ≠ [] :=
      List.ne_nil_of_mem (List.mem_filter.2 ⟨hx, by simp [hx']⟩)
    have hnumbers : ∀ x ∈ xs.filter (fun x => !Scalar.isNaN x), Scalar.isNaN x = false :=
      fun x hx => by simpa using (List.mem_filter.1 hx).2
    rw [← ofPositions_filter ⟨x, hx, hx'⟩, ← ofPositions_filter ⟨x, hperm.mem_iff.1 hx, hx'⟩]
    exact Or.inl (ofPositions_perm (hperm.filter _) hkept hnumbers)
  · have hall : ∀ x ∈ xs, Scalar.isNaN x = true := fun x hx =>
      (Bool.eq_false_or_eq_true _).resolve_right fun h => hnumber ⟨x, hx, h⟩
    have hne' : ys ≠ [] := fun hnil => hne (hperm.trans (.of_eq hnil)).eq_nil
    obtain ⟨hmin, hmax⟩ := ofPositions_mem hne
    obtain ⟨hmin', hmax'⟩ := ofPositions_mem hne'
    exact Or.inr ⟨⟨hall _ hmin, hall _ hmax⟩, hall _ (hperm.mem_iff.2 hmin'),
      hall _ (hperm.mem_iff.2 hmax')⟩

/-- How a range stands to the positions it was taken from: zero bounds if there are none, bounds
that are no numbers if no position is a number, and otherwise positions that enclose all numbers
among them, which the rest of the positions has no part in. -/
structure Spans (xs : List Binary64) (r : Range Binary64) : Prop where
  empty : xs = [] → r = ⟨0, 0⟩
  min_isNaN : Scalar.isNaN r.min = true ↔ xs ≠ [] ∧ ∀ x ∈ xs, Scalar.isNaN x = true
  max_isNaN : Scalar.isNaN r.max = true ↔ xs ≠ [] ∧ ∀ x ∈ xs, Scalar.isNaN x = true
  bounds : xs ≠ [] → r.min ∈ xs ∧ r.max ∈ xs
  encloses : ∀ x ∈ xs, Scalar.isNaN x = false → r.min ≤ x ∧ x ≤ r.max
  ignores : (∃ x ∈ xs, Scalar.isNaN x = false) →
    r = ofPositions (xs.filter fun x => !Scalar.isNaN x)

theorem isNaN_bound_iff {bound : Range Binary64 → Binary64}
    (hmem : xs ≠ [] → bound (ofPositions xs) ∈ xs)
    (hnumber : ∀ x ∈ xs, Scalar.isNaN x = false → Scalar.isNaN (bound (ofPositions xs)) = false)
    (hempty : Scalar.isNaN (bound ⟨0, 0⟩) = false) :
    Scalar.isNaN (bound (ofPositions xs)) = true ↔
      xs ≠ [] ∧ ∀ x ∈ xs, Scalar.isNaN x = true := by
  constructor
  · intro h
    refine ⟨?_, fun x hx => ?_⟩
    · rintro rfl
      exact absurd (h.symm.trans hempty) (by decide)
    · by_contra hx'
      exact absurd (h.symm.trans (hnumber x hx (Bool.eq_false_iff.2 hx'))) (by decide)
  · rintro ⟨hne, hall⟩
    exact hall _ (hmem hne)

theorem ofPositions_spans (xs : List Binary64) : Spans xs (ofPositions xs) where
  empty h := by rw [h]; rfl
  min_isNaN := isNaN_bound_iff (fun h => (ofPositions_mem h).1)
    (fun _ hx hnumber => (ofPositions_numbers hx hnumber).1) rfl
  max_isNaN := isNaN_bound_iff (fun h => (ofPositions_mem h).2)
    (fun _ hx hnumber => (ofPositions_numbers hx hnumber).2) rfl
  bounds := ofPositions_mem
  encloses _ := ofPositions_holds
  ignores h := (ofPositions_filter h).symm

end Range

theorem TransferFunction.points_foldl_addPoint {α : Type} (f : TransferFunction α)
    (ps : List (ColorPoint α)) : (ps.foldl addPoint f).points = f.points ++ ps := by
  induction ps generalizing f with
  | nil => simp
  | cons p ps ih => simp [ih, addPoint, modified, touch]

theorem TransferFunction.range_agrees {f g : TransferFunction Binary64}
    (h : (f.points.map (·.position)).Perm (g.points.map (·.position))) : f.range.Agrees g.range :=
  Range.ofPositions_agrees h

/-- The range of any positions spans them, and positions in another order have a range that agrees
with it. So the range of a function is that of the reversed function, and neither for color points
nor for opacity points does it matter in which order they were added. -/
theorem Range.positions_spanned (xs : List Binary64) :
    Spans xs (ofPositions xs) ∧
      (∀ ys, xs.Perm ys → (ofPositions xs).Agrees (ofPositions ys)) ∧
      (∀ f : TransferFunction Binary64, f.range.Agrees f.reverse.range ∧
        ∀ ps qs : List (ColorPoint Binary64), ps.Perm qs →
          (ps.foldl .addPoint f).range.Agrees (qs.foldl .addPoint f).range) ∧
      ∀ (c : OpacityCurve Binary64) (ps qs : List (OpacityPoint Binary64)), ps.Perm qs →
        (ps.foldl .addPoint c).range.Agrees (qs.foldl .addPoint c).range := by
  refine ⟨ofPositions_spans xs, fun _ => ofPositions_agrees, fun f => ⟨?_, fun ps qs h => ?_⟩,
    fun c ps qs h => ?_⟩
  · refine TransferFunction.range_agrees ?_
    have hreversed : f.reverse.points.map (·.position) = (f.points.map (·.position)).reverse :=
      ControlPoint.map_position_endForEnd f.points
    rw [hreversed]
    exact (List.reverse_perm _).symm
  · refine TransferFunction.range_agrees (List.Perm.map _ ?_)
    rw [TransferFunction.points_foldl_addPoint, TransferFunction.points_foldl_addPoint]
    exact h.append_left f.points
  · rw [OpacityCurve.foldl_addPoint, OpacityCurve.foldl_addPoint]
    exact ofPositions_agrees ((h.append_left c.points).map _)

def mixedPositions : List Binary64 := [⟨0x7FF8000000000000⟩, 0, -0, 3]

theorem mixedPositions_spanned :
    mixedPositions.Perm mixedPositions.reverse ∧
      Range.Spans mixedPositions ⟨0, 3⟩ ∧
      (⟨0, 3⟩ : Range Binary64).Agrees ⟨-0, 3⟩ := by
  have hperm : mixedPositions.Perm mixedPositions.reverse := (List.reverse_perm _).symm
  have hforth : Range.ofPositions mixedPositions = ⟨0, 3⟩ := by decide +kernel
  have hback : Range.ofPositions mixedPositions.reverse = ⟨-0, 3⟩ := by decide +kernel
  obtain ⟨hspans, hagrees, -⟩ := Range.positions_spanned mixedPositions
  have hboth := hagrees _ hperm
  rw [hforth] at hspans hboth
  rw [hback] at hboth
  exact ⟨hperm, hspans, hboth⟩

end TransferCurves
