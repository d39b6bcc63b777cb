import TransferCurves.Proofs.Order
import TransferCurves.Proofs.Retiming
import Mathlib.Tactic.FieldSimp
import Mathlib.Tactic.Linarith
import Mathlib.Tactic.Ring

/-!
# Curves under a rescaling of positions

Over the exact rationals an increasing affine map of the positions commutes with everything that is
done to a curve: sorting, the search for a segment, the fraction along it, the range of the
positions and the samples of a table. So a rescaled map shows at the rescaled place what the
original shows.
-/

namespace TransferCurves

open scoped Scalar

namespace ControlPoint

variable {α V : Type} [Scalar α] {move : α → α}

theorem insertByPosition_reposition
    (h : ∀ x y, Scalar.totalLE (move x) (move y) = Scalar.totalLE x y)
    (p : ControlPoint α V) (qs : List (ControlPoint α V)) :
    insertByPosition (p.reposition move) (qs.map (.reposition move)) =
      (insertByPosition p qs).map (.reposition move) := by
  induction qs with
  | nil => rfl
  | cons q qs ih =>
    simp only [List.map_cons, insertByPosition, reposition, h]
    split_ifs
    · rfl
    · exact congrArg (q.reposition move :: ·) ih

theorem sortByPosition_reposition
    (h : ∀ x y, Scalar.totalLE (move x) (move y) = Scalar.totalLE x y)
    (ps : List (ControlPoint α V)) :
    sortByPosition (ps.map (.reposition move)) = (sortByPosition ps).map (.reposition move) := by
  induction ps with
  | nil => rfl
  | cons p ps ih =>
    calc sortByPosition ((p :: ps).map (.reposition move))
        = insertByPosition (p.reposition move) (sortByPosition (ps.map (.reposition move))) := rfl
      _ = insertByPosition (p.reposition move) ((sortByPosition ps).map (.reposition move)) := by
          rw [ih]
      _ = (sortByPosition (p :: ps)).map (.reposition move) :=
          insertByPosition_reposition h p (sortByPosition ps)

/-- The search turns the same way at every node, so it ends between the same two points. -/
theorem bisect_reposition (h : ∀ y x, move y ≤ move x ↔ y ≤ x) (nodes : List (ControlPoint α V))
    (x : α) (lo hi : Nat) (hlo : lo ≤ hi) (hhi : hi < nodes.length)
    (hhi' : hi < (nodes.map (ControlPoint.reposition move)).length) :
    bisect (nodes.map (.reposition move)) (move x) lo hi hlo hhi' =
      ((bisect nodes x lo hi hlo hhi).1.reposition move,
        (bisect nodes x lo hi hlo hhi).2.reposition move) := by
  induction lo, hi, hlo, hhi using bisect.induct nodes x with
  | case1 lo hi hlo hhi hwide mid hmid hle ih =>
    have hle' : move nodes[mid].position ≤ move x := (h _ _).2 hle
    rw [bisect, bisect, dif_pos hwide, dif_pos hwide]
    simp only [List.getElem_map, reposition]
    rw [if_pos hle', if_pos hle]
    exact ih hhi'
  | case2 lo hi hlo hhi hwide mid hmid hgt ih =>
    have hgt' : ¬move nodes[mid].position ≤ move x := fun hle => hgt ((h _ _).1 hle)
    rw [bisect, bisect, dif_pos hwide, dif_pos hwide]
    simp only [List.getElem_map, reposition]
    rw [if_neg hgt', if_neg hgt]
    exact ih _
  | case3 lo hi hlo hhi hnarrow =>
    rw [bisect, bisect, dif_neg hnarrow, dif_neg hnarrow]
    simp only [List.getElem_map]

theorem evaluate_reposition [Channels α V] (hle : ∀ x y, move x ≤ move y ↔ x ≤ y)
    (hbetween : ∀ (l r : ControlPoint α V) (x : α),
      between (l.reposition move) (r.reposition move) (move x) = between l r x)
    (nodes : List (ControlPoint α V)) (x : α) :
    evaluate (nodes.map (.reposition move)) (move x) = evaluate nodes x := by
  by_cases hpos : 0 < nodes.length
  · have hpos' : 0 < (nodes.map (ControlPoint.reposition move)).length := by simpa using hpos
    rw [evaluate, evaluate, dif_pos hpos, dif_pos hpos']
    simp only [List.getElem_map, List.length_map, reposition, hle]
    split_ifs
    · rfl
    · rfl
    · rw [bisect_reposition hle nodes x _ _ (Nat.zero_le _) (by omega)]
      simp only [hbetween]
  · have hpos' : ¬0 < (nodes.map (ControlPoint.reposition move)).length := by simpa using hpos
    rw [evaluate, evaluate, dif_neg hpos, dif_neg hpos']

end ControlPoint

/-- An increasing affine map of positions. -/
structure Rescaling where
  offset : Rat
  slope : Rat
  slope_pos : 0 < slope

namespace Rescaling

def apply (s : Rescaling) (x : Rat) : Rat := s.offset + s.slope * x

theorem apply_sub (s : Rescaling) (x y : Rat) : s.apply x - s.apply y = s.slope * (x - y) := by
  simp only [apply]
  ring

theorem apply_le_iff (s : Rescaling) {x y : Rat} : s.apply x ≤ s.apply y ↔ x ≤ y := by
  rw [apply, apply, add_le_add_iff_left, mul_le_mul_iff_right₀ s.slope_pos]

theorem apply_monotone (s : Rescaling) : Monotone s.apply := fun _ _ h => s.apply_le_iff.2 h

def between (source target : Range Rat) (hs : source.min < source.max)
    (ht : target.min < target.max) : Rescaling where
  offset := target.min - (target.max - target.min) / (source.max - source.min) * source.min
  slope := (target.max - target.min) / (source.max - source.min)
  slope_pos := div_pos (sub_pos.2 ht) (sub_pos.2 hs)

theorem retimed_eq (source : Range Rat) (a b x : Rat) :
    TransferFunction.retimed source a b x =
      a + (x - source.min) / (source.max - source.min) * (b - a) := rfl

theorem apply_between (source target : Range Rat) (hs : source.min < source.max)
    (ht : target.min < target.max) :
    (between source target hs ht).apply =
      TransferFunction.retimed source target.min target.max := by
  funext x
  simp only [apply, between, retimed_eq]
  ring

variable (s : Rescaling)

theorem fraction_apply (x l r : Rat) :
    (s.apply x - s.apply l) / (s.apply r - s.apply l) = (x - l) / (r - l) := by
  rw [apply_sub, apply_sub, mul_div_mul_left _ _ s.slope_pos.ne']

theorem between_eq {V : Type} [Channels Rat V] (l r : ControlPoint Rat V) (x : Rat) :
    ControlPoint.between l r x =
      if r.position - l.position ≤ 0 then r.value
      else Channels.zipWith (fun v₁ v₂ =>
        Segment.value v₁ v₂ ((x - l.position) / (r.position - l.position)) l.midpoint
          l.sharpness) l.value r.value := rfl

theorem between_apply {V : Type} [Channels Rat V] (l r : ControlPoint Rat V) (x : Rat) :
    ControlPoint.between (l.reposition s.apply) (r.reposition s.apply) (s.apply x) =
      ControlPoint.between l r x := by
  have hspan : s.apply r.position - s.apply l.position ≤ 0 ↔ r.position - l.position ≤ 0 := by
    rw [sub_nonpos, sub_nonpos, apply_le_iff]
  simp only [between_eq, ControlPoint.reposition, hspan, fraction_apply]

theorem evaluate_apply {V : Type} [Channels Rat V] (nodes : List (ControlPoint Rat V)) (x : Rat) :
    ControlPoint.evaluate (nodes.map (.reposition s.apply)) (s.apply x) =
      ControlPoint.evaluate nodes x :=
  ControlPoint.evaluate_reposition (fun _ _ => s.apply_le_iff) s.between_apply nodes x

theorem sort_apply {V : Type} (ps : List (ControlPoint Rat V)) :
    ControlPoint.sortByPosition (ps.map (.reposition s.apply)) =
      (ControlPoint.sortByPosition ps).map (.reposition s.apply) :=
  ControlPoint.sortByPosition_reposition
    (fun _ _ => decide_eq_decide.2 s.apply_le_iff) ps

theorem sampler_apply (m : ColorMap Rat) :
    (m.repositioned s.apply).sampler =
      { colors := m.sampler.colors.map (.reposition s.apply)
        opacities := m.sampler.opacities.map (.reposition s.apply)
        opacityMapping := m.opacityMapping } := by
  simp only [ColorMap.sampler, ColorMap.points_repositioned, ColorMap.opacityPoints_repositioned,
    sort_apply]
  rfl

theorem rgba_apply (m : ColorMap Rat) (x : Rat) :
    (m.repositioned s.apply).sampler.rgba (s.apply x) = m.sampler.rgba x := by
  rw [sampler_apply]
  simp only [Sampler.rgba, Sampler.color, Sampler.opacity, evaluate_apply]
  rfl

theorem valueAt_apply (m : ColorMap Rat) (x : Rat) :
    (m.repositioned s.apply).valueAt (s.apply x) = m.valueAt x :=
  s.rgba_apply m x

def onRange (r : Range Rat) : Range Rat := ⟨s.apply r.min, s.apply r.max⟩

theorem min_apply (x y : Rat) :
    Scalar.min (s.apply x) (s.apply y) = s.apply (Scalar.min x y) := by
  rw [Scalar.min_eq, Scalar.min_eq, s.apply_monotone.map_min]

theorem max_apply (x y : Rat) :
    Scalar.max (s.apply x) (s.apply y) = s.apply (Scalar.max x y) := by
  rw [Scalar.max_eq, Scalar.max_eq, s.apply_monotone.map_max]

theorem extend_apply (r : Range Rat) (x : Rat) :
    (s.onRange r).extend (s.apply x) = s.onRange (r.extend x) := by
  simp only [Range.extend, onRange, min_apply, max_apply]

theorem foldl_extend_apply (xs : List Rat) (r : Range Rat) :
    (xs.map s.apply).foldl Range.extend (s.onRange r) = s.onRange (xs.foldl Range.extend r) := by
  induction xs generalizing r with
  | nil => rfl
  | cons x xs ih => rw [List.map_cons, List.foldl_cons, extend_apply, ih, List.foldl_cons]

theorem ofPositions_apply {xs : List Rat} (h : xs ≠ []) :
    Range.ofPositions (xs.map s.apply) = s.onRange (Range.ofPositions xs) := by
  cases xs with
  | nil => exact absurd rfl h
  | cons x xs => exact s.foldl_extend_apply xs ⟨x, x⟩

theorem range_apply {m : ColorMap Rat} (h : m.points ≠ []) :
    (m.repositioned s.apply).range = s.onRange m.range := by
  have hpositions : (m.repositioned s.apply).points.map (·.position) =
      (m.points.map (·.position)).map s.apply := by
    simp only [ColorMap.points_repositioned, List.map_map]
    rfl
  rw [ColorMap.range, hpositions]
  exact s.ofPositions_apply (by simpa using h)

theorem denormalize_apply (r : Range Rat) (t : Rat) :
    (s.onRange r).denormalize t = s.apply (r.denormalize t) := by
  change s.apply r.min + t * (s.apply r.max - s.apply r.min) = s.apply (r.min + t * (r.max - r.min))
  simp only [apply]
  ring

theorem build_apply {m : ColorMap Rat} (h : m.points ≠ []) (size : Nat) :
    LookupTable.build (m.repositioned s.apply) size =
      { LookupTable.build m size with range := s.onRange m.range } := by
  simp only [LookupTable.build, s.range_apply h, denormalize_apply, rgba_apply]
  rfl

end Rescaling

end TransferCurves
