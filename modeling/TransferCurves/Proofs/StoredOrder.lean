import TransferCurves.Proofs.Binary64Order
import TransferCurves.Proofs.Positions
import TransferCurves.TransferFunction
import Mathlib.Data.List.Pairwise

/-!
# The stored order does not show

Control points whose positions are numbers and differ from each other can be sorted in one way only,
and the bounds of their positions are the same in whatever order the list is read. So two maps with
the same points, stored in different orders, show the same and have the same tables.
-/

namespace TransferCurves

open scoped Scalar

class Scalar.Separated (α : Type) [Scalar α] : Prop where
  equal_of_le {x y : α} : x ≤ y → y ≤ x → equal x y = true
  eq_of_totalLE {x y : α} : totalLE x y = true → totalLE y x = true → x = y

instance : Scalar.Separated Rat where
  equal_of_le hxy hyx := beq_iff_eq.2 (le_antisymm (α := Rat) hxy hyx)
  eq_of_totalLE hxy hyx := le_antisymm (Scalar.totalLE_iff.1 hxy) (Scalar.totalLE_iff.1 hyx)

namespace Binary64

theorem equal_of_place {x y : Binary64} (hx : Scalar.isNaN x = false) (hy : Scalar.isNaN y = false)
    (h : place (decoded x) = place (decoded y)) : Scalar.equal x y = true := by
  obtain ⟨o, hcompare, hplace⟩ := compare_place (u := decoded x) (v := decoded y) hx hy
  rw [hplace.eq_eq.2 h] at hcompare
  change ((decoded x).compare (decoded y) == some Ordering.eq) = true
  rw [hcompare]
  rfl

instance : Scalar.Separated Binary64 where
  equal_of_le hxy hyx := by
    obtain ⟨hx, hy, hle⟩ := le_iff.1 hxy
    exact equal_of_place hx hy (le_antisymm hle (le_iff.1 hyx).2.2)
  eq_of_totalLE hxy hyx :=
    rank_injective (le_antisymm (of_decide_eq_true hxy) (of_decide_eq_true hyx))

end Binary64

theorem Range.ofPositions_within {α : Type} [Scalar α] [Scalar.Ordered α] {xs ys : List α}
    (hsub : ∀ y ∈ ys, y ∈ xs) (hne : ys ≠ []) (hnumber : ∀ x ∈ xs, Scalar.isNaN x = false) :
    (ofPositions xs).min ≤ (ofPositions ys).min ∧ (ofPositions ys).max ≤ (ofPositions xs).max := by
  obtain ⟨hmin, hmax⟩ := ofPositions_mem hne
  exact ⟨(ofPositions_holds (hsub _ hmin) (hnumber _ (hsub _ hmin))).1,
    (ofPositions_holds (hsub _ hmax) (hnumber _ (hsub _ hmax))).2⟩

namespace ControlPoint

variable {α V : Type} [Scalar α]

/-- The positions are numbers, and no two of them are numerically equal. -/
structure Apart (points : List (ControlPoint α V)) : Prop where
  number : ∀ p ∈ points, Scalar.isNaN p.position = false
  distinct : points.Pairwise fun p q => Scalar.equal p.position q.position = false

namespace Apart

variable [Scalar.Separated α] {ps qs : List (ControlPoint α V)}

theorem eq_of_le (h : Apart ps) {p q : ControlPoint α V} (hp : p ∈ ps) (hq : q ∈ ps)
    (hpq : p.position ≤ q.position) (hqp : q.position ≤ p.position) : p = q := by
  have htold : ps.Pairwise fun p q => ¬(p.position ≤ q.position ∧ q.position ≤ p.position) := by
    refine h.distinct.imp ?_
    rintro p q hequal ⟨hpq, hqp⟩
    rw [Scalar.Separated.equal_of_le hpq hqp] at hequal
    cases hequal
  -- The lemma on pairs of members asks for a symmetric relation, so both directions stay in it.
  have : Std.Symm fun p q : ControlPoint α V =>
      ¬(p.position ≤ q.position ∧ q.position ≤ p.position) := ⟨fun _ _ h hle => h hle.symm⟩
  by_contra hne
  exact htold.forall hp hq hne ⟨hpq, hqp⟩

theorem position_eq (h : Apart ps) {x y : α} (hx : x ∈ ps.map (·.position))
    (hy : y ∈ ps.map (·.position)) (hxy : x ≤ y) (hyx : y ≤ x) : x = y := by
  obtain ⟨p, hp, rfl⟩ := List.mem_map.1 hx
  obtain ⟨q, hq, rfl⟩ := List.mem_map.1 hy
  rw [h.eq_of_le hp hq hxy hyx]

variable [Scalar.Ordered α]

theorem eq_of_totalLE (h : Apart ps) {p q : ControlPoint α V} (hp : p ∈ ps) (hq : q ∈ ps)
    (hpq : Scalar.totalLE p.position q.position = true)
    (hqp : Scalar.totalLE q.position p.position = true) : p = q := by
  have hposition := Scalar.Separated.eq_of_totalLE hpq hqp
  have hle : p.position ≤ p.position := Scalar.le_refl (h.number p hp)
  refine h.eq_of_le hp hq ?_ ?_
  · rwa [← hposition]
  · rwa [← hposition]

theorem sort_eq [Scalar.TotallyOrdered α] (h : Apart ps) (hperm : ps.Perm qs) :
    sortByPosition ps = sortByPosition qs := by
  have hps := sortByPosition_perm ps
  have hqs := (sortByPosition_perm qs).trans hperm.symm
  refine List.Perm.eq_of_pairwise ?_ (sortByPosition_sorted ps) (sortByPosition_sorted qs)
    (hps.trans hqs.symm)
  intro p q hp hq hpq hqp
  exact h.eq_of_totalLE (hps.mem_iff.1 hp) (hqs.mem_iff.1 hq) hpq hqp

theorem range_eq (h : Apart ps) (hperm : ps.Perm qs) :
    Range.ofPositions (ps.map (·.position)) = Range.ofPositions (qs.map (·.position)) := by
  have hpositions := hperm.map (·.position)
  rcases eq_or_ne (ps.map (·.position)) [] with hnil | hps
  · rw [hnil, (hpositions.symm.trans (.of_eq hnil)).eq_nil]
  · have hqs : qs.map (·.position) ≠ [] := fun hnil => hps (hpositions.trans (.of_eq hnil)).eq_nil
    have hnumber : ∀ x ∈ ps.map (·.position), Scalar.isNaN x = false :=
      List.forall_mem_map.2 h.number
    obtain ⟨hmin, hmax⟩ := Range.ofPositions_mem hps
    obtain ⟨hmin', hmax'⟩ := Range.ofPositions_mem hqs
    have hwithin := Range.ofPositions_within (fun x => hpositions.mem_iff.2) hqs hnumber
    have hwithin' := Range.ofPositions_within (fun x => hpositions.mem_iff.1) hps
      fun x hx => hnumber x (hpositions.mem_iff.2 hx)
    exact congrArg₂ Range.mk
      (h.position_eq hmin (hpositions.mem_iff.2 hmin') hwithin.1 hwithin'.1)
      (h.position_eq hmax (hpositions.mem_iff.2 hmax') hwithin'.2 hwithin.2)

end Apart

end ControlPoint

namespace ColorMap

variable {α : Type} [Scalar α] [Scalar.Ordered α] [Scalar.TotallyOrdered α] [Scalar.Separated α]
  {m n : ColorMap α}

theorem sampler_perm (hcolors : ControlPoint.Apart m.points)
    (hopacities : ControlPoint.Apart m.opacityPoints) (hpoints : m.points.Perm n.points)
    (hopacity : m.opacityPoints.Perm n.opacityPoints)
    (hmapping : m.opacityMapping = n.opacityMapping) : m.sampler = n.sampler := by
  rw [sampler, sampler, hcolors.sort_eq hpoints, hopacities.sort_eq hopacity, hmapping]

end ColorMap

/-- Two functions with the same options that store the same points in different orders show the same
at every scalar and have the same table of every size, provided that the positions of each of their
curves are numbers and differ from each other. -/
theorem TransferFunction.stored_order_hidden (f g : TransferFunction Binary64)
    (hoptions : f.opacityMapping = g.opacityMapping ∧ f.discretize = g.discretize ∧
      f.numberOfValues = g.numberOfValues ∧ f.nanColor = g.nanColor)
    (hcolors : f.points.Perm g.points) (hopacities : f.opacityPoints.Perm g.opacityPoints)
    (hcolorsApart : ControlPoint.Apart f.points)
    (hopacitiesApart : ControlPoint.Apart f.opacityPoints) :
    (∀ x, f.valueAt x = g.valueAt x) ∧
      ∀ size, LookupTable.build f.toColorMap size = LookupTable.build g.toColorMap size := by
  obtain ⟨hmapping, hdiscretize, hvalues, hnan⟩ := hoptions
  have hsampler := ColorMap.sampler_perm hcolorsApart hopacitiesApart hcolors hopacities hmapping
  refine ⟨fun x => ?_, fun size => ?_⟩
  · rw [ColorMap.valueAt, ColorMap.valueAt, hsampler, hnan]
  · exact LookupTable.build_congr (hcolorsApart.range_eq hcolors) hsampler hdiscretize hvalues hnan
      size

def shuffledPoints : TransferFunction Binary64 :=
  (TransferFunction.ofPoints
    [.plain 3 ⟨1, 0, 0⟩, ⟨-1, ⟨0, 1, 0⟩, 0.25, 1⟩, .plain 0 ⟨0, 0, 1⟩]).withOpacity
      ⟨[.plain 2 1, .plain (-0.5) 0]⟩

def orderedPoints : TransferFunction Binary64 :=
  (TransferFunction.ofPoints
    [⟨-1, ⟨0, 1, 0⟩, 0.25, 1⟩, .plain 0 ⟨0, 0, 1⟩, .plain 3 ⟨1, 0, 0⟩]).withOpacity
      ⟨[.plain (-0.5) 0, .plain 2 1]⟩

theorem shuffledPoints_hidden :
    (shuffledPoints.opacityMapping = orderedPoints.opacityMapping ∧
      shuffledPoints.discretize = orderedPoints.discretize ∧
      shuffledPoints.numberOfValues = orderedPoints.numberOfValues ∧
      shuffledPoints.nanColor = orderedPoints.nanColor) ∧
    shuffledPoints.points.Perm orderedPoints.points ∧
    shuffledPoints.opacityPoints.Perm orderedPoints.opacityPoints ∧
    ControlPoint.Apart shuffledPoints.points ∧ ControlPoint.Apart shuffledPoints.opacityPoints ∧
    (∀ x, shuffledPoints.valueAt x = orderedPoints.valueAt x) ∧
      ∀ size, LookupTable.build shuffledPoints.toColorMap size =
        LookupTable.build orderedPoints.toColorMap size := by
  have hoptions : shuffledPoints.opacityMapping = orderedPoints.opacityMapping ∧
      shuffledPoints.discretize = orderedPoints.discretize ∧
      shuffledPoints.numberOfValues = orderedPoints.numberOfValues ∧
      shuffledPoints.nanColor = orderedPoints.nanColor := ⟨rfl, rfl, rfl, rfl⟩
  have hcolors : shuffledPoints.points.Perm orderedPoints.points := by decide +kernel
  have hopacities : shuffledPoints.opacityPoints.Perm orderedPoints.opacityPoints :=
    .swap _ _ _
  have hcolorsApart : ControlPoint.Apart shuffledPoints.points :=
    ⟨by decide +kernel, by decide +kernel⟩
  have hopacitiesApart : ControlPoint.Apart shuffledPoints.opacityPoints :=
    ⟨by decide +kernel, by decide +kernel⟩
  exact ⟨hoptions, hcolors, hopacities, hcolorsApart, hopacitiesApart,
    TransferFunction.stored_order_hidden shuffledPoints orderedPoints hoptions hcolors hopacities
      hcolorsApart hopacitiesApart⟩

end TransferCurves
