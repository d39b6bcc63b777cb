import TransferCurves.Attenuation
import TransferCurves.Proofs.Binary64Order
import TransferCurves.Proofs.Edit
import Mathlib.Algebra.BigOperators.Group.List.Basic
import Mathlib.Tactic.Linarith

/-!
# What attenuation leaves

Attenuation acts on each opacity by itself. Whatever it starts from and whatever the factor is, it
ends between the two bounds, and nothing else of the map changes. Over the exact rationals, holding
an opacity at the floor is harmless as long as factors only lessen: what was raised to the floor would
be there in the end as well. So factors one after the other do what their product does at once.
-/

namespace TransferCurves

open scoped Scalar

namespace ColorMap

variable {α : Type}

def withOpacities (m : ColorMap α) (change : α → α) : ColorMap α :=
  { m with opacity := m.opacity.map fun c =>
      ⟨c.points.map fun p => { p with value := change p.value }⟩ }

theorem opacityPoints_withOpacities (m : ColorMap α) (change : α → α) :
    (m.withOpacities change).opacityPoints =
      m.opacityPoints.map fun p => { p with value := change p.value } := by
  simp only [opacityPoints, withOpacities]
  cases m.opacity <;> rfl

theorem withOpacities_withOpacities (m : ColorMap α) (change change' : α → α) :
    (m.withOpacities change).withOpacities change' = m.withOpacities (change' ∘ change) := by
  simp only [withOpacities, Option.map_map]
  congr 2
  funext c
  simp only [Function.comp_apply, List.map_map]
  rfl

theorem withOpacities_congr {m : ColorMap α} {change change' : α → α}
    (h : ∀ p ∈ m.opacityPoints, change p.value = change' p.value) :
    m.withOpacities change = m.withOpacities change' := by
  simp only [opacityPoints] at h
  rw [withOpacities, withOpacities]
  cases hopacity : m.opacity with
  | none => rfl
  | some c =>
    rw [hopacity] at h
    have hpoints : c.points.map (fun p => { p with value := change p.value }) =
        c.points.map (fun p => { p with value := change' p.value }) :=
      List.map_congr_left fun p hp => by rw [h p hp]
    rw [Option.map_some, Option.map_some, hpoints]

end ColorMap

namespace TransferFunction

section

variable {α : Type} [Scalar α]

theorem attenuateWithin_none {f : TransferFunction α} (h : f.opacity = none)
    (factor floor ceiling : α) : f.attenuateWithin factor floor ceiling = f := by
  rw [attenuateWithin, h]

theorem attenuateWithin_some {f : TransferFunction α} {c : OpacityCurve α}
    (h : f.opacity = some c) (factor floor ceiling : α) :
    f.attenuateWithin factor floor ceiling = opacityModified { f with
      opacity := some ⟨c.points.map fun p =>
        { p with value := attenuated factor floor ceiling p.value }⟩ } := by
  rw [attenuateWithin, h]

theorem toColorMap_attenuateWithin (f : TransferFunction α) (factor floor ceiling : α) :
    (f.attenuateWithin factor floor ceiling).toColorMap =
      f.toColorMap.withOpacities (attenuated factor floor ceiling) := by
  rw [ColorMap.withOpacities]
  cases h : f.opacity with
  | none =>
    rw [attenuateWithin_none h, Option.map_none, ← h]
  | some c =>
    rw [attenuateWithin_some h]
    rfl

variable [Scalar.Ordered α] {floor ceiling : α}

theorem floor_le_attenuated (h : floor ≤ ceiling) (factor opacity : α) :
    floor ≤ attenuated factor floor ceiling opacity := by
  have hraised : floor ≤ Scalar.max (opacity * factor) floor :=
    Scalar.le_max_right (Scalar.Ordered.number_of_le h).1
  rw [attenuated, Scalar.min]
  split_ifs
  · exact h
  · exact h
  · exact hraised

theorem attenuated_le_ceiling (h : floor ≤ ceiling) (factor opacity : α) :
    attenuated factor floor ceiling opacity ≤ ceiling :=
  Scalar.min_le_right (Scalar.Ordered.number_of_le h).2

end

/-- What attenuation makes of `f`: nothing of a function without opacities, and otherwise a function
with the same points but for their opacities, which lie between the bounds. This counts as one
change and is told once to everyone who is subscribed. -/
structure AttenuatesTo {α : Type} [Scalar α] (f g : TransferFunction α) (floor ceiling : α) :
    Prop where
  absent : f.opacity = none → g = f
  present : ∀ c, f.opacity = some c → ∃ points : List (OpacityPoint α),
    g = { f with
      opacity := some ⟨points⟩
      revision := f.revision + 1
      stale := true
      observers := { f.observers with
        delivered := f.observers.delivered ++ f.observers.live.map (·, .opacityChanged) } } ∧
    points.map (fun p => (p.position, p.midpoint, p.sharpness)) =
      c.points.map (fun p => (p.position, p.midpoint, p.sharpness)) ∧
    ∀ p ∈ points, Scalar.isNaN p.value = false ∧ floor ≤ p.value ∧ p.value ≤ ceiling

theorem attenuateWithin_attenuatesTo {α : Type} [Scalar α] [Scalar.Ordered α]
    (f : TransferFunction α) (factor : α) {floor ceiling : α} (h : floor ≤ ceiling) :
    f.AttenuatesTo (f.attenuateWithin factor floor ceiling) floor ceiling where
  absent hnone := attenuateWithin_none hnone factor floor ceiling
  present c hsome := by
    refine ⟨_, attenuateWithin_some hsome factor floor ceiling, ?_, ?_⟩
    · rw [List.map_map]
      rfl
    · intro p hp
      obtain ⟨q, -, rfl⟩ := List.mem_map.1 hp
      have hfloor := floor_le_attenuated h factor q.value
      exact ⟨(Scalar.Ordered.number_of_le hfloor).2, hfloor,
        attenuated_le_ceiling h factor q.value⟩

/-- Whatever the opacities and the factor are, infinite and no number included, attenuation between
bounds in order leaves opacities between them; so does attenuation between the standard bounds, and
between those of an accepted configuration. -/
theorem attenuation_holds_opacities (f : TransferFunction Binary64) (factor : Binary64) :
    (∀ floor ceiling : Binary64, floor ≤ ceiling →
      f.AttenuatesTo (f.attenuateWithin factor floor ceiling) floor ceiling) ∧
    f.AttenuatesTo (f.attenuate factor) 1e-6 1 ∧
    ∀ config : EditorConfig Binary64, config.validate = .ok () →
      f.AttenuatesTo (f.attenuateConfigured factor config) config.transparencyFloor
        config.transparencyCeiling := by
  refine ⟨fun floor ceiling h => f.attenuateWithin_attenuatesTo factor h, ?_, ?_⟩
  · have hstandard : (1e-6 : Binary64) ≤ 1 := by decide +kernel
    exact f.attenuateWithin_attenuatesTo factor hstandard
  · intro config hconfig
    obtain ⟨-, -, ⟨-, hbounds⟩, -⟩ := config.validate_eq_ok_iff.1 hconfig
    exact f.attenuateWithin_attenuatesTo factor hbounds

def strayOpacities : TransferFunction Binary64 :=
  (withOpacity empty ⟨[.plain 0 (0 / 0), ⟨2, 1 / 0, 0.25, 1⟩, .plain 1 (-5)]⟩).subscribe.2

theorem strayOpacities_held :
    (0.25 : Binary64) ≤ 0.5 ∧ (EditorConfig.standard : EditorConfig Binary64).validate = .ok () ∧
      strayOpacities.AttenuatesTo (strayOpacities.attenuateWithin 0 0.25 0.5) 0.25 0.5 ∧
      strayOpacities.AttenuatesTo (strayOpacities.attenuate 0) 1e-6 1 ∧
      strayOpacities.AttenuatesTo (strayOpacities.attenuateConfigured 0 .standard)
        EditorConfig.standardFloor EditorConfig.standardCeiling := by
  have hbounds : (0.25 : Binary64) ≤ 0.5 := by decide +kernel
  have hconfig : (EditorConfig.standard : EditorConfig Binary64).validate = .ok () :=
    (EditorConfig.validate_eq_ok_iff _).2 (by decide +kernel)
  obtain ⟨hwithin, hstandard, hconfigured⟩ := attenuation_holds_opacities strayOpacities 0
  exact ⟨hbounds, hconfig, hwithin _ _ hbounds, hstandard, hconfigured _ hconfig⟩

section

variable {floor ceiling opacity k k' : Rat}

theorem attenuated_eq (k floor ceiling opacity : Rat) :
    attenuated k floor ceiling opacity = min (max (opacity * k) floor) ceiling := by
  rw [attenuated, Scalar.min_eq, Scalar.max_eq]

theorem attenuated_of_lessening (hfloor : 0 ≤ floor) (hbounds : floor ≤ ceiling)
    (ho : opacity ≤ ceiling) (hk : 0 ≤ k ∧ k ≤ 1) :
    attenuated k floor ceiling opacity = max (opacity * k) floor := by
  have hscaled : opacity * k ≤ ceiling := by
    rcases le_total 0 opacity with hpos | hneg
    · exact (mul_le_of_le_one_right hpos hk.2).trans ho
    · exact (mul_nonpos_of_nonpos_of_nonneg hneg hk.1).trans (hfloor.trans hbounds)
  rw [attenuated_eq, min_eq_left (max_le hscaled hbounds)]

theorem attenuated_attenuated (hfloor : 0 ≤ floor) (hbounds : floor ≤ ceiling)
    (ho : opacity ≤ ceiling) (hk : 0 ≤ k ∧ k ≤ 1) (hk' : 0 ≤ k' ∧ k' ≤ 1) :
    attenuated k' floor ceiling (attenuated k floor ceiling opacity) =
      attenuated (k * k') floor ceiling opacity := by
  have hproduct : 0 ≤ k * k' ∧ k * k' ≤ 1 :=
    ⟨mul_nonneg hk.1 hk'.1, mul_le_one₀ hk.2 hk'.1 hk'.2⟩
  have hsunk : floor * k' ≤ floor := mul_le_of_le_one_right hfloor hk'.2
  rw [attenuated_of_lessening hfloor hbounds (attenuated_le_ceiling hbounds k opacity) hk',
    attenuated_of_lessening hfloor hbounds ho hk, attenuated_of_lessening hfloor hbounds ho hproduct]
  -- The floor, once taken, sinks below itself and is taken again.
  calc max (max (opacity * k) floor * k') floor
      = max (max (opacity * k * k') (floor * k')) floor := by
        rw [max_mul_of_nonneg _ _ hk'.1]
    _ = max (opacity * k * k') floor := by
        rw [max_assoc, max_eq_right hsunk]
    _ = max (opacity * (k * k')) floor := by
        rw [mul_assoc]

theorem attenuated_mono {a b : Rat} (hk : 0 ≤ k) (h : a ≤ b) :
    attenuated k floor ceiling a ≤ attenuated k floor ceiling b := by
  rw [attenuated_eq, attenuated_eq]
  exact min_le_min_right ceiling (max_le_max_right floor (mul_le_mul_of_nonneg_right h hk))

end

theorem prod_of_lessening {factors : List Rat} (h : ∀ k ∈ factors, 0 ≤ k ∧ k ≤ 1) :
    0 ≤ factors.prod ∧ factors.prod ≤ 1 := by
  induction factors with
  | nil => exact ⟨zero_le_one, le_refl 1⟩
  | cons k factors ih =>
    obtain ⟨hk, hrest⟩ := List.forall_mem_cons.1 h
    obtain ⟨hnonneg, hle⟩ := ih hrest
    rw [List.prod_cons]
    exact ⟨mul_nonneg hk.1 hnonneg, mul_le_one₀ hk.2 hnonneg hle⟩

section

variable {floor ceiling : Rat} (hfloor : 0 ≤ floor) (hbounds : floor ≤ ceiling)

include hfloor hbounds

theorem attenuateWithin_attenuateWithin {f : TransferFunction Rat} {k k' : Rat}
    (hle : ∀ p ∈ f.opacityPoints, p.value ≤ ceiling) (hk : 0 ≤ k ∧ k ≤ 1)
    (hk' : 0 ≤ k' ∧ k' ≤ 1) :
    ((f.attenuateWithin k floor ceiling).attenuateWithin k' floor ceiling).toColorMap =
      (f.attenuateWithin (k * k') floor ceiling).toColorMap := by
  simp only [toColorMap_attenuateWithin, ColorMap.withOpacities_withOpacities]
  exact ColorMap.withOpacities_congr fun p hp =>
    attenuated_attenuated hfloor hbounds (hle p hp) hk hk'

theorem run_attenuateWithin {f : TransferFunction Rat} {k : Rat} {factors : List Rat}
    (hle : ∀ p ∈ f.opacityPoints, p.value ≤ ceiling)
    (hfactors : ∀ k' ∈ k :: factors, 0 ≤ k' ∧ k' ≤ 1) :
    (Edit.run f ((k :: factors).map (.attenuateWithin · floor ceiling))).toColorMap =
      (f.attenuateWithin (k :: factors).prod floor ceiling).toColorMap := by
  induction factors generalizing f k with
  | nil =>
    rw [List.prod_singleton]
    rfl
  | cons k' factors ih =>
    obtain ⟨hk, hrest⟩ := List.forall_mem_cons.1 hfactors
    have hle' : ∀ p ∈ (f.attenuateWithin k floor ceiling).opacityPoints, p.value ≤ ceiling := by
      rw [toColorMap_attenuateWithin, ColorMap.opacityPoints_withOpacities]
      intro p hp
      obtain ⟨q, -, rfl⟩ := List.mem_map.1 hp
      exact attenuated_le_ceiling hbounds k q.value
    calc (Edit.run (f.attenuateWithin k floor ceiling)
          ((k' :: factors).map (.attenuateWithin · floor ceiling))).toColorMap
        = ((f.attenuateWithin k floor ceiling).attenuateWithin (k' :: factors).prod
            floor ceiling).toColorMap := ih hle' hrest
      _ = (f.attenuateWithin (k * (k' :: factors).prod) floor ceiling).toColorMap :=
          attenuateWithin_attenuateWithin hfloor hbounds hle hk (prod_of_lessening hrest)
      _ = (f.attenuateWithin (k :: k' :: factors).prod floor ceiling).toColorMap := by
          rw [List.prod_cons (a := k)]

end

/-- Attenuation by factors between zero and one, one after the other, leaves what attenuation by their
product leaves, also where opacities are held at the floor on the way. And attenuation by a factor
that is not negative keeps the order of the opacities. -/
theorem attenuation_composes (f : TransferFunction Rat) (floor ceiling : Rat) :
    (0 < floor → floor ≤ ceiling → (∀ p ∈ f.opacityPoints, p.value ≤ ceiling) →
      ∀ factors : List Rat, factors ≠ [] → (∀ k ∈ factors, 0 ≤ k ∧ k ≤ 1) →
        (Edit.run f (factors.map (.attenuateWithin · floor ceiling))).toColorMap =
          (f.attenuateWithin factors.prod floor ceiling).toColorMap) ∧
      ∀ factor : Rat, 0 ≤ factor →
        let g := f.attenuateWithin factor floor ceiling
        g.opacityPoints.length = f.opacityPoints.length ∧
          ∀ p ∈ f.opacityPoints.zip g.opacityPoints, ∀ q ∈ f.opacityPoints.zip g.opacityPoints,
            p.1.value ≤ q.1.value → p.2.value ≤ q.2.value := by
  constructor
  · intro hfloor hbounds hle factors hne hfactors
    cases factors with
    | nil => exact absurd rfl hne
    | cons k factors => exact run_attenuateWithin hfloor.le hbounds hle hfactors
  · intro factor hfactor g
    have hpoints : g.opacityPoints = f.opacityPoints.map fun p =>
        { p with value := attenuated factor floor ceiling p.value } := by
      rw [toColorMap_attenuateWithin, ColorMap.opacityPoints_withOpacities]
    refine ⟨by rw [hpoints, List.length_map], ?_⟩
    rw [hpoints, ← List.map_prod_left_eq_zip]
    intro p hp q hq hle
    obtain ⟨a, -, rfl⟩ := List.mem_map.1 hp
    obtain ⟨b, -, rfl⟩ := List.mem_map.1 hq
    exact attenuated_mono hfactor hle

def sinkingOpacities : TransferFunction Rat :=
  empty.withOpacity ⟨[.plain 0 (4 / 5), ⟨2, -3, 1 / 4, 1⟩, .plain 1 1]⟩

theorem sinkingOpacities_compose :
    let f := sinkingOpacities
    let factors : List Rat := [1 / 2, 1 / 16, 1 / 2]
    let g := f.attenuateWithin 3 (1 / 20) 1
    (0 : Rat) < 1 / 20 ∧ (1 / 20 : Rat) ≤ 1 ∧ (∀ p ∈ f.opacityPoints, p.value ≤ 1) ∧
      factors ≠ [] ∧ (∀ k ∈ factors, 0 ≤ k ∧ k ≤ 1) ∧ (0 : Rat) ≤ 3 ∧
      (Edit.run f (factors.map (.attenuateWithin · (1 / 20) 1))).toColorMap =
        (f.attenuateWithin factors.prod (1 / 20) 1).toColorMap ∧
      g.opacityPoints.length = f.opacityPoints.length ∧
        ∀ p ∈ f.opacityPoints.zip g.opacityPoints, ∀ q ∈ f.opacityPoints.zip g.opacityPoints,
          p.1.value ≤ q.1.value → p.2.value ≤ q.2.value := by
  intro f factors g
  have hfloor : (0 : Rat) < 1 / 20 := by decide +kernel
  have hbounds : (1 / 20 : Rat) ≤ 1 := by decide +kernel
  have hle : ∀ p ∈ f.opacityPoints, p.value ≤ 1 := by decide +kernel
  have hne : factors ≠ [] := List.cons_ne_nil _ _
  have hfactors : ∀ k ∈ factors, 0 ≤ k ∧ k ≤ 1 := by decide +kernel
  have hfactor : (0 : Rat) ≤ 3 := by decide
  obtain ⟨hcompose, horder⟩ := attenuation_composes f (1 / 20) 1
  exact ⟨hfloor, hbounds, hle, hne, hfactors, hfactor,
    hcompose hfloor hbounds hle factors hne hfactors, horder 3 hfactor⟩

end TransferFunction

end TransferCurves
