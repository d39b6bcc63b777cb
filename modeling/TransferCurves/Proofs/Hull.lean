import TransferCurves.TransferFunction
import TransferCurves.Proofs.Bracketing
import TransferCurves.Proofs.Mixture

/-!
# Curves do not overshoot

Over the exact rationals, what a curve takes at a position mixes the values of two of its points, or is
the value of one of them. So every channel of what a color map shows, and of every entry of its
tables, lies between the least and the greatest value that the control points have in that channel,
whatever their positions and shapes.
-/

namespace TransferCurves

open scoped Scalar

def Within (vs : List Rat) (y : Rat) : Prop := ∃ a ∈ vs, ∃ b ∈ vs, a ≤ y ∧ y ≤ b

section

variable {vs : List Rat} {w a b : Rat}

theorem within_self (h : a ∈ vs) : Within vs a := ⟨a, h, a, h, le_refl a, le_refl a⟩

theorem within_mix (ha : a ∈ vs) (hb : b ∈ vs) (hw : 0 ≤ w) (hw' : w ≤ 1) :
    Within vs (mix w a b) := by
  have hmin : min a b ∈ vs := (min_choice a b).elim (fun h => h.symm ▸ ha) fun h => h.symm ▸ hb
  have hmax : max a b ∈ vs := (max_choice a b).elim (fun h => h.symm ▸ ha) fun h => h.symm ▸ hb
  obtain ⟨hlow, hhigh⟩ := mix_between hw hw' a b
  exact ⟨min a b, hmin, max a b, hmax, hlow, hhigh⟩

end

namespace ControlPoint

variable {V : Type} [Channels Rat V]

theorem Takes.within {nodes : List (ControlPoint Rat V)} {x : Rat} {v : V}
    (h : Takes nodes x v) (ch : Channel V) :
    Within (nodes.map fun p => ch.read p.value) (ch.read v) := by
  have hmem (i : Nat) (hi : i < nodes.length) :
      ch.read nodes[i].value ∈ nodes.map fun p => ch.read p.value :=
    List.mem_map_of_mem (List.getElem_mem hi)
  cases h with
  | first h _ => exact within_self (hmem 0 h)
  | last n _ _ _ => exact within_self (hmem n _)
  | inside i hi _ hleft hright =>
    rw [read_between ch (hleft.trans_lt hright)]
    exact within_mix (hmem i _) (hmem (i + 1) hi) (weightAt_nonneg hleft hright)
      (weightAt_le_one hleft hright)

theorem evaluate_within {points : List (ControlPoint Rat V)} (h : points ≠ []) (x : Rat) :
    ∃ v, evaluate (sortByPosition points) x = some v ∧
      ∀ ch : Channel V, Within (points.map fun p => ch.read p.value) (ch.read v) := by
  have hperm := sortByPosition_perm points
  have hne : sortByPosition points ≠ [] := by
    intro hnil
    rw [hnil] at hperm
    exact h hperm.symm.eq_nil
  obtain ⟨v, heval, htakes⟩ := evaluate_takes hne (fun _ _ => rfl) (x := x) rfl
  refine ⟨v, heval, fun ch => ?_⟩
  obtain ⟨a, ha, b, hb, hv⟩ := htakes.within ch
  have hsame := hperm.map fun p => ch.read p.value
  exact ⟨a, hsame.mem_iff.1 ha, b, hsame.mem_iff.1 hb, hv⟩

end ControlPoint

/-- Every channel of a color lies between the least and the greatest value in it: red, green and
blue among the color points, and alpha among the opacity points if they are used. -/
structure ColorMap.Encloses (m : ColorMap Rat) (c : Rgba Rat) : Prop where
  red : Within (m.points.map fun p => p.value.r) c.r
  green : Within (m.points.map fun p => p.value.g) c.g
  blue : Within (m.points.map fun p => p.value.b) c.b
  alpha : m.opacityMapping = true → m.opacityPoints ≠ [] →
    Within (m.opacityPoints.map fun p => p.value) c.a

theorem ColorMap.opacity_within {m : ColorMap Rat} (hmapping : m.opacityMapping = true)
    (h : m.opacityPoints ≠ []) (x : Rat) :
    Within (m.opacityPoints.map fun p => p.value) (m.sampler.opacity x) := by
  obtain ⟨a, halpha, ha⟩ := ControlPoint.evaluate_within h x
  have hshown : m.sampler.opacity x = a :=
    (if_pos hmapping).trans (congrArg (Option.getD · _) halpha)
  rw [hshown]
  exact ha .opacity

theorem ColorMap.encloses_rgba {m : ColorMap Rat} (h : m.points ≠ []) (x : Rat) :
    m.Encloses (m.sampler.rgba x) := by
  obtain ⟨v, hcolor, hv⟩ := ControlPoint.evaluate_within h x
  have hrgb : m.sampler.color x = v := congrArg (Option.getD · _) hcolor
  refine ⟨?_, ?_, ?_, fun hmapping hopacity => m.opacity_within hmapping hopacity x⟩
  · rw [Sampler.rgba, hrgb]
    exact hv .red
  · rw [Sampler.rgba, hrgb]
    exact hv .green
  · rw [Sampler.rgba, hrgb]
    exact hv .blue

/-- A function with color points shows no channel outside the values of its control points, neither
in its curves nor in any of its tables. -/
theorem TransferFunction.shown_in_hull (f : TransferFunction Rat) (h : f.points ≠ []) :
    (∀ x, f.Encloses (f.valueAt x)) ∧
      ∀ size, ∀ c ∈ (LookupTable.build f.toColorMap size).entries, f.Encloses c := by
  refine ⟨fun x => f.encloses_rgba h x, ?_⟩
  intro size c hc
  obtain ⟨i, -, rfl⟩ := List.mem_map.1 hc
  exact f.encloses_rgba h _

def wildShapes : TransferFunction Rat :=
  (TransferFunction.ofPoints [⟨3, ⟨1, 0, 2⟩, 7, -4⟩, ⟨1, ⟨0, 1, 0⟩, -2, 0.5⟩,
    ⟨1, ⟨0, 0, 1⟩, 0.9, 30⟩]).withOpacity (.ramp 0 0 5 1)

theorem wildShapes_in_hull :
    wildShapes.points ≠ [] ∧ (∀ x, wildShapes.Encloses (wildShapes.valueAt x)) ∧
      ∀ size, ∀ c ∈ (LookupTable.build wildShapes.toColorMap size).entries,
        wildShapes.Encloses c := by
  have hpoints : wildShapes.points ≠ [] := List.cons_ne_nil _ _
  exact ⟨hpoints, wildShapes.shown_in_hull hpoints⟩

end TransferCurves
