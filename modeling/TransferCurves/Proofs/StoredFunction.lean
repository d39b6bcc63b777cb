import TransferCurves.Json.Stored
import TransferCurves.Proofs.RoundTrip

/-!
# Stored transfer functions

A transfer function that is stored and read back has the color map and the table size that it had,
and nothing else: no history, no table, no observers. It is stored again as the same text. With an
infinity, or with what is no number, among its positions, colors, opacities and shape parameters the
stored text is not read back: it is a mismatch.
-/

namespace TransferCurves

open scoped Scalar

section

variable {α V : Type}

def Rgb.numbers (c : Rgb α) : List α := [c.r, c.g, c.b]

def Rgba.numbers (c : Rgba α) : List α := [c.r, c.g, c.b, c.a]

def ControlPoint.numbers (values : V → List α) (p : ControlPoint α V) : List α :=
  p.position :: values p.value ++ [p.midpoint, p.sharpness]

def ColorMap.numbers (m : ColorMap α) : List α :=
  m.points.flatMap (ControlPoint.numbers Rgb.numbers) ++
    m.opacityPoints.flatMap (ControlPoint.numbers fun a => [a]) ++ m.nanColor.numbers

end

namespace Json

theorem partNumbers_map {τ : Type} (toValue : τ → Value) (ts : List τ) :
    partNumbers (ts.map toValue) = ts.flatMap fun t => (toValue t).numbers := by
  induction ts with
  | nil => rfl
  | cons t ts ih => rw [List.map_cons, partNumbers, ih, List.flatMap_cons]

theorem opacity_numbers (m : ColorMap Binary64) :
    (opacityCurve.optional.toValue m.opacity).numbers =
      m.opacityPoints.flatMap (ControlPoint.numbers fun a => [a]) := by
  rw [ColorMap.opacityPoints]
  cases m.opacity with
  | none => rfl
  | some c =>
    change partNumbers [opacityPoint.list.toValue c.points] = _
    change partNumbers (c.points.map opacityPoint.toValue) ++ [] = _
    rw [partNumbers_map, List.append_nil]
    rfl

theorem transferFunction_numbers (f : TransferFunction Binary64) :
    (transferFunction.toValue f).numbers = f.toColorMap.numbers := by
  have hpoints : (colorPoint.list.toValue f.points).numbers =
      f.points.flatMap (ControlPoint.numbers Rgb.numbers) :=
    partNumbers_map colorPoint.toValue f.points
  change (colorPoint.list.toValue f.points).numbers ++
    ((opacityCurve.optional.toValue f.opacity).numbers ++ f.nanColor.numbers) = _
  rw [hpoints, opacity_numbers f.toColorMap, ColorMap.numbers, List.append_assoc]

theorem list_fits {τ : Type} {c : Codec τ} (h : ∀ t, c.shape.Fits (c.toValue t)) (ts : List τ) :
    c.list.shape.Fits (c.list.toValue ts) := by
  intro v hv
  obtain ⟨t, -, rfl⟩ := List.mem_map.1 hv
  exact h t

theorem tuple_fits {size : Nat} (xs : List Binary64) (hsize : xs.length = size) :
    (Shape.tuple size .number).Fits (.parts (xs.map .number)) := by
  refine ⟨by rw [List.length_map, hsize], fun v hv => ?_⟩
  obtain ⟨x, -, rfl⟩ := List.mem_map.1 hv
  exact trivial

theorem colorPoint_fits (p : ColorPoint Binary64) :
    colorPoint.shape.Fits (colorPoint.toValue p) :=
  ⟨trivial, tuple_fits p.value.numbers rfl, trivial, trivial, trivial⟩

theorem opacityPoint_fits (p : OpacityPoint Binary64) :
    opacityPoint.shape.Fits (opacityPoint.toValue p) :=
  ⟨trivial, trivial, trivial, trivial, trivial⟩

theorem opacity_fits (c : Option (OpacityCurve Binary64)) :
    opacityCurve.optional.shape.Fits (opacityCurve.optional.toValue c) := by
  cases c with
  | none => exact trivial
  | some c => exact ⟨list_fits opacityPoint_fits c.points, trivial⟩

theorem transferFunction_fits {f : TransferFunction Binary64}
    (hvalues : f.numberOfValues < 2 ^ 64) (hsize : f.tableSize < 2 ^ 64) :
    transferFunction.shape.Fits (transferFunction.toValue f) :=
  ⟨list_fits colorPoint_fits f.points, opacity_fits f.opacity, trivial, trivial, hvalues,
    tuple_fits f.nanColor.numbers rfl, hsize, trivial⟩

theorem transferFunction_isSound : transferFunction.shape.isSound = true := by decide

/-- Stored and read back, a function keeps its map and table size, if all its numbers are finite. -/
theorem storedFunction_readBack (f : TransferFunction Binary64)
    (hvalues : f.numberOfValues < 2 ^ 64) (hsize : f.tableSize < 2 ^ 64)
    (hnumbers : ∀ x ∈ f.numbers, Scalar.isFinite x = true → ReadsBack x) (style : Style) :
    ((∀ x ∈ f.numbers, Scalar.isFinite x = true) →
      ∃ g, transferFunction.read (transferFunction.write style f) = .ok g ∧
        g.toColorMap = f.toColorMap ∧ g.tableSize = f.tableSize ∧ g.revision = 0 ∧
        g.stale = true ∧ g.table = none ∧ g.observers = {} ∧
        transferFunction.write style g = transferFunction.write style f) ∧
      ((∃ x ∈ f.numbers, Scalar.isFinite x = false) →
        transferFunction.read (transferFunction.write style f) = .error .mismatch) := by
  have hread := Codec.read_write (transferFunction_ofValue?_toValue f) transferFunction_isSound
    (transferFunction_fits hvalues hsize) (transferFunction_numbers f ▸ hnumbers) style
  rw [transferFunction_numbers] at hread
  refine ⟨fun hfinite => ?_, fun hbad => ?_⟩
  · rw [if_pos (List.all_eq_true.2 hfinite)] at hread
    exact ⟨_, hread, rfl, rfl, rfl, rfl, rfl, rfl, rfl⟩
  · obtain ⟨x, hx, hinfinite⟩ := hbad
    have hnot : ¬f.numbers.all Scalar.isFinite = true := by
      intro hall
      rw [List.all_eq_true.1 hall x hx] at hinfinite
      cases hinfinite
    rw [hread, if_neg hnot]

def fadedRamp (nanOpacity : Binary64) : TransferFunction Binary64 :=
  .ofColorMap
    { points := [.plain 0 ⟨0, 0, 0⟩, .plain 1 ⟨1, 1, 1⟩]
      opacity := some ⟨[.plain 0.5 0.25]⟩
      opacityMapping := true
      discretize := false
      numberOfValues := 256
      nanColor := ⟨0.5, 0, 0, nanOpacity⟩ } 4096

theorem fadedRamp_readBack :
    (∃ g, transferFunction.read (transferFunction.write .compact (fadedRamp 1)) = .ok g ∧
      g.toColorMap = (fadedRamp 1).toColorMap ∧ g.tableSize = 4096 ∧ g.revision = 0 ∧
      g.stale = true ∧ g.table = none ∧ g.observers = {} ∧
      transferFunction.write .compact g = transferFunction.write .compact (fadedRamp 1)) ∧
      transferFunction.read (transferFunction.write .compact (fadedRamp ⟨0x7FF0000000000000⟩)) =
        .error .mismatch :=
  ⟨(storedFunction_readBack (fadedRamp 1) (by decide) (by decide) (by decide +kernel) .compact).1
      (by decide +kernel),
    (storedFunction_readBack (fadedRamp ⟨0x7FF0000000000000⟩) (by decide) (by decide)
      (by decide +kernel) .compact).2 (by decide +kernel)⟩

end Json

end TransferCurves
