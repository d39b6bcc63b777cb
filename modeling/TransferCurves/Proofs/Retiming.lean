import TransferCurves.Retiming
import Mathlib.Logic.Basic
import Mathlib.Tactic.SplitIfs

/-!
# What retiming leaves

Retiming detours through a scratch function and attaches an opacity curve on its way. Here each of
its outcomes is written down directly: refused without a trace, refused after an empty curve was
attached, or done, with all points repositioned and nothing else of the map changed. One check, made
before anything is written, decides which of them it is.
-/

namespace TransferCurves

open scoped Scalar

variable {α : Type}

namespace ColorMap

/-- The map with all its points moved by a function of their position. It has an opacity curve, empty
if there was none. -/
def repositioned (m : ColorMap α) (move : α → α) : ColorMap α :=
  { m with
    points := m.points.map (.reposition move)
    opacity := some ⟨m.opacityPoints.map (.reposition move)⟩ }

@[simp] theorem points_repositioned (m : ColorMap α) (move : α → α) :
    (m.repositioned move).points = m.points.map (.reposition move) := rfl

@[simp] theorem opacityPoints_repositioned (m : ColorMap α) (move : α → α) :
    (m.repositioned move).opacityPoints = m.opacityPoints.map (.reposition move) := rfl

theorem repositioned_repositioned (m : ColorMap α) (f g : α → α) :
    (m.repositioned f).repositioned g = m.repositioned (g ∘ f) := by
  simp only [repositioned, opacityPoints, List.map_map]
  rfl

/-- Two maps that differ at most in whether an empty opacity curve is attached. -/
def Alike (m n : ColorMap α) : Prop := m.repositioned id = n.repositioned id

namespace Alike

variable {m n : ColorMap α}

theorem refl (m : ColorMap α) : m.Alike m := Eq.refl (m.repositioned id)

theorem points (h : m.Alike n) : m.points = n.points := by
  have hpoints := congrArg ColorMap.points h
  simp only [points_repositioned] at hpoints
  exact (List.map_id m.points).symm.trans (hpoints.trans (List.map_id n.points))

theorem opacityPoints (h : m.Alike n) : m.opacityPoints = n.opacityPoints := by
  have hpoints := congrArg ColorMap.opacityPoints h
  simp only [opacityPoints_repositioned] at hpoints
  exact (List.map_id m.opacityPoints).symm.trans (hpoints.trans (List.map_id n.opacityPoints))

theorem options (h : m.Alike n) : m.opacityMapping = n.opacityMapping ∧
    m.discretize = n.discretize ∧ m.numberOfValues = n.numberOfValues ∧
    m.nanColor = n.nanColor := by
  obtain ⟨-, -, hoptions⟩ := ColorMap.mk.inj h
  exact hoptions

theorem repositioned_eq (h : m.Alike n) (move : α → α) :
    m.repositioned move = n.repositioned move := by
  have hmove := congrArg (fun m => ColorMap.repositioned m move) h
  simpa only [repositioned_repositioned, Function.comp_id] using hmove

variable [Scalar α]

theorem sampler (h : m.Alike n) : m.sampler = n.sampler := by
  simp only [ColorMap.sampler, h.points, h.opacityPoints, h.options.1]

theorem valueAt (h : m.Alike n) (x : α) : m.valueAt x = n.valueAt x := by
  simp only [ColorMap.valueAt, h.sampler, h.options.2.2.2]

theorem range (h : m.Alike n) : m.range = n.range := by
  simp only [ColorMap.range, h.points]

theorem build (h : m.Alike n) (size : Nat) :
    LookupTable.build m size = LookupTable.build n size := by
  obtain ⟨-, hdiscretize, hvalues, hnan⟩ := h.options
  exact LookupTable.build_congr h.range h.sampler hdiscretize hvalues hnan size

end Alike

theorem alike_repositioned_iff {m n : ColorMap α} {move : α → α} :
    m.Alike (n.repositioned move) ↔ m.repositioned id = n.repositioned move := by
  rw [Alike, repositioned_repositioned, Function.id_comp]

end ColorMap

section

variable [Scalar α] {r : Range α} {e : CurveError α}

theorem Range.isFinite_iff :
    r.isFinite = true ↔ Scalar.isFinite r.min = true ∧ Scalar.isFinite r.max = true := by
  rw [isFinite, Bool.and_eq_true]

theorem Range.checkNormalizable_eq_ok_iff :
    r.checkNormalizable = .ok () ↔ r.isFinite = true ∧ r.isDegenerate = false := by
  rw [checkNormalizable]
  by_cases hfinite : r.isFinite = true
  · by_cases hdegenerate : r.isDegenerate = true
    · simp [hfinite, hdegenerate]
    · simp [hfinite, hdegenerate]
  · simp [hfinite]

theorem Range.checkNormalizable_eq_error_iff :
    r.checkNormalizable = .error e ↔
      (¬r.isFinite = true ∧ e = .nonFinite .rangeBound) ∨
        (r.isFinite = true ∧ r.isDegenerate = true ∧ e = .degenerateRange r.min r.max) := by
  rw [checkNormalizable]
  by_cases hfinite : r.isFinite = true
  · by_cases hdegenerate : r.isDegenerate = true
    · simp [hfinite, hdegenerate, eq_comm (b := e)]
    · simp [hfinite, hdegenerate]
  · simp [hfinite, eq_comm (b := e)]

end

def ColorMap.HasPoints (m : ColorMap α) : Prop := m.points ≠ [] ∨ m.opacityPoints ≠ []

theorem ColorMap.hasPoints_iff {m : ColorMap α} :
    m.HasPoints ↔ ¬(m.points.isEmpty && m.opacityPoints.isEmpty) = true := by
  simp [HasPoints, imp_iff_not_or]

namespace TransferFunction

theorem opacityPoints_ensureOpacity (f : TransferFunction α) :
    f.ensureOpacity.opacityPoints = f.opacityPoints := by
  simp only [ensureOpacity, ColorMap.opacityPoints]
  cases f.opacity <;> rfl

theorem alike_ensureOpacity (f : TransferFunction α) :
    f.ensureOpacity.toColorMap.Alike f.toColorMap := by
  simp only [ColorMap.Alike, ColorMap.repositioned, opacityPoints_ensureOpacity]
  rfl

variable [Scalar α]

/-- The check that handing points over begins with: the window first, and the range only if there
are points to measure against it. -/
def checkTransfer (f : TransferFunction α) (range : Range α) (newMin newMax : α) :
    Except (CurveError α) Unit :=
  if Scalar.isFinite newMin && Scalar.isFinite newMax then f.checkSource range
  else .error (.nonFinite .targetBound)

variable {f : TransferFunction α} {range : Range α} {a b : α} {e : CurveError α}

theorem checkSource_eq_ok_iff :
    f.checkSource range = .ok () ↔ (f.HasPoints → range.checkNormalizable = .ok ()) := by
  rw [checkSource, ColorMap.hasPoints_iff]
  split_ifs with hempty
  · simp [hempty]
  · simp [hempty]

theorem checkSource_eq_error_iff :
    f.checkSource range = .error e ↔ f.HasPoints ∧ range.checkNormalizable = .error e := by
  rw [checkSource, ColorMap.hasPoints_iff]
  split_ifs with hempty
  · simp [hempty]
  · simp [hempty]

theorem checkTransfer_eq_ok_iff :
    f.checkTransfer range a b = .ok () ↔
      (Scalar.isFinite a && Scalar.isFinite b) = true ∧ f.checkSource range = .ok () := by
  rw [checkTransfer]
  split_ifs with hfinite
  · simp [hfinite]
  · simp [hfinite]

theorem checkTransfer_eq_error_iff :
    f.checkTransfer range a b = .error e ↔
      (Scalar.isFinite a && Scalar.isFinite b) = false ∧ e = .nonFinite .targetBound ∨
        (Scalar.isFinite a && Scalar.isFinite b) = true ∧ f.checkSource range = .error e := by
  rw [checkTransfer]
  split_ifs with hfinite
  · simp [hfinite]
  · simp [hfinite, eq_comm (b := e)]

theorem checkSource_ensureOpacity (f : TransferFunction α) (range : Range α) :
    f.ensureOpacity.checkSource range = f.checkSource range := by
  rw [checkSource, opacityPoints_ensureOpacity]
  rfl

def moved (f : TransferFunction α) (move : α → α) : TransferFunction α :=
  f.overwrite (f.points.map (.reposition move)) (f.opacityPoints.map (.reposition move))

theorem toColorMap_moved (f : TransferFunction α) (move : α → α) :
    (f.moved move).toColorMap = f.toColorMap.repositioned move := rfl

theorem remap_of_infinite (source target : TransferFunction α) (range : Range α) {a b : α}
    (h : (Scalar.isFinite a && Scalar.isFinite b) = false) :
    source.remap target range a b = .fail (source, target) (.nonFinite .targetBound) := by
  rw [remap, if_pos (by rw [← Bool.not_and, h]; rfl)]

theorem remap_of_finite (source target : TransferFunction α) (range : Range α) {a b : α}
    (h : (Scalar.isFinite a && Scalar.isFinite b) = true) :
    source.remap target range a b =
      match source.checkSource range with
      | .error e => .fail (source.ensureOpacity, target) e
      | .ok () =>
        .done (source.ensureOpacity,
          target.overwrite (source.points.map (.reposition (retimed range a b)))
            (source.opacityPoints.map (.reposition (retimed range a b)))) := by
  rw [remap, if_neg (by rw [← Bool.not_and, h]; decide)]
  simp only [checkSource_ensureOpacity, opacityPoints_ensureOpacity]
  rfl

theorem remapInPlace_of_infinite (f : TransferFunction α) {a b : α}
    (h : (Scalar.isFinite a && Scalar.isFinite b) = false) :
    f.remapInPlace a b = .fail f (.nonFinite .targetBound) := by
  rw [remapInPlace, remap_of_infinite f empty f.range h]
  rfl

theorem remapInPlace_of_finite (f : TransferFunction α) {a b : α}
    (h : (Scalar.isFinite a && Scalar.isFinite b) = true) :
    f.remapInPlace a b =
      match f.checkSource f.range with
      | .error e => .fail f.ensureOpacity e
      | .ok () => .done (f.moved (retimed f.range a b)) := by
  rw [remapInPlace, remap_of_finite f empty f.range h]
  cases f.checkSource f.range with
  | error e => rfl
  | ok _ => rfl

theorem remap_done (source target : TransferFunction α)
    (h : source.checkTransfer range a b = .ok ()) :
    source.remap target range a b =
      .done (source.ensureOpacity,
        target.overwrite (source.points.map (.reposition (retimed range a b)))
          (source.opacityPoints.map (.reposition (retimed range a b)))) := by
  obtain ⟨hfinite, hsource⟩ := checkTransfer_eq_ok_iff.1 h
  rw [remap_of_finite source target range hfinite, hsource]

theorem verdict_remap (source target : TransferFunction α) (range : Range α) (a b : α) :
    (source.remap target range a b).verdict = source.checkTransfer range a b := by
  rw [checkTransfer]
  cases h : Scalar.isFinite a && Scalar.isFinite b with
  | false =>
    rw [remap_of_infinite source target range h]
    rfl
  | true =>
    rw [remap_of_finite source target range h, if_pos rfl]
    cases source.checkSource range with
    | error e => rfl
    | ok _ => rfl

theorem remapInPlace_done (h : f.checkTransfer f.range a b = .ok ()) :
    f.remapInPlace a b = .done (f.moved (retimed f.range a b)) := by
  obtain ⟨hfinite, hsource⟩ := checkTransfer_eq_ok_iff.1 h
  rw [remapInPlace_of_finite f hfinite, hsource]

theorem verdict_remapInPlace (f : TransferFunction α) (a b : α) :
    (f.remapInPlace a b).verdict = f.checkTransfer f.range a b := by
  rw [remapInPlace, ← verdict_remap f empty f.range a b]
  cases (f.remap empty f.range a b).verdict with
  | error e => rfl
  | ok _ => rfl

theorem remap_cases (source target : TransferFunction α) (range : Range α) (a b : α) :
    (∃ e, source.remap target range a b = .fail (source, target) e) ∨
      (∃ e, source.remap target range a b = .fail (source.ensureOpacity, target) e) ∨
      ∃ colors opacities,
        source.remap target range a b =
          .done (source.ensureOpacity, target.overwrite colors opacities) := by
  cases h : Scalar.isFinite a && Scalar.isFinite b with
  | false => exact Or.inl ⟨_, remap_of_infinite source target range h⟩
  | true =>
    rw [remap_of_finite source target range h]
    cases source.checkSource range with
    | error e => exact Or.inr (Or.inl ⟨e, rfl⟩)
    | ok _ => exact Or.inr (Or.inr ⟨_, _, rfl⟩)

theorem remapInPlace_cases (f : TransferFunction α) (a b : α) :
    (∃ e, f.remapInPlace a b = .fail f e) ∨ (∃ e, f.remapInPlace a b = .fail f.ensureOpacity e) ∨
      f.remapInPlace a b = .done (f.moved (retimed f.range a b)) := by
  cases h : Scalar.isFinite a && Scalar.isFinite b with
  | false => exact Or.inl ⟨_, remapInPlace_of_infinite f h⟩
  | true =>
    rw [remapInPlace_of_finite f h]
    cases f.checkSource f.range with
    | error e => exact Or.inr (Or.inl ⟨e, rfl⟩)
    | ok _ => exact Or.inr (Or.inr rfl)

end TransferFunction

end TransferCurves
