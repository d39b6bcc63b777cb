import TransferCurves.Binary64
import TransferCurves.TransferFunction
import TransferCurves.Proofs.Bracketing
import TransferCurves.Proofs.Positions
import Mathlib.Data.Rat.Floor
import Mathlib.Tactic.FieldSimp
import Mathlib.Tactic.Linarith
import Mathlib.Tactic.Ring

/-!
# What a table shows

A table that is not banded is compared here with the curves it was sampled from, over the exact
rationals. Inside the range it shows the curves at a grid position at most half a step away, which is
the position itself on the grid. Outside it shows the nearer bound, and there the held ends decide
whether this is what the curves show.
-/

namespace TransferCurves

open scoped Scalar

theorem nearestNat_natCast (n : Nat) : nearestNat n = n := by
  have hfloor : ⌊(n : Rat) + 1 / 2⌋ = (n : Int) := by
    rw [Int.floor_eq_iff]
    constructor
    · rw [Int.cast_natCast]
      linarith
    · rw [Int.cast_natCast]
      linarith
  exact (congrArg Int.toNat hfloor).trans (Int.toNat_natCast n)

section

variable {y : Rat}

theorem nearestNat_cast (h : 0 ≤ y) : (nearestNat y : Rat) = (⌊y + 1 / 2⌋ : Int) := by
  have hfloor : 0 ≤ ⌊y + 1 / 2⌋ := Int.floor_nonneg.2 (by linarith)
  exact_mod_cast congrArg (Int.cast : Int → Rat) (Int.toNat_of_nonneg hfloor)

theorem abs_nearestNat_sub_le (h : 0 ≤ y) : |(nearestNat y : Rat) - y| ≤ 1 / 2 := by
  have hbelow := Int.floor_le (y + 1 / 2)
  have habove := Int.lt_floor_add_one (y + 1 / 2)
  rw [nearestNat_cast h, abs_le]
  constructor
  · linarith
  · linarith

theorem nearestNat_le {n : Nat} (h : y ≤ n) : nearestNat y ≤ n := by
  have hmono : ⌊y + 1 / 2⌋ ≤ ⌊(n : Rat) + 1 / 2⌋ := Int.floor_le_floor (by linarith)
  calc nearestNat y ≤ nearestNat n := Int.toNat_le_toNat hmono
    _ = n := nearestNat_natCast n

end

namespace ControlPoint

variable {V : Type} [Channels Rat V] {x y : Rat}

theorem evaluate_below {points : List (ControlPoint Rat V)} (h : ∀ p ∈ points, y ≤ p.position)
    (hxy : x ≤ y) :
    evaluate (sortByPosition points) x = evaluate (sortByPosition points) y := by
  rcases eq_or_ne (sortByPosition points) [] with hnil | hne
  · rw [hnil, evaluate_nil, evaluate_nil]
  · have hpos := List.length_pos_iff.2 hne
    have hfirst := h _ ((sortByPosition_perm points).mem_iff.1 (List.getElem_mem hpos))
    rw [evaluate_first hpos (hxy.trans hfirst), evaluate_first hpos hfirst]

theorem evaluate_above {points : List (ControlPoint Rat V)} (h : ∀ p ∈ points, p.position ≤ y)
    (hstart : ∃ p ∈ points, p.position < y) (hyx : y ≤ x) :
    evaluate (sortByPosition points) x = evaluate (sortByPosition points) y := by
  obtain ⟨p, hp, hlt⟩ := hstart
  have hperm := sortByPosition_perm points
  have hsorted := sorted_iff.1 (sortByPosition_sorted points)
  obtain ⟨i, hi, rfl⟩ := List.getElem_of_mem (hperm.mem_iff.2 hp)
  obtain ⟨n, hn⟩ := Nat.exists_eq_add_one_of_ne_zero (Nat.ne_zero_of_lt hi)
  have hfirst := (le_of_index_le hsorted (Nat.zero_le i) hi).trans_lt hlt
  have hn' : n < (sortByPosition points).length := by omega
  have hlast := h _ (hperm.mem_iff.1 (List.getElem_mem hn'))
  rw [evaluate_last hn (hfirst.trans_le hyx).not_ge (hlast.trans hyx),
    evaluate_last hn hfirst.not_ge hlast]

theorem evaluate_stacked {points : List (ControlPoint Rat V)} (h : ∀ p ∈ points, p.position = y)
    (hends : points.head?.map (·.value) = points.getLast?.map (·.value)) (hyx : y ≤ x) :
    evaluate (sortByPosition points) x = evaluate (sortByPosition points) y := by
  have hsorted : Sorted points := by
    refine List.pairwise_of_forall_mem_list ?_
    intro p hp q hq
    exact Scalar.totalLE_iff.2 ((h p hp).trans (h q hq).symm).le
  rw [sortByPosition_of_sorted hsorted]
  rcases hyx.eq_or_lt with rfl | hlt
  · rfl
  · cases hlength : points.length with
    | zero =>
      rw [List.eq_nil_of_length_eq_zero hlength, evaluate_nil, evaluate_nil]
    | succ n =>
      have hpos : 0 < points.length := by omega
      have hn : n < points.length := by omega
      have hfirst : points[0].position = y := h _ (List.getElem_mem hpos)
      have hlast : points[n].position = y := h _ (List.getElem_mem hn)
      have hvalues : points[0].value = points[n].value := by
        rw [List.head?_eq_getElem?, List.getLast?_eq_getElem?, hlength, Nat.add_sub_cancel,
          List.getElem?_eq_getElem hpos, List.getElem?_eq_getElem hn] at hends
        exact Option.some.inj hends
      rw [evaluate_first hpos hfirst.ge,
        evaluate_last hlength (hfirst.trans_lt hlt).not_ge (hlast.trans_le hyx), hvalues]

end ControlPoint

/-- Position `k` of the `size` evenly spaced ones from bound to bound. -/
def Range.grid (r : Range Rat) (size k : Nat) : Rat := r.min + k / (size - 1) * (r.max - r.min)

namespace LookupTable

theorem cast_pred {size : Nat} (h : 2 ≤ size) : ((size - 1 : Nat) : Rat) = size - 1 := by
  rw [Nat.cast_sub (one_le_two.trans h), Nat.cast_one]

theorem pred_pos {size : Nat} (h : 2 ≤ size) : (0 : Rat) < size - 1 := by
  have hcast : (2 : Rat) ≤ size := by exact_mod_cast h
  linarith

variable {m : ColorMap Rat} {size : Nat}

theorem build_entry (hflat : m.discretize = false) (hsize : 2 ≤ size) {k : Nat} (hk : k < size)
    (c : Rgba Rat) :
    (build m size).entries.getD k c = m.sampler.rgba (m.range.grid size k) := by
  have hmax : max size 2 = size := max_eq_left hsize
  have hfraction : sampleFraction m size k = k / (size - 1) := by
    rw [← cast_pred hsize]
    exact if_neg (Bool.eq_false_iff.1 hflat)
  rw [List.getD_eq_getElem?_getD, getElem?_build m (hk.trans_eq hmax.symm), Option.getD_some, hmax,
    hfraction]
  rfl

section

variable (hrange : m.range.min < m.range.max) (hsize : 2 ≤ size)

include hrange hsize

theorem build_index (x : Rat) :
    (build m size).index x = nearestNat
      (Scalar.clamp 0 1 ((x - m.range.min) / (m.range.max - m.range.min)) * (size - 1)) := by
  have hwide : m.range.isDegenerate = false := beq_false_of_ne hrange.ne'
  have hfraction : (build m size).fraction x =
      Scalar.clamp 0 1 ((x - m.range.min) / (m.range.max - m.range.min)) :=
    if_neg (Bool.eq_false_iff.1 hwide)
  have hlength : (build m size).size = size := (size_build m size).trans (max_eq_left hsize)
  rw [← hfraction, ← cast_pred hsize]
  change nearestNat (_ * (((build m size).size - 1 : Nat) : Rat)) = _
  rw [hlength]

theorem build_index_lt (x : Rat) : (build m size).index x < size := by
  have hpos := pred_pos hsize
  rw [build_index hrange hsize]
  refine (nearestNat_le ?_).trans_lt (Nat.sub_one_lt_of_lt hsize)
  rw [cast_pred hsize]
  exact mul_le_of_le_one_left hpos.le (Scalar.clamp_le zero_le_one _)

theorem build_index_grid {k : Nat} (hk : k < size) :
    (build m size).index (m.range.grid size k) = k := by
  have hpos := pred_pos hsize
  have hwidth := sub_pos.2 hrange
  have hk' : (k : Rat) ≤ size - 1 := by
    rw [← cast_pred hsize]
    exact_mod_cast Nat.le_sub_one_of_lt hk
  have hfraction : (m.range.grid size k - m.range.min) / (m.range.max - m.range.min) =
      k / (size - 1) := by
    rw [Range.grid, add_sub_cancel_left, mul_div_cancel_right₀ _ hwidth.ne']
  rw [build_index hrange hsize, hfraction,
    Scalar.clamp_of_mem (div_nonneg (Nat.cast_nonneg k) hpos.le) ((div_le_one hpos).2 hk'),
    div_mul_cancel₀ _ hpos.ne', nearestNat_natCast]

theorem build_index_below {x : Rat} (hx : x ≤ m.range.min) : (build m size).index x = 0 := by
  have hleft : (x - m.range.min) / (m.range.max - m.range.min) ≤ 0 :=
    div_nonpos_of_nonpos_of_nonneg (sub_nonpos.2 hx) (sub_pos.2 hrange).le
  rw [build_index hrange hsize, Scalar.clamp_of_le hleft zero_le_one, zero_mul]
  exact nearestNat_natCast 0

theorem build_index_above {x : Rat} (hx : m.range.max ≤ x) :
    (build m size).index x = size - 1 := by
  have hright : 1 ≤ (x - m.range.min) / (m.range.max - m.range.min) :=
    (one_le_div (sub_pos.2 hrange)).2 (sub_le_sub_right hx _)
  rw [build_index hrange hsize, Scalar.clamp_of_ge hright zero_le_one, one_mul, ← cast_pred hsize]
  exact nearestNat_natCast _

theorem abs_grid_sub_le {x : Rat} (hx : m.range.min ≤ x) (hx' : x ≤ m.range.max) :
    |m.range.grid size ((build m size).index x) - x| ≤
      (m.range.max - m.range.min) / (2 * (size - 1)) := by
  have hpos := pred_pos hsize
  have hwidth := sub_pos.2 hrange
  have hstep : 0 < (m.range.max - m.range.min) / (size - 1) := div_pos hwidth hpos
  have hnonneg : 0 ≤ (x - m.range.min) / (m.range.max - m.range.min) :=
    div_nonneg (sub_nonneg.2 hx) hwidth.le
  have hle : (x - m.range.min) / (m.range.max - m.range.min) ≤ 1 :=
    (div_le_one hwidth).2 (sub_le_sub_right hx' _)
  have hindex := build_index hrange hsize x
  rw [Scalar.clamp_of_mem hnonneg hle] at hindex
  have hround := abs_nearestNat_sub_le (mul_nonneg hnonneg hpos.le)
  rw [← hindex] at hround
  calc |m.range.grid size ((build m size).index x) - x|
      = |((build m size).index x -
          (x - m.range.min) / (m.range.max - m.range.min) * (size - 1)) *
            ((m.range.max - m.range.min) / (size - 1))| := by
        rw [Range.grid]
        field_simp
        ring_nf
    _ = |(build m size).index x -
          (x - m.range.min) / (m.range.max - m.range.min) * (size - 1)| *
            ((m.range.max - m.range.min) / (size - 1)) := by
        rw [abs_mul, abs_of_pos hstep]
    _ ≤ 1 / 2 * ((m.range.max - m.range.min) / (size - 1)) :=
        mul_le_mul_of_nonneg_right hround hstep.le
    _ = (m.range.max - m.range.min) / (2 * (size - 1)) := by
        field_simp

variable (hflat : m.discretize = false)

include hflat

theorem build_valueAt (x : Rat) :
    (build m size).valueAt x = m.valueAt (m.range.grid size ((build m size).index x)) :=
  build_entry hflat hsize (build_index_lt hrange hsize x) m.nanColor

theorem build_valueAt_below {x : Rat} (hx : x ≤ m.range.min) :
    (build m size).valueAt x = m.valueAt m.range.min := by
  have hgrid : m.range.grid size 0 = m.range.min := by
    rw [Range.grid, Nat.cast_zero, zero_div, zero_mul, add_zero]
  rw [build_valueAt hrange hsize hflat, build_index_below hrange hsize hx, hgrid]

theorem build_valueAt_above {x : Rat} (hx : m.range.max ≤ x) :
    (build m size).valueAt x = m.valueAt m.range.max := by
  have hgrid : m.range.grid size (size - 1) = m.range.max := by
    rw [Range.grid, cast_pred hsize, div_self (pred_pos hsize).ne', one_mul, add_sub_cancel]
  rw [build_valueAt hrange hsize hflat, build_index_above hrange hsize hx, hgrid]

end

theorem valueAt_of_isNaN {α : Type} [Scalar α] (m : ColorMap α) (size : Nat) {x : α}
    (h : Scalar.isNaN x = true) :
    (build m size).valueAt x = m.nanColor ∧ m.valueAt x = m.nanColor :=
  ⟨if_pos h, if_pos h⟩

end LookupTable

namespace ColorMap

variable {m : ColorMap Rat} {x : Rat}

theorem range_holds {p : ColorPoint Rat} (hp : p ∈ m.points) : m.range.Holds p.position :=
  Range.ofPositions_holds (List.mem_map_of_mem hp) rfl

theorem color_below (hx : x ≤ m.range.min) : m.sampler.color x = m.sampler.color m.range.min :=
  congrArg (Option.getD · _) (ControlPoint.evaluate_below (fun _ hp => (range_holds hp).1) hx)

theorem color_above (hrange : m.range.min < m.range.max) (hx : m.range.max ≤ x) :
    m.sampler.color x = m.sampler.color m.range.max := by
  have hne : m.points.map (·.position) ≠ [] := by
    intro hnil
    rw [range, hnil] at hrange
    exact absurd hrange (lt_irrefl 0)
  obtain ⟨p, hp, hmin⟩ := List.mem_map.1 (Range.ofPositions_mem hne).1
  have hstart : ∃ p ∈ m.points, p.position < m.range.max := ⟨p, hp, hmin.trans_lt hrange⟩
  exact congrArg (Option.getD · _)
    (ControlPoint.evaluate_above (fun q hq => (range_holds hq).2) hstart hx)

theorem opacity_of_unmapped (h : m.opacityMapping = false) (x : Rat) : m.sampler.opacity x = 1 :=
  if_neg (Bool.eq_false_iff.1 h)

/-- Beyond either bound of the range of the colors the opacities are held. Above, this also needs
that they start before the bound or do not jump there. -/
structure HoldsOpacity (m : ColorMap Rat) (x : Rat) : Prop where
  within : ∀ p ∈ m.opacityPoints, m.range.Holds p.position
  settled : x < m.range.min ∨ (∃ p ∈ m.opacityPoints, p.position < m.range.max) ∨
    m.opacityPoints.head?.map (·.value) = m.opacityPoints.getLast?.map (·.value)

theorem opacity_below (h : ∀ p ∈ m.opacityPoints, m.range.Holds p.position)
    (hx : x ≤ m.range.min) : m.sampler.opacity x = m.sampler.opacity m.range.min := by
  have hevaluate : ControlPoint.evaluate m.sampler.opacities x =
      ControlPoint.evaluate m.sampler.opacities m.range.min :=
    ControlPoint.evaluate_below (fun p hp => (h p hp).1) hx
  rw [Sampler.opacity, Sampler.opacity, hevaluate]

theorem opacity_above (h : m.HoldsOpacity x) (hrange : m.range.min < m.range.max)
    (hx : m.range.max ≤ x) : m.sampler.opacity x = m.sampler.opacity m.range.max := by
  have hmax : ∀ p ∈ m.opacityPoints, p.position ≤ m.range.max := fun p hp => (h.within p hp).2
  have hevaluate : ControlPoint.evaluate m.sampler.opacities x =
      ControlPoint.evaluate m.sampler.opacities m.range.max := by
    by_cases hstart : ∃ p ∈ m.opacityPoints, p.position < m.range.max
    · exact ControlPoint.evaluate_above hmax hstart hx
    · have hstacked : ∀ p ∈ m.opacityPoints, p.position = m.range.max := by
        intro p hp
        exact (hmax p hp).eq_of_not_lt fun hlt => hstart ⟨p, hp, hlt⟩
      have hends := (h.settled.resolve_left (hrange.trans_le hx).not_gt).resolve_left hstart
      exact ControlPoint.evaluate_stacked hstacked hends hx
  rw [Sampler.opacity, Sampler.opacity, hevaluate]

theorem table_outside (hrange : m.range.min < m.range.max) (hflat : m.discretize = false)
    {size : Nat} (hsize : 2 ≤ size) (hx : x < m.range.min ∨ m.range.max < x) :
    ∃ bound, (LookupTable.build m size).valueAt x = m.valueAt bound ∧
      m.sampler.color x = m.sampler.color bound ∧
      (m.opacityMapping = false ∨ m.HoldsOpacity x →
        m.sampler.opacity x = m.sampler.opacity bound) := by
  rcases hx with hx | hx
  · refine ⟨_, LookupTable.build_valueAt_below hrange hsize hflat hx.le, color_below hx.le, ?_⟩
    rintro (hunmapped | hheld)
    · rw [opacity_of_unmapped hunmapped, opacity_of_unmapped hunmapped]
    · exact opacity_below hheld.within hx.le
  · refine ⟨_, LookupTable.build_valueAt_above hrange hsize hflat hx.le,
      color_above hrange hx.le, ?_⟩
    rintro (hunmapped | hheld)
    · rw [opacity_of_unmapped hunmapped, opacity_of_unmapped hunmapped]
    · exact opacity_above hheld hrange hx.le

end ColorMap

namespace TransferFunction

/-- How a table of a function stands to the curves it was sampled from. -/
structure TableFollows (f : TransferFunction Rat) (size : Nat) : Prop where
  inside : ∀ x, f.range.min ≤ x → x ≤ f.range.max → ∃ k < size,
    (LookupTable.build f.toColorMap size).valueAt x = f.valueAt (f.range.grid size k) ∧
      |f.range.grid size k - x| ≤ (f.range.max - f.range.min) / (2 * (size - 1))
  onGrid : ∀ k < size, (LookupTable.build f.toColorMap size).valueAt (f.range.grid size k) =
    f.valueAt (f.range.grid size k)
  color : ∀ x, x < f.range.min ∨ f.range.max < x →
    ((LookupTable.build f.toColorMap size).valueAt x).r = (f.valueAt x).r ∧
      ((LookupTable.build f.toColorMap size).valueAt x).g = (f.valueAt x).g ∧
      ((LookupTable.build f.toColorMap size).valueAt x).b = (f.valueAt x).b
  alpha : ∀ x, x < f.range.min ∨ f.range.max < x → f.opacityMapping = false ∨ f.HoldsOpacity x →
    ((LookupTable.build f.toColorMap size).valueAt x).a = (f.valueAt x).a

/-- A table that is not banded agrees with the curves up to half a step; and what is not a number has
one color in both. -/
theorem table_follows_curves (f : TransferFunction Rat) (hrange : f.range.min < f.range.max)
    (hflat : f.discretize = false) (size : Nat) (hsize : 2 ≤ size) :
    f.TableFollows size ∧
      ∀ (g : TransferFunction Binary64) (x : Binary64), Scalar.isNaN x = true →
        (LookupTable.build g.toColorMap size).valueAt x = g.nanColor ∧
          g.valueAt x = g.nanColor := by
  refine ⟨⟨?_, ?_, ?_, ?_⟩, fun g _ hx => LookupTable.valueAt_of_isNaN g.toColorMap size hx⟩
  · intro x hx hx'
    exact ⟨_, LookupTable.build_index_lt hrange hsize x,
      LookupTable.build_valueAt hrange hsize hflat x,
      LookupTable.abs_grid_sub_le hrange hsize hx hx'⟩
  · intro k hk
    rw [LookupTable.build_valueAt hrange hsize hflat,
      LookupTable.build_index_grid hrange hsize hk]
  · intro x hx
    obtain ⟨bound, htable, hcolor, -⟩ := ColorMap.table_outside hrange hflat hsize hx
    rw [htable]
    exact ⟨congrArg Rgb.r hcolor.symm, congrArg Rgb.g hcolor.symm, congrArg Rgb.b hcolor.symm⟩
  · intro x hx hheld
    obtain ⟨bound, htable, -, hopacity⟩ := ColorMap.table_outside hrange hflat hsize hx
    rw [htable]
    exact (hopacity hheld).symm

def gentleRamp : TransferFunction Rat :=
  (ofPoints [.plain 0 ⟨0, 0, 1⟩, .plain 4 ⟨1, 0, 0⟩]).withOpacity (.ramp 1 0 3 1)

theorem gentleRamp_table_follows :
    gentleRamp.range.min < gentleRamp.range.max ∧ gentleRamp.discretize = false ∧
      gentleRamp.TableFollows 5 ∧
      ∀ (g : TransferFunction Binary64) (x : Binary64), Scalar.isNaN x = true →
        (LookupTable.build g.toColorMap 5).valueAt x = g.nanColor ∧ g.valueAt x = g.nanColor := by
  have hrange : gentleRamp.range.min < gentleRamp.range.max := by decide +kernel
  have hflat : gentleRamp.discretize = false := rfl
  have hsize : 2 ≤ 5 := by decide
  exact ⟨hrange, hflat, gentleRamp.table_follows_curves hrange hflat 5 hsize⟩

def cliffRamp : TransferFunction Rat :=
  (ofPoints [.plain 0 ⟨0, 0, 1⟩, .plain 1 ⟨1, 0, 0⟩]).withOpacity (.ramp 1 0 1 1)

theorem table_alpha_differs :
    ¬∀ (f : TransferFunction Rat) (size : Nat) (x : Rat), f.range.min < f.range.max →
      f.discretize = false → 2 ≤ size → x < f.range.min ∨ f.range.max < x →
      (f.opacityMapping = false ∨ ∀ p ∈ f.opacityPoints, f.range.Holds p.position) →
      ((LookupTable.build f.toColorMap size).valueAt x).a = (f.valueAt x).a := by
  intro h
  have hheld : ∀ p ∈ cliffRamp.opacityPoints, cliffRamp.range.Holds p.position := by
    intro p hp
    rcases List.mem_pair.1 hp with rfl | rfl
    · exact ⟨by decide +kernel, by decide +kernel⟩
    · exact ⟨by decide +kernel, by decide +kernel⟩
  have halpha := h cliffRamp 2 2 (by decide +kernel) rfl (by decide) (by decide +kernel)
    (Or.inr hheld)
  exact absurd halpha (by decide +kernel)

end TransferFunction

end TransferCurves
