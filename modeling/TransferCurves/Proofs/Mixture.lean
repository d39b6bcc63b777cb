import TransferCurves.Evaluation
import TransferCurves.Proofs.Order
import Mathlib.Tactic.FieldSimp
import Mathlib.Tactic.Linarith
import Mathlib.Tactic.NormNum
import Mathlib.Tactic.Ring

/-!
# Segments as mixtures

Over the exact rationals a segment mixes the values at its two ends. The weight of the right one
depends on the place and on the shape of the segment, not on the values: it is the bent fraction for a
line, zero or one for a step, and for a cubic blend, whose two tangents are equal, an average of the
bent fraction and the smooth step. It lies between zero and one and never falls from left to right.
-/

namespace TransferCurves

open scoped Scalar

def mix (w a b : Rat) : Rat := a + w * (b - a)

section

variable {w w' a b : Rat}

theorem le_mix (hw : 0 ≤ w) (h : a ≤ b) : a ≤ mix w a b :=
  le_add_of_nonneg_right (mul_nonneg hw (sub_nonneg.2 h))

theorem mix_le (hw : w ≤ 1) (h : a ≤ b) : mix w a b ≤ b := by
  have hstep := mul_le_of_le_one_left (sub_nonneg.2 h) hw
  rw [mix]
  linarith

theorem mix_flip (w a b : Rat) : mix w a b = mix (1 - w) b a := by
  simp only [mix]
  ring

theorem mix_between (hw : 0 ≤ w) (hw' : w ≤ 1) (a b : Rat) :
    min a b ≤ mix w a b ∧ mix w a b ≤ max a b := by
  rcases le_total a b with h | h
  · rw [min_eq_left h, max_eq_right h]
    exact ⟨le_mix hw h, mix_le hw' h⟩
  · rw [mix_flip, min_eq_right h, max_eq_left h]
    exact ⟨le_mix (sub_nonneg.2 hw') h, mix_le (sub_le_self 1 hw) h⟩

theorem mix_mono (hw : w ≤ w') (h : a ≤ b) : mix w a b ≤ mix w' a b :=
  add_le_add_right (mul_le_mul_of_nonneg_right hw (sub_nonneg.2 h)) a

end

/-- A number read off the values of a curve, in step with mixing them: a channel, or a weighted sum
of channels. -/
structure Channel (V : Type) [Channels Rat V] where
  read : V → Rat
  read_mix : ∀ w a b, read (Channels.zipWith (mix w) a b) = mix w (read a) (read b)

namespace Channel

def red : Channel (Rgb Rat) := ⟨Rgb.r, fun _ _ _ => rfl⟩

def green : Channel (Rgb Rat) := ⟨Rgb.g, fun _ _ _ => rfl⟩

def blue : Channel (Rgb Rat) := ⟨Rgb.b, fun _ _ _ => rfl⟩

def opacity : Channel Rat := ⟨id, fun _ _ _ => rfl⟩

def neg {V : Type} [Channels Rat V] (ch : Channel V) : Channel V where
  read v := -ch.read v
  read_mix w a b := by
    rw [ch.read_mix]
    simp only [mix]
    ring

end Channel

class Channels.Readable (V : Type) [Channels Rat V] : Prop where
  eq_of_read {v w : V} : (∀ ch : Channel V, ch.read v = ch.read w) → v = w

theorem Rgb.eq_of_channels {α : Type} {v w : Rgb α} (hr : v.r = w.r) (hg : v.g = w.g)
    (hb : v.b = w.b) : v = w := by
  cases v
  cases w
  cases hr
  cases hg
  cases hb
  rfl

instance : Channels.Readable (Rgb Rat) where
  eq_of_read h := Rgb.eq_of_channels (h .red) (h .green) (h .blue)

instance : Channels.Readable Rat where
  eq_of_read h := h .opacity

theorem Scalar.ofDecimal_eq (digits exponent : Nat) :
    (Scalar.ofDecimal digits true exponent : Rat) = digits / 10 ^ exponent := by
  change Rat.ofScientific digits true exponent = _
  rw [Rat.ofScientific_true_def, Rat.mkRat_eq_div]
  push_cast
  rfl

theorem Scalar.half_eq : (Scalar.ofDecimal 5 true 1 : Rat) = 1 / 2 := by
  rw [Scalar.ofDecimal_eq]
  norm_num

namespace Segment

theorem heldMidpoint_eq (m : Rat) :
    heldMidpoint m =
      if m < 1 / 100000 then 1 / 100000
      else if 1 - 1 / 100000 < m then 1 - 1 / 100000
      else m := by
  have heps : (Scalar.ofDecimal 1 true 5 : Rat) = 1 / 100000 := by
    rw [Scalar.ofDecimal_eq]
    norm_num
  rw [← heps]
  rfl

theorem heldMidpoint_pos (m : Rat) : 0 < heldMidpoint m := by
  rw [heldMidpoint_eq]
  split_ifs <;> linarith

theorem heldMidpoint_lt_one (m : Rat) : heldMidpoint m < 1 := by
  rw [heldMidpoint_eq]
  split_ifs <;> linarith

theorem bend_eq (m t : Rat) :
    bend m t = if t < m then 1 / 2 * t / m else 1 / 2 + 1 / 2 * (t - m) / (1 - m) := by
  rw [← Scalar.half_eq]
  rfl

section

variable {m t u : Rat}

theorem bend_nonneg (hm : 0 < m) (hm' : m < 1) (ht : 0 ≤ t) : 0 ≤ bend m t := by
  rw [bend_eq]
  split_ifs with hlt
  · exact div_nonneg (by linarith) hm.le
  · have hright : 0 ≤ 1 / 2 * (t - m) / (1 - m) :=
      div_nonneg (by linarith) (by linarith)
    linarith

theorem bend_le_one (hm : 0 < m) (hm' : m < 1) (ht : t ≤ 1) : bend m t ≤ 1 := by
  rw [bend_eq]
  split_ifs with hlt
  · rw [div_le_iff₀ hm]
    linarith
  · have hright : 1 / 2 * (t - m) / (1 - m) ≤ 1 / 2 := by
      rw [div_le_iff₀ (by linarith)]
      linarith
    linarith

theorem bend_mono (hm : 0 < m) (hm' : m < 1) (h : t ≤ u) : bend m t ≤ bend m u := by
  have hm'' : 0 < 1 - m := by linarith
  rw [bend_eq, bend_eq]
  split_ifs with ht hu hu
  · exact div_le_div_of_nonneg_right (by linarith) hm.le
  -- The two parts meet at one half.
  · have hleft : 1 / 2 * t / m ≤ 1 / 2 := by
      rw [div_le_iff₀ hm]
      linarith
    have hright : 0 ≤ 1 / 2 * (u - m) / (1 - m) := div_nonneg (by linarith) hm''.le
    linarith
  · linarith
  · exact add_le_add_right (div_le_div_of_nonneg_right (by linarith) hm''.le) _

end

/-- The average of a line and the smooth step. -/
def ease (sharpness t : Rat) : Rat := sharpness * (3 * t ^ 2 - 2 * t ^ 3) + (1 - sharpness) * t

theorem cubic_eq (sharpness v₁ v₂ t : Rat) :
    cubic sharpness v₁ v₂ t = mix (ease sharpness t) v₁ v₂ := by
  change (2 * (t * t * t) - 3 * (t * t) + 1) * v₁ + (-2 * (t * t * t) + 3 * (t * t)) * v₂ +
    (t * t * t - 2 * (t * t) + t + (t * t * t - t * t)) * ((1 - sharpness) * (v₂ - v₁)) = _
  simp only [mix, ease]
  ring

section

variable {s t u : Rat}

theorem ease_mono (hs : 0 ≤ s) (hs' : s ≤ 1) (ht : 0 ≤ t) (h : t ≤ u) (hu : u ≤ 1) :
    ease s t ≤ ease s u := by
  have hslope : 0 ≤ 3 * (u + t) - 2 * (u ^ 2 + u * t + t ^ 2) := by
    nlinarith [mul_nonneg ht (sub_nonneg.2 hu), mul_nonneg ht (sub_nonneg.2 (h.trans hu)),
      mul_nonneg (ht.trans h) (sub_nonneg.2 hu), mul_nonneg (ht.trans h) (sub_nonneg.2 (h.trans hu))]
  have hsmooth : 0 ≤ s * ((u - t) * (3 * (u + t) - 2 * (u ^ 2 + u * t + t ^ 2))) :=
    mul_nonneg hs (mul_nonneg (sub_nonneg.2 h) hslope)
  have hline : 0 ≤ (1 - s) * (u - t) := mul_nonneg (sub_nonneg.2 hs') (sub_nonneg.2 h)
  have hdiff : ease s u - ease s t =
      s * ((u - t) * (3 * (u + t) - 2 * (u ^ 2 + u * t + t ^ 2))) + (1 - s) * (u - t) := by
    simp only [ease]
    ring
  linarith

theorem ease_zero (s : Rat) : ease s 0 = 0 := by
  simp only [ease]
  ring

theorem ease_one (s : Rat) : ease s 1 = 1 := by
  simp only [ease]
  ring

end

def blendWeight (sharpness t : Rat) : Rat :=
  if sharpness < 1 / 100 then t
  else if 99 / 100 < sharpness then (if t < 1 / 2 then 0 else 1)
  else ease sharpness t

theorem blend_eq (sharpness v₁ v₂ t : Rat) :
    blend sharpness v₁ v₂ t = mix (blendWeight sharpness t) v₁ v₂ := by
  have hline : (Scalar.ofDecimal 1 true 2 : Rat) = 1 / 100 := by
    rw [Scalar.ofDecimal_eq]
    norm_num
  have hstep : (Scalar.ofDecimal 99 true 2 : Rat) = 99 / 100 := by
    rw [Scalar.ofDecimal_eq]
    norm_num
  change (if sharpness < Scalar.ofDecimal 1 true 2 then v₁ + t * (v₂ - v₁)
    else if Scalar.ofDecimal 99 true 2 < sharpness then
      (if t < Scalar.ofDecimal 5 true 1 then v₁ else v₂)
    else cubic sharpness v₁ v₂ t) = _
  rw [hline, hstep, Scalar.half_eq, cubic_eq, blendWeight]
  split_ifs
  · rfl
  · rw [mix, zero_mul, add_zero]
  · rw [mix, one_mul, add_sub_cancel]
  · rfl

section

variable {s t u : Rat}

theorem blendWeight_mono (ht : 0 ≤ t) (h : t ≤ u) (hu : u ≤ 1) :
    blendWeight s t ≤ blendWeight s u := by
  rw [blendWeight, blendWeight]
  split_ifs with hline hstep hthalf huhalf huhalf
  · exact h
  · exact le_refl 0
  · exact zero_le_one
  · linarith
  · exact le_refl 1
  · exact ease_mono (by linarith) (by linarith) ht h hu

theorem blendWeight_zero (s : Rat) : blendWeight s 0 = 0 := by
  have hhalf : (0 : Rat) < 1 / 2 := by norm_num
  simp only [blendWeight, ease_zero, if_pos hhalf, ite_self]

theorem blendWeight_one (s : Rat) : blendWeight s 1 = 1 := by
  have hhalf : ¬(1 : Rat) < 1 / 2 := by norm_num
  simp only [blendWeight, ease_one, if_neg hhalf, ite_self]

end

def weight (midpoint sharpness t : Rat) : Rat :=
  blendWeight sharpness (bend (heldMidpoint midpoint) t)

theorem value_eq (v₁ v₂ t midpoint sharpness : Rat) :
    value v₁ v₂ t midpoint sharpness = mix (weight midpoint sharpness t) v₁ v₂ :=
  blend_eq sharpness v₁ v₂ _

section

variable {m s t u : Rat}

theorem weight_mono (ht : 0 ≤ t) (h : t ≤ u) (hu : u ≤ 1) : weight m s t ≤ weight m s u := by
  have hm := heldMidpoint_pos m
  have hm' := heldMidpoint_lt_one m
  exact blendWeight_mono (bend_nonneg hm hm' ht) (bend_mono hm hm' h) (bend_le_one hm hm' hu)

theorem weight_nonneg (ht : 0 ≤ t) (ht' : t ≤ 1) : 0 ≤ weight m s t := by
  have hm := heldMidpoint_pos m
  have hm' := heldMidpoint_lt_one m
  rw [← blendWeight_zero s]
  exact blendWeight_mono (le_refl 0) (bend_nonneg hm hm' ht) (bend_le_one hm hm' ht')

theorem weight_le_one (ht : 0 ≤ t) (ht' : t ≤ 1) : weight m s t ≤ 1 := by
  have hm := heldMidpoint_pos m
  have hm' := heldMidpoint_lt_one m
  rw [← blendWeight_one s]
  exact blendWeight_mono (bend_nonneg hm hm' ht) (bend_le_one hm hm' ht') (le_refl 1)

end

theorem weight_zero (m s : Rat) : weight m s 0 = 0 := by
  rw [weight, bend_eq, if_pos (heldMidpoint_pos m), mul_zero, zero_div, blendWeight_zero]

end Segment

namespace ControlPoint

variable {V : Type}

/-- How much of the right value there is at a position between two points. -/
def weightAt (l r : ControlPoint Rat V) (x : Rat) : Rat :=
  Segment.weight l.midpoint l.sharpness ((x - l.position) / (r.position - l.position))

theorem read_between [Channels Rat V] (ch : Channel V) {l r : ControlPoint Rat V}
    (h : l.position < r.position) (x : Rat) :
    ch.read (between l r x) = mix (weightAt l r x) (ch.read l.value) (ch.read r.value) := by
  have hspan : ¬r.position - l.position ≤ 0 := not_le.2 (sub_pos.2 h)
  have hbetween : between l r x = Channels.zipWith (mix (weightAt l r x)) l.value r.value := by
    refine (if_neg hspan).trans (congrArg (fun f => Channels.zipWith f l.value r.value) ?_)
    funext v₁ v₂
    exact Segment.value_eq v₁ v₂ _ _ _
  rw [hbetween, ch.read_mix]

theorem between_left [Channels Rat V] [Channels.Readable V] {l r : ControlPoint Rat V}
    (h : l.position < r.position) :
    between l r l.position = l.value := by
  refine Channels.Readable.eq_of_read fun ch => ?_
  have hweight : weightAt l r l.position = 0 := by
    rw [weightAt, sub_self, zero_div, Segment.weight_zero]
  rw [read_between ch h, hweight, mix, zero_mul, add_zero]

variable {l r : ControlPoint Rat V} {x y : Rat}

theorem fraction_nonneg (hl : l.position ≤ x) (hr : x < r.position) :
    0 ≤ (x - l.position) / (r.position - l.position) :=
  div_nonneg (sub_nonneg.2 hl) (sub_nonneg.2 (hl.trans hr.le))

theorem fraction_le_one (hl : l.position ≤ x) (hr : x < r.position) :
    (x - l.position) / (r.position - l.position) ≤ 1 := by
  rw [div_le_iff₀ (sub_pos.2 (hl.trans_lt hr)), one_mul]
  exact sub_le_sub_right hr.le _

theorem weightAt_nonneg (hl : l.position ≤ x) (hr : x < r.position) : 0 ≤ weightAt l r x :=
  Segment.weight_nonneg (fraction_nonneg hl hr) (fraction_le_one hl hr)

theorem weightAt_le_one (hl : l.position ≤ x) (hr : x < r.position) : weightAt l r x ≤ 1 :=
  Segment.weight_le_one (fraction_nonneg hl hr) (fraction_le_one hl hr)

theorem weightAt_mono (hl : l.position ≤ x) (h : x ≤ y) (hr : y < r.position) :
    weightAt l r x ≤ weightAt l r y := by
  have hfraction : (x - l.position) / (r.position - l.position) ≤
      (y - l.position) / (r.position - l.position) :=
    div_le_div_of_nonneg_right (sub_le_sub_right h _)
      (sub_nonneg.2 (hl.trans (h.trans hr.le)))
  exact Segment.weight_mono (fraction_nonneg hl (h.trans_lt hr)) hfraction
    (fraction_le_one (hl.trans h) hr)

end ControlPoint

end TransferCurves
