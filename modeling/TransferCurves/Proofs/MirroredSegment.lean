import TransferCurves.Proofs.Mixture

/-!
# Segments read backwards

Read from its right end, a segment has the shape of its left end the wrong way round. That is the
shape of another segment only if the midpoints lie opposite each other and the blends are alike and
no steps: the two parts of a step meet in a place that belongs to the right one, in either
direction.
-/

namespace TransferCurves.Segment

section

variable {m t : Rat} (hm : 0 < m) (hm' : m < 1)

include hm hm'

theorem bend_flip : bend (1 - m) (1 - t) = 1 - bend m t := by
  have hm₀ : m ≠ 0 := hm.ne'
  have hm₁ : 1 - m ≠ 0 := (sub_pos.2 hm').ne'
  rw [bend_eq, bend_eq, sub_sub_cancel]
  rcases lt_trichotomy t m with hlt | rfl | hgt
  · rw [if_pos hlt, if_neg (by linarith)]
    field_simp
    ring
  · rw [if_neg (lt_irrefl _), if_neg (lt_irrefl _), sub_self, sub_self]
    ring
  · rw [if_neg hgt.not_gt, if_pos (by linarith)]
    field_simp
    ring

theorem bend_lt_half_iff : bend m t < 1 / 2 ↔ t < m := by
  rw [bend_eq]
  split_ifs with hlt
  · rw [div_lt_iff₀ hm]
    constructor <;> intro <;> linarith
  · have hright : 0 ≤ 1 / 2 * (t - m) / (1 - m) := div_nonneg (by linarith) (by linarith)
    constructor <;> intro <;> linarith

theorem half_lt_bend_iff : 1 / 2 < bend m t ↔ m < t := by
  have hflip := bend_lt_half_iff (t := 1 - t) (sub_pos.2 hm') (sub_lt_self 1 hm)
  rw [bend_flip hm hm'] at hflip
  constructor
  · intro h
    have hlt := hflip.1 (by linarith)
    linarith
  · intro h
    have hlt := hflip.2 (by linarith)
    linarith

theorem bend_half : bend m m = 1 / 2 :=
  le_antisymm (not_lt.1 fun h => lt_irrefl _ ((half_lt_bend_iff hm hm').1 h))
    (not_lt.1 fun h => lt_irrefl _ ((bend_lt_half_iff hm hm').1 h))

theorem bend_pos (ht : 0 < t) : 0 < bend m t := by
  rcases lt_or_ge t m with hlt | hge
  · rw [bend_eq, if_pos hlt]
    exact div_pos (by linarith) hm
  · have hhalf : ¬bend m t < 1 / 2 := fun h => hge.not_gt ((bend_lt_half_iff hm hm').1 h)
    linarith

end

theorem bend_quarter {m : Rat} (hm : 0 < m) : bend m (m / 2) = 1 / 4 := by
  rw [bend_eq, if_pos (by linarith)]
  field_simp
  norm_num

section

variable {s t u : Rat}

theorem ease_flip (s t : Rat) : ease s (1 - t) = 1 - ease s t := by
  simp only [ease]
  ring

theorem ease_lt (hs : 0 ≤ s) (hs' : s < 1) (ht : 0 ≤ t) (h : t < u) (hu : u ≤ 1) :
    ease s t < ease s u := by
  have hsmooth : 0 ≤ s * (ease 1 u - ease 1 t) :=
    mul_nonneg hs (sub_nonneg.2 (ease_mono zero_le_one le_rfl ht h.le hu))
  have hline : 0 < (1 - s) * (u - t) := mul_pos (sub_pos.2 hs') (sub_pos.2 h)
  have hdiff : ease s u - ease s t = s * (ease 1 u - ease 1 t) + (1 - s) * (u - t) := by
    simp only [ease]
    ring
  linarith

theorem ease_half (s : Rat) : ease s (1 / 2) = 1 / 2 := by
  simp only [ease]
  ring

theorem ease_quarter (s : Rat) : ease s (1 / 4) = 1 / 4 - 3 / 32 * s := by
  simp only [ease]
  ring

end

/-- The sharpness that a blend which is no step amounts to: a line has none. -/
def softness (s : Rat) : Rat := if s < 1 / 100 then 0 else s

section

variable {s : Rat} (hs : s ≤ 99 / 100)

theorem softness_nonneg (s : Rat) : 0 ≤ softness s := by
  rw [softness]
  split_ifs <;> linarith

include hs

theorem softness_lt_one : softness s < 1 := by
  rw [softness]
  split_ifs <;> linarith

theorem weight_smooth (m t : Rat) :
    weight m s t = ease (softness s) (bend (heldMidpoint m) t) := by
  rw [weight, blendWeight, if_neg (not_lt.2 hs), softness]
  split_ifs
  · simp only [ease]
    ring
  · rfl

end

theorem weight_step {s : Rat} (hs : 99 / 100 < s) (m t : Rat) :
    weight m s t = if t < heldMidpoint m then 0 else 1 := by
  have hiff := bend_lt_half_iff (t := t) (heldMidpoint_pos m) (heldMidpoint_lt_one m)
  rw [weight, blendWeight, if_neg (by linarith), if_pos hs]
  simp only [hiff]

structure Opposite (m s m' s' : Rat) : Prop where
  midpoints : heldMidpoint m + heldMidpoint m' = 1
  smooth : s ≤ 99 / 100
  smooth' : s' ≤ 99 / 100
  softness : softness s = softness s'

/-- What the right end has by one shape is what it lacks by the other. -/
def Complement (m s m' s' : Rat) : Prop :=
  ∀ t, 0 < t → t < 1 → weight m s t + weight m' s' (1 - t) = 1

variable {m s m' s' : Rat}

theorem Complement.symm (h : Complement m s m' s') : Complement m' s' m s := by
  intro t ht ht'
  have hback := h (1 - t) (by linarith) (by linarith)
  rw [sub_sub_cancel] at hback
  linarith

theorem Opposite.complement (h : Opposite m s m' s') : Complement m s m' s' := by
  intro t _ _
  have hmidpoint : heldMidpoint m' = 1 - heldMidpoint m := by linarith [h.midpoints]
  rw [weight_smooth h.smooth, weight_smooth h.smooth', hmidpoint,
    bend_flip (heldMidpoint_pos m) (heldMidpoint_lt_one m), h.softness, ease_flip]
  ring

theorem Complement.smooth (h : Complement m s m' s') : s ≤ 99 / 100 := by
  by_contra hstep
  have hstep : 99 / 100 < s := not_le.1 hstep
  have hm := heldMidpoint_pos m
  have hm' := heldMidpoint_lt_one m
  have hn := heldMidpoint_pos m'
  have hn' := heldMidpoint_lt_one m'
  have hmiddle := h (heldMidpoint m) hm hm'
  rw [weight_step hstep, if_neg (lt_irrefl _)] at hmiddle
  rcases le_or_gt s' (99 / 100) with hs' | hs'
  -- A smooth blend has begun by then.
  · rw [weight_smooth hs'] at hmiddle
    have hbegun := ease_lt (softness_nonneg s') (softness_lt_one hs') le_rfl
      (bend_pos hn hn' (sub_pos.2 hm')) (bend_le_one hn hn' (by linarith))
    rw [ease_zero] at hbegun
    linarith
  -- Another step comes too late, so there is a place before both.
  · have hlate : 1 - heldMidpoint m < heldMidpoint m' := by
      by_contra hge
      rw [weight_step hs', if_neg hge] at hmiddle
      linarith
    have hbefore := h ((1 - heldMidpoint m' + heldMidpoint m) / 2) (by linarith) (by linarith)
    rw [weight_step hstep, weight_step hs', if_pos (by linarith), if_pos (by linarith)] at hbefore
    linarith

theorem Complement.midpoints (h : Complement m s m' s') :
    heldMidpoint m + heldMidpoint m' = 1 := by
  have hm := heldMidpoint_pos m
  have hm' := heldMidpoint_lt_one m
  have hn := heldMidpoint_pos m'
  have hn' := heldMidpoint_lt_one m'
  have hmiddle := h (heldMidpoint m) hm hm'
  rw [weight_smooth h.smooth, weight_smooth h.symm.smooth, bend_half hm hm', ease_half] at hmiddle
  have hsoft := softness_nonneg s'
  have hsoft' := softness_lt_one h.symm.smooth
  have hlow := bend_nonneg hn hn' (sub_nonneg.2 hm'.le)
  have hhigh := bend_le_one hn hn' (sub_le_self 1 hm.le)
  rcases lt_trichotomy (1 - heldMidpoint m) (heldMidpoint m') with hlt | heq | hgt
  · have hbelow := ease_lt hsoft hsoft' hlow ((bend_lt_half_iff hn hn').2 hlt) (by norm_num)
    rw [ease_half] at hbelow
    linarith
  · linarith
  · have habove := ease_lt hsoft hsoft' (by norm_num) ((half_lt_bend_iff hn hn').2 hgt) hhigh
    rw [ease_half] at habove
    linarith

theorem opposite_iff : Opposite m s m' s' ↔ Complement m s m' s' := by
  refine ⟨Opposite.complement, fun h => ⟨h.midpoints, h.smooth, h.symm.smooth, ?_⟩⟩
  have hm := heldMidpoint_pos m
  have hm' := heldMidpoint_lt_one m
  have hmidpoint : heldMidpoint m' = 1 - heldMidpoint m := by linarith [h.midpoints]
  have hquarter := h (heldMidpoint m / 2) (by linarith) (by linarith)
  rw [weight_smooth h.smooth, weight_smooth h.symm.smooth, hmidpoint, bend_flip hm hm',
    bend_quarter hm, ease_flip, ease_quarter, ease_quarter] at hquarter
  linarith

end TransferCurves.Segment
