import TransferCurves.Proofs.ExactRetiming
import TransferCurves.Proofs.MirroredSegment
import TransferCurves.Proofs.Interpolation
import TransferCurves.Proofs.StoredOrder
import Mathlib.Data.List.Nodup

/-!
# Retiming onto an inverted window

An inverted window turns a curve around, and the shapes stay with their points: a segment then has
the shape of what was its right end. So the curve is mirrored at its points and beyond them, and
inside a segment whose two ends have opposite shapes or equal values, but nowhere else at large.
-/

namespace TransferCurves

open scoped Scalar

namespace ControlPoint

variable {V : Type}

def Ascending (nodes : List (ControlPoint Rat V)) : Prop :=
  nodes.Pairwise fun p q => p.position < q.position

theorem sortByPosition_ascending {ps : List (ControlPoint Rat V)}
    (h : (ps.map (·.position)).Nodup) : Ascending (sortByPosition ps) := by
  have hnodup : ((sortByPosition ps).map (·.position)).Nodup :=
    ((sortByPosition_perm ps).map _).nodup_iff.2 h
  exact (sorted_iff.1 (sortByPosition_sorted ps)).imp₂
    (fun {_ _} hle hne => lt_of_le_of_ne hle hne) (List.pairwise_map.1 hnodup)

section

variable {nodes : List (ControlPoint Rat V)} {x : Rat} {p l r : ControlPoint Rat V}

theorem Ascending.index_lt (h : Ascending nodes) {i j : Nat} {hi : i < nodes.length}
    {hj : j < nodes.length} (hlt : nodes[i].position < nodes[j].position) : i < j := by
  by_contra hle
  have hback := le_of_index_le (h.imp le_of_lt) (Nat.not_lt.1 hle) hi
  exact hback.not_gt hlt

theorem neighbours_iff : [l, r] <:+: nodes ↔
    ∃ i, ∃ h : i < nodes.length, ∃ h' : i + 1 < nodes.length,
      nodes[i] = l ∧ nodes[i + 1] = r := by
  constructor
  · rintro ⟨before, after, rfl⟩
    exact ⟨before.length, by simp, by simp, by simp, by simp⟩
  · rintro ⟨i, h, h', rfl, rfl⟩
    refine ⟨nodes.take i, nodes.drop (i + 2), ?_⟩
    rw [List.append_assoc, List.cons_append, List.cons_append, List.nil_append,
      ← List.drop_eq_getElem_cons, ← List.drop_eq_getElem_cons, List.take_append_drop]

theorem position_lt_of_neighbours (hs : Ascending nodes) (h : [l, r] <:+: nodes) :
    l.position < r.position := by
  have hpair : Ascending [l, r] := List.Pairwise.sublist h.sublist hs
  exact (List.pairwise_cons.1 hpair).1 r (List.mem_singleton_self r)

variable [Channels Rat V]

/-- At or before all points, at or after all of them, at one of them, or between two neighbours. -/
theorem place_cases (hs : Ascending nodes) (hne : nodes ≠ []) (x : Rat) :
    (∀ p ∈ nodes, x ≤ p.position) ∨ (∀ p ∈ nodes, p.position ≤ x) ∨
      (∃ p ∈ nodes, p.position = x) ∨
        ∃ l r, [l, r] <:+: nodes ∧ l.position < x ∧ x < r.position := by
  obtain ⟨v, -, htakes⟩ := evaluate_takes hne (fun _ _ => rfl) (x := x) rfl
  have hle := hs.imp (fun {_ _} h => le_of_lt h)
  cases htakes with
  | first h hx =>
    refine Or.inl (List.forall_mem_iff_getElem.2 fun i hi => ?_)
    exact le_trans (α := Rat) hx (le_of_index_le hle (Nat.zero_le i) hi)
  | last n h _ hx =>
    refine Or.inr (Or.inl (List.forall_mem_iff_getElem.2 fun i hi => ?_))
    exact le_trans (α := Rat) (le_of_index_le hle (by omega) (by omega)) hx
  | inside i hi _ hleft hright =>
    rcases eq_or_lt_of_le (α := Rat) hleft with heq | hlt
    · exact Or.inr (Or.inr (Or.inl ⟨_, List.getElem_mem _, heq⟩))
    · exact Or.inr (Or.inr (Or.inr ⟨_, _, neighbours_iff.2 ⟨i, by omega, hi, rfl, rfl⟩, hlt, hright⟩))

theorem evaluate_before (hne : nodes ≠ []) (h : ∀ p ∈ nodes, x ≤ p.position) :
    evaluate nodes x = some (nodes.head hne).value := by
  have hpos : 0 < nodes.length := List.length_pos_iff.2 hne
  rw [List.head_eq_getElem]
  exact evaluate_first hpos (h _ (List.getElem_mem hpos))

theorem evaluate_after (hs : Ascending nodes) (hne : nodes ≠ [])
    (h : ∀ p ∈ nodes, p.position ≤ x) : evaluate nodes x = some (nodes.getLast hne).value := by
  have hpos : 0 < nodes.length := List.length_pos_iff.2 hne
  rw [List.getLast_eq_getElem]
  by_cases hfirst : x ≤ nodes[0].position
  -- Only a single point is both the first and the last.
  · have hlast : nodes[nodes.length - 1].position ≤ x := h _ (List.getElem_mem _)
    have hsingle : ¬0 < nodes.length - 1 := fun hlt =>
      ((List.pairwise_iff_getElem.1 hs 0 _ _ (by omega) hlt).trans_le hlast).not_ge hfirst
    rw [evaluate_first hpos hfirst]
    simp only [Nat.eq_zero_of_not_pos hsingle]
  · exact evaluate_last (by omega) hfirst (h _ (List.getElem_mem _))

theorem evaluate_neighbours (hs : Ascending nodes) (h : [l, r] <:+: nodes) (hl : l.position < x)
    (hr : x < r.position) : evaluate nodes x = some (between l r x) := by
  obtain ⟨k, _, hk, rfl, rfl⟩ := neighbours_iff.1 h
  have hne : nodes ≠ [] := List.ne_nil_of_length_pos (by omega)
  obtain ⟨v, hv, htakes⟩ := evaluate_takes hne (fun _ _ => rfl) (x := x) rfl
  cases htakes with
  | first hpos hx => exact absurd (hs.index_lt (hl.trans_le hx)) (Nat.not_lt_zero k)
  | last n hn _ hx =>
    have hlt := hs.index_lt (lt_of_le_of_lt (α := Rat) hx hr)
    omega
  | inside i hi _ hleft hright =>
    have hle := hs.index_lt (lt_of_le_of_lt (α := Rat) hleft hr)
    have hge := hs.index_lt (hl.trans hright)
    obtain rfl : i = k := by omega
    exact hv

theorem evaluate_at [Channels.Readable V] (hs : Ascending nodes) (hp : p ∈ nodes) :
    evaluate nodes p.position = some p.value := by
  obtain ⟨before, after, rfl⟩ := List.append_of_mem hp
  obtain ⟨-, hrest, hbefore⟩ := List.pairwise_append.1 hs
  have halone : ∀ q ∈ before ++ after, q.position ≠ p.position := by
    intro q hq
    rcases List.mem_append.1 hq with hq | hq
    · exact (hbefore q hq p List.mem_cons_self).ne
    · exact ((List.pairwise_cons.1 hrest).1 q hq).ne'
  have hvalue := (passesThrough _).alone before p after rfl halone
  rwa [sortByPosition_of_sorted (sorted_iff.2 (hs.imp le_of_lt))] at hvalue

end

def reflected (c : Rat) (nodes : List (ControlPoint Rat V)) : List (ControlPoint Rat V) :=
  (nodes.map (.reposition (c - ·))).reverse

def Mirrored (l r : ControlPoint Rat V) : Prop :=
  l.value = r.value ∨ Segment.Opposite l.midpoint l.sharpness r.midpoint r.sharpness

/-- Where a position falls inside a segment, the two ends mirror each other. -/
def MirroredAt (nodes : List (ControlPoint Rat V)) (x : Rat) : Prop :=
  ∀ l r, [l, r] <:+: nodes → l.position < x → x < r.position → Mirrored l r

section

variable {c x : Rat} {nodes ps : List (ControlPoint Rat V)} {l r : ControlPoint Rat V}

theorem reflected_nil : reflected c ([] : List (ControlPoint Rat V)) = [] := rfl

theorem reflected_ascending (hs : Ascending nodes) : Ascending (reflected c nodes) := by
  refine List.pairwise_reverse.2 (List.pairwise_map.2 (hs.imp fun {p q} hlt => ?_))
  exact sub_lt_sub_left hlt c

theorem mem_reflected {p : ControlPoint Rat V} (h : p ∈ nodes) :
    p.reposition (c - ·) ∈ reflected c nodes :=
  List.mem_reverse.2 (List.mem_map_of_mem h)

theorem neighbours_reflected (h : [l, r] <:+: nodes) :
    [r.reposition (c - ·), l.reposition (c - ·)] <:+: reflected c nodes :=
  List.reverse_infix.2 (h.map (ControlPoint.reposition (c - ·)))

theorem apart_of_nodup (h : (ps.map (·.position)).Nodup) : Apart ps where
  number _ _ := rfl
  distinct := (List.pairwise_map.1 h).imp fun {_ _} hne => beq_false_of_ne hne

theorem sortByPosition_reflected (h : (ps.map (·.position)).Nodup) :
    sortByPosition (ps.map (.reposition (c - ·))) = reflected c (sortByPosition ps) := by
  have hpositions : (ps.map (ControlPoint.reposition (c - ·))).map (fun p => p.position) =
      (ps.map fun p => p.position).map (c - ·) := by
    rw [List.map_map, List.map_map]
    rfl
  have hmoved : ((ps.map (ControlPoint.reposition (c - ·))).map fun p => p.position).Nodup := by
    rw [hpositions]
    exact List.Nodup.map sub_right_injective h
  have hperm : (ps.map (ControlPoint.reposition (c - ·))).Perm (reflected c (sortByPosition ps)) :=
    ((sortByPosition_perm ps).symm.map _).trans (List.reverse_perm _).symm
  rw [(apart_of_nodup hmoved).sort_eq hperm]
  refine sortByPosition_of_sorted (sorted_iff.2 ?_)
  exact (reflected_ascending (sortByPosition_ascending h)).imp fun {_ _} hlt => hlt.le

variable [Channels Rat V]

theorem read_between_reflected (ch : Channel V) (h : l.position < r.position) :
    ch.read (between (r.reposition (c - ·)) (l.reposition (c - ·)) (c - x)) =
      mix (1 - Segment.weight r.midpoint r.sharpness
          (1 - (x - l.position) / (r.position - l.position)))
        (ch.read l.value) (ch.read r.value) := by
  have hfraction : (c - x - (c - r.position)) / (c - l.position - (c - r.position)) =
      1 - (x - l.position) / (r.position - l.position) := by
    have hspan : r.position - l.position ≠ 0 := (sub_pos.2 h).ne'
    rw [sub_sub_sub_cancel_left, sub_sub_sub_cancel_left]
    field_simp
    ring
  have hlt : (r.reposition (c - ·)).position < (l.reposition (c - ·)).position :=
    sub_lt_sub_left h c
  rw [read_between ch hlt, ← mix_flip]
  change mix (Segment.weight r.midpoint r.sharpness
    ((c - x - (c - r.position)) / (c - l.position - (c - r.position)))) _ _ = _
  rw [hfraction]
  rfl

variable [Channels.Readable V]

theorem between_reflected (h : Mirrored l r) (hl : l.position < x) (hr : x < r.position) :
    between (r.reposition (c - ·)) (l.reposition (c - ·)) (c - x) = between l r x := by
  have hlt := hl.trans hr
  have hspan := sub_pos.2 hlt
  refine Channels.Readable.eq_of_read fun ch => ?_
  rw [read_between_reflected ch hlt, read_between ch hlt]
  rcases h with hvalue | hshape
  · rw [hvalue]
    simp only [mix, sub_self, mul_zero]
  · have hcomplement := hshape.complement ((x - l.position) / (r.position - l.position))
      (div_pos (sub_pos.2 hl) hspan) ((div_lt_iff₀ hspan).2 (by linarith))
    rw [weightAt, ← eq_sub_of_add_eq hcomplement]

theorem mirrored_of_between (hlt : l.position < r.position)
    (h : ∀ x, l.position < x → x < r.position →
      between (r.reposition (c - ·)) (l.reposition (c - ·)) (c - x) = between l r x) :
    Mirrored l r := by
  by_cases hvalue : l.value = r.value
  · exact Or.inl hvalue
  -- A channel that differs at the ends shows the weights, and they agree from either end.
  · obtain ⟨ch, hread⟩ : ∃ ch : Channel V, ch.read l.value ≠ ch.read r.value := by
      by_contra hall
      exact hvalue (Channels.Readable.eq_of_read fun ch => not_not.1 fun hne => hall ⟨ch, hne⟩)
    have hspan := sub_pos.2 hlt
    refine Or.inr (Segment.opposite_iff.2 fun t ht ht' => ?_)
    have hx := h (l.position + t * (r.position - l.position))
      (lt_add_of_pos_right _ (mul_pos ht hspan)) (by nlinarith)
    have hchannel := congrArg ch.read hx
    rw [read_between_reflected ch hlt, read_between ch hlt, weightAt, add_sub_cancel_left,
      mul_div_cancel_right₀ _ hspan.ne'] at hchannel
    have hweights := mul_right_cancel₀ (sub_ne_zero.2 hread.symm) (add_left_cancel hchannel)
    linarith

theorem evaluate_reflected (hs : Ascending nodes) (hx : MirroredAt nodes x) :
    evaluate (reflected c nodes) (c - x) = evaluate nodes x := by
  rcases eq_or_ne nodes [] with rfl | hne
  · rw [reflected_nil, evaluate_nil, evaluate_nil]
  have hne' : reflected c nodes ≠ [] := by simpa [reflected] using hne
  have hs' : Ascending (reflected c nodes) := reflected_ascending hs
  have hmem : ∀ q ∈ reflected c nodes, ∃ p ∈ nodes, p.reposition (c - ·) = q := fun q hq =>
    List.mem_map.1 (List.mem_reverse.1 hq)
  rcases place_cases hs hne x with hbefore | hafter | ⟨p, hp, rfl⟩ | ⟨l, r, hpair, hl, hr⟩
  · have hafter : ∀ q ∈ reflected c nodes, q.position ≤ c - x := by
      rintro q hq
      obtain ⟨p, hp, rfl⟩ := hmem q hq
      exact sub_le_sub_left (hbefore p hp) c
    rw [evaluate_before hne hbefore, evaluate_after hs' hne' hafter]
    simp only [reflected, List.getLast_reverse, List.head_map, reposition]
  · have hbefore : ∀ q ∈ reflected c nodes, c - x ≤ q.position := by
      rintro q hq
      obtain ⟨p, hp, rfl⟩ := hmem q hq
      exact sub_le_sub_left (hafter p hp) c
    rw [evaluate_after hs hne hafter, evaluate_before hne' hbefore]
    simp only [reflected, List.head_reverse, List.getLast_map, reposition]
  · rw [evaluate_at hs hp]
    exact evaluate_at hs' (mem_reflected hp)
  · have hl' : (r.reposition (c - ·)).position < c - x := sub_lt_sub_left hr c
    have hr' : c - x < (l.reposition (c - ·)).position := sub_lt_sub_left hl c
    have hpair' := neighbours_reflected (c := c) hpair
    rw [evaluate_neighbours hs hpair hl hr, evaluate_neighbours hs' hpair' hl' hr',
      between_reflected (hx l r hpair hl hr) hl hr]

omit [Channels.Readable V] in
theorem evaluate_eq_of_getD {v : V} {y : Rat}
    (h : (evaluate (reflected c nodes) y).getD v = (evaluate nodes x).getD v) :
    evaluate (reflected c nodes) y = evaluate nodes x := by
  rcases eq_or_ne nodes [] with rfl | hne
  · rw [reflected_nil, evaluate_nil, evaluate_nil]
  have hne' : reflected c nodes ≠ [] := by simpa [reflected] using hne
  obtain ⟨v₁, hv₁, -⟩ := evaluate_takes hne (fun _ _ => rfl) (x := x) rfl
  obtain ⟨v₂, hv₂, -⟩ := evaluate_takes hne' (fun _ _ => rfl) (x := y) rfl
  rw [hv₁, hv₂] at h ⊢
  exact congrArg some h

theorem mirroredAt_of_evaluate (hs : Ascending nodes)
    (h : ∀ x, evaluate (reflected c nodes) (c - x) = evaluate nodes x) (x : Rat) :
    MirroredAt nodes x := by
  intro l r hpair _ _
  refine mirrored_of_between (c := c) (position_lt_of_neighbours hs hpair) fun y hl hr => ?_
  have hl' : (r.reposition (c - ·)).position < c - y := sub_lt_sub_left hr c
  have hr' : c - y < (l.reposition (c - ·)).position := sub_lt_sub_left hl c
  have hy := h y
  rw [evaluate_neighbours hs hpair hl hr,
    evaluate_neighbours (reflected_ascending hs) (neighbours_reflected hpair) hl' hr'] at hy
  exact Option.some.inj hy

end

end ControlPoint

namespace ColorMap

def MirroredAt (m : ColorMap Rat) (x : Rat) : Prop :=
  ControlPoint.MirroredAt m.sampler.colors x ∧
    (m.opacityMapping = true → ControlPoint.MirroredAt m.sampler.opacities x)

variable {m : ColorMap Rat} (hcolors : (m.points.map (·.position)).Nodup)
  (hopacities : (m.opacityPoints.map (·.position)).Nodup) (c : Rat)

include hcolors hopacities

theorem sampler_reflected :
    (m.repositioned (c - ·)).sampler =
      { colors := ControlPoint.reflected c m.sampler.colors
        opacities := ControlPoint.reflected c m.sampler.opacities
        opacityMapping := m.opacityMapping } := by
  simp only [sampler, points_repositioned, opacityPoints_repositioned,
    ControlPoint.sortByPosition_reflected hcolors, ControlPoint.sortByPosition_reflected hopacities]
  rfl

theorem valueAt_reflected {x : Rat} (h : m.MirroredAt x) :
    (m.repositioned (c - ·)).valueAt (c - x) = m.valueAt x := by
  have hcolor := ControlPoint.evaluate_reflected (c := c)
    (ControlPoint.sortByPosition_ascending hcolors) h.1
  change (m.repositioned (c - ·)).sampler.rgba (c - x) = m.sampler.rgba x
  rw [sampler_reflected hcolors hopacities]
  cases hmapping : m.opacityMapping with
  | false =>
    simp only [Sampler.rgba, Sampler.color, Sampler.opacity, sampler, hmapping] at hcolor ⊢
    rw [hcolor]
    rfl
  | true =>
    have hopacity := ControlPoint.evaluate_reflected (c := c)
      (ControlPoint.sortByPosition_ascending hopacities) (h.2 hmapping)
    simp only [Sampler.rgba, Sampler.color, Sampler.opacity, sampler, hmapping] at hcolor ⊢
    rw [hcolor, hopacity]

theorem mirroredAt_of_valueAt
    (h : ∀ x, (m.repositioned (c - ·)).valueAt (c - x) = m.valueAt x) (x : Rat) :
    m.MirroredAt x := by
  have hrgba (y : Rat) : (m.repositioned (c - ·)).sampler.rgba (c - y) = m.sampler.rgba y := h y
  rw [sampler_reflected hcolors hopacities] at hrgba
  constructor
  · refine ControlPoint.mirroredAt_of_evaluate (c := c)
      (ControlPoint.sortByPosition_ascending hcolors) (fun y => ?_) x
    refine ControlPoint.evaluate_eq_of_getD (v := ⟨0, 0, 0⟩) ?_
    obtain ⟨hr, hg, hb, -⟩ := Rgba.mk.inj (hrgba y)
    exact Rgb.eq_of_channels hr hg hb
  · intro hmapping
    refine ControlPoint.mirroredAt_of_evaluate (c := c)
      (ControlPoint.sortByPosition_ascending hopacities) (fun y => ?_) x
    refine ControlPoint.evaluate_eq_of_getD (v := 1) ?_
    obtain ⟨-, -, -, ha⟩ := Rgba.mk.inj (hrgba y)
    simpa only [Sampler.opacity, hmapping, sampler, if_true] using ha

end ColorMap

namespace TransferFunction

theorem retimed_inverted {source : Range Rat} (h : source.min < source.max) (a b x : Rat) :
    retimed source a b x = retimed source b a (source.min + source.max - x) := by
  have hwidth : source.max - source.min ≠ 0 := (sub_pos.2 h).ne'
  rw [Rescaling.retimed_eq, Rescaling.retimed_eq]
  field_simp
  ring

theorem valueAt_moved_inverted {f : TransferFunction Rat} (h : f.range.min < f.range.max)
    {a b : Rat} (hab : b < a) (x : Rat) :
    let c := f.range.min + f.range.max
    (f.moved (retimed f.range a b)).valueAt (retimed f.range a b x) =
      (f.toColorMap.repositioned (c - ·)).valueAt (c - x) := by
  intro c
  let s := Rescaling.between f.range ⟨b, a⟩ h hab
  have hmove : retimed f.range a b = s.apply ∘ (c - ·) := by
    funext y
    rw [Rescaling.apply_between]
    exact retimed_inverted h a b y
  rw [toColorMap_moved, hmove, ← ColorMap.repositioned_repositioned]
  exact s.valueAt_apply _ (c - x)

/-- A function whose colors have a width can be retimed onto every inverted window. If the points
of each of its curves lie apart, the mirror image of a place then shows what the place did, unless
the place is inside a segment of a curve that shows and the ends of that segment do not mirror each
other: they do if they have equal values, or midpoints that add up to one and equal blends that are
no steps. All places are mirrored if and only if the ends of all segments mirror each other. -/
theorem remapInPlace_mirrors (f : TransferFunction Rat) (h : f.range.min < f.range.max)
    (hcolors : (f.points.map (·.position)).Nodup)
    (hopacities : (f.opacityPoints.map (·.position)).Nodup) (a b : Rat) (hab : b < a) :
    let mirror (x : Rat) := a + (x - f.range.min) / (f.range.max - f.range.min) * (b - a)
    ∃ g, f.remapInPlace a b = .done g ∧
      (∀ x, f.MirroredAt x → g.valueAt (mirror x) = f.valueAt x) ∧
      ((∀ x, g.valueAt (mirror x) = f.valueAt x) ↔ ∀ x, f.MirroredAt x) := by
  intro mirror
  let c := f.range.min + f.range.max
  have hvalue (x : Rat) : (f.moved (retimed f.range a b)).valueAt (mirror x) =
      (f.toColorMap.repositioned (c - ·)).valueAt (c - x) := valueAt_moved_inverted h hab x
  refine ⟨f.moved (retimed f.range a b), remapInPlace_of_width h a b, ?_, ?_, ?_⟩
  · intro x hx
    rw [hvalue]
    exact ColorMap.valueAt_reflected hcolors hopacities c hx
  · intro hall
    refine ColorMap.mirroredAt_of_valueAt hcolors hopacities c fun x => ?_
    rw [← hvalue]
    exact hall x
  · intro hall x
    rw [hvalue]
    exact ColorMap.valueAt_reflected hcolors hopacities c (hall x)

def evenPlateau : TransferFunction Rat :=
  (ofPoints [⟨0, ⟨0, 0, 0⟩, 0.25, 0.5⟩, ⟨2, ⟨1, 1, 1⟩, 0.9, 1⟩,
    ⟨1, ⟨1, 1, 1⟩, 0.75, 0.5⟩]).withOpacity (.ramp (-1) 0 5 1)

theorem evenPlateau_mirrored :
    evenPlateau.range.min < evenPlateau.range.max ∧
      (evenPlateau.points.map (·.position)).Nodup ∧
      (evenPlateau.opacityPoints.map (·.position)).Nodup ∧ (-1 : Rat) < 3 ∧
      let mirror (x : Rat) := 3 + (x - evenPlateau.range.min) /
        (evenPlateau.range.max - evenPlateau.range.min) * (-1 - 3)
      ∃ g, evenPlateau.remapInPlace 3 (-1) = .done g ∧
        (∀ x, evenPlateau.MirroredAt x → g.valueAt (mirror x) = evenPlateau.valueAt x) ∧
        ((∀ x, g.valueAt (mirror x) = evenPlateau.valueAt x) ↔
          ∀ x, evenPlateau.MirroredAt x) := by
  have hrange : evenPlateau.range.min < evenPlateau.range.max := by decide +kernel
  have hcolors : (evenPlateau.points.map (·.position)).Nodup := by decide +kernel
  have hopacities : (evenPlateau.opacityPoints.map (·.position)).Nodup := by decide +kernel
  have hwindow : (-1 : Rat) < 3 := by decide +kernel
  exact ⟨hrange, hcolors, hopacities, hwindow,
    remapInPlace_mirrors evenPlateau hrange hcolors hopacities 3 (-1) hwindow⟩

def leaningRamp : TransferFunction Rat :=
  ofPoints [⟨0, ⟨0, 0, 0⟩, 0.25, 0⟩, .plain 1 ⟨1, 1, 1⟩]

/-- Turned around, the ramp is no longer half white there: the shape of the segment is now that of
the white point. -/
theorem leaningRamp_not_mirrored :
    ¬∀ f : TransferFunction Rat, f.range.min < f.range.max → (f.points.map (·.position)).Nodup →
      (f.opacityPoints.map (·.position)).Nodup → ∀ a b, b < a →
      ∃ g, f.remapInPlace a b = .done g ∧
        ∀ x, g.valueAt (a + (x - f.range.min) / (f.range.max - f.range.min) * (b - a)) =
          f.valueAt x := by
  intro hall
  have hrange : leaningRamp.range.min < leaningRamp.range.max := by decide +kernel
  obtain ⟨g, hg, hvalue⟩ :=
    hall leaningRamp hrange (by decide +kernel) (by decide +kernel) 1 0 (by decide +kernel)
  have hmoved : (leaningRamp.remapInPlace 1 0).state = g := congrArg Attempt.state hg
  have hquarter := hvalue (1 / 4)
  rw [← hmoved] at hquarter
  exact absurd hquarter (by decide +kernel)

end TransferFunction

end TransferCurves
