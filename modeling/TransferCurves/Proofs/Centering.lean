import TransferCurves.Proofs.MarkerWindow
import TransferCurves.Proofs.RepeatedRetiming

/-!
# Sliding the window

Centering sets the range like typed bounds do, so it is held inside the data and refused if nothing
is left of it. Over the exact rationals neither happens: the middle is held so far inside the data
that the window fits around it. Where the window comes to stand depends on its width only, and the
width stays. So of many slides only the last one counts, for the markers and for the function that
follows them.
-/

namespace TransferCurves

open scoped Scalar

open TransferFunction (retimed)

namespace RangeController

theorem range_clamp_eq (r : Range Rat) (x : Rat) : r.clamp x = max (min x r.max) r.min := by
  rw [Range.clamp, Scalar.max_eq, Scalar.min_eq]

theorem range_clamp_of_inside {r : Range Rat} {x : Rat} (hmin : r.min ≤ x) (hmax : x ≤ r.max) :
    r.clamp x = x := by
  rw [range_clamp_eq, min_eq_left hmax, max_eq_left hmin]

theorem width_eq (r : Range Rat) : r.width = r.max - r.min := rfl

/-- The middle of the window that is centered on a place as far as the data allows. -/
def middle (c : RangeController Rat) (place : Rat) : Rat :=
  max (c.dataRange.min + c.currentRange.width / 2)
    (min place (c.dataRange.max - c.currentRange.width / 2))

def slid (c : RangeController Rat) (place : Rat) : Range Rat :=
  ⟨c.middle place - c.currentRange.width / 2, c.middle place + c.currentRange.width / 2⟩

structure Slidable (c : RangeController Rat) : Prop where
  wide : 0 < c.currentRange.width
  fits : c.currentRange.width ≤ c.dataRange.width

variable {c d : RangeController Rat}

theorem width_slid (c : RangeController Rat) (place : Rat) :
    (c.slid place).width = c.currentRange.width := by
  rw [width_eq, slid]
  ring

theorem middle_slid (c : RangeController Rat) (place : Rat) :
    ((c.slid place).min + (c.slid place).max) / 2 = c.middle place := by
  rw [slid]
  ring

theorem slid_ordered (h : c.Slidable) (place : Rat) : (c.slid place).min < (c.slid place).max := by
  have hwide := h.wide
  rwa [← c.width_slid place, width_eq, sub_pos] at hwide

theorem le_min_slid (c : RangeController Rat) (place : Rat) :
    c.dataRange.min ≤ (c.slid place).min :=
  le_sub_iff_add_le.2 (le_max_left _ _)

theorem max_slid_le (h : c.Slidable) (place : Rat) : (c.slid place).max ≤ c.dataRange.max := by
  have hfits := h.fits
  rw [width_eq c.dataRange] at hfits
  refine le_sub_iff_add_le.1 (max_le ?_ (min_le_right _ _))
  linarith

theorem slid_holds (h : c.Slidable) (place : Rat) :
    c.dataRange.min ≤ (c.slid place).max ∧ (c.slid place).min ≤ c.dataRange.max :=
  ⟨(c.le_min_slid place).trans (slid_ordered h place).le,
    (slid_ordered h place).le.trans (max_slid_le h place)⟩

theorem centerRange_eq (h : c.Slidable) (place : Rat) (f : Option (TransferFunction Rat)) :
    c.centerRange place f = c.commit (c.slid place) f := by
  let half := c.currentRange.width / 2
  have hmiddle : (⟨c.dataRange.min + half, c.dataRange.max - half⟩ : Range Rat).clamp place =
      c.middle place := by
    rw [range_clamp_eq, max_comm]
    rfl
  have hmax : c.middle place - half + 2 * half = (c.slid place).max := by
    rw [slid]
    ring
  have hproposed : c.proposed (c.slid place).min (c.slid place).max = c.slid place := by
    rw [proposed, range_clamp_of_inside (c.le_min_slid place) (slid_holds h place).2,
      range_clamp_of_inside (slid_holds h place).1 (max_slid_le h place)]
    exact if_pos (slid_ordered h place)
  have hcenter : c.centerRange place f = c.commit (c.proposed
      ((⟨c.dataRange.min + half, c.dataRange.max - half⟩ : Range Rat).clamp place - half)
      ((⟨c.dataRange.min + half, c.dataRange.max - half⟩ : Range Rat).clamp place - half +
        2 * half)) f := rfl
  rw [hcenter, hmiddle, hmax]
  exact congrArg (fun r => c.commit r f) hproposed

end RangeController

namespace ColorMap

theorem repositioned_of_no_points {m : ColorMap Rat} (h : ¬m.HasPoints) (move : Rat → Rat) :
    m.repositioned move = m.repositioned id := by
  obtain ⟨hpoints, hopacities⟩ := not_or.1 h
  simp only [repositioned, not_not.1 hpoints, not_not.1 hopacities, List.map_nil]

end ColorMap

namespace TransferFunction

/-- Wherever `f` can be retimed to, `g` can be retimed to as well, and then has the same map. -/
structure Stands (f g : TransferFunction Rat) : Prop where
  follows : g.checkSource g.range = .ok ()
  map : ∀ a b, g.toColorMap.repositioned (retimed g.range a b) =
    f.toColorMap.repositioned (retimed f.range a b)

variable {f g : TransferFunction Rat}

theorem Stands.refl (h : f.checkSource f.range = .ok ()) : f.Stands f := ⟨h, fun _ _ => rfl⟩

theorem Stands.trans {k : TransferFunction Rat} (h : f.Stands g) (h' : g.Stands k) : f.Stands k :=
  ⟨h'.follows, fun a b => (h'.map a b).trans (h.map a b)⟩

theorem range_lt_of_checkSource (h : f.checkSource f.range = .ok ()) (hpoints : f.HasPoints) :
    f.range.min < f.range.max := by
  have hdegenerate := (Range.checkNormalizable_eq_ok_iff.1 (checkSource_eq_ok_iff.1 h hpoints)).2
  have hne : f.range.max ≠ f.range.min := ne_of_beq_false hdegenerate
  have hle : f.range.min ≤ f.range.max := Range.ofPositions_ordered rfl
  exact hle.lt_of_ne hne.symm

theorem stands_moved (h : f.checkSource f.range = .ok ()) {a b : Rat} (hab : a < b) :
    f.Stands (f.moved (retimed f.range a b)) := by
  by_cases hpoints : f.HasPoints
  · have hwidth := range_lt_of_checkSource h hpoints
    refine ⟨checkSource_of_width (moved_moved hwidth hab.ne 0 0).1, fun c d => ?_⟩
    have hmap := (moved_moved hwidth hab.ne c d).2
    rwa [if_pos hab] at hmap
  · have hmoved : ¬(f.moved (retimed f.range a b)).HasPoints := by
      simpa [ColorMap.HasPoints, toColorMap_moved] using hpoints
    refine ⟨checkSource_eq_ok_iff.2 fun hsome => absurd hsome hmoved, fun c d => ?_⟩
    rw [ColorMap.repositioned_of_no_points hmoved, toColorMap_moved,
      ColorMap.repositioned_repositioned, ColorMap.repositioned_of_no_points hpoints,
      ColorMap.repositioned_of_no_points hpoints (retimed f.range c d)]

theorem stands_notify (h : f.checkSource f.range = .ok ()) (event : CurveEvent Rat) :
    f.Stands (f.notify event) :=
  ⟨h, fun _ _ => rfl⟩

end TransferFunction

namespace RangeController

variable {c d : RangeController Rat} {f g : TransferFunction Rat}

theorem verdict_commit (c : RangeController Rat) (r : Range Rat) (f : TransferFunction Rat) :
    (c.commit r (some f)).verdict = f.checkSource f.range := by
  have hverdict : (f.remapInPlace r.min r.max).verdict = f.checkSource f.range :=
    f.verdict_remapInPlace r.min r.max
  rw [commit]
  cases hretiming : (f.remapInPlace r.min r.max).verdict with
  | error e => exact hretiming.symm.trans hverdict
  | ok _ => exact hretiming.symm.trans hverdict

theorem verdict_centerRange (h : c.Slidable) (place : Rat) (f : TransferFunction Rat) :
    (c.centerRange place (some f)).verdict = f.checkSource f.range := by
  rw [centerRange_eq h, verdict_commit]

def followed (f : TransferFunction Rat) (r : Range Rat) : TransferFunction Rat :=
  (f.moved (retimed f.range r.min r.max)).notify (.rangeChanged r.min r.max)

theorem commit_of_accepted {r : Range Rat} {f : Option (TransferFunction Rat)}
    (h : f = none ∨ (c.commit r f).verdict = .ok ()) :
    c.commit r f = .done ({ c with currentRange := r }, f.map (followed · r)) := by
  cases f with
  | none => rfl
  | some f =>
    have hsource : f.checkSource f.range = .ok () := by
      rw [← c.verdict_commit r f]
      exact h.resolve_left nofun
    exact commit_of_done (TransferFunction.remapInPlace_done
      (TransferFunction.checkTransfer_eq_ok_iff.2 ⟨rfl, hsource⟩))

theorem stands_followed (h : f.checkSource f.range = .ok ()) {r : Range Rat} (hr : r.min < r.max) :
    f.Stands (followed f r) := by
  have hmoved := TransferFunction.stands_moved h hr
  exact hmoved.trans (TransferFunction.stands_notify hmoved.follows _)

theorem toColorMap_followed (h : f.Stands g) (r : Range Rat) :
    (followed g r).toColorMap = (followed f r).toColorMap :=
  h.map r.min r.max

/-- The controllers differ at most in where their windows of one width stand. -/
def SlidFrom (c d : RangeController Rat) : Prop :=
  ∃ r : Range Rat, d = { c with currentRange := r } ∧ r.width = c.currentRange.width

namespace SlidFrom

theorem refl (c : RangeController Rat) : c.SlidFrom c := ⟨c.currentRange, rfl, rfl⟩

theorem slidable (h : c.SlidFrom d) (hc : c.Slidable) : d.Slidable := by
  obtain ⟨r, rfl, hr⟩ := h
  exact ⟨hr.symm ▸ hc.wide, hr.symm ▸ hc.fits⟩

theorem slid_eq (h : c.SlidFrom d) (place : Rat) :
    ({ d with currentRange := d.slid place } : RangeController Rat) =
      { c with currentRange := c.slid place } := by
  obtain ⟨r, rfl, hr⟩ := h
  simp only [slid, middle, hr]

theorem slide (h : c.SlidFrom d) (place : Rat) :
    c.SlidFrom { d with currentRange := d.slid place } := by
  rw [h.slid_eq place]
  exact ⟨c.slid place, rfl, c.width_slid place⟩

theorem centerRange_accepted (h : c.SlidFrom d) (hc : c.Slidable) {place : Rat}
    {f : Option (TransferFunction Rat)}
    (hf : f = none ∨ (d.centerRange place f).verdict = .ok ()) :
    d.centerRange place f =
      .done ({ c with currentRange := c.slid place }, f.map (followed · (c.slid place))) := by
  have hslid : d.slid place = c.slid place := congrArg currentRange (h.slid_eq place)
  rw [centerRange_eq (h.slidable hc)] at hf ⊢
  rw [commit_of_accepted hf, h.slid_eq place, hslid]

theorem run (h : c.SlidFrom d) (hc : c.Slidable)
    (calls : List (Rat × Option (TransferFunction Rat))) :
    c.SlidFrom (Call.run d (calls.map fun call => .gesture (.center call.1) call.2)) := by
  induction calls generalizing d with
  | nil => exact h
  | cons call calls ih =>
    refine ih ?_
    change c.SlidFrom (d.centerRange call.1 call.2).state.1
    rw [centerRange_eq (h.slidable hc)]
    -- A function that cannot follow leaves the window where it was.
    rcases d.commit_controller (d.slid call.1) call.2 with hkept | hset
    · rwa [hkept]
    · rw [hset]
      exact h.slide call.1

theorem centerRange_following (h : c.SlidFrom d) (hc : c.Slidable)
    (hf : f.checkSource f.range = .ok ()) (place : Rat) :
    d.centerRange place (some f) =
      .done ({ c with currentRange := c.slid place }, some (followed f (c.slid place))) := by
  refine h.centerRange_accepted hc (.inr ?_)
  rw [verdict_centerRange (h.slidable hc), hf]

theorem run_following (h : c.SlidFrom d) (hc : c.Slidable) (hg : f.Stands g) (places : List Rat) :
    ∃ d' g', Gesture.run (d, some g) (places.map .center) = (d', some g') ∧ c.SlidFrom d' ∧
      f.Stands g' := by
  induction places generalizing d g with
  | nil => exact ⟨d, g, rfl, h, hg⟩
  | cons place places ih =>
    have hslide := (refl c).slide place
    have hfollowed := stands_followed hg.follows (slid_ordered hc place)
    obtain ⟨d', g', hrun, hd', hg'⟩ := ih hslide (hg.trans hfollowed)
    refine ⟨d', g', ?_, hd', hg'⟩
    rw [List.map_cons, Gesture.run, Gesture.perform, h.centerRange_following hc hg.follows]
    exact hrun

theorem centerRange_after_run (h : c.SlidFrom d) (hc : c.Slidable)
    (hf : f.checkSource f.range = .ok ()) (places : List Rat) (place : Rat) :
    ∃ g, (Gesture.run (d, some f) (places.map .center)).1.centerRange place
          (Gesture.run (d, some f) (places.map .center)).2 =
        .done ({ c with currentRange := c.slid place }, some g) ∧
      g.toColorMap = (followed f (c.slid place)).toColorMap := by
  obtain ⟨d', g, hrun, hd, hg⟩ := h.run_following hc (.refl hf) places
  rw [hrun]
  exact ⟨_, hd.centerRange_following hc hg.follows place, toColorMap_followed hg _⟩

end SlidFrom

theorem centerRange_again (hc : c.Slidable) {place : Rat} {f : Option (TransferFunction Rat)}
    (hf : f = none ∨ (c.centerRange place f).verdict = .ok ()) :
    ∃ f', centerRange { c with currentRange := c.slid place } place
          (f.map (followed · (c.slid place))) =
        .done ({ c with currentRange := c.slid place }, f') ∧
      f'.map (·.toColorMap) = (f.map (followed · (c.slid place))).map (·.toColorMap) := by
  have hslide := (SlidFrom.refl c).slide place
  cases f with
  | none => exact ⟨none, hslide.centerRange_accepted hc (.inl rfl), rfl⟩
  | some f =>
    have hsource := (verdict_centerRange hc place f).symm.trans (hf.resolve_left nofun)
    have hstands := stands_followed hsource (slid_ordered hc place)
    exact ⟨_, hslide.centerRange_following hc hstands.follows place,
      congrArg some (toColorMap_followed hstands _)⟩

/-- A window inside the data that is centered somewhere, without a function or with one that can follow,
keeps its width and stays inside the data, with its middle at the place asked for or as near to it
as the data allows. Asked for once more, nothing moves: the controller is the same, and so are the
curves of the function. After any calls that center the window, with any functions, the next one
brings the controller where it would have come without them; it does so, too, for the curves of a
function that took part in all of them. -/
theorem centerRange_decides_window (c : RangeController Rat)
    (hlower : c.dataRange.min ≤ c.currentRange.min)
    (hwide : c.currentRange.min < c.currentRange.max)
    (hupper : c.currentRange.max ≤ c.dataRange.max) :
    let data := c.dataRange
    let w := c.currentRange.max - c.currentRange.min
    (∀ place f, f = none ∨ (c.centerRange place f).verdict = .ok () →
      ∃ r f', c.centerRange place f = .done ({ c with currentRange := r }, f') ∧
        r.max - r.min = w ∧ data.min ≤ r.min ∧ r.max ≤ data.max ∧
        (r.min + r.max) / 2 = max (data.min + w / 2) (min place (data.max - w / 2)) ∧
        ∃ f'', centerRange { c with currentRange := r } place f' =
            .done ({ c with currentRange := r }, f'') ∧
          f''.map (·.toColorMap) = f'.map (·.toColorMap)) ∧
      (∀ (calls : List (Rat × Option (TransferFunction Rat))) place f g,
        let d := Call.run c (calls.map fun call => .gesture (.center call.1) call.2)
        f = none ∨ (d.centerRange place f).verdict = .ok () →
          g = none ∨ (c.centerRange place g).verdict = .ok () →
            (d.centerRange place f).state.1 = (c.centerRange place g).state.1) ∧
      ∀ (places : List Rat) place f, (c.centerRange place (some f)).verdict = .ok () →
        let s := Gesture.run (c, some f) (places.map .center)
        let last := s.1.centerRange place s.2
        let alone := c.centerRange place (some f)
        last.verdict = .ok () ∧ last.state.1 = alone.state.1 ∧
          last.state.2.map (·.toColorMap) = alone.state.2.map (·.toColorMap) := by
  intro data w
  have hc : c.Slidable := by
    refine ⟨sub_pos.2 hwide, ?_⟩
    rw [width_eq, width_eq]
    linarith
  have hself := SlidFrom.refl c
  refine ⟨?_, ?_, ?_⟩
  · intro place f hf
    exact ⟨c.slid place, _, hself.centerRange_accepted hc hf, c.width_slid place,
      c.le_min_slid place, max_slid_le hc place, c.middle_slid place, centerRange_again hc hf⟩
  · intro calls place f g d hf hg
    rw [(hself.run hc calls).centerRange_accepted hc hf, hself.centerRange_accepted hc hg]
    rfl
  · intro places place f hf s last alone
    have hsource := (verdict_centerRange hc place f).symm.trans hf
    have halone := hself.centerRange_following hc hsource place
    obtain ⟨g, hlast, hcurves⟩ := hself.centerRange_after_run hc hsource places place
    dsimp only [last, s, alone]
    rw [hlast, halone]
    exact ⟨rfl, rfl, congrArg some hcurves⟩

theorem overshotSlide_decides_window :
    let c : RangeController Rat :=
      { (RangeController.ofConfig .standard).attach ⟨0, 10⟩ with currentRange := ⟨1, 4⟩ }
    let f := TransferFunction.crossedColors
    let calls : List (Rat × Option (TransferFunction Rat)) :=
      [(-5, none), (3, some (.ofPoints [.plain 3 ⟨0, 0, 0⟩]))]
    let d := Call.run c (calls.map fun call => .gesture (.center call.1) call.2)
    c.dataRange.min ≤ c.currentRange.min ∧ c.currentRange.min < c.currentRange.max ∧
      c.currentRange.max ≤ c.dataRange.max ∧ (c.centerRange 100 (some f)).verdict = .ok () ∧
      (∃ r f', c.centerRange 100 (some f) = .done ({ c with currentRange := r }, f') ∧
        r.max - r.min = 4 - 1 ∧ 0 ≤ r.min ∧ r.max ≤ 10 ∧
        (r.min + r.max) / 2 = max (0 + (4 - 1) / 2) (min 100 (10 - (4 - 1) / 2))) ∧
      (d.centerRange 100 none).state.1 = (c.centerRange 100 (some f)).state.1 := by
  intro c f calls d
  have hlower : c.dataRange.min ≤ c.currentRange.min := by decide
  have hwide : c.currentRange.min < c.currentRange.max := by decide
  have hupper : c.currentRange.max ≤ c.dataRange.max := by decide
  have hok : (c.centerRange 100 (some f)).verdict = .ok () := by decide +kernel
  obtain ⟨hslide, hlast, -⟩ := c.centerRange_decides_window hlower hwide hupper
  obtain ⟨r, f', hdone, hwidth, hmin, hmax, hmiddle, -⟩ := hslide 100 (some f) (.inr hok)
  exact ⟨hlower, hwide, hupper, hok, ⟨r, f', hdone, hwidth, hmin, hmax, hmiddle⟩,
    hlast calls 100 none (some f) (.inl rfl) (.inr hok)⟩

end RangeController

end TransferCurves
