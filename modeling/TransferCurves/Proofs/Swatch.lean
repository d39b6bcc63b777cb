import TransferCurves.PresetCatalog
import TransferCurves.Proofs.Hull
import TransferCurves.Proofs.TableAccuracy

/-!
# Swatches

A swatch lays the entries of a table over the background. Over the exact rationals the opacity of an
entry lies between zero and one if all opacities of the preset do, so a channel of a pixel mixes the
background and the entry. Holding a number between zero and one, scaling it and rounding it keep the
order, so the byte of the mixture lies between the bytes of the two, whatever these are.
-/

namespace TransferCurves

open scoped Scalar

namespace Rgba8

def byteOf (x : Rat) : Nat := ⌊max 0 (min x 1) * 255 + 1 / 2⌋₊

theorem byteOf_mono : Monotone byteOf := by
  intro x y h
  have hheld : max 0 (min x 1) ≤ max 0 (min y 1) := max_le_max le_rfl (min_le_min h le_rfl)
  exact Nat.floor_le_floor (by linarith)

theorem byteOf_le (x : Rat) : byteOf x ≤ 255 := by
  have hheld : max 0 (min x 1) ≤ 1 := max_le zero_le_one (min_le_right x 1)
  refine Nat.lt_succ_iff.1 ((Nat.floor_lt' (by norm_num)).2 ?_)
  push_cast
  linarith

theorem toNat_encode (x : Rat) : (encode x).toNat = byteOf x := by
  have hnearest : nearestNat (max 0 (min x 1) * 255) = byteOf x :=
    Int.floor_toNat (max 0 (min x 1) * 255 + 1 / 2)
  have hencode : encode x = .ofNatClamp (byteOf x) := by
    rw [← hnearest, ← Scalar.clamp_eq zero_le_one]
    rfl
  rw [hencode, UInt8.toNat_ofNatClamp_of_lt (Nat.lt_succ_of_le (byteOf_le x))]

theorem byteOf_mix {w : Rat} (hw : 0 ≤ w) (hw' : w ≤ 1) (a b : Rat) :
    min (byteOf a) (byteOf b) ≤ byteOf (mix w a b) ∧
      byteOf (mix w a b) ≤ max (byteOf a) (byteOf b) := by
  obtain ⟨hlow, hhigh⟩ := mix_between hw hw' a b
  rw [← byteOf_mono.map_min, ← byteOf_mono.map_max]
  exact ⟨byteOf_mono hlow, byteOf_mono hhigh⟩

end Rgba8

structure ShownChannel (opacity back front : Rat) (byte : UInt8) : Prop where
  between : min (Rgba8.byteOf back) (Rgba8.byteOf front) ≤ byte.toNat ∧
    byte.toNat ≤ max (Rgba8.byteOf back) (Rgba8.byteOf front)
  transparent : opacity = 0 → byte.toNat = Rgba8.byteOf back
  covering : opacity = 1 → byte.toNat = Rgba8.byteOf front

/-- A pixel that shows a color in front of a background and lets nothing through. -/
structure Rgba8.LaidOn (back front : Rgba Rat) (pixel : Rgba8) : Prop where
  red : ShownChannel front.a back.r front.r pixel.r
  green : ShownChannel front.a back.g front.g pixel.g
  blue : ShownChannel front.a back.b front.b pixel.b
  alpha : pixel.a = 255

theorem shownChannel_encode {opacity : Rat} (h : 0 ≤ opacity) (h' : opacity ≤ 1) (back front : Rat) :
    ShownChannel opacity back front (Rgba8.encode (opacity * front + (1 - opacity) * back)) := by
  have hbyte : (Rgba8.encode (opacity * front + (1 - opacity) * back)).toNat =
      Rgba8.byteOf (mix opacity back front) := by
    rw [Rgba8.toNat_encode, mix]
    congr 1
    ring
  refine ⟨?_, fun hzero => ?_, fun hone => ?_⟩
  · rw [hbyte]
    exact Rgba8.byteOf_mix h h' back front
  · rw [hbyte, hzero, mix, zero_mul, add_zero]
  · rw [hbyte, hone, mix, one_mul, add_sub_cancel]

theorem PresetCatalog.composite_laidOn {c : Rgba Rat} (h : 0 ≤ c.a) (h' : c.a ≤ 1)
    (background : Rgba Rat) : Rgba8.LaidOn background c (composite background c) :=
  ⟨shownChannel_encode h h' _ _, shownChannel_encode h h' _ _, shownChannel_encode h h' _ _, rfl⟩

namespace ColorMap

variable {m : ColorMap Rat}

theorem opacity_of_no_points (h : m.opacityPoints = []) (x : Rat) : m.sampler.opacity x = 1 := by
  have hevaluate : ControlPoint.evaluate m.sampler.opacities x = none := by
    rw [sampler, h]
    exact ControlPoint.evaluate_nil x
  rw [Sampler.opacity, hevaluate, Option.getD_none, ite_self]

theorem opacity_mem_unit (h : ∀ p ∈ m.opacityPoints, 0 ≤ p.value ∧ p.value ≤ 1) (x : Rat) :
    0 ≤ m.sampler.opacity x ∧ m.sampler.opacity x ≤ 1 := by
  cases hmapping : m.opacityMapping with
  | false =>
    rw [opacity_of_unmapped hmapping]
    exact ⟨zero_le_one, le_rfl⟩
  | true =>
    rcases eq_or_ne m.opacityPoints [] with hnil | hne
    · rw [opacity_of_no_points hnil]
      exact ⟨zero_le_one, le_rfl⟩
    · obtain ⟨a, ha, b, hb, hlow, hhigh⟩ := opacity_within hmapping hne x
      obtain ⟨p, hp, rfl⟩ := List.mem_map.1 ha
      obtain ⟨q, hq, rfl⟩ := List.mem_map.1 hb
      exact ⟨(h p hp).1.trans hlow, hhigh.trans (h q hq).2⟩

end ColorMap

namespace PresetCatalog

/-- Every preset whose opacities lie between zero and one has a swatch: as many pixels as the
configured width, two at least, and each of them shows the entry of the table at its place in front
of the background. -/
theorem swatch_laidOn (k : PresetCatalog Rat) {index : Nat} {f : TransferFunction Rat}
    (hpreset : k.get? index = some f)
    (hopacities : ∀ p ∈ f.opacityPoints, 0 ≤ p.value ∧ p.value ≤ 1) :
    ∃ pixels, k.swatch? index = some pixels ∧
      pixels.length = max k.config.paletteWidth 2 ∧
      List.Forall₂ (Rgba8.LaidOn k.config.background)
        (LookupTable.build f.toColorMap (max k.config.paletteWidth 2)).entries pixels := by
  refine ⟨_, Option.map_eq_some_iff.2 ⟨f, hpreset, rfl⟩, ?_, ?_⟩
  · rw [List.length_map]
    exact (LookupTable.size_build _ _).trans (max_eq_left (le_max_right _ 2))
  · refine List.forall₂_map_right_iff.2 (List.forall₂_same.2 fun c hc => ?_)
    obtain ⟨i, -, rfl⟩ := List.mem_map.1 hc
    obtain ⟨hlow, hhigh⟩ := ColorMap.opacity_mem_unit hopacities
      (f.range.denormalize (LookupTable.sampleFraction f.toColorMap
        (max (max k.config.paletteWidth 2) 2) i))
    exact composite_laidOn hlow hhigh _

def glaringColors : TransferFunction Rat :=
  (TransferFunction.ofPoints [⟨2, ⟨-7, 4, 0.25⟩, 7, -4⟩, ⟨0, ⟨5, 0, -1⟩, -2, 0.5⟩]).withOpacity
    ⟨[⟨0, 0, 0.5, 0.5⟩, ⟨2, 1, 0.5, 0⟩]⟩

def glaringConfig : EditorConfig Rat :=
  { EditorConfig.standard with background := ⟨-1, 0.5, 3, 0⟩, paletteWidth := 0 }

def glaringCatalog : PresetCatalog Rat := (empty glaringConfig).add "Glaring" glaringColors

theorem glaringCatalog_laidOn :
    ∃ f, glaringCatalog.get? 1 = some f ∧ (∀ p ∈ f.opacityPoints, 0 ≤ p.value ∧ p.value ≤ 1) ∧
      ∃ pixels, glaringCatalog.swatch? 1 = some pixels ∧
        pixels.length = max glaringCatalog.config.paletteWidth 2 ∧
        List.Forall₂ (Rgba8.LaidOn glaringCatalog.config.background)
          (LookupTable.build f.toColorMap (max glaringCatalog.config.paletteWidth 2)).entries
          pixels := by
  have hpreset : glaringCatalog.get? 1 = some (glaringColors.promote glaringConfig) := rfl
  have hopacities : ∀ p ∈ (glaringColors.promote glaringConfig).opacityPoints,
      0 ≤ p.value ∧ p.value ≤ 1 := by decide +kernel
  exact ⟨_, hpreset, hopacities, glaringCatalog.swatch_laidOn hpreset hopacities⟩

end PresetCatalog

end TransferCurves
