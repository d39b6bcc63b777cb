import TransferCurves.Overrides
import TransferCurves.Proofs.Binary64Order
import TransferCurves.Proofs.StoredFunction

/-!
# Stored configurations

What is stored of a configuration names every field, so nothing of the base that it is read over, and
none of the settings given from outside, shows in what is read back. A number that is not finite has
no form in JSON, and one such number is enough for the text not to be read. Acceptance rules it out
for the catch width, the empty range and, unless the ceiling is infinite, for the floor; it lets an
infinite ceiling through, and anything for the opacity ramp and the background.
-/

namespace TransferCurves

open scoped Scalar

section

variable {α : Type}

def Range.numbers (r : Range α) : List α := [r.min, r.max]

def OpacityRamp.numbers (r : OpacityRamp α) : List α := [r.x₀, r.a₀, r.x₁, r.a₁]

def EditorConfig.numbers (c : EditorConfig α) : List α :=
  [c.catchWidth, c.transparencyFloor, c.transparencyCeiling] ++
    (c.opacityRamp.numbers ++ (c.emptyRange.numbers ++ c.background.numbers))

/-- The numbers that may be infinite, or no number, in an accepted configuration with a finite
floor. -/
def EditorConfig.unguarded (c : EditorConfig α) : List α :=
  c.transparencyCeiling :: (c.opacityRamp.numbers ++ c.background.numbers)

theorem EditorConfig.forall_numbers_iff {c : EditorConfig α} {p : α → Prop} :
    (∀ x ∈ c.numbers, p x) ↔
      (p c.catchWidth ∧ p c.transparencyFloor ∧ p c.emptyRange.min ∧ p c.emptyRange.max) ∧
        ∀ x ∈ c.unguarded, p x := by
  simp only [numbers, unguarded, Range.numbers, List.forall_mem_append, List.forall_mem_cons]
  tauto

end

theorem EditorConfig.finite_iff_of_accepted {c : EditorConfig Binary64}
    (h : c.validate = .ok ()) :
    (∀ x ∈ c.numbers, Scalar.isFinite x = true) ↔
      ∀ x ∈ c.unguarded, Scalar.isFinite x = true := by
  refine forall_numbers_iff.trans (and_iff_right_of_imp fun hunguarded => ?_)
  obtain ⟨⟨hcatch, -⟩, -, ⟨hpositive, hbounds⟩, ⟨hempty, -⟩, -⟩ := c.validate_eq_ok_iff.1 h
  obtain ⟨hmin, hmax⟩ := Bool.and_eq_true_iff.1 hempty
  have hfloor : Scalar.isFinite c.transparencyFloor = true :=
    Binary64.finite_between (x := 0) rfl (hunguarded _ (.head _))
      (Scalar.Ordered.lt_iff.1 hpositive).1 hbounds
  exact ⟨hcatch, hfloor, hmin, hmax⟩

namespace Json

theorem config_numbers (base c : EditorConfig Binary64) :
    ((config base).toValue c).numbers = c.numbers := rfl

theorem range_fits (r : Range Binary64) : range.shape.Fits (range.toValue r) :=
  ⟨trivial, trivial, trivial⟩

theorem opacityRamp_fits (r : OpacityRamp Binary64) :
    opacityRamp.shape.Fits (opacityRamp.toValue r) := by
  refine ⟨rfl, fun v hv => ?_⟩
  rcases List.mem_pair.1 hv with rfl | rfl
  · exact tuple_fits [r.x₀, r.a₀] rfl
  · exact tuple_fits [r.x₁, r.a₁] rfl

theorem config_fits {c : EditorConfig Binary64} (htable : c.tableSize < 2 ^ 64)
    (hpalette : c.paletteWidth < 2 ^ 64) (base : EditorConfig Binary64) :
    (config base).shape.Fits ((config base).toValue c) :=
  ⟨trivial, htable, trivial, trivial, opacityRamp_fits c.opacityRamp, range_fits c.emptyRange,
    tuple_fits c.background.numbers rfl, hpalette, trivial⟩

theorem config_isSound (base : EditorConfig Binary64) : (config base).shape.isSound = true := rfl

end Json

namespace EditorConfig

variable {c : EditorConfig Binary64}

theorem write_eq_toJson (base : EditorConfig Binary64) :
    (Json.config base).write .indented c = c.toJson := rfl

theorem read_toJson (htable : c.tableSize < 2 ^ 64) (hpalette : c.paletteWidth < 2 ^ 64)
    (hnumbers : ∀ x ∈ c.numbers, Scalar.isFinite x = true → Json.ReadsBack x)
    (base : EditorConfig Binary64) :
    (Json.config base).read c.toJson =
      if c.numbers.all Scalar.isFinite then .ok c else .error .mismatch := by
  have hread := Json.Codec.read_write (Json.config_lawful base c) (Json.config_isSound base)
    (Json.config_fits htable hpalette base) (Json.config_numbers base c ▸ hnumbers) .indented
  rwa [Json.config_numbers, write_eq_toJson] at hread

theorem load_of_unread {base : EditorConfig Binary64} {text : String} {fault : Json.Fault}
    (h : (Json.config base).read text = .error fault) :
    load base text = .error (.unread fault) := by
  rw [load, h]

/-- An accepted configuration is loaded from what is stored of it, whatever is given from outside,
just if its ceiling, opacity ramp and background are finite. If not, the text is not read. -/
theorem load_toJson (haccepted : c.validate = .ok ()) (htable : c.tableSize < 2 ^ 64)
    (hpalette : c.paletteWidth < 2 ^ 64)
    (hnumbers : ∀ x ∈ c.numbers, Scalar.isFinite x = true → Json.ReadsBack x)
    (given : Overrides) :
    ((∀ x ∈ c.unguarded, Scalar.isFinite x = true) → load given.config c.toJson = .ok c) ∧
      ((∃ x ∈ c.unguarded, Scalar.isFinite x = false) →
        load given.config c.toJson = .error (.unread .mismatch)) := by
  have hread := read_toJson htable hpalette hnumbers given.config
  refine ⟨fun hfinite => ?_, fun hbad => ?_⟩
  · have hall := (finite_iff_of_accepted haccepted).2 hfinite
    rw [if_pos (List.all_eq_true.2 hall)] at hread
    simp only [load, hread, haccepted]
  · obtain ⟨x, hx, hinfinite⟩ := hbad
    have hnot : ¬c.numbers.all Scalar.isFinite = true := by
      intro hall
      have hfinite := (finite_iff_of_accepted haccepted).1 (List.all_eq_true.1 hall) x hx
      rw [hinfinite] at hfinite
      cases hfinite
    rw [if_neg hnot] at hread
    exact load_of_unread hread

def ceiledAt (ceiling : Binary64) : EditorConfig Binary64 :=
  { standard with transparencyCeiling := ceiling, paletteWidth := 64 }

def boundless : EditorConfig Binary64 := ceiledAt ⟨0x7FF0000000000000⟩

theorem boundless_accepted : boundless.validate = .ok () :=
  (validate_eq_ok_iff _).2 (by decide +kernel)

theorem boundless_readsBack :
    ∀ x ∈ boundless.numbers, Scalar.isFinite x = true → Json.ReadsBack x := by
  decide +kernel

theorem ceiledAt_loaded :
    load (Overrides.config ⟨some " 8 ", some "wide"⟩) (ceiledAt 0.5).toJson = .ok (ceiledAt 0.5) ∧
      load (Overrides.config {}) boundless.toJson = .error (.unread .mismatch) :=
  ⟨(load_toJson (c := ceiledAt 0.5) ((validate_eq_ok_iff _).2 (by decide +kernel)) (by decide)
      (by decide) (by decide +kernel) _).1 (by decide +kernel),
    (load_toJson boundless_accepted (by decide) (by decide) boundless_readsBack _).2
      (by decide +kernel)⟩

theorem boundless_not_loaded :
    ¬∀ (c : EditorConfig Binary64) (given : Overrides), c.validate = .ok () →
      c.tableSize < 2 ^ 64 → c.paletteWidth < 2 ^ 64 →
      (∀ x ∈ c.numbers, Scalar.isFinite x = true → Json.ReadsBack x) →
      load given.config c.toJson = .ok c := by
  intro h
  have hread := read_toJson (c := boundless) (by decide) (by decide) boundless_readsBack
    (Overrides.config {})
  rw [if_neg (by decide +kernel)] at hread
  have hload := h boundless {} boundless_accepted (by decide) (by decide) boundless_readsBack
  rw [load_of_unread hread] at hload
  cases hload

end EditorConfig

end TransferCurves
