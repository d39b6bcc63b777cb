import TransferCurves.PresetCatalog
import Mathlib.Data.List.Forall2
import Mathlib.Order.Bounds.Basic

/-!
# Presets stay what they are

A catalog only grows: the entry for no function stays the first, and the index under which a function
was added denotes its promoted form, however many functions are added later and whatever their names.
A name is found at the least index that has it. Promotion changes the opacities and the table size
alone, and promoting twice is promoting once. An instance is the preset with its table built.
-/

namespace TransferCurves

open scoped Scalar

variable {α : Type}

namespace PresetCatalog

structure Extends (k k' : PresetCatalog α) : Prop where
  config : k'.config = k.config
  entries : k.entries <+: k'.entries

variable {k k' k'' : PresetCatalog α}

theorem Extends.refl (k : PresetCatalog α) : k.Extends k := ⟨rfl, List.prefix_rfl⟩

theorem Extends.trans (h : k.Extends k') (h' : k'.Extends k'') : k.Extends k'' :=
  ⟨h'.config.trans h.config, h.entries.trans h'.entries⟩

theorem Extends.getElem? (h : k.Extends k') {index : Nat}
    {entry : String × Option (TransferFunction α)} (hentry : k.entries[index]? = some entry) :
    k'.entries[index]? = some entry := by
  obtain ⟨later, hlater⟩ := h.entries
  rw [← hlater, List.getElem?_append_left (List.getElem?_eq_some_iff.1 hentry).1, hentry]

theorem find?_eq_some_iff {name : String} {index : Nat} :
    k.find? name = some index ↔ IsLeast {i | k.names[i]? = some name} index := by
  rw [find?, List.idxOf?_eq_some_iff]
  constructor
  · rintro ⟨hlt, hname, hbefore⟩
    refine ⟨List.getElem?_eq_some_iff.2 ⟨hlt, hname⟩, fun j hj => ?_⟩
    obtain ⟨hjlt, hjname⟩ := List.getElem?_eq_some_iff.1 hj
    exact le_of_not_gt fun hearlier => hbefore j hearlier hjname
  · rintro ⟨hname, hleast⟩
    obtain ⟨hlt, hname⟩ := List.getElem?_eq_some_iff.1 hname
    refine ⟨hlt, hname, fun j hearlier hj => hearlier.not_ge (hleast ?_)⟩
    exact List.getElem?_eq_some_iff.2 ⟨hearlier.trans hlt, hj⟩

end PresetCatalog

variable [Scalar α]

def EditorConfig.ramp (config : EditorConfig α) : OpacityCurve α :=
  .ramp config.opacityRamp.x₀ config.opacityRamp.a₀ config.opacityRamp.x₁ config.opacityRamp.a₁

namespace TransferFunction

theorem promote_of_some {f : TransferFunction α} {c : OpacityCurve α} (h : f.opacity = some c)
    (config : EditorConfig α) :
    f.promote config = (f.setOpacityMapping true).setTableSize config.tableSize := by
  simp only [promote, h, Option.isNone_some, Bool.false_eq_true, if_false]

theorem promote_of_none {f : TransferFunction α} (h : f.opacity = none) (config : EditorConfig α) :
    f.promote config =
      ((f.setOpacity (some config.ramp)).setOpacityMapping true).setTableSize config.tableSize := by
  simp only [promote, h, Option.isNone_none, if_true, EditorConfig.ramp]

theorem toColorMap_promote (f : TransferFunction α) (config : EditorConfig α) :
    (f.promote config).toColorMap =
      { f.toColorMap with opacity := some (f.opacity.getD config.ramp), opacityMapping := true } := by
  cases h : f.opacity with
  | none =>
    rw [promote_of_none h]
    exact toColorMap_setOpacityMapping (f.setOpacity (some config.ramp)) true
  | some c =>
    rw [promote_of_some h, Option.getD_some, ← h]
    exact toColorMap_setOpacityMapping f true

theorem promote_promote (f : TransferFunction α) (config : EditorConfig α) :
    (f.promote config).promote config = f.promote config := by
  have hmap := f.toColorMap_promote config
  have hopacity := congrArg ColorMap.opacity hmap
  have hmapping := congrArg ColorMap.opacityMapping hmap
  -- There are opacities, and they are used: what is left of the second promotion is the size.
  rw [promote_of_some hopacity, setOpacityMapping_of_eq hmapping]
  rfl

/-- Promotion gives a function the opacities of the ramp if it has none, uses its opacities, asks for
a table of the configured size, and leaves all else of the color map as it is. -/
structure PromotesTo (config : EditorConfig α) (f g : TransferFunction α) : Prop where
  map : g.toColorMap =
    { f.toColorMap with opacity := some (f.opacity.getD config.ramp), opacityMapping := true }
  tableSize : g.tableSize = max config.tableSize 2
  stale : g.stale = true
  again : g.promote config = g

theorem promotesTo_promote (f : TransferFunction α) (config : EditorConfig α) :
    f.PromotesTo config (f.promote config) :=
  ⟨f.toColorMap_promote config, rfl, rfl, f.promote_promote config⟩

end TransferFunction

namespace PresetCatalog

def opened (config : EditorConfig α) (builtins : Bool) : PresetCatalog α :=
  if builtins then withBuiltins config else empty config

def insertAll (k : PresetCatalog α) :
    List (String × TransferFunction α) → List Nat × PresetCatalog α
  | [] => ([], k)
  | (name, f) :: adds =>
    let entry := k.insert name f
    let rest := entry.2.insertAll adds
    (entry.1 :: rest.1, rest.2)

theorem extends_add (k : PresetCatalog α) (name : String) (f : TransferFunction α) :
    k.Extends (k.add name f) :=
  ⟨rfl, List.prefix_append _ _⟩

theorem extends_insertAll (k : PresetCatalog α) (adds : List (String × TransferFunction α)) :
    k.Extends (k.insertAll adds).2 := by
  induction adds generalizing k with
  | nil => exact .refl k
  | cons a adds ih => exact (k.extends_add a.1 a.2).trans (ih _)

theorem getElem?_add (k : PresetCatalog α) (name : String) (f : TransferFunction α) :
    (k.add name f).entries[k.size]? = some (name, some (f.promote k.config)) :=
  List.getElem?_concat_length

theorem getElem?_insert (k : PresetCatalog α) (name : String) (f : TransferFunction α) :
    (k.insert name f).2.entries[(k.insert name f).1]? = some (name, some (f.promote k.config)) := by
  have hindex : (k.insert name f).1 = k.size := by
    simp only [insert, add, size, List.length_append, List.length_singleton, Nat.add_sub_cancel]
  rw [hindex]
  exact k.getElem?_add name f

structure Instantiates (config : EditorConfig α) (preset g : TransferFunction α) : Prop where
  map : g.toColorMap = preset.toColorMap
  stale : g.stale = false
  table : g.table = some (LookupTable.build preset.toColorMap (max config.tableSize 2))
  size : (LookupTable.build preset.toColorMap (max config.tableSize 2)).entries.length =
    max config.tableSize 2

theorem instantiate?_of_get? {k : PresetCatalog α} {index : Nat} {preset : TransferFunction α}
    (h : k.get? index = some preset) :
    ∃ g, k.instantiate? index = some g ∧ Instantiates k.config preset g := by
  refine ⟨_, Option.map_eq_some_iff.2 ⟨preset, h, rfl⟩, rfl, rfl, rfl, ?_⟩
  exact (LookupTable.size_build _ _).trans (max_eq_left (le_max_right _ 2))

/-- The index stands for the preset under the name: that is the entry, and what the catalog answers
when it is asked for the preset or for an instance of it. -/
structure Denotes (k : PresetCatalog α) (index : Nat) (name : String)
    (preset : TransferFunction α) : Prop where
  entry : k.entries[index]? = some (name, some preset)
  listed : k.names[index]? = some name
  found : k.get? index = some preset
  instantiated : ∃ g, k.instantiate? index = some g ∧ Instantiates k.config preset g

theorem denotes_of_entry {k : PresetCatalog α} {index : Nat} {name : String}
    {preset : TransferFunction α} (h : k.entries[index]? = some (name, some preset)) :
    k.Denotes index name preset := by
  have hpreset : k.get? index = some preset := by
    rw [get?, h, Option.bind_some]
  refine ⟨h, ?_, hpreset, instantiate?_of_get? hpreset⟩
  rw [names, List.getElem?_map, h, Option.map_some]

theorem insertAll_denotes (k : PresetCatalog α) (adds : List (String × TransferFunction α)) :
    List.Forall₂ (fun a index => (k.insertAll adds).2.Denotes index a.1 (a.2.promote k.config))
      adds (k.insertAll adds).1 := by
  induction adds generalizing k with
  | nil => exact .nil
  | cons a adds ih =>
    have hlater := (k.insert a.1 a.2).2.extends_insertAll adds
    exact .cons (denotes_of_entry (hlater.getElem? (k.getElem?_insert a.1 a.2)))
      (ih (k.insert a.1 a.2).2)

/-- The first entry stands for no function, all others stand for one, and promotion finds nothing to
do at these. -/
structure Settled (k : PresetCatalog α) : Prop where
  first : k.entries[0]? = some (noneLabel, none)
  others : ∀ index, 0 < index → index < k.size → (k.get? index).isSome
  promoted : ∀ entry ∈ k.entries, ∀ preset ∈ entry.2, preset.promote k.config = preset

theorem Settled.empty (config : EditorConfig α) : (empty config).Settled where
  first := rfl
  others index hpos hlt := absurd hlt (Nat.not_lt.2 hpos)
  promoted := by simp [PresetCatalog.empty]

theorem Settled.add {k : PresetCatalog α} (h : k.Settled) (name : String)
    (f : TransferFunction α) : (k.add name f).Settled where
  first := (k.extends_add name f).getElem? h.first
  others index hpos hlt := by
    have hsize : (k.add name f).size = k.size + 1 := List.length_append
    rcases Nat.lt_succ_iff_lt_or_eq.1 (hlt.trans_eq hsize) with hearlier | rfl
    · have hget : (k.add name f).get? index = k.get? index := by
        rw [get?, PresetCatalog.add, List.getElem?_append_left hearlier, get?]
      rw [hget]
      exact h.others index hpos hearlier
    · rw [(denotes_of_entry (k.getElem?_add name f)).found]
      rfl
  promoted entry hentry preset hpreset := by
    rcases List.mem_append.1 hentry with hearlier | hnew
    · exact h.promoted entry hearlier preset hpreset
    · obtain rfl := List.mem_singleton.1 hnew
      obtain rfl := Option.some.inj hpreset
      exact f.promote_promote k.config

theorem Settled.insertAll {k : PresetCatalog α} (h : k.Settled)
    (adds : List (String × TransferFunction α)) : (k.insertAll adds).2.Settled := by
  induction adds generalizing k with
  | nil => exact h
  | cons a adds ih => exact ih (h.add a.1 a.2)

theorem foldl_add (adds : List (String × TransferFunction α)) (k : PresetCatalog α) :
    adds.foldl (fun k a => k.add a.1 a.2) k = (k.insertAll adds).2 := by
  induction adds generalizing k with
  | nil => rfl
  | cons a adds ih => exact ih (k.add a.1 a.2)

theorem opened_eq_insertAll (config : EditorConfig α) (builtins : Bool) :
    ∃ palettes, opened config builtins = ((empty config).insertAll palettes).2 := by
  cases builtins with
  | false => exact ⟨[], rfl⟩
  | true =>
    refine ⟨builtinPalettes.map fun p => (p.1, .ofPoints p.2), ?_⟩
    rw [← foldl_add, List.foldl_map]
    rfl

theorem Settled.promote_of_get? {k : PresetCatalog α} (h : k.Settled) {index : Nat}
    {preset : TransferFunction α} (hpreset : k.get? index = some preset) :
    preset.promote k.config = preset := by
  obtain ⟨entry, hentry, hsome⟩ := Option.bind_eq_some_iff.1 hpreset
  exact h.promoted entry (List.mem_of_getElem? hentry) preset hsome

theorem Settled.isSome_get?_iff {k : PresetCatalog α} (h : k.Settled) {index : Nat} :
    (k.get? index).isSome ↔ 0 < index ∧ index < k.size := by
  constructor
  · intro hsome
    obtain ⟨preset, hpreset⟩ := Option.isSome_iff_exists.1 hsome
    obtain ⟨entry, hentry, hof⟩ := Option.bind_eq_some_iff.1 hpreset
    refine ⟨Nat.pos_of_ne_zero ?_, (List.getElem?_eq_some_iff.1 hentry).1⟩
    rintro rfl
    obtain rfl := Option.some.inj (h.first.symm.trans hentry)
    cases hof
  · rintro ⟨hpos, hlt⟩
    exact h.others index hpos hlt

/-- However a catalog was made and whatever was added to it since, under whatever names: its first
entry stands for no function and every other one for a function, each index that was given denotes
what was promoted under that name, which can be instantiated, names are found at the least index,
and presets, which are promoted functions throughout, are instantiated with the table of their
map. -/
theorem catalog_keeps (config : EditorConfig α) (builtins : Bool)
    (adds : List (String × TransferFunction α)) :
    let filled := (opened config builtins).insertAll adds
    let k := filled.2
    k.config = config ∧
    k.entries[0]? = some (noneLabel, none) ∧
    (∀ index, (k.get? index).isSome ↔ 0 < index ∧ index < k.size) ∧
    List.Forall₂ (fun a index => k.Denotes index a.1 (a.2.promote config)) adds filled.1 ∧
    (∀ name index, k.find? name = some index ↔ IsLeast {i | k.names[i]? = some name} index) ∧
    (∀ f : TransferFunction α, f.PromotesTo config (f.promote config)) ∧
    ∀ index preset, k.get? index = some preset → preset.promote config = preset ∧
      ∃ g, k.instantiate? index = some g ∧ Instantiates config preset g := by
  intro filled k
  obtain ⟨palettes, hopened⟩ := opened_eq_insertAll config builtins
  have hstart : (opened config builtins).config = config :=
    hopened ▸ ((empty config).extends_insertAll palettes).config
  have hconfig : k.config = config :=
    ((opened config builtins).extends_insertAll adds).config.trans hstart
  have hsettled : k.Settled := by
    have hpalettes := (Settled.empty config).insertAll palettes
    rw [← hopened] at hpalettes
    exact hpalettes.insertAll adds
  refine ⟨hconfig, hsettled.first, fun _ => hsettled.isSome_get?_iff, ?_,
    fun _ _ => find?_eq_some_iff, (·.promotesTo_promote config), fun index preset hpreset => ?_⟩
  · have hdenotes := (opened config builtins).insertAll_denotes adds
    rwa [hstart] at hdenotes
  · have hinstance := instantiate?_of_get? hpreset
    have hpromoted := hsettled.promote_of_get? hpreset
    rw [hconfig] at hinstance hpromoted
    exact ⟨hpromoted, hinstance⟩

end PresetCatalog

end TransferCurves
