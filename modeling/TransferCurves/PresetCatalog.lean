import TransferCurves.Config
import TransferCurves.TransferFunction

/-!
# Preset catalogs

A catalog lists named functions to start an edit from. Its first entry stands for no function. What
is added is promoted first: it gets opacities if it has none, and a table of the configured size.
-/

namespace TransferCurves

open scoped Scalar

structure PresetCatalog (α : Type) where
  entries : List (String × Option (TransferFunction α))
  config : EditorConfig α

variable {α : Type} [Scalar α]

/-- A function ready for an editor: it has opacities, those of the configured ramp if it had none,
it uses them, and its table will have the configured size. -/
def TransferFunction.promote (f : TransferFunction α) (config : EditorConfig α) :
    TransferFunction α :=
  let ramp := config.opacityRamp
  let f :=
    if f.opacity.isNone then f.setOpacity (some (.ramp ramp.x₀ ramp.a₀ ramp.x₁ ramp.a₁)) else f
  (f.setOpacityMapping true).setTableSize config.tableSize

namespace PresetCatalog

def noneLabel : String := "None"

def builtinPalettes : List (String × List (ColorPoint α)) :=
  [("Grayscale", [.plain 0 ⟨0, 0, 0⟩, .plain 255 ⟨1, 1, 1⟩]),
    ("Cool to Warm", [.plain 0 ⟨0.230, 0.299, 0.754⟩, .plain 127.5 ⟨0.865, 0.865, 0.865⟩,
      .plain 255 ⟨0.706, 0.016, 0.150⟩]),
    ("Blue to Red", [.plain 0 ⟨0, 0, 1⟩, .plain 255 ⟨1, 0, 0⟩]),
    ("Rainbow", [.plain 0 ⟨0, 0, 1⟩, .plain 63.75 ⟨0, 1, 1⟩, .plain 127.5 ⟨0, 1, 0⟩,
      .plain 191.25 ⟨1, 1, 0⟩, .plain 255 ⟨1, 0, 0⟩])]

def empty (config : EditorConfig α) : PresetCatalog α := ⟨[(noneLabel, none)], config⟩

def add (k : PresetCatalog α) (name : String) (f : TransferFunction α) : PresetCatalog α :=
  { k with entries := k.entries ++ [(name, some (f.promote k.config))] }

def insert (k : PresetCatalog α) (name : String) (f : TransferFunction α) : Nat × PresetCatalog α :=
  let k := k.add name f
  (k.entries.length - 1, k)

def withBuiltins (config : EditorConfig α) : PresetCatalog α :=
  builtinPalettes.foldl (fun k p => k.add p.1 (.ofPoints p.2)) (empty config)

def size (k : PresetCatalog α) : Nat := k.entries.length

def isEmpty (k : PresetCatalog α) : Bool := k.entries.isEmpty

def names (k : PresetCatalog α) : List String := k.entries.map (·.1)

def get? (k : PresetCatalog α) (index : Nat) : Option (TransferFunction α) :=
  (k.entries[index]?).bind (·.2)

def find? (k : PresetCatalog α) (name : String) : Option Nat := k.names.idxOf? name

def instantiate? (k : PresetCatalog α) (index : Nat) : Option (TransferFunction α) :=
  (k.get? index).map fun f => (f.copy.setTableSize k.config.tableSize).finalize

def composite (background color : Rgba α) : Rgba8 :=
  let mixed (front back : α) : UInt8 := Rgba8.encode (color.a * front + (1 - color.a) * back)
  ⟨mixed color.r background.r, mixed color.g background.g, mixed color.b background.b, 255⟩

def swatch? (k : PresetCatalog α) (index : Nat) : Option (List Rgba8) :=
  (k.get? index).map fun f =>
    (LookupTable.build f.toColorMap (max k.config.paletteWidth 2)).entries.map
      (composite k.config.background)

end PresetCatalog

end TransferCurves
