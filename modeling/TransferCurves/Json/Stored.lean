import TransferCurves.Json.Codec
import TransferCurves.Config
import TransferCurves.TransferFunction

/-!
# Stored curves and settings

The JSON form of ranges, control points, curves, transfer functions and configurations. Of a
transfer function only the color map and the size of its table are stored; a function that is read
back has no table, no observers and no history. Main statements: points, opacity curves and
configurations come back as they were, and a function comes back with the map and the size.
-/

namespace TransferCurves.Json

open Codec (number)

def Fields.required (name : String) (shape : Shape) (rest : Fields) : Fields :=
  .field name shape none rest

def Fields.defaulted (name : String) (shape : Shape) (absent : Value) (rest : Fields) : Fields :=
  .field name shape (some absent) rest

def range : Codec (Range Binary64) where
  shape := .record <| .required "min" .number <| .required "max" .number .done
  toValue r := .parts [.number r.min, .number r.max]
  ofValue?
    | .parts [.number a, .number b] => some ⟨a, b⟩
    | _ => none

def rgb : Codec (Rgb Binary64) where
  shape := .tuple 3 .number
  toValue c := .parts [.number c.r, .number c.g, .number c.b]
  ofValue?
    | .parts [.number r, .number g, .number b] => some ⟨r, g, b⟩
    | _ => none

theorem rgb_lawful : rgb.Lawful := fun _ => rfl

def rgba : Codec (Rgba Binary64) where
  shape := .tuple 4 .number
  toValue c := .parts [.number c.r, .number c.g, .number c.b, .number c.a]
  ofValue?
    | .parts [.number r, .number g, .number b, .number a] => some ⟨r, g, b, a⟩
    | _ => none

theorem rgba_lawful : rgba.Lawful := fun _ => rfl

def controlPoint {V : Type} (name : String) (value : Codec V) :
    Codec (ControlPoint Binary64 V) where
  shape := .record <| .required "position" .number <| .required name value.shape <|
    .required "midpoint" .number <| .required "sharpness" .number .done
  toValue p := .parts
    [.number p.position, value.toValue p.value, .number p.midpoint, .number p.sharpness]
  ofValue?
    | .parts [.number x, v, .number m, .number s] =>
      (value.ofValue? v).map fun v => ⟨x, v, m, s⟩
    | _ => none

theorem controlPoint_lawful {V : Type} {name : String} {value : Codec V} (h : value.Lawful) :
    (controlPoint name value).Lawful := by
  intro p
  simp [controlPoint, h p.value]

def colorPoint : Codec (ColorPoint Binary64) := controlPoint "color" rgb

theorem colorPoint_lawful : colorPoint.Lawful := controlPoint_lawful rgb_lawful

def opacityPoint : Codec (OpacityPoint Binary64) := controlPoint "opacity" number

theorem opacityPoint_lawful : opacityPoint.Lawful := controlPoint_lawful Codec.number_lawful

def opacityCurve : Codec (OpacityCurve Binary64) where
  shape := .record <| .required "points" opacityPoint.list.shape .done
  toValue c := .parts [opacityPoint.list.toValue c.points]
  ofValue?
    | .parts [v] => (opacityPoint.list.ofValue? v).map fun ps => ⟨ps⟩
    | _ => none

theorem opacityCurve_lawful : opacityCurve.Lawful := by
  intro c
  have hpoints := Codec.list_lawful opacityPoint_lawful c.points
  simp only [opacityCurve, hpoints, Option.map_some]

def transferFunction : Codec (TransferFunction Binary64) where
  shape := .record <|
    .required "points" colorPoint.list.shape <|
    .required "opacity" opacityCurve.optional.shape <|
    .defaulted "opacity_mapping" .flag (.flag false) <|
    .defaulted "discretize" .flag (.flag false) <|
    .defaulted "number_of_values" .count (.count 256) <|
    .required "nan_color" rgba.shape <|
    .defaulted "table_size" .count (.count LookupTable.defaultSize) .done
  toValue f := .parts
    [colorPoint.list.toValue f.points, opacityCurve.optional.toValue f.opacity,
      .flag f.opacityMapping, .flag f.discretize, .count f.numberOfValues,
      rgba.toValue f.nanColor, .count f.tableSize]
  ofValue?
    | .parts [points, opacity, .flag mapping, .flag discretize, .count values, nan, .count size] =>
      do
        let points ← colorPoint.list.ofValue? points
        let opacity ← opacityCurve.optional.ofValue? opacity
        let nan ← rgba.ofValue? nan
        return .ofColorMap ⟨points, opacity, mapping, discretize, values, nan⟩ size
    | _ => none

theorem transferFunction_ofValue?_toValue (f : TransferFunction Binary64) :
    transferFunction.ofValue? (transferFunction.toValue f) =
      some (.ofColorMap f.toColorMap f.tableSize) := by
  have hpoints := Codec.list_lawful colorPoint_lawful f.points
  have hopacity := Codec.optional_lawful opacityCurve_lawful (fun _ => nofun) f.opacity
  simp only [transferFunction, hpoints, hopacity, rgba_lawful f.nanColor]
  rfl

def opacityRamp : Codec (OpacityRamp Binary64) where
  shape := .tuple 2 (.tuple 2 .number)
  toValue r := .parts [.parts [.number r.x₀, .number r.a₀], .parts [.number r.x₁, .number r.a₁]]
  ofValue?
    | .parts [.parts [.number x₀, .number a₀], .parts [.number x₁, .number a₁]] =>
      some ⟨x₀, a₀, x₁, a₁⟩
    | _ => none

/-- Configurations. What is absent is as in the configuration `base`. -/
def config (base : EditorConfig Binary64) : Codec (EditorConfig Binary64) where
  shape := .record <|
    .defaulted "catch_width_px" .number (.number base.catchWidth) <|
    .defaulted "lookup_table_size" .count (.count base.tableSize) <|
    .defaulted "transparency_floor" .number (.number base.transparencyFloor) <|
    .defaulted "transparency_ceiling" .number (.number base.transparencyCeiling) <|
    .defaulted "default_opacity_ramp" opacityRamp.shape (opacityRamp.toValue base.opacityRamp) <|
    .defaulted "empty_function_range" range.shape (range.toValue base.emptyRange) <|
    .defaulted "background_color" rgba.shape (rgba.toValue base.background) <|
    .defaulted "palette_width" .count (.count base.paletteWidth) .done
  toValue c := .parts
    [.number c.catchWidth, .count c.tableSize, .number c.transparencyFloor,
      .number c.transparencyCeiling, opacityRamp.toValue c.opacityRamp, range.toValue c.emptyRange,
      rgba.toValue c.background, .count c.paletteWidth]
  ofValue?
    | .parts [.number catchWidth, .count tableSize, .number floor, .number ceiling, ramp, empty,
        background, .count paletteWidth] => do
      return {
        catchWidth, tableSize
        transparencyFloor := floor
        transparencyCeiling := ceiling
        opacityRamp := ← opacityRamp.ofValue? ramp
        emptyRange := ← range.ofValue? empty
        background := ← rgba.ofValue? background
        paletteWidth }
    | _ => none

theorem config_lawful (base : EditorConfig Binary64) : (config base).Lawful := fun _ => rfl

end TransferCurves.Json

namespace TransferCurves

inductive LoadError where
  | unread (fault : Json.Fault)
  | refused (error : CurveError Binary64)

def EditorConfig.load (base : EditorConfig Binary64) (text : String) :
    Except LoadError (EditorConfig Binary64) :=
  match (Json.config base).read text with
  | .error fault => .error (.unread fault)
  | .ok c =>
    match c.validate with
    | .error e => .error (.refused e)
    | .ok () => .ok c

def EditorConfig.toJson (c : EditorConfig Binary64) : String := (Json.config c).write .indented c

end TransferCurves
