import TransferCurves.TransferFunction
import TransferCurves.Config

/-!
# Attenuation

Attenuation scales the opacities of a function and holds them between a floor and a ceiling. The
floor is positive, so that what was made transparent can be brought back.
-/

namespace TransferCurves.TransferFunction

open scoped Scalar

variable {α : Type} [Scalar α]

/-- An opacity scaled by a factor and held between two bounds; what is not a number becomes the
floor. -/
def attenuated (factor floor ceiling opacity : α) : α :=
  Scalar.min (Scalar.max (opacity * factor) floor) ceiling

def attenuateWithin (f : TransferFunction α) (factor floor ceiling : α) : TransferFunction α :=
  match f.opacity with
  | none => f
  | some c =>
    let points := c.points.map fun p => { p with value := attenuated factor floor ceiling p.value }
    opacityModified { f with opacity := some ⟨points⟩ }

def attenuate (f : TransferFunction α) (factor : α) : TransferFunction α :=
  f.attenuateWithin factor EditorConfig.standardFloor EditorConfig.standardCeiling

def attenuateConfigured (f : TransferFunction α) (factor : α) (config : EditorConfig α) :
    TransferFunction α :=
  f.attenuateWithin factor config.transparencyFloor config.transparencyCeiling

end TransferCurves.TransferFunction
