import TransferCurves.Config
import TransferCurves.Text.Blank
import TransferCurves.Text.Number

/-!
# Overrides from the environment

Two settings of the standard configuration can be given as text from outside. Text that does not
show a value of the right kind is passed over.
-/

namespace TransferCurves

structure Overrides where
  catchWidth : Option String := none
  tableSize : Option String := none

def Overrides.read {τ : Type} (reading : List Char → Option τ) (text : Option String)
    (standard : τ) : τ :=
  ((text.map (·.toList)).bind fun cs => reading (Text.trim cs)).getD standard

def Overrides.config (given : Overrides) : EditorConfig Binary64 :=
  let standard : EditorConfig Binary64 := .standard
  { standard with
    catchWidth := Overrides.read Text.scalar? given.catchWidth standard.catchWidth
    tableSize := Overrides.read Text.count? given.tableSize standard.tableSize }

end TransferCurves
