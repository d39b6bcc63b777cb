import TransferCurves.LookupTable

/-!
# Editor configuration

The numbers that an editor can be set up with: how wide the grab zones of its markers are, how large
its tables, how far opacities may be attenuated, what is shown where there is no function, and what
the swatches of its palettes look like. A configuration is any record of such numbers; `validate`
says which ones an editor accepts.
-/

namespace TransferCurves

open scoped Scalar

structure OpacityRamp (α : Type) where
  x₀ : α
  a₀ : α
  x₁ : α
  a₁ : α
deriving DecidableEq

structure EditorConfig (α : Type) where
  catchWidth : α
  tableSize : Nat
  transparencyFloor : α
  transparencyCeiling : α
  opacityRamp : OpacityRamp α
  emptyRange : Range α
  background : Rgba α
  paletteWidth : Nat
deriving DecidableEq

namespace EditorConfig

variable {α : Type} [Scalar α]

def standardFloor : α := 1e-6

def standardCeiling : α := 1

def standard : EditorConfig α where
  catchWidth := 5
  tableSize := LookupTable.defaultSize
  transparencyFloor := standardFloor
  transparencyCeiling := standardCeiling
  opacityRamp := ⟨0, 0, 255, 1⟩
  emptyRange := .byte
  background := ⟨0, 0, 0, 1⟩
  paletteWidth := 256

/-- The first reason to refuse a configuration, in the order in which its fields are read. -/
def fault? (c : EditorConfig α) : Option (ConfigFault α) :=
  if ¬(Scalar.isFinite c.catchWidth ∧ 0 < c.catchWidth) then some (.catchWidth c.catchWidth)
  else if c.tableSize < 2 then some (.tableSize c.tableSize)
  else if ¬(0 < c.transparencyFloor ∧ c.transparencyFloor ≤ c.transparencyCeiling) then
    some (.transparencyBounds c.transparencyFloor c.transparencyCeiling)
  else if ¬c.emptyRange.isFinite ∨ c.emptyRange.max ≤ c.emptyRange.min then
    some (.emptyRange c.emptyRange.min c.emptyRange.max)
  else if c.paletteWidth = 0 then some .paletteWidth
  else none

def validate (c : EditorConfig α) : Except (CurveError α) Unit :=
  match c.fault? with
  | some fault => .error (.invalidConfig fault)
  | none => .ok ()

theorem validate_eq_ok_iff (c : EditorConfig α) :
    c.validate = .ok () ↔
      (Scalar.isFinite c.catchWidth ∧ 0 < c.catchWidth) ∧ 2 ≤ c.tableSize ∧
      (0 < c.transparencyFloor ∧ c.transparencyFloor ≤ c.transparencyCeiling) ∧
      (c.emptyRange.isFinite ∧ ¬c.emptyRange.max ≤ c.emptyRange.min) ∧ c.paletteWidth ≠ 0 := by
  have hvalidate : c.validate = .ok () ↔ c.fault? = none := by
    rw [validate]
    cases c.fault? <;> simp
  have hcheck (p : Prop) [Decidable p] (fault : ConfigFault α) (rest : Option (ConfigFault α)) :
      (if p then some fault else rest) = none ↔ ¬p ∧ rest = none := by
    by_cases h : p <;> simp [h]
  simp only [hvalidate, fault?, hcheck, Decidable.not_not, not_or, Nat.not_lt, ne_eq, and_true]

end EditorConfig

end TransferCurves
