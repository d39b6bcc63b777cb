import TransferCurves.Proofs.Binary64Finite
import TransferCurves.TransferFunction

/-!
# Reading tables

A stored function need not respect the lower limits that the setters keep, and its positions may be
any doubles. Its tables are safe to build and to read all the same. Two entries at least and one
band at least are made of whatever counts are stored, so no divisor is zero. Whatever the range, a
fraction of it times the last index is finite and not beyond that index, or not a number, which is
read as index zero. So the index stays in the table.
-/

namespace TransferCurves

open scoped Scalar

namespace Binary64

def HeldBelow (bound : ℚ) (x : Binary64) : Prop :=
  Scalar.isNaN x = true ∨ Scalar.isFinite x = true ∧ 0 ≤ value x ∧ value x ≤ bound

theorem heldBelow_clamp (x : Binary64) : HeldBelow 1 (Scalar.clamp 0 1 x) := by
  rw [Scalar.clamp]
  split_ifs with hlow hhigh
  · exact Or.inr ⟨isFinite_zero, le_rfl, zero_le_one⟩
  · exact Or.inr ⟨isFinite_one, zero_le_one.trans value_one.ge, value_one.le⟩
  · cases hx : Scalar.isNaN x with
    | true => exact Or.inl hx
    | false =>
      -- An infinite double would be below zero or above one.
      have hzero : 0 ≤ x := Scalar.le_of_not_lt hx rfl hlow
      have hone : x ≤ 1 := Scalar.le_of_not_lt rfl hx hhigh
      have hfinite := finite_between isFinite_zero isFinite_one hzero hone
      refine Or.inr ⟨hfinite, value_le_of_le isFinite_zero hfinite hzero, ?_⟩
      exact (value_le_of_le hfinite isFinite_one hone).trans value_one.le

theorem HeldBelow.mul_natCast {x : Binary64} (h : HeldBelow 1 x) {n : ℕ} (hn : n ≤ 2 ^ 53) :
    HeldBelow n (x * (n : Binary64)) := by
  rcases h with hx | ⟨hx, hzero, hone⟩
  · exact Or.inl (isNaN_arith _ hx)
  have hproduct := nearest_mul hx (isFinite_natCast hn)
  rw [value_natCast hn] at hproduct
  have hnonneg : 0 ≤ value x * n := mul_nonneg hzero (Nat.cast_nonneg n)
  have hle : value x * n ≤ n := mul_le_of_le_one_left (Nat.cast_nonneg n) hone
  have hfinite : Scalar.isFinite (x * (n : Binary64)) = true := by
    have hsmall := natCast_lt_overflow hn
    rw [abs_of_nonneg (Nat.cast_nonneg n)] at hsmall
    rw [hproduct.finite_iff, abs_of_nonneg hnonneg]
    exact hle.trans_lt hsmall
  refine Or.inr ⟨hfinite, ?_⟩
  rw [hproduct.value_eq hfinite]
  exact ⟨rounded_nonneg hnonneg, (rounded_mono hle).trans_eq (rounded_natCast hn)⟩

theorem HeldBelow.nearest_le {x : Binary64} {n : ℕ} (h : HeldBelow n x) :
    Scalar.nearest x ≤ n := by
  rcases h with hx | ⟨hx, -, hle⟩
  · rw [nearest_of_isNaN hx]
    exact Nat.zero_le n
  · exact Binary64.nearest_le hx hle

end Binary64

namespace LookupTable

theorem heldBelow_fraction (t : LookupTable Binary64) (x : Binary64) :
    Binary64.HeldBelow 1 (t.fraction x) := by
  rw [fraction]
  split_ifs
  · exact Or.inr ⟨Binary64.isFinite_zero, le_rfl, zero_le_one⟩
  · exact Binary64.heldBelow_clamp _

theorem index_le {t : LookupTable Binary64} (h : t.size - 1 ≤ 2 ^ 53) (x : Binary64) :
    t.index x ≤ t.size - 1 :=
  ((t.heldBelow_fraction x).mul_natCast h).nearest_le

def steps (size : ℕ) : ℕ := max size 2 - 1

def bands (m : ColorMap Binary64) : ℕ := max m.numberOfValues 1

/-- A table of a map that is safe to build and to read: there are two entries at least, each of them
a sample for which only counts from one on were divided by, and a scalar that is a number is read
from the entry at an index in the table. -/
structure Reads (m : ColorMap Binary64) (size : ℕ) (t : LookupTable Binary64) : Prop where
  length : t.entries.length = max size 2
  divisors : 1 ≤ (steps size : Binary64) ∧ 1 ≤ (bands m : Binary64)
  sampled : ∀ i < max size 2, t.entries[i]? = some (m.sampler.rgba (m.range.denormalize
    (if m.discretize then (band ((i : Binary64) / (steps size : Binary64)) (bands m) + 0.5) /
        (bands m : Binary64)
      else (i : Binary64) / (steps size : Binary64))))
  undefined : ∀ x, Scalar.isNaN x = true → t.valueAt x = m.nanColor
  defined : ∀ x, Scalar.isNaN x = false →
    t.index x ≤ t.entries.length - 1 ∧ t.entries[t.index x]? = some (t.valueAt x)

theorem build_reads (m : ColorMap Binary64) {size : ℕ} (h : size ≤ 2 ^ 53) :
    (build m size).Reads m size where
  length := size_build m size
  divisors := ⟨Binary64.one_le_natCast (Nat.le_sub_of_add_le (le_max_right size 2)),
    Binary64.one_le_natCast (le_max_right _ 1)⟩
  sampled _ hi := getElem?_build m hi
  undefined _ hx := if_pos hx
  defined x hx := by
    have hsize : (build m size).entries.length = max size 2 := size_build m size
    have hlast : (build m size).entries.length - 1 ≤ 2 ^ 53 := by omega
    have hindex : (build m size).index x ≤ (build m size).entries.length - 1 := index_le hlast x
    have hlt : (build m size).index x < (build m size).entries.length := by omega
    refine ⟨hindex, ?_⟩
    rw [valueAt, hx, if_neg Bool.false_ne_true, List.getD_eq_getElem _ _ hlt]
    exact List.getElem?_eq_getElem hlt

end LookupTable

namespace TransferFunction

/-- Of every function, with whatever positions and counts, tables of all sizes up to `2 ^ 53` are
safe to build and to read, the one that is built with the stored size among them. -/
theorem tables_read (f : TransferFunction Binary64) {size : ℕ} (h : size ≤ 2 ^ 53) :
    (LookupTable.build f.toColorMap size).Reads f.toColorMap size ∧
      (f.tableSize ≤ 2 ^ 53 → ∃ t, f.finalize.table = some t ∧
        t.Reads f.toColorMap f.tableSize) :=
  ⟨LookupTable.build_reads _ h, fun hstored => ⟨_, rfl, LookupTable.build_reads _ hstored⟩⟩

def unboundedColors : TransferFunction Binary64 :=
  { ofPoints [.plain ⟨0x7FF8000000000000⟩ ⟨1, 0, 0⟩, .plain ⟨0xFFF0000000000000⟩ ⟨0, 1, 0⟩,
      .plain ⟨0x7FF0000000000000⟩ ⟨0, 0, 1⟩] with
    discretize := true
    numberOfValues := 0
    tableSize := 0 }

theorem unboundedColors_tables_read :
    1 ≤ 2 ^ 53 ∧
      (LookupTable.build unboundedColors.toColorMap 1).Reads unboundedColors.toColorMap 1 ∧
      unboundedColors.tableSize ≤ 2 ^ 53 ∧
      ∃ t, unboundedColors.finalize.table = some t ∧
        t.Reads unboundedColors.toColorMap unboundedColors.tableSize := by
  have hsize : 1 ≤ 2 ^ 53 := by decide
  have hstored : unboundedColors.tableSize ≤ 2 ^ 53 := by decide
  obtain ⟨hbuilt, hfinalized⟩ := unboundedColors.tables_read hsize
  exact ⟨hsize, hbuilt, hstored, hfinalized hstored⟩

end TransferFunction

end TransferCurves
