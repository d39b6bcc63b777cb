import TransferCurves.LookupTable
import TransferCurves.Proofs.Binary64Value

/-!
# The bands a table shows

A banded table samples its map at the centers of bands. The band of an entry comes from two rounded
operations: how far along the table the entry stands, and that times the number of bands. The bands
never descend, and they run from the first to the last. Whether each one between them is met depends
on the roundings: there is room for an entry in every band, unless the step between entries and the
width of a band differ by less than `2 ^ (-51)`. With one entry more than bands the two are equal,
the entries stand on the ends of the bands, and of 22 bands one is missed.
-/

namespace TransferCurves.LookupTable

open scoped Scalar

/-- The product from which the band of entry `i` of `size` entries is taken, as doubles give it. -/
def bandPlace (bands size i : ℕ) : ℚ :=
  Binary64.rounded (Binary64.rounded (i / (size - 1 : ℕ)) * bands)

def bandIndex (bands size i : ℕ) : ℕ := min ⌊bandPlace bands size i⌋₊ (bands - 1)

section

variable {bands size i : ℕ}

theorem bandPlace_mono (bands size : ℕ) : Monotone (bandPlace bands size) := by
  intro i j hij
  have hcast : (i : ℚ) ≤ j := Nat.cast_le.2 hij
  have hfraction := Binary64.rounded_mono
    (div_le_div_of_nonneg_right hcast (Nat.cast_nonneg (size - 1)))
  exact Binary64.rounded_mono (mul_le_mul_of_nonneg_right hfraction bands.cast_nonneg)

theorem bandIndex_mono (bands size : ℕ) : Monotone (bandIndex bands size) :=
  fun _ _ hij => min_le_min (Nat.floor_le_floor (bandPlace_mono bands size hij)) le_rfl

theorem bandPlace_zero (bands size : ℕ) : bandPlace bands size 0 = 0 := by
  rw [bandPlace, Nat.cast_zero, zero_div, Binary64.rounded_zero, zero_mul, Binary64.rounded_zero]

theorem bandIndex_zero (bands size : ℕ) : bandIndex bands size 0 = 0 := by
  rw [bandIndex, bandPlace_zero, Nat.floor_zero, Nat.zero_min]

theorem bandPlace_last (hsize : 2 ≤ size) (hbands : bands ≤ 2 ^ 53) :
    bandPlace bands size (size - 1) = bands := by
  have hone : Binary64.rounded 1 = 1 := Binary64.rounded_two_zpow (k := 0) (by norm_num)
  have hpos : ((size - 1 : ℕ) : ℚ) ≠ 0 := Nat.cast_ne_zero.2 (by omega)
  rw [bandPlace, div_self hpos, hone, one_mul, Binary64.rounded_natCast hbands]

theorem bandIndex_last (hsize : 2 ≤ size) (hbands : bands ≤ 2 ^ 53) :
    bandIndex bands size (size - 1) = bands - 1 := by
  rw [bandIndex, bandPlace_last hsize hbands, Nat.floor_natCast, min_eq_right (Nat.sub_le _ _)]

theorem le_fraction (hi : 1 ≤ i) (hsize : 2 ≤ size) (hlarge : size ≤ 2 ^ 53) :
    (2 : ℚ) ^ (-53 : ℤ) ≤ i / (size - 1 : ℕ) := by
  have hpos : (0 : ℚ) < (size - 1 : ℕ) := Nat.cast_pos.2 (by omega)
  have hcount : ((size - 1 : ℕ) : ℚ) ≤ 2 ^ 53 := by
    exact_mod_cast (Nat.sub_le size 1).trans hlarge
  rw [le_div_iff₀ hpos]
  calc (2 : ℚ) ^ (-53 : ℤ) * (size - 1 : ℕ) ≤ 2 ^ (-53 : ℤ) * 2 ^ 53 :=
        mul_le_mul_of_nonneg_left hcount (Binary64.two_zpow_pos _).le
    _ = 1 := by norm_num
    _ ≤ i := Nat.one_le_cast.2 hi

theorem rounded_fraction_le_one (hi : i < size) : Binary64.rounded (i / (size - 1 : ℕ)) ≤ 1 := by
  have hone : Binary64.rounded 1 = 1 := Binary64.rounded_two_zpow (k := 0) (by norm_num)
  rw [← hone]
  refine Binary64.rounded_mono (div_le_one_of_le₀ ?_ (Nat.cast_nonneg _))
  exact_mod_cast (by omega : i ≤ size - 1)

theorem le_rounded_fraction (hi : 1 ≤ i) (hsize : 2 ≤ size) (hlarge : size ≤ 2 ^ 53) :
    (2 : ℚ) ^ (-53 : ℤ) ≤ Binary64.rounded (i / (size - 1 : ℕ)) := by
  rw [← Binary64.rounded_two_zpow (k := -53) (by norm_num)]
  exact Binary64.rounded_mono (le_fraction hi hsize hlarge)

end

section

variable {bands size i : ℕ} (hbands : 1 ≤ bands) (hsize : max bands 2 ≤ size)
  (hlarge : size ≤ 2 ^ 53) (hi : i < size)

include hbands hsize hlarge hi

omit hbands in
theorem fraction_values :
    Scalar.isFinite ((i : Binary64) / ((size - 1 : ℕ) : Binary64)) = true ∧
      Binary64.value ((i : Binary64) / ((size - 1 : ℕ) : Binary64)) =
        Binary64.rounded (i / (size - 1 : ℕ)) := by
  have hcount : size - 1 ≤ 2 ^ 53 := (Nat.sub_le size 1).trans hlarge
  have hindex : i ≤ 2 ^ 53 := hi.le.trans hlarge
  have hpos : ((size - 1 : ℕ) : ℚ) ≠ 0 := Nat.cast_ne_zero.2 (by omega)
  have hnearest := Binary64.nearest_div (Binary64.isFinite_natCast hindex)
    (Binary64.isFinite_natCast hcount) (by rwa [Binary64.value_natCast hcount])
  rw [Binary64.value_natCast hindex, Binary64.value_natCast hcount] at hnearest
  have hsmall : |(i : ℚ) / (size - 1 : ℕ)| < Binary64.overflow := by
    have hle : |(i : ℚ) / (size - 1 : ℕ)| ≤ |((1 : ℕ) : ℚ)| := by
      rw [abs_of_nonneg (by positivity), Nat.cast_one, abs_one]
      refine div_le_one_of_le₀ ?_ (Nat.cast_nonneg _)
      exact_mod_cast (by omega : i ≤ size - 1)
    exact hle.trans_lt (Binary64.natCast_lt_overflow (by norm_num))
  have hfinite := hnearest.finite_iff.2 hsmall
  exact ⟨hfinite, hnearest.value_eq hfinite⟩

omit hbands in
theorem product_values :
    Scalar.isFinite ((i : Binary64) / ((size - 1 : ℕ) : Binary64) * (bands : Binary64)) = true ∧
      Binary64.value ((i : Binary64) / ((size - 1 : ℕ) : Binary64) * (bands : Binary64)) =
        bandPlace bands size i := by
  obtain ⟨hfinite, hvalue⟩ := fraction_values hsize hlarge hi
  have hcount : bands ≤ 2 ^ 53 := by omega
  have hnearest := Binary64.nearest_mul hfinite (Binary64.isFinite_natCast hcount)
  rw [hvalue, Binary64.value_natCast hcount] at hnearest
  have hsmall : |Binary64.rounded (i / (size - 1 : ℕ)) * bands| < Binary64.overflow := by
    have hnonneg : 0 ≤ Binary64.rounded (i / (size - 1 : ℕ)) :=
      Binary64.rounded_nonneg (by positivity)
    refine lt_of_le_of_lt ?_ (Binary64.natCast_lt_overflow hcount)
    rw [abs_mul, abs_of_nonneg hnonneg]
    exact mul_le_of_le_one_left (abs_nonneg _) (rounded_fraction_le_one hi)
  have hproduct := hnearest.finite_iff.2 hsmall
  exact ⟨hproduct, hnearest.value_eq hproduct⟩

theorem floor_product :
    Scalar.floor ((i : Binary64) / ((size - 1 : ℕ) : Binary64) * (bands : Binary64)) =
      (⌊bandPlace bands size i⌋₊ : Binary64) := by
  have hcount : bands ≤ 2 ^ 53 := by omega
  rcases Nat.eq_zero_or_pos i with rfl | hpos
  · have hzero : ((0 : ℕ) : Binary64) = 0 := rfl
    rw [bandPlace_zero, Nat.floor_zero, hzero,
      Binary64.zero_div_natCast (by omega) ((Nat.sub_le size 1).trans hlarge),
      Binary64.zero_mul_natCast hbands hcount]
    rfl
  · obtain ⟨hfinite, hvalue⟩ := product_values hsize hlarge hi
    have hplace : 0 < bandPlace bands size i := by
      have hfraction := le_rounded_fraction hpos (by omega) hlarge
      have hstep : Binary64.rounded (2 ^ (-53 : ℤ)) = 2 ^ (-53 : ℤ) :=
        Binary64.rounded_two_zpow (by norm_num)
      refine (Binary64.two_zpow_pos (-53)).trans_le (hstep ▸ Binary64.rounded_mono ?_)
      exact hfraction.trans (le_mul_of_one_le_right
        ((Binary64.two_zpow_pos _).le.trans hfraction) (Nat.one_le_cast.2 hbands))
    have hmost : bandPlace bands size i ≤ 2 ^ 53 := by
      have hmono := bandPlace_mono bands size (Nat.le_sub_one_of_lt hi)
      rw [bandPlace_last (by omega) hcount] at hmono
      exact hmono.trans (by exact_mod_cast hcount)
    rw [Binary64.floor_eq hfinite (hvalue ▸ hplace) (hvalue ▸ hmost), hvalue]

theorem band_eq : band ((i : Binary64) / ((size - 1 : ℕ) : Binary64)) bands =
    (bandIndex bands size i : Binary64) := by
  have hcount : bands ≤ 2 ^ 53 := by omega
  have hplace : ⌊bandPlace bands size i⌋₊ ≤ 2 ^ 53 := by
    have hmono := bandPlace_mono bands size (Nat.le_sub_one_of_lt hi)
    rw [bandPlace_last (by omega) hcount] at hmono
    exact (Nat.floor_le_of_le hmono).trans hcount
  rw [band, floor_product hbands hsize hlarge hi, Binary64.natCast_sub_one hbands hcount,
    Binary64.natCast_min hplace ((Nat.sub_le _ _).trans hcount), bandIndex]

end

section

variable {bands size i k : ℕ}

theorem bandIndex_eq (hk : k < bands) (hlow : (k : ℚ) ≤ bandPlace bands size i)
    (hhigh : bandPlace bands size i < k + 1) : bandIndex bands size i = k := by
  have hnonneg : 0 ≤ bandPlace bands size i := k.cast_nonneg.trans hlow
  rw [bandIndex, (Nat.floor_eq_iff hnonneg).2 ⟨hlow, hhigh⟩, min_eq_left (Nat.le_sub_one_of_lt hk)]

theorem abs_bandPlace_sub_le (hbands : 1 ≤ bands) (hsize : 2 ≤ size) (hlarge : size ≤ 2 ^ 53)
    (hi : 1 ≤ i) :
    |bandPlace bands size i - i / (size - 1 : ℕ) * bands| ≤
      i / (size - 1 : ℕ) * bands / 2 ^ 52 + i / (size - 1 : ℕ) * bands / 2 ^ 106 := by
  have hleast : (2 : ℚ) ^ (-1022 : ℤ) ≤ 2 ^ (-53 : ℤ) := Binary64.two_zpow_le.2 (by norm_num)
  have hfraction := le_fraction hi hsize hlarge
  have hrounded := le_rounded_fraction hi hsize hlarge
  have hquotient := Binary64.abs_rounded_sub_le (hleast.trans hfraction)
  rw [bandPlace]
  generalize Binary64.rounded (i / (size - 1 : ℕ)) = t at *
  generalize (i / (size - 1 : ℕ) : ℚ) = x at *
  have hn : (1 : ℚ) ≤ bands := Nat.one_le_cast.2 hbands
  have ht : 0 < t := (Binary64.two_zpow_pos _).trans_le hrounded
  have hproduct := Binary64.abs_rounded_sub_le
    ((hleast.trans hrounded).trans (le_mul_of_one_le_right ht.le hn))
  have hscaled : |t * bands - x * bands| ≤ x * bands / 2 ^ 53 := by
    rw [← sub_mul, abs_mul, abs_of_nonneg (zero_le_one.trans hn), mul_div_right_comm]
    exact mul_le_mul_of_nonneg_right hquotient (zero_le_one.trans hn)
  have htriangle := abs_sub_le (Binary64.rounded (t * bands)) (t * bands) (x * bands)
  have habove := (abs_le.1 hscaled).2
  calc |Binary64.rounded (t * bands) - x * bands|
      ≤ t * bands / 2 ^ 53 + x * bands / 2 ^ 53 := by linarith
    _ ≤ (x * bands + x * bands / 2 ^ 53) / 2 ^ 53 + x * bands / 2 ^ 53 := by
        have hle : t * bands ≤ x * bands + x * bands / 2 ^ 53 := by linarith
        exact add_le_add_left (div_le_div_of_nonneg_right hle (by positivity)) _
    _ = x * bands / 2 ^ 52 + x * bands / 2 ^ 106 := by ring

theorem exists_clear_entry (hsize : bands ≤ size) (hk : 1 ≤ k) (hk' : k + 1 < bands)
    (hclear : bands * (size - 1) ≤ ((size : ℤ) - 1 - bands).natAbs * 2 ^ 51) :
    ∃ i : ℕ, 1 ≤ i ∧ (k : ℚ) + bands / 2 ^ 52 ≤ i / (size - 1 : ℕ) * bands ∧
      (i : ℚ) / (size - 1 : ℕ) * bands ≤ k + 1 - bands / 2 ^ 52 := by
  obtain ⟨s, rfl⟩ : ∃ s, size = s + 1 := Nat.exists_eq_add_one_of_ne_zero (by omega)
  rw [Nat.add_sub_cancel] at hclear ⊢
  have hcast : (((s + 1 : ℕ) : ℤ) - 1 - bands).natAbs = ((s : ℤ) - bands).natAbs := by
    push_cast
    rw [add_sub_cancel_right]
  rw [hcast] at hclear
  have hs : (0 : ℚ) < s := Nat.cast_pos.2 (by omega)
  have hn : (0 : ℚ) < bands := Nat.cast_pos.2 (by omega)
  rcases Nat.lt_trichotomy s bands with hless | rfl | hmore
  -- One entry for each band: entry `k` stands in band `k`, `k / s` above its lower end.
  · obtain rfl : bands = s + 1 := by omega
    have hone : ((s : ℤ) - (s + 1 : ℕ)).natAbs = 1 := by omega
    rw [hone, one_mul] at hclear
    have hclear' : ((s + 1 : ℕ) : ℚ) * s ≤ 2 ^ 51 := by exact_mod_cast hclear
    have hlow : (1 : ℚ) ≤ k := Nat.one_le_cast.2 hk
    have hhigh : (k : ℚ) + 1 ≤ s := by exact_mod_cast (by omega : k + 1 ≤ s)
    have hstep : ((s + 1 : ℕ) : ℚ) / 2 ^ 52 ≤ 1 / s := by
      rw [div_le_div_iff₀ (by positivity) hs]
      linarith
    have hplace : (k : ℚ) / s * (s + 1 : ℕ) = k + k / s := by
      push_cast
      field_simp
    have hfrom : 1 / s ≤ (k : ℚ) / s := div_le_div_of_nonneg_right hlow hs.le
    have hto : (k : ℚ) / s ≤ 1 - 1 / s := by
      rw [le_sub_iff_add_le, ← add_div, div_le_one hs]
      exact hhigh
    exact ⟨k, hk, by linarith, by linarith⟩
  · rw [sub_self, Int.natAbs_zero, zero_mul] at hclear
    exact absurd (Nat.mul_pos (by omega : 0 < s) (by omega : 0 < s)) hclear.not_gt
  -- More entries than bands: the first entry past the lower end, by more than the error.
  · have hmany : ((s : ℤ) - bands).natAbs = s - bands := by omega
    rw [hmany] at hclear
    have hclear' : (bands : ℚ) * s ≤ (s - bands) * 2 ^ 51 := by
      rw [← Nat.cast_sub hmore.le]
      exact_mod_cast hclear
    have hroom : (bands : ℚ) / 2 ^ 51 + bands / s ≤ 1 := by
      rw [div_add_div _ _ (by positivity) hs.ne', div_le_one (by positivity)]
      linarith
    have hhalf : (bands : ℚ) / 2 ^ 51 = bands / 2 ^ 52 + bands / 2 ^ 52 := by ring
    have hstart : 0 < ((k : ℚ) + bands / 2 ^ 52) * s / bands := by positivity
    have hfirst := Nat.le_ceil (((k : ℚ) + bands / 2 ^ 52) * s / bands)
    have hnext := Nat.ceil_lt_add_one hstart.le
    have hentry := Nat.ceil_pos.2 hstart
    generalize ⌈((k : ℚ) + bands / 2 ^ 52) * s / bands⌉₊ = i at *
    refine ⟨i, hentry, ?_, ?_⟩
    · rw [div_le_iff₀ hn] at hfirst
      rwa [div_mul_eq_mul_div, le_div_iff₀ hs]
    · have hbelow : (i : ℚ) / s * bands ≤ k + bands / 2 ^ 52 + bands / s := by
        rw [div_mul_eq_mul_div, ← sub_le_iff_le_add, ← sub_div, div_le_iff₀ hs]
        rw [← sub_lt_iff_lt_add, lt_div_iff₀ hn] at hnext
        linarith
      linarith

theorem exists_bandIndex_eq (hsize : max bands 2 ≤ size) (hlarge : size ≤ 2 ^ 53)
    (hclear : bands * (size - 1) ≤ ((size : ℤ) - 1 - bands).natAbs * 2 ^ 51) (hk : k < bands) :
    ∃ i < size, bandIndex bands size i = k := by
  have htwo : 2 ≤ size := le_of_max_le_right hsize
  have hcount : bands ≤ size := le_of_max_le_left hsize
  rcases Nat.eq_zero_or_pos k with rfl | hpos
  · exact ⟨0, by omega, bandIndex_zero bands size⟩
  rcases Nat.lt_or_ge (k + 1) bands with hinner | hlast
  · obtain ⟨i, hi, hlow, hhigh⟩ := exists_clear_entry hcount hpos hinner hclear
    have hone : 1 ≤ bands := by omega
    have herror := abs_bandPlace_sub_le hone htwo hlarge hi
    have hs : (0 : ℚ) < (size - 1 : ℕ) := Nat.cast_pos.2 (by omega)
    have hn : (0 : ℚ) < bands := Nat.cast_pos.2 (by omega)
    have hn' : (bands : ℚ) ≤ 2 ^ 53 := by exact_mod_cast hcount.trans hlarge
    have hk' : (k : ℚ) + 1 ≤ bands - 1 := by
      rw [le_sub_iff_add_le]
      exact_mod_cast hinner
    have hstep : 0 < (bands : ℚ) / 2 ^ 52 := by positivity
    have hindex : i < size := by
      have hlt : (i : ℚ) / (size - 1 : ℕ) * bands < bands := by linarith
      rw [mul_lt_iff_lt_one_left hn, div_lt_one hs, Nat.cast_lt] at hlt
      omega
    have hnear : |bandPlace bands size i - i / (size - 1 : ℕ) * bands| < bands / 2 ^ 52 := by
      refine herror.trans_lt ?_
      linarith
    obtain ⟨hbelow, habove⟩ := abs_lt.1 hnear
    exact ⟨i, hindex, bandIndex_eq hk (by linarith) (by linarith)⟩
  · obtain rfl : k = bands - 1 := by omega
    exact ⟨size - 1, by omega, bandIndex_last htwo (hcount.trans hlarge)⟩

/-- With one entry more than there are bands, entries stand on the ends of the bands, and only the
two entries at its own ends can show a band. -/
theorem exists_bandIndex_iff_of_aligned (hcount : bands ≤ 2 ^ 50) (hk : k + 1 < bands) :
    (∃ i < bands + 1, bandIndex bands (bands + 1) i = k) ↔
      k ≤ bandPlace bands (bands + 1) k ∨ bandPlace bands (bands + 1) (k + 1) < k + 1 := by
  have hnear {i : ℕ} (hi : i < bands + 1) : |bandPlace bands (bands + 1) i - i| < 1 := by
    rcases Nat.eq_zero_or_pos i with rfl | hpos
    · rw [bandPlace_zero, Nat.cast_zero, sub_self, abs_zero]
      exact one_pos
    · have hn : (bands : ℚ) ≠ 0 := Nat.cast_ne_zero.2 (by omega)
      have hone : 1 ≤ bands := by omega
      have hlarge : bands + 1 ≤ 2 ^ 53 := by omega
      have herror := abs_bandPlace_sub_le hone (by omega) hlarge hpos
      rw [Nat.add_sub_cancel, div_mul_cancel₀ _ hn] at herror
      have hle : (i : ℚ) ≤ 2 ^ 50 := by exact_mod_cast (Nat.lt_succ_iff.1 hi).trans hcount
      refine herror.trans_lt ?_
      linarith
  constructor
  · rintro ⟨i, hi, hband⟩
    have hfloor : ⌊bandPlace bands (bands + 1) i⌋₊ = k := by
      rw [bandIndex] at hband
      omega
    obtain ⟨hbelow, habove⟩ := abs_lt.1 (hnear hi)
    have hplace : 0 ≤ bandPlace bands (bands + 1) i := by
      rw [← bandPlace_zero bands (bands + 1)]
      exact bandPlace_mono bands (bands + 1) (Nat.zero_le i)
    obtain ⟨hlow, hhigh⟩ := (Nat.floor_eq_iff hplace).1 hfloor
    have hfrom : (k : ℚ) < (i + 1 : ℕ) := by
      push_cast
      linarith
    have hto : (i : ℚ) < (k + 2 : ℕ) := by
      push_cast
      linarith
    rw [Nat.cast_lt] at hfrom hto
    rcases (by omega : i = k ∨ i = k + 1) with rfl | rfl
    · exact Or.inl hlow
    · exact Or.inr hhigh
  · rintro (hlow | hhigh)
    · have habove := (abs_lt.1 (hnear (i := k) (by omega))).2
      exact ⟨k, by omega, bandIndex_eq (by omega) hlow (by linarith)⟩
    · have hbelow := (abs_lt.1 (hnear (i := k + 1) (by omega))).1
      push_cast at hbelow
      exact ⟨k + 1, by omega, bandIndex_eq (by omega) (by linarith) hhigh⟩

end

/-- A banded table shows, entry by entry, the centers of bands that never descend, from the first
band to the last. It shows all of them if the step between entries, `1 / (size - 1)`, and the width
of a band differ by `2 ^ (-51)` at least. Where the two are equal, a band is missing exactly if the
entry at its lower end falls short of it and the one at its upper end does not. -/
theorem build_bands (m : ColorMap Binary64) {size : ℕ} (hbanded : m.discretize = true)
    (hvalues : 1 ≤ m.numberOfValues) (hsize : max m.numberOfValues 2 ≤ size)
    (hlarge : size ≤ 2 ^ 53) :
    (∀ i < size,
      band ((i : Binary64) / ((size - 1 : ℕ) : Binary64)) m.numberOfValues =
          (bandIndex m.numberOfValues size i : Binary64) ∧
        (build m size).entries[i]? = some (m.sampler.rgba (m.range.denormalize
          (((bandIndex m.numberOfValues size i : Binary64) + 0.5) /
            (m.numberOfValues : Binary64))))) ∧
      Monotone (bandIndex m.numberOfValues size) ∧
      bandIndex m.numberOfValues size 0 = 0 ∧
      bandIndex m.numberOfValues size (size - 1) = m.numberOfValues - 1 ∧
      (m.numberOfValues * (size - 1) ≤ ((size : ℤ) - 1 - m.numberOfValues).natAbs * 2 ^ 51 →
        ∀ k < m.numberOfValues, ∃ i < size, bandIndex m.numberOfValues size i = k) ∧
      (size = m.numberOfValues + 1 → m.numberOfValues ≤ 2 ^ 50 → ∀ k, k + 1 < m.numberOfValues →
        ((∃ i < size, bandIndex m.numberOfValues size i = k) ↔
          k ≤ bandPlace m.numberOfValues size k ∨
            bandPlace m.numberOfValues size (k + 1) < k + 1)) := by
  have htwo : 2 ≤ size := le_of_max_le_right hsize
  have hcount : m.numberOfValues ≤ size := le_of_max_le_left hsize
  refine ⟨fun i hi => ?_, bandIndex_mono _ _, bandIndex_zero _ _,
    bandIndex_last htwo (hcount.trans hlarge), fun hclear k hk => ?_, ?_⟩
  · have hband := band_eq hvalues hsize hlarge hi
    have hfraction : sampleFraction m size i =
        ((bandIndex m.numberOfValues size i : Binary64) + 0.5) / (m.numberOfValues : Binary64) := by
      have hcenter : sampleFraction m size i =
          bandCenter ((i : Binary64) / ((size - 1 : ℕ) : Binary64)) (max m.numberOfValues 1) :=
        if_pos hbanded
      rw [hcenter, max_eq_left hvalues, bandCenter, hband]
    refine ⟨hband, ?_⟩
    rw [← hfraction, getElem?_build m (lt_max_of_lt_left hi), max_eq_left htwo]
  · exact exists_bandIndex_eq hsize hlarge hclear hk
  · rintro rfl hsmall k hk
    exact exists_bandIndex_iff_of_aligned hsmall hk

def bandedRamp (bands : ℕ) : ColorMap Binary64 :=
  { ColorMap.ofPoints [.plain 0 ⟨0, 0, 0⟩, .plain 1 ⟨1, 1, 1⟩] with
    discretize := true
    numberOfValues := bands }

theorem bandedRamp_shows_all :
    (bandedRamp 22).discretize = true ∧ 1 ≤ (bandedRamp 22).numberOfValues ∧
      max (bandedRamp 22).numberOfValues 2 ≤ 24 ∧ 24 ≤ 2 ^ 53 ∧
      22 * (24 - 1) ≤ (((24 : ℕ) : ℤ) - 1 - (22 : ℕ)).natAbs * 2 ^ 51 ∧
      ∀ k < 22, ∃ i < 24, bandIndex 22 24 i = k := by
  have hvalues : 1 ≤ (bandedRamp 22).numberOfValues := by decide
  have hsize : max (bandedRamp 22).numberOfValues 2 ≤ 24 := by decide
  have hclear : 22 * (24 - 1) ≤ (((24 : ℕ) : ℤ) - 1 - (22 : ℕ)).natAbs * 2 ^ 51 := by decide
  have hbands := build_bands (bandedRamp 22) rfl hvalues hsize (by decide)
  exact ⟨rfl, hvalues, hsize, by decide, hclear, hbands.2.2.2.2.1 hclear⟩

/-- The fifteenth of the 22 bands, counted from zero, is not in a table of 23 entries: the entry at
its lower end falls short of it by a rounding, and the next one stands at its upper end. -/
theorem bandedRamp_loses_band :
    ∃ k < (bandedRamp 22).numberOfValues,
      (∀ i < (23 : ℕ), band ((i : Binary64) / ((23 - 1 : ℕ) : Binary64))
        (bandedRamp 22).numberOfValues ≠ (k : Binary64)) ∧
      (bandedRamp 22).sampler.rgba ((bandedRamp 22).range.denormalize
        (((k : Binary64) + 0.5) / ((bandedRamp 22).numberOfValues : Binary64))) ∉
          (build (bandedRamp 22) 23).entries := by
  refine ⟨15, by decide, ?_, ?_⟩
  · decide +kernel
  · decide +kernel

end TransferCurves.LookupTable
