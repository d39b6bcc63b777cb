import TransferCurves.Proofs.Bracketing
import TransferCurves.Proofs.Mixture
import TransferCurves.Proofs.Positions

/-!
# Curves keep the order of their values

Over the exact rationals, where the values of a channel do not fall from one point of a sorted curve to
the next, the channel does not fall anywhere: not within a segment, not from segment to segment, not
where points share a position, and not where an end is held.
-/

namespace TransferCurves.ControlPoint

open scoped Scalar

variable {V : Type} [Channels Rat V] {nodes : List (ControlPoint Rat V)} {x y : Rat} {v w : V}

def Rising (ch : Channel V) (nodes : List (ControlPoint Rat V)) : Prop :=
  nodes.Pairwise fun p q => ch.read p.value ≤ ch.read q.value

def Falling (ch : Channel V) (nodes : List (ControlPoint Rat V)) : Prop :=
  nodes.Pairwise fun p q => ch.read q.value ≤ ch.read p.value

theorem Falling.rising_neg {ch : Channel V} (h : Falling ch nodes) : Rising ch.neg nodes :=
  h.imp fun hle => neg_le_neg hle

section

variable {ch : Channel V} (hvalues : Rising ch nodes)

include hvalues

theorem Rising.le_between {i : Nat} (hi : i + 1 < nodes.length) (hleft : nodes[i].position ≤ x)
    (hright : x < nodes[i + 1].position) :
    ch.read nodes[i].value ≤ ch.read (between nodes[i] nodes[i + 1] x) := by
  rw [read_between ch (hleft.trans_lt hright)]
  exact le_mix (weightAt_nonneg hleft hright) (le_of_index_le hvalues (Nat.le_succ i) hi)

theorem Rising.between_le {i : Nat} (hi : i + 1 < nodes.length) (hleft : nodes[i].position ≤ x)
    (hright : x < nodes[i + 1].position) :
    ch.read (between nodes[i] nodes[i + 1] x) ≤ ch.read nodes[i + 1].value := by
  rw [read_between ch (hleft.trans_lt hright)]
  exact mix_le (weightAt_le_one hleft hright) (le_of_index_le hvalues (Nat.le_succ i) hi)

theorem Rising.first_le_takes (h : 0 < nodes.length) (hw : Takes nodes y w) :
    ch.read nodes[0].value ≤ ch.read w := by
  cases hw with
  | first _ _ => exact le_refl _
  | last _ _ _ => exact le_of_index_le hvalues (Nat.zero_le _) _
  | inside j hj _ hleft hright =>
    exact (le_of_index_le hvalues (Nat.zero_le j) _).trans (hvalues.le_between hj hleft hright)

theorem Rising.takes_le (hsorted : nodes.Pairwise fun p q => p.position ≤ q.position)
    (hxy : x ≤ y) (hv : Takes nodes x v) (hw : Takes nodes y w) : ch.read v ≤ ch.read w := by
  cases hv with
  | first h _ => exact hvalues.first_le_takes h hw
  | last n h hfirst hx =>
    cases hw with
    | first _ hy => exact absurd (hxy.trans hy) hfirst.not_ge
    | last k hk _ _ =>
      obtain rfl : n = k := Nat.succ.inj (h.symm.trans hk)
      exact le_refl _
    | inside j hj _ _ hright =>
      have hend : nodes[j + 1].position ≤ nodes[n].position :=
        le_of_index_le hsorted (by omega) (by omega)
      exact absurd (hend.trans (hx.trans hxy)) hright.not_ge
  | inside i hi hfirst hleft hright =>
    cases hw with
    | first _ hy => exact absurd (hxy.trans hy) hfirst.not_ge
    | last _ _ _ =>
      exact (hvalues.between_le hi hleft hright).trans
        (le_of_index_le hvalues (by omega) (by omega))
    | inside j hj _ hleft' hright' =>
      rcases lt_trichotomy i j with hij | rfl | hji
      -- A later segment starts at or above where an earlier one ends.
      · calc ch.read (between nodes[i] nodes[i + 1] x)
            ≤ ch.read nodes[i + 1].value := hvalues.between_le hi hleft hright
          _ ≤ ch.read nodes[j].value := le_of_index_le hvalues hij _
          _ ≤ ch.read (between nodes[j] nodes[j + 1] y) := hvalues.le_between hj hleft' hright'
      · rw [read_between ch (hleft.trans_lt hright), read_between ch (hleft.trans_lt hright)]
        exact mix_mono (weightAt_mono hleft hxy hright')
          (le_of_index_le hvalues (Nat.le_succ i) hi)
      -- The segment of the greater position cannot be the earlier one.
      · have hback : nodes[j + 1].position ≤ nodes[i].position := le_of_index_le hsorted hji _
        exact absurd (hback.trans (hleft.trans hxy)) hright'.not_ge

end

/-- A curve in the order of its positions is evaluated as it stands. If a channel does not fall along
its points, it does not fall from one position to a greater one; and if it does not rise, it does
not rise. A curve without points takes no value. -/
theorem evaluate_monotone (ch : Channel V) (nodes : List (ControlPoint Rat V))
    (hsorted : nodes.Pairwise fun p q => p.position ≤ q.position) (x y : Rat) (hxy : x ≤ y) :
    sortByPosition nodes = nodes ∧ (nodes = [] ∨
      ∃ v w, evaluate nodes x = some v ∧ evaluate nodes y = some w ∧
        (Rising ch nodes → ch.read v ≤ ch.read w) ∧
        (Falling ch nodes → ch.read w ≤ ch.read v)) := by
  refine ⟨sortByPosition_of_sorted (sorted_iff.2 hsorted), ?_⟩
  rcases eq_or_ne nodes [] with hnil | hne
  · exact Or.inl hnil
  · obtain ⟨v, hv, htakes⟩ := evaluate_takes hne (fun _ _ => rfl) (x := x) rfl
    obtain ⟨w, hw, htakes'⟩ := evaluate_takes hne (fun _ _ => rfl) (x := y) rfl
    refine Or.inr ⟨v, w, hv, hw, ?_, ?_⟩
    · intro hrising
      exact hrising.takes_le hsorted hxy htakes htakes'
    · intro hfalling
      exact neg_le_neg_iff.1 (hfalling.rising_neg.takes_le hsorted hxy htakes htakes')

def jumpedOpacities : List (OpacityPoint Rat) :=
  [⟨0, 0, 0.3, 0.5⟩, ⟨1, 0.25, 0.5, 0⟩, ⟨1, 0.5, 0.9, 1⟩, ⟨2, 1, 0.5, 0⟩]

theorem jumpedOpacities_monotone :
    (jumpedOpacities.Pairwise fun p q => p.position ≤ q.position) ∧ (1 / 2 : Rat) ≤ 3 / 2 ∧
      Rising .opacity jumpedOpacities ∧ sortByPosition jumpedOpacities = jumpedOpacities ∧
      (jumpedOpacities = [] ∨
        ∃ v w, evaluate jumpedOpacities (1 / 2) = some v ∧
          evaluate jumpedOpacities (3 / 2) = some w ∧
          (Rising .opacity jumpedOpacities → Channel.opacity.read v ≤ Channel.opacity.read w) ∧
          (Falling .opacity jumpedOpacities →
            Channel.opacity.read w ≤ Channel.opacity.read v)) := by
  have hsorted : jumpedOpacities.Pairwise fun p q => p.position ≤ q.position := by
    decide +kernel
  have hxy : (1 / 2 : Rat) ≤ 3 / 2 := by decide +kernel
  have hrising : jumpedOpacities.Pairwise fun p q => p.value ≤ q.value := by decide +kernel
  exact ⟨hsorted, hxy, hrising, evaluate_monotone .opacity jumpedOpacities hsorted _ _ hxy⟩

end TransferCurves.ControlPoint
