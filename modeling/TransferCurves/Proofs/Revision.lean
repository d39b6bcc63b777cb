import TransferCurves.Binary64
import TransferCurves.Proofs.Edit
import TransferCurves.SharedFunction
import Mathlib.Tactic.SplitIfs

/-!
# What the revision tells

The revision of a function never falls, and while it stays the function shows the same and has the
same tables, although some calls change what is stored and count no change. A shared function has
the revision of the function that is held in its place. There it falls, and only there, where a
function with a smaller revision is put in the place of another.
-/

namespace TransferCurves

open scoped Scalar

variable {α : Type}

namespace TransferFunction

theorem revision_setPoint {f : TransferFunction α} {index : Nat} {p : ColorPoint α}
    (h : (f.setPoint index p).verdict = .ok ()) :
    (f.setPoint index p).state.revision = f.revision + 1 := by
  rw [setPoint] at h ⊢
  split_ifs at h ⊢
  · rfl
  · cases h

variable [Scalar α]

theorem revision_remap {source target : TransferFunction α} {range : Range α} {a b : α}
    (h : (source.remap target range a b).verdict = .ok ()) :
    (source.remap target range a b).state.2.revision = target.revision + 2 := by
  rcases source.remap_cases target range a b with ⟨e, hcase⟩ | ⟨e, hcase⟩ | ⟨cs, os, hcase⟩
  · rw [hcase] at h
    cases h
  · rw [hcase] at h
    cases h
  · rw [hcase]
    rfl

theorem revision_remapInPlace {f : TransferFunction α} {a b : α}
    (h : (f.remapInPlace a b).verdict = .ok ()) :
    (f.remapInPlace a b).state.revision = f.revision + 2 := by
  rcases f.remapInPlace_cases a b with ⟨e, hcase⟩ | ⟨e, hcase⟩ | hcase
  · rw [hcase] at h
    cases h
  · rw [hcase] at h
    cases h
  · rw [hcase]
    rfl

end TransferFunction

variable [Scalar α]

inductive Write (α : Type)
  | edit (e : Edit α)
  | reshape (change : OpacityCurve α → OpacityCurve α)
  | replace (incoming : TransferFunction α)

namespace Write

def apply (f : TransferFunction α) : Write α → TransferFunction α
  | .edit e => e.apply f
  | .reshape change => f.editOpacity change
  | .replace incoming => f.replaceWith incoming

def run (f : TransferFunction α) : List (Write α) → TransferFunction α
  | [] => f
  | w :: ws => run (w.apply f) ws

def Counts (f : TransferFunction α) : Write α → Prop
  | .edit (.setPoint index p) => (f.setPoint index p).verdict = .ok ()
  | .edit (.addPoint _) | .edit .removeAllPoints | .edit .reverse | .edit (.setNanColor _) => True
  | .edit (.remapOnto source range a b) => (source.remap f range a b).verdict = .ok ()
  | .edit (.remapInPlace a b) => (f.remapInPlace a b).verdict = .ok ()
  | _ => False

theorem revision_lt_apply {f : TransferFunction α} {w : Write α} (h : w.Counts f) :
    f.revision < (w.apply f).revision := by
  cases w with
  | edit e =>
    cases e with
    | setPoint index p =>
      have hrevision := TransferFunction.revision_setPoint h
      exact Nat.lt_of_succ_le (Nat.le_of_eq hrevision.symm)
    | addPoint p => exact Nat.lt_succ_self _
    | removeAllPoints => exact Nat.lt_succ_self _
    | reverse => exact Nat.lt_succ_self _
    | setNanColor c => exact Nat.lt_succ_self _
    | remapOnto source range a b =>
      have hrevision := TransferFunction.revision_remap h
      exact Nat.lt_of_lt_of_eq (Nat.lt_add_of_pos_right Nat.two_pos) hrevision.symm
    | remapInPlace a b =>
      have hrevision := TransferFunction.revision_remapInPlace h
      exact Nat.lt_of_lt_of_eq (Nat.lt_add_of_pos_right Nat.two_pos) hrevision.symm
    | _ => exact h.elim
  | reshape change => exact h.elim
  | replace incoming => exact h.elim

theorem revision_apply_lt_iff {f : TransferFunction α} {w : Write α} :
    (w.apply f).revision < f.revision ↔
      ∃ incoming, w = .replace incoming ∧ incoming.revision + 2 < f.revision := by
  constructor
  · intro h
    cases w with
    | edit e => exact absurd h (Nat.not_lt.2 (e.apply_outcome f).revision_le)
    | reshape change => exact absurd h (Nat.lt_irrefl _)
    | replace incoming => exact ⟨incoming, rfl, h⟩
  · rintro ⟨incoming, rfl, h⟩
    exact h

/-- In every step of a run the revision of a shared function grows if the call counts, and falls
only in a replacement by a function that is more than two behind. A replacement makes it grow if
the newcomer is less than two behind. -/
theorem revision_step (f : TransferFunction α) (ws : List (Write α)) (w : Write α) :
    let g := run f ws
    (w.Counts g → g.revision < (w.apply g).revision) ∧
      ((w.apply g).revision < g.revision ↔
        ∃ incoming, w = .replace incoming ∧ incoming.revision + 2 < g.revision) ∧
      ∀ incoming, g.revision < ((replace incoming).apply g).revision ↔
        g.revision < incoming.revision + 2 :=
  ⟨revision_lt_apply, revision_apply_lt_iff, fun _ => Iff.rfl⟩

theorem replacement_lowers_revision :
    ¬∀ (f : TransferFunction Binary64) (ws : List (Write Binary64)) (w : Write Binary64),
      let g := run f ws
      g.revision ≤ (w.apply g).revision ∧
        (w.Counts g ∨ (∃ incoming, w = .replace incoming) → g.revision < (w.apply g).revision) := by
  intro h
  let black : Edit Binary64 := .addPoint (.plain 0 ⟨0, 0, 0⟩)
  have hstep := h .empty [.edit black, .edit black, .edit black] (.replace .empty)
  exact absurd hstep.1 (by decide)

end Write

end TransferCurves
