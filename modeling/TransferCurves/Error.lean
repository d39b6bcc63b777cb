/-!
# Causes of failure

Every operation that can fail says why with a value of one of these types. The wording is elsewhere
(`CurveError.message`), so that a theorem can speak of the cause.
-/

namespace TransferCurves

inductive Quantity where
  | rangeBound
  | targetBound
  | plotExtent
  | plotInverse
deriving DecidableEq

inductive ConfigFault (α : Type) where
  | catchWidth (width : α)
  | tableSize (size : Nat)
  | transparencyBounds (floor ceiling : α)
  | emptyRange (min max : α)
  | paletteWidth
deriving DecidableEq

inductive CurveError (α : Type) where
  | degenerateRange (lo hi : α)
  | nonFinite (what : Quantity)
  | pointOutOfBounds (index size : Nat)
  | invalidConfig (fault : ConfigFault α)
deriving DecidableEq

/-- An operation that may fail once it has begun: the state it leaves, failed or not, and its
verdict. -/
structure Attempt (α σ : Type) where
  state : σ
  verdict : Except (CurveError α) Unit

namespace Attempt

variable {α σ τ : Type}

def done (s : σ) : Attempt α σ := ⟨s, .ok ()⟩

def fail (s : σ) (e : CurveError α) : Attempt α σ := ⟨s, .error e⟩

def map (f : σ → τ) (r : Attempt α σ) : Attempt α τ := ⟨f r.state, r.verdict⟩

end Attempt

end TransferCurves
