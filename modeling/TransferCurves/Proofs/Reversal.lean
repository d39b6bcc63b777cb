import TransferCurves.Proofs.Binary64TotalOrder
import TransferCurves.Proofs.Positions
import TransferCurves.Retiming

/-!
# Reversal

Reversing a function hands the positions of its color points out end for end and leaves values and
shapes where they are stored. The same comes of exchanging the positions of two points at a time,
from the ends inwards up to the middle. Where the points are stored by increasing position, the
reversed function meets the old positions in order, with values and shapes the other way round.
-/

namespace TransferCurves

open scoped Scalar

namespace ControlPoint

section

variable {α V : Type}

def payload (p : ControlPoint α V) : V × α × α := (p.value, p.midpoint, p.sharpness)

def endForEnd (ps : List (ControlPoint α V)) : List (ControlPoint α V) :=
  ps.zipWith (fun p x => { p with position := x }) (ps.map (·.position)).reverse

theorem length_endForEnd (ps : List (ControlPoint α V)) : (endForEnd ps).length = ps.length := by
  simp [endForEnd]

theorem getElem?_endForEnd {ps : List (ControlPoint α V)} {i : ℕ} {p q : ControlPoint α V}
    (hp : ps[i]? = some p) (hq : ps[ps.length - 1 - i]? = some q) :
    (endForEnd ps)[i]? = some { p with position := q.position } := by
  have hi : i < (ps.map (·.position)).length := by
    rw [List.length_map]
    exact (List.getElem?_eq_some_iff.1 hp).1
  simp [endForEnd, List.getElem?_zipWith, List.getElem?_reverse hi, hp, hq]

theorem map_position_endForEnd (ps : List (ControlPoint α V)) :
    (endForEnd ps).map (·.position) = (ps.map (·.position)).reverse := by
  refine List.ext_getElem (by simp [endForEnd]) fun i hi hi' => ?_
  simp [endForEnd]

theorem map_payload_endForEnd (ps : List (ControlPoint α V)) :
    (endForEnd ps).map payload = ps.map payload := by
  refine List.ext_getElem (by simp [endForEnd]) fun i hi hi' => ?_
  simp [endForEnd, payload]

theorem eq_of_map_eq {ps qs : List (ControlPoint α V)}
    (hposition : ps.map (·.position) = qs.map (·.position))
    (hpayload : ps.map payload = qs.map payload) : ps = qs := by
  induction ps generalizing qs with
  | nil => exact (List.map_eq_nil_iff.1 hposition.symm).symm
  | cons p ps ih =>
    cases qs with
    | nil => cases hposition
    | cons q qs =>
      obtain ⟨hp, hps⟩ := List.cons.inj hposition
      obtain ⟨hp', hps'⟩ := List.cons.inj hpayload
      have hpq : p = q := by
        cases p
        cases q
        simp_all [payload]
      rw [hpq, ih hps hps']

theorem endForEnd_endForEnd (ps : List (ControlPoint α V)) : endForEnd (endForEnd ps) = ps := by
  refine eq_of_map_eq ?_ ?_
  · rw [map_position_endForEnd, map_position_endForEnd, List.reverse_reverse]
  · rw [map_payload_endForEnd, map_payload_endForEnd]

def exchange (ps : List (ControlPoint α V)) (i j : ℕ) : List (ControlPoint α V) :=
  match ps[i]?, ps[j]? with
  | some p, some q =>
    (ps.set i { p with position := q.position }).set j { q with position := p.position }
  | _, _ => ps

/-- The points after a number of exchanges, the first at the ends and each further inside. -/
def exchangeEnds (ps : List (ControlPoint α V)) : ℕ → List (ControlPoint α V)
  | 0 => ps
  | k + 1 => exchange (exchangeEnds ps k) k (ps.length - 1 - k)

/-- The `k` points at either end have got their positions, the points between have not. -/
structure Exchanged (ps qs : List (ControlPoint α V)) (k : ℕ) : Prop where
  length : qs.length = ps.length
  outer : ∀ i, i < k ∨ ps.length ≤ i + k → qs[i]? = (endForEnd ps)[i]?
  inner : ∀ i, k ≤ i → i + k < ps.length → qs[i]? = ps[i]?

theorem Exchanged.start (ps : List (ControlPoint α V)) : Exchanged ps ps 0 where
  length := rfl
  outer i hi := by
    have hle : ps.length ≤ i := by omega
    rw [List.getElem?_eq_none hle, List.getElem?_eq_none (by rwa [length_endForEnd])]
  inner _ _ _ := rfl

theorem getElem?_exchange {ps : List (ControlPoint α V)} {i j : ℕ} {p q : ControlPoint α V}
    (hp : ps[i]? = some p) (hq : ps[j]? = some q) (k : ℕ) :
    (exchange ps i j)[k]? =
      if k = j then some { q with position := p.position }
      else if k = i then some { p with position := q.position }
      else ps[k]? := by
  have hi := (List.getElem?_eq_some_iff.1 hp).1
  have hj := (List.getElem?_eq_some_iff.1 hq).1
  rw [exchange, hp, hq]
  by_cases hkj : k = j
  · simp [hkj, hj]
  · by_cases hki : k = i
    · subst hki
      simp [hkj, Ne.symm hkj, hi]
    · simp [hkj, hki, Ne.symm hkj, Ne.symm hki]

theorem length_exchange (ps : List (ControlPoint α V)) (i j : ℕ) :
    (exchange ps i j).length = ps.length := by
  rw [exchange]
  split <;> simp

theorem Exchanged.step {ps qs : List (ControlPoint α V)} {k : ℕ} (h : Exchanged ps qs k)
    (hk : 2 * (k + 1) ≤ ps.length) :
    Exchanged ps (exchange qs k (ps.length - 1 - k)) (k + 1) := by
  obtain ⟨j, hj⟩ : ∃ j, j = ps.length - 1 - k := ⟨_, rfl⟩
  rw [← hj]
  have hp : ps[k]? = some ps[k] := List.getElem?_eq_getElem (by omega)
  have hq : ps[j]? = some ps[j] := List.getElem?_eq_getElem (by omega)
  have hget := getElem?_exchange ((h.inner k le_rfl (by omega)).trans hp)
    ((h.inner j (by omega) (by omega)).trans hq)
  refine ⟨(length_exchange qs k j).trans h.length, fun i hi => ?_, fun i hi hi' => ?_⟩
  · rw [hget]
    by_cases hij : i = j
    · have hmirror : ps.length - 1 - j = k := by omega
      rw [if_pos hij, hij, getElem?_endForEnd hq (by rw [hmirror, hp])]
    · by_cases hik : i = k
      · rw [if_neg hij, if_pos hik, hik, getElem?_endForEnd hp (by rw [← hj, hq])]
      · rw [if_neg hij, if_neg hik]
        exact h.outer i (by omega)
  · rw [hget, if_neg (by omega), if_neg (by omega)]
    exact h.inner i (by omega) (by omega)

theorem exchanged_exchangeEnds (ps : List (ControlPoint α V)) (k : ℕ) (hk : 2 * k ≤ ps.length) :
    Exchanged ps (exchangeEnds ps k) k := by
  induction k with
  | zero => exact .start ps
  | succ k ih => exact (ih (by omega)).step hk

theorem exchangeEnds_half (ps : List (ControlPoint α V)) :
    exchangeEnds ps (ps.length / 2) = endForEnd ps := by
  have h := exchanged_exchangeEnds ps (ps.length / 2) (by omega)
  refine List.ext_getElem? fun i => ?_
  by_cases hi : i < ps.length / 2 ∨ ps.length ≤ i + ps.length / 2
  · exact h.outer i hi
  · have hmiddle : ps.length - 1 - i = i := by omega
    have hp : ps[i]? = some ps[i] := List.getElem?_eq_getElem (by omega)
    rw [h.inner i (by omega) (by omega), getElem?_endForEnd hp (by rw [hmiddle, hp]), hp]

end

section

variable {α V : Type} [Scalar α]

theorem insertByPosition_last {p : ControlPoint α V} {qs : List (ControlPoint α V)}
    (h : ∀ q ∈ qs, Scalar.totalLE p.position q.position = false) :
    insertByPosition p qs = qs ++ [p] := by
  induction qs with
  | nil => rfl
  | cons q qs ih =>
    obtain ⟨hq, hqs⟩ := List.forall_mem_cons.1 h
    simp [insertByPosition, hq, ih hqs]

theorem sortByPosition_of_falling {ps : List (ControlPoint α V)}
    (h : ps.Pairwise fun p q => Scalar.totalLE p.position q.position = false) :
    sortByPosition ps = ps.reverse := by
  induction ps with
  | nil => rfl
  | cons p ps ih =>
    obtain ⟨hp, hps⟩ := List.pairwise_cons.1 h
    calc sortByPosition (p :: ps)
        = insertByPosition p (sortByPosition ps) := rfl
      _ = insertByPosition p ps.reverse := by rw [ih hps]
      _ = ps.reverse ++ [p] := insertByPosition_last fun q hq => hp q (List.mem_reverse.1 hq)
      _ = (p :: ps).reverse := List.reverse_cons.symm

end

variable {V : Type} {ps : List (ControlPoint Binary64 V)}

theorem sort_of_increasing (h : ps.Pairwise fun p q => p.position < q.position) :
    sortByPosition ps = ps :=
  sortByPosition_of_sorted (h.imp fun hlt => (Binary64.totalLE_of_lt hlt).1)

theorem sort_endForEnd (h : ps.Pairwise fun p q => p.position < q.position) :
    sortByPosition (endForEnd ps) = (endForEnd ps).reverse := by
  have hpositions : ((endForEnd ps).map (·.position)).Pairwise fun x y => y < x := by
    rw [map_position_endForEnd]
    exact List.pairwise_reverse.2 (List.pairwise_map.2 h)
  have hfalling := List.pairwise_map.1 hpositions
  exact sortByPosition_of_falling (hfalling.imp fun hlt => (Binary64.totalLE_of_lt hlt).2)

end ControlPoint

namespace TransferFunction

open ControlPoint

/-- Reversing gives each point the position of its mirror image in the stored order, as exchanging
positions in place does. Nothing else of the map, the table and its size is touched; one change is
counted and told, and the table is out of date. Reversing again gives the points back. Where
they are stored by increasing position, the sorted points have the positions that they had, with
values and shapes the other way round. -/
theorem reverse_exchanges (f : TransferFunction Binary64) :
    let n := f.points.length
    let g := f.reverse
    (g.points.length = n ∧ ∀ i p q, f.points[i]? = some p → f.points[n - 1 - i]? = some q →
        g.points[i]? = some { p with position := q.position }) ∧
      g.points = exchangeEnds f.points (n / 2) ∧
      g = { f with
        points := g.points
        revision := f.revision + 1
        stale := true
        observers := { f.observers with
          delivered := f.observers.delivered ++ f.observers.live.map (·, .pointsChanged) } } ∧
      g.reverse.points = f.points ∧
      (f.points.Pairwise (fun p q => p.position < q.position) →
        g.sampler.colors.map (·.position) = f.sampler.colors.map (·.position) ∧
          g.sampler.colors.map payload = (f.sampler.colors.map payload).reverse) := by
  intro n g
  refine ⟨⟨length_endForEnd f.points, fun i p q => getElem?_endForEnd⟩,
    (exchangeEnds_half f.points).symm, rfl, endForEnd_endForEnd f.points, fun hincreasing => ?_⟩
  have hbefore : f.sampler.colors = f.points := sort_of_increasing hincreasing
  have hafter : g.sampler.colors = (endForEnd f.points).reverse := sort_endForEnd hincreasing
  rw [hbefore, hafter, List.map_reverse, List.map_reverse]
  constructor
  · rw [map_position_endForEnd, List.reverse_reverse]
  · rw [map_payload_endForEnd]

def risingColors : TransferFunction Binary64 :=
  (TransferFunction.ofPoints
    [⟨-2, ⟨1, 0, 0⟩, 0.25, 1⟩, .plain 0.5 ⟨0, 1, 0⟩, ⟨4, ⟨0, 0, 1⟩, 0.75, 0.5⟩]).subscribe.2.finalize

theorem risingColors_exchanged :
    risingColors.points.Pairwise (fun p q => p.position < q.position) ∧
      risingColors.reverse.sampler.colors.map (·.position) = [-2, 0.5, 4] ∧
      risingColors.reverse.sampler.colors.map payload =
        [(⟨0, 0, 1⟩, 0.75, 0.5), (⟨0, 1, 0⟩, 0.5, 0), (⟨1, 0, 0⟩, 0.25, 1)] := by
  have hincreasing : risingColors.points.Pairwise fun p q => p.position < q.position := by
    decide +kernel
  obtain ⟨hposition, hpayload⟩ := risingColors.reverse_exchanges.2.2.2.2 hincreasing
  exact ⟨hincreasing, hposition.trans (by decide +kernel), hpayload.trans (by decide +kernel)⟩

end TransferFunction

end TransferCurves
