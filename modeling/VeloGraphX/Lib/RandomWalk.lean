import Mathlib

/-!
# One step of a damped random walk

A vertex passes its rank on in equal parts along its outgoing arcs; the rank of a vertex without
one is spread over all vertices, as is the part that is not damped. Gathering along incoming arcs
and scattering along outgoing arcs is the same step, and the step keeps a probability distribution one.
-/

namespace RandomWalk

open Finset

variable {ι K : Type*} [DecidableEq ι] [Field K]

/-- The vertices without an outgoing arc. -/
def danglingMass (vertices : Finset ι) (succ : ι → Finset ι) (rank : ι → K) : K :=
  ∑ u ∈ vertices with succ u = ∅, rank u

/-- What a vertex holds before anything arrives along an arc. -/
def baseRank (vertices : Finset ι) (succ : ι → Finset ι) (damping : K) (rank : ι → K) : K :=
  (1 - damping) / (vertices.card : K) + damping * danglingMass vertices succ rank / (vertices.card : K)

/-- What arrives along the incoming arcs of a vertex. -/
def incoming (succ pred : ι → Finset ι) (rank : ι → K) (v : ι) : K :=
  ∑ u ∈ pred v, rank u / ((succ u).card : K)

/-- One step of the walk. -/
def step (vertices : Finset ι) (succ pred : ι → Finset ι) (damping : K) (rank : ι → K) (v : ι) : K :=
  baseRank vertices succ damping rank + damping * incoming succ pred rank v

variable {vertices : Finset ι} {succ pred : ι → Finset ι} {damping : K} {rank : ι → K}

/-- The arcs lead from vertices to vertices, and both directions list the same ones. -/
structure Transposed (vertices : Finset ι) (succ pred : ι → Finset ι) : Prop where
  pred_subset : ∀ v ∈ vertices, pred v ⊆ vertices
  succ_subset : ∀ u ∈ vertices, succ u ⊆ vertices
  mem : ∀ u ∈ vertices, ∀ v ∈ vertices, u ∈ pred v ↔ v ∈ succ u

/-- Gathering along the incoming arcs is scattering along the outgoing ones. -/
theorem incoming_eq_sum (h : Transposed vertices succ pred) {v : ι} (hv : v ∈ vertices) :
    incoming succ pred rank v =
      ∑ u ∈ vertices, if v ∈ succ u then rank u / ((succ u).card : K) else 0 := by
  rw [← sum_filter]
  refine sum_congr ?_ fun u _ => rfl
  ext u
  rw [mem_filter]
  constructor
  · intro hu
    exact ⟨h.pred_subset v hv hu, (h.mem u (h.pred_subset v hv hu) v hv).mp hu⟩
  · rintro ⟨hu, hsucc⟩
    exact (h.mem u hu v hv).mpr hsucc

/-- What arrives everywhere is what the vertices with outgoing arcs held. -/
theorem sum_incoming [CharZero K] (h : Transposed vertices succ pred) :
    ∑ v ∈ vertices, incoming succ pred rank v = ∑ u ∈ vertices with succ u ≠ ∅, rank u := by
  calc ∑ v ∈ vertices, incoming succ pred rank v
      = ∑ v ∈ vertices, ∑ u ∈ vertices, if v ∈ succ u then rank u / ((succ u).card : K) else 0 :=
        sum_congr rfl fun v hv => incoming_eq_sum h hv
    _ = ∑ u ∈ vertices, ∑ v ∈ vertices, if v ∈ succ u then rank u / ((succ u).card : K) else 0 :=
        sum_comm
    _ = ∑ u ∈ vertices, if succ u ≠ ∅ then rank u else 0 := by
        refine sum_congr rfl fun u hu => ?_
        rw [← sum_filter, filter_mem_eq_inter, inter_eq_right.mpr (h.succ_subset u hu), sum_const,
          nsmul_eq_mul]
        by_cases hempty : succ u = ∅
        · rw [hempty, if_neg (not_not.mpr rfl), card_empty, Nat.cast_zero, zero_mul]
        · rw [if_pos hempty]
          refine mul_div_cancel₀ _ ?_
          exact_mod_cast (card_pos.mpr (nonempty_iff_ne_empty.mpr hempty)).ne'
    _ = ∑ u ∈ vertices with succ u ≠ ∅, rank u := (sum_filter _ _).symm

/-- A step keeps the sum of a distribution. -/
theorem sum_step [CharZero K] (h : Transposed vertices succ pred) (hne : vertices.Nonempty)
    (hsum : ∑ v ∈ vertices, rank v = 1) :
    ∑ v ∈ vertices, step vertices succ pred damping rank v = 1 := by
  have hcard : (vertices.card : K) ≠ 0 := by exact_mod_cast hne.card_pos.ne'
  have hsplit : danglingMass vertices succ rank + ∑ u ∈ vertices with succ u ≠ ∅, rank u = 1 := by
    rw [← hsum]
    exact sum_filter_add_sum_filter_not vertices (fun u => succ u = ∅) rank
  calc ∑ v ∈ vertices, step vertices succ pred damping rank v
      = (vertices.card : K) * baseRank vertices succ damping rank +
          damping * ∑ u ∈ vertices with succ u ≠ ∅, rank u := by
        rw [← sum_incoming h, mul_sum, ← nsmul_eq_mul, ← sum_const, ← sum_add_distrib]
        rfl
    _ = (1 - damping) + damping * (danglingMass vertices succ rank +
          ∑ u ∈ vertices with succ u ≠ ∅, rank u) := by
        rw [baseRank]
        field_simp
        ring
    _ = 1 := by rw [hsplit]; ring

section Order

variable [LinearOrder K] [IsStrictOrderedRing K]

/-- A step keeps the ranks nonnegative. -/
theorem step_nonneg (h : Transposed vertices succ pred) (hlow : 0 ≤ damping) (hhigh : damping ≤ 1)
    (hrank : ∀ u ∈ vertices, 0 ≤ rank u) {v : ι} (hv : v ∈ vertices) :
    0 ≤ step vertices succ pred damping rank v := by
  have hmass : 0 ≤ danglingMass vertices succ rank :=
    sum_nonneg fun u hu => hrank u (mem_filter.mp hu).1
  have hincoming : 0 ≤ incoming succ pred rank v :=
    sum_nonneg fun u hu => div_nonneg (hrank u (h.pred_subset v hv hu)) (Nat.cast_nonneg _)
  have hteleport : 0 ≤ 1 - damping := sub_nonneg.mpr hhigh
  rw [step, baseRank]
  positivity

end Order

end RandomWalk
