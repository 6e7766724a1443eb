import Mathlib
import VeloGraphX.Lib.RandomWalk

/-!
# The limit of a damped random walk

A step brings any two rank vectors closer by the damping factor, in the sum of the differences. So
there is exactly one stationary vector; it is a distribution, and how far a vector is from it can be
read off the number of steps that led to the vector, or off the last of them.
-/

namespace RandomWalk

open Finset

variable {ι K : Type*} [DecidableEq ι] [Field K] {vertices : Finset ι} {succ pred : ι → Finset ι}
  {damping : K}

/-- What a vertex receives, along arcs and from the vertices without one. -/
def spread (vertices : Finset ι) (succ pred : ι → Finset ι) (rank : ι → K) (v : ι) : K :=
  danglingMass vertices succ rank / (vertices.card : K) + incoming succ pred rank v

/-- A step damps what a vertex receives. -/
theorem step_eq_spread (rank : ι → K) (v : ι) :
    step vertices succ pred damping rank v =
      (1 - damping) / (vertices.card : K) + damping * spread vertices succ pred rank v := by
  rw [step, baseRank, spread]
  ring

/-- Receiving from a difference. -/
theorem spread_sub (rank rank' : ι → K) (v : ι) :
    spread vertices succ pred (fun u => rank u - rank' u) v =
      spread vertices succ pred rank v - spread vertices succ pred rank' v := by
  simp only [spread, danglingMass, incoming, sum_sub_distrib, sub_div]
  ring

/-- Receiving from a sum. -/
theorem spread_add (rank rank' : ι → K) (v : ι) :
    spread vertices succ pred (fun u => rank u + rank' u) v =
      spread vertices succ pred rank v + spread vertices succ pred rank' v := by
  simp only [spread, danglingMass, incoming, sum_add_distrib, add_div]
  ring

/-- Receiving from a multiple. -/
theorem spread_mul (c : K) (rank : ι → K) (v : ι) :
    spread vertices succ pred (fun u => c * rank u) v = c * spread vertices succ pred rank v := by
  simp only [spread, danglingMass, incoming, ← mul_sum, mul_div_assoc]
  ring

/-- Only what the vertices hold is received. -/
theorem spread_congr (h : Transposed vertices succ pred) {rank rank' : ι → K}
    (hrank : ∀ u ∈ vertices, rank u = rank' u) {v : ι} (hv : v ∈ vertices) :
    spread vertices succ pred rank v = spread vertices succ pred rank' v := by
  have hmass : danglingMass vertices succ rank = danglingMass vertices succ rank' :=
    sum_congr rfl fun u hu => hrank u (mem_filter.mp hu).1
  have hincoming : incoming succ pred rank v = incoming succ pred rank' v :=
    sum_congr rfl fun u hu => by rw [hrank u (h.pred_subset v hv hu)]
  rw [spread, spread, hmass, hincoming]

/-- Everything that is held is received. -/
theorem sum_spread [CharZero K] (h : Transposed vertices succ pred) (rank : ι → K) :
    ∑ v ∈ vertices, spread vertices succ pred rank v = ∑ v ∈ vertices, rank v := by
  rcases vertices.eq_empty_or_nonempty with rfl | hne
  · rw [sum_empty, sum_empty]
  have hcard : (vertices.card : K) ≠ 0 := by exact_mod_cast hne.card_pos.ne'
  calc ∑ v ∈ vertices, spread vertices succ pred rank v
      = danglingMass vertices succ rank + ∑ u ∈ vertices with succ u ≠ ∅, rank u := by
        rw [← sum_incoming h]
        simp only [spread]
        rw [sum_add_distrib, sum_const, nsmul_eq_mul, mul_div_cancel₀ _ hcard]
    _ = ∑ v ∈ vertices, rank v := sum_filter_add_sum_filter_not vertices (fun u => succ u = ∅) rank

/-- A vector with one entry a vertex, continued by zeros. -/
def extend (x : vertices → K) (v : ι) : K := if hv : v ∈ vertices then x ⟨v, hv⟩ else 0

/-- The entries of the continued vector. -/
theorem extend_apply (x : vertices → K) {v : ι} (hv : v ∈ vertices) : extend x v = x ⟨v, hv⟩ := dif_pos hv

/-- What a vector keeps when the damped part of what it passes on is taken from it. -/
def kept (h : Transposed vertices succ pred) (damping : K) : (vertices → K) →ₗ[K] (vertices → K) where
  toFun x v := x v - damping * spread vertices succ pred (extend x) v
  map_add' x y := funext fun v => by
    have hsum : spread vertices succ pred (extend (x + y)) v =
        spread vertices succ pred (fun u => extend x u + extend y u) v :=
      spread_congr h (fun u hu => by
        rw [extend_apply _ hu, extend_apply _ hu, extend_apply _ hu, Pi.add_apply]) v.property
    simp only [Pi.add_apply]
    rw [hsum, spread_add]
    ring
  map_smul' c x := funext fun v => by
    have hmul : spread vertices succ pred (extend (c • x)) v =
        spread vertices succ pred (fun u => c * extend x u) v :=
      spread_congr h (fun u hu => by
        rw [extend_apply _ hu, extend_apply _ hu, Pi.smul_apply, smul_eq_mul]) v.property
    simp only [Pi.smul_apply, smul_eq_mul, RingHom.id_apply]
    rw [hmul, spread_mul]
    ring

/-- The vector that is kept. -/
theorem kept_apply (h : Transposed vertices succ pred) (x : vertices → K) {v : ι} (hv : v ∈ vertices) :
    kept h damping x ⟨v, hv⟩ = extend x v - damping * spread vertices succ pred (extend x) v := by
  rw [extend_apply x hv]
  rfl

section Order

variable [LinearOrder K] [IsStrictOrderedRing K]

/-- The sum of the differences of two rank vectors. -/
def distance (vertices : Finset ι) (rank rank' : ι → K) : K := ∑ v ∈ vertices, |rank v - rank' v|

variable {rank rank' : ι → K}

omit [DecidableEq ι] [IsStrictOrderedRing K] in
/-- The distance of two vectors reads what the vertices hold. -/
theorem distance_congr {other other' : ι → K} (h : ∀ v ∈ vertices, rank v = other v)
    (h' : ∀ v ∈ vertices, rank' v = other' v) :
    distance vertices rank rank' = distance vertices other other' :=
  sum_congr rfl fun v hv => by rw [h v hv, h' v hv]

omit [DecidableEq ι] in
/-- A distance is not negative. -/
theorem distance_nonneg : 0 ≤ distance vertices rank rank' := sum_nonneg fun _ _ => abs_nonneg _

omit [DecidableEq ι] in
/-- A detour is not shorter. -/
theorem distance_triangle (between : ι → K) :
    distance vertices rank rank' ≤
      distance vertices rank between + distance vertices between rank' := by
  rw [distance, distance, distance, ← sum_add_distrib]
  exact sum_le_sum fun v _ => abs_sub_le _ _ _

omit [DecidableEq ι] in
/-- Vectors without a distance hold the same. -/
theorem eq_of_distance_eq_zero (h : distance vertices rank rank' = 0) {v : ι} (hv : v ∈ vertices) :
    rank v = rank' v := by
  have hzero := (sum_eq_zero_iff_of_nonneg fun v _ => abs_nonneg (rank v - rank' v)).mp h v hv
  exact sub_eq_zero.mp (abs_eq_zero.mp hzero)

omit [DecidableEq ι] in
/-- Two distributions have a distance of at most two. -/
theorem distance_le_two (hrank : ∀ v ∈ vertices, 0 ≤ rank v) (hsum : ∑ v ∈ vertices, rank v = 1)
    (hrank' : ∀ v ∈ vertices, 0 ≤ rank' v) (hsum' : ∑ v ∈ vertices, rank' v = 1) :
    distance vertices rank rank' ≤ 2 := by
  calc distance vertices rank rank'
      ≤ ∑ v ∈ vertices, (rank v + rank' v) := sum_le_sum fun v hv => by
        rw [abs_sub_le_iff]
        constructor <;> linarith only [hrank v hv, hrank' v hv]
    _ = 2 := by rw [sum_add_distrib, hsum, hsum', one_add_one_eq_two]

/-- What is received is no more, in absolute value, than what is held. -/
theorem sum_abs_spread_le (h : Transposed vertices succ pred) (rank : ι → K) :
    ∑ v ∈ vertices, |spread vertices succ pred rank v| ≤ ∑ v ∈ vertices, |rank v| := by
  rw [← sum_spread h fun u => |rank u|]
  refine sum_le_sum fun v _ => ?_
  have hmass : |danglingMass vertices succ rank / (vertices.card : K)| ≤
      danglingMass vertices succ (fun u => |rank u|) / (vertices.card : K) := by
    rw [abs_div, Nat.abs_cast]
    exact div_le_div_of_nonneg_right (abs_sum_le_sum_abs _ _) (Nat.cast_nonneg _)
  have hincoming : |incoming succ pred rank v| ≤ incoming succ pred (fun u => |rank u|) v := by
    refine (abs_sum_le_sum_abs _ _).trans (sum_le_sum fun u _ => ?_)
    rw [abs_div, Nat.abs_cast]
  exact (abs_add_le _ _).trans (add_le_add hmass hincoming)

/-- A step brings two vectors closer by the damping factor. -/
theorem distance_step_le (h : Transposed vertices succ pred) (hlow : 0 ≤ damping) (rank rank' : ι → K) :
    distance vertices (step vertices succ pred damping rank) (step vertices succ pred damping rank') ≤
      damping * distance vertices rank rank' := by
  calc distance vertices (step vertices succ pred damping rank)
        (step vertices succ pred damping rank')
      = damping * ∑ v ∈ vertices, |spread vertices succ pred (fun u => rank u - rank' u) v| := by
        rw [distance, mul_sum]
        refine sum_congr rfl fun v _ => ?_
        rw [step_eq_spread, step_eq_spread, add_sub_add_left_eq_sub, ← mul_sub, abs_mul,
          abs_of_nonneg hlow, spread_sub]
    _ ≤ damping * distance vertices rank rank' :=
        mul_le_mul_of_nonneg_left (sum_abs_spread_le h _) hlow

/-- A vector that a step leaves alone. -/
def Stationary (vertices : Finset ι) (succ pred : ι → Finset ι) (damping : K) (rank : ι → K) : Prop :=
  ∀ v ∈ vertices, step vertices succ pred damping rank v = rank v

variable {limit : ι → K}

/-- A step brings a vector closer to a stationary one. -/
theorem Stationary.distance_step_le (hlimit : Stationary vertices succ pred damping limit)
    (h : Transposed vertices succ pred) (hlow : 0 ≤ damping) (rank : ι → K) :
    distance vertices (step vertices succ pred damping rank) limit ≤
      damping * distance vertices rank limit :=
  (distance_congr (fun _ _ => rfl) fun v hv => (hlimit v hv).symm).trans_le
    (RandomWalk.distance_step_le h hlow rank limit)

/-- How far the result of a step is from a stationary vector, told from how far the step went. -/
theorem Stationary.distance_le (hlimit : Stationary vertices succ pred damping limit)
    (h : Transposed vertices succ pred) (hlow : 0 ≤ damping) (rank : ι → K) :
    (1 - damping) * distance vertices (step vertices succ pred damping rank) limit ≤
      damping * distance vertices (step vertices succ pred damping rank) rank := by
  have hstep := hlimit.distance_step_le h hlow rank
  have hback : distance vertices rank (step vertices succ pred damping rank) =
      distance vertices (step vertices succ pred damping rank) rank :=
    sum_congr rfl fun v _ => abs_sub_comm _ _
  have htriangle : distance vertices rank limit ≤
      distance vertices (step vertices succ pred damping rank) rank +
        distance vertices (step vertices succ pred damping rank) limit :=
    hback ▸ distance_triangle _
  have hscaled := mul_le_mul_of_nonneg_left htriangle hlow
  linarith only [hstep, hscaled]

/-- There is at most one stationary vector. -/
theorem Stationary.unique (hlimit : Stationary vertices succ pred damping limit)
    (hrank : Stationary vertices succ pred damping rank) (h : Transposed vertices succ pred)
    (hlow : 0 ≤ damping) (hhigh : damping < 1) {v : ι} (hv : v ∈ vertices) : rank v = limit v := by
  have hstep := hlimit.distance_step_le h hlow rank
  rw [distance_congr hrank fun _ _ => rfl] at hstep
  have hnonneg : 0 ≤ distance vertices rank limit := distance_nonneg
  refine eq_of_distance_eq_zero (le_antisymm ?_ hnonneg) hv
  by_contra hpos
  have hless := mul_lt_mul_of_pos_right hhigh (not_le.mp hpos)
  linarith only [hstep, hless]

/-- The sum of a stationary vector. -/
theorem Stationary.sum_eq (hlimit : Stationary vertices succ pred damping limit)
    (h : Transposed vertices succ pred) (hhigh : damping < 1) (hne : vertices.Nonempty) :
    ∑ v ∈ vertices, limit v = 1 := by
  have hcard : (vertices.card : K) ≠ 0 := by exact_mod_cast hne.card_pos.ne'
  have hsum : ∑ v ∈ vertices, limit v = (1 - damping) + damping * ∑ v ∈ vertices, limit v := by
    calc ∑ v ∈ vertices, limit v
        = ∑ v ∈ vertices, ((1 - damping) / (vertices.card : K) +
            damping * spread vertices succ pred limit v) :=
          sum_congr rfl fun v hv => by rw [← step_eq_spread, hlimit v hv]
      _ = (1 - damping) + damping * ∑ v ∈ vertices, limit v := by
          rw [sum_add_distrib, sum_const, nsmul_eq_mul, mul_div_cancel₀ _ hcard, ← mul_sum,
            sum_spread h]
  have hzero : (1 - damping) * (∑ v ∈ vertices, limit v - 1) = 0 := by linear_combination hsum
  exact sub_eq_zero.mp ((mul_eq_zero.mp hzero).resolve_left (sub_pos.mpr hhigh).ne')

/-- A stationary vector is not negative: its absolute values sum up to no more than it does. -/
theorem Stationary.nonneg (hlimit : Stationary vertices succ pred damping limit)
    (h : Transposed vertices succ pred) (hlow : 0 ≤ damping) (hhigh : damping < 1) {v : ι}
    (hv : v ∈ vertices) : 0 ≤ limit v := by
  have hne : vertices.Nonempty := ⟨v, hv⟩
  have hcard : (vertices.card : K) ≠ 0 := by exact_mod_cast hne.card_pos.ne'
  have hteleport : 0 ≤ (1 - damping) / (vertices.card : K) :=
    div_nonneg (sub_pos.mpr hhigh).le (Nat.cast_nonneg _)
  have habs : ∑ u ∈ vertices, |limit u| ≤ (1 - damping) + damping * ∑ u ∈ vertices, |limit u| := by
    calc ∑ u ∈ vertices, |limit u|
        ≤ ∑ u ∈ vertices, ((1 - damping) / (vertices.card : K) +
            damping * |spread vertices succ pred limit u|) := sum_le_sum fun u hu => by
          have hle := abs_add_le ((1 - damping) / (vertices.card : K))
            (damping * spread vertices succ pred limit u)
          rwa [← step_eq_spread, hlimit u hu, abs_of_nonneg hteleport, abs_mul,
            abs_of_nonneg hlow] at hle
      _ = (1 - damping) + damping * ∑ u ∈ vertices, |spread vertices succ pred limit u| := by
          rw [sum_add_distrib, sum_const, nsmul_eq_mul, mul_div_cancel₀ _ hcard, ← mul_sum]
      _ ≤ (1 - damping) + damping * ∑ u ∈ vertices, |limit u| :=
          add_le_add_right (mul_le_mul_of_nonneg_left (sum_abs_spread_le h _) hlow) _
  have hone : ∑ u ∈ vertices, |limit u| ≤ 1 := by
    by_contra hmore
    have hless := mul_lt_mul_of_pos_left (not_le.mp hmore) (sub_pos.mpr hhigh)
    linarith only [habs, hless]
  have hexcess : ∑ u ∈ vertices, (|limit u| - limit u) = 0 := by
    refine le_antisymm ?_ (sum_nonneg fun u _ => sub_nonneg.mpr (le_abs_self _))
    rw [sum_sub_distrib, hlimit.sum_eq h hhigh hne]
    exact sub_nonpos.mpr hone
  have hzero := (sum_eq_zero_iff_of_nonneg fun u _ => sub_nonneg.mpr (le_abs_self _)).mp hexcess v hv
  exact abs_eq_self.mp (sub_eq_zero.mp hzero)

/-- A vector of which nothing is kept is zero, since what is passed on is damped. -/
theorem kept_injective (h : Transposed vertices succ pred) (hlow : 0 ≤ damping) (hhigh : damping < 1) :
    Function.Injective (kept h damping) := by
  rw [← LinearMap.ker_eq_bot, LinearMap.ker_eq_bot']
  intro x hx
  have hcell : ∀ v ∈ vertices, extend x v = damping * spread vertices succ pred (extend x) v :=
    fun v hv => sub_eq_zero.mp ((kept_apply h x hv).symm.trans (congrFun hx ⟨v, hv⟩))
  have hless : ∑ v ∈ vertices, |extend x v| ≤ damping * ∑ v ∈ vertices, |extend x v| := by
    calc ∑ v ∈ vertices, |extend x v|
        = damping * ∑ v ∈ vertices, |spread vertices succ pred (extend x) v| := by
          rw [mul_sum]
          exact sum_congr rfl fun v hv => by rw [hcell v hv, abs_mul, abs_of_nonneg hlow]
      _ ≤ damping * ∑ v ∈ vertices, |extend x v| :=
          mul_le_mul_of_nonneg_left (sum_abs_spread_le h _) hlow
  have hsum : ∑ v ∈ vertices, |extend x v| = 0 := by
    refine le_antisymm ?_ (sum_nonneg fun _ _ => abs_nonneg _)
    by_contra hpos
    have hstrict := mul_lt_mul_of_pos_right hhigh (not_le.mp hpos)
    linarith only [hless, hstrict]
  funext v
  have hzero := (sum_eq_zero_iff_of_nonneg fun v _ => abs_nonneg (extend x v)).mp hsum v v.property
  rw [extend_apply x v.property] at hzero
  exact abs_eq_zero.mp hzero

/-- There is a stationary vector: in finitely many dimensions some vector keeps any amount. -/
theorem exists_stationary (h : Transposed vertices succ pred) (hlow : 0 ≤ damping)
    (hhigh : damping < 1) : ∃ limit : ι → K, Stationary vertices succ pred damping limit := by
  obtain ⟨x, hx⟩ := LinearMap.injective_iff_surjective.mp (kept_injective h hlow hhigh)
    fun _ => (1 - damping) / (vertices.card : K)
  refine ⟨extend x, fun v hv => ?_⟩
  have hcell := (kept_apply h x hv).symm.trans (congrFun hx ⟨v, hv⟩)
  rw [step_eq_spread, ← hcell]
  ring

end Order

end RandomWalk
