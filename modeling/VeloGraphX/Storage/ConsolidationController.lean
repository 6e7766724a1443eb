import Mathlib
import VeloGraphX.Types

/-!
# The consolidation controller

Storage growth triggers a consolidation at once. Latency does so after a run of qualifying
samples, none of them within the cooldown of the last cutover. The run is counted in 64 bits, and
the epoch of the last cutover is zero where there has been none.
-/

namespace VeloGraphX

/-- `ConsolidationSignal`. -/
structure ConsolidationSignal (D : Type) where
  storageGrowthRatio : D
  neighborLatencyRatio : D
  storageLimitExceeded : Bool := false
  latencyLimitExceeded : Bool := false
  shouldConsolidate : Bool := false

/-- `ConsolidationControllerConfig`. -/
structure ConsolidationControllerConfig (D : Type) where
  minEpochsBetweenConsolidations : UInt64 := 10
  latencyBreachSamples : UInt64 := 5
  minStorageGrowthForLatencyTrigger : D

/-- The default configuration. -/
def ConsolidationControllerConfig.defaults {D : Type} [DoubleArith D] :
    ConsolidationControllerConfig D :=
  { minStorageGrowthForLatencyTrigger := (1.10 : D) }

/-- `ConsolidationController`. -/
structure ConsolidationController (D : Type) where
  config : ConsolidationControllerConfig D
  latencyBreachStreak : UInt64 := 0
  lastConsolidationEpoch : UInt64 := 0

namespace ConsolidationController

variable {D : Type} [DoubleArith D]

/-- `cooldown_complete`. -/
def cooldownComplete (controller : ConsolidationController D) (epoch : UInt64) : Bool :=
  controller.lastConsolidationEpoch == 0 ||
    decide (controller.lastConsolidationEpoch +
      controller.config.minEpochsBetweenConsolidations ≤ epoch)

/-- `observe`: the answer and the controller after it. -/
def observe (controller : ConsolidationController D) (signal : ConsolidationSignal D)
    (epoch : UInt64) : Bool × ConsolidationController D :=
  if signal.storageLimitExceeded then (true, { controller with latencyBreachStreak := 0 })
  else if controller.cooldownComplete epoch = false then
    (false, { controller with latencyBreachStreak := 0 })
  else
    let meaningfulPatchGrowth := DoubleArith.le
      controller.config.minStorageGrowthForLatencyTrigger signal.storageGrowthRatio
    let streak := if signal.latencyLimitExceeded && meaningfulPatchGrowth then
      controller.latencyBreachStreak + 1 else 0
    (signal.latencyLimitExceeded && meaningfulPatchGrowth &&
        decide (controller.config.latencyBreachSamples ≤ streak),
      { controller with latencyBreachStreak := streak })

/-- `mark_consolidated`. -/
def markConsolidated (controller : ConsolidationController D) (epoch : UInt64) :
    ConsolidationController D :=
  { controller with lastConsolidationEpoch := epoch, latencyBreachStreak := 0 }

/-- The calls on a controller. -/
inductive Call (D : Type)
  | observe (signal : ConsolidationSignal D) (epoch : UInt64)
  | markConsolidated (epoch : UInt64)

/-- Execute a call. -/
def exec (controller : ConsolidationController D) : Call D → ConsolidationController D
  | .observe signal epoch => (controller.observe signal epoch).2
  | .markConsolidated epoch => controller.markConsolidated epoch

/-- Execute a sequence of calls on a new controller. -/
def run (config : ConsolidationControllerConfig D) (calls : List (Call D)) :
    ConsolidationController D :=
  calls.foldl exec { config := config }

/-- A latency breach with meaningful growth, outside the cooldown and without a storage breach. -/
def qualifies (controller : ConsolidationController D) : Call D → Bool
  | .observe signal epoch =>
    !signal.storageLimitExceeded && controller.cooldownComplete epoch &&
      (signal.latencyLimitExceeded && DoubleArith.le
        controller.config.minStorageGrowthForLatencyTrigger signal.storageGrowthRatio)
  | .markConsolidated _ => false

/-- The last calls all qualify, each for the controller it was made on. -/
def LastQualify (config : ConsolidationControllerConfig D) (k : ℕ) (calls : List (Call D)) : Prop :=
  k ≤ calls.length ∧ ∀ j call, calls.length - k ≤ j → calls[j]? = some call →
    (run config (calls.take j)).qualifies call = true

variable {config : ConsolidationControllerConfig D} {calls : List (Call D)} {k : ℕ}

/-- What an observation does: it goes on with the streak or breaks it. -/
theorem observe_eq (controller : ConsolidationController D) (signal : ConsolidationSignal D)
    (epoch : UInt64) :
    controller.observe signal epoch =
      (signal.storageLimitExceeded || (controller.qualifies (.observe signal epoch) &&
          decide (controller.config.latencyBreachSamples ≤ controller.latencyBreachStreak + 1)),
        { controller with latencyBreachStreak :=
            if controller.qualifies (.observe signal epoch) then
              controller.latencyBreachStreak + 1 else 0 }) := by
  unfold observe qualifies
  by_cases hstorage : signal.storageLimitExceeded = true
  · simp [hstorage]
  · by_cases hcooldown : controller.cooldownComplete epoch = true
    · by_cases hbreach : (signal.latencyLimitExceeded && DoubleArith.le
        controller.config.minStorageGrowthForLatencyTrigger signal.storageGrowthRatio) = true <;>
        simp [hstorage, hcooldown, hbreach]
    · simp [hstorage, hcooldown]

/-- One more call. -/
theorem run_append (config : ConsolidationControllerConfig D) (calls : List (Call D))
    (call : Call D) : run config (calls ++ [call]) = (run config calls).exec call :=
  List.foldl_append

/-- No call at all is asked to qualify. -/
theorem lastQualify_zero (config : ConsolidationControllerConfig D) (calls : List (Call D)) :
    LastQualify config 0 calls := by
  refine ⟨Nat.zero_le _, fun j call hj hcall => ?_⟩
  have hlt := (List.getElem?_eq_some_iff.mp hcall).1
  omega

/-- The last calls qualify when the last one does and the ones before it do. -/
theorem lastQualify_succ (call : Call D) :
    LastQualify config (k + 1) (calls ++ [call]) ↔
      (run config calls).qualifies call = true ∧ LastQualify config k calls := by
  have hlength : (calls ++ [call]).length = calls.length + 1 := List.length_append
  unfold LastQualify
  rw [hlength]
  constructor
  · rintro ⟨hle, hall⟩
    refine ⟨?_, Nat.le_of_succ_le_succ hle, fun j earlier hj hearlier => ?_⟩
    · have hlast := hall calls.length call (by omega) (by simp)
      rwa [List.take_left] at hlast
    · have hlt := (List.getElem?_eq_some_iff.mp hearlier).1
      have hbefore := hall j earlier (by omega) (by rw [List.getElem?_append_left hlt, hearlier])
      rwa [List.take_append_of_le_length hlt.le] at hbefore
  · rintro ⟨hlast, hle, hall⟩
    refine ⟨by omega, fun j earlier hj hearlier => ?_⟩
    rcases Nat.lt_or_ge j calls.length with hlt | hge
    · rw [List.getElem?_append_left hlt] at hearlier
      rw [List.take_append_of_le_length hlt.le]
      exact hall j earlier (by omega) hearlier
    · have hj' : j < (calls ++ [call]).length := (List.getElem?_eq_some_iff.mp hearlier).1
      obtain rfl : j = calls.length := by omega
      rw [List.getElem?_concat_length, Option.some.injEq] at hearlier
      rw [List.take_left, ← hearlier]
      exact hlast

/-- The length of the run of qualifying calls that a sequence ends with. -/
def qualifyingRun (config : ConsolidationControllerConfig D) (calls : List (Call D)) : ℕ :=
  (calls.foldl (fun (state : ConsolidationController D × ℕ) call =>
    (state.1.exec call, if state.1.qualifies call then state.2 + 1 else 0))
    ({ config := config }, 0)).2

/-- One more call goes on with the run or breaks it. -/
theorem qualifyingRun_append (calls : List (Call D)) (call : Call D) :
    qualifyingRun config (calls ++ [call]) =
      if (run config calls).qualifies call then qualifyingRun config calls + 1 else 0 := by
  have hfirst : ∀ (calls : List (Call D)) (state : ConsolidationController D × ℕ),
      (calls.foldl (fun (state : ConsolidationController D × ℕ) call =>
        (state.1.exec call, if state.1.qualifies call then state.2 + 1 else 0)) state).1 =
      calls.foldl exec state.1 := by
    intro calls
    induction calls with
    | nil => exact fun _ => rfl
    | cons call rest ih => exact fun state => ih _
  rw [qualifyingRun, List.foldl_append, List.foldl_cons, List.foldl_nil, hfirst]
  rfl

/-- The last calls qualify exactly when the run is as long. -/
theorem lastQualify_iff (k : ℕ) (calls : List (Call D)) :
    LastQualify config k calls ↔ k ≤ qualifyingRun config calls := by
  induction calls using List.reverseRecOn generalizing k with
  | nil =>
    cases k with
    | zero => exact iff_of_true (lastQualify_zero config []) (Nat.zero_le _)
    | succ k => exact iff_of_false (fun h => absurd h.1 (by simp)) (by simp [qualifyingRun])
  | append_singleton calls call ih =>
    cases k with
    | zero => exact iff_of_true (lastQualify_zero config _) (Nat.zero_le _)
    | succ k =>
      rw [lastQualify_succ, ih, qualifyingRun_append]
      split <;> simp_all

/-- The streak counts the run, in 64 bits. -/
theorem streak_eq (config : ConsolidationControllerConfig D) (calls : List (Call D)) :
    (run config calls).latencyBreachStreak = UInt64.ofNat (qualifyingRun config calls) ∧
      (run config calls).config = config := by
  induction calls using List.reverseRecOn with
  | nil => exact ⟨rfl, rfl⟩
  | append_singleton calls call ih =>
    obtain ⟨hstreak, hconfig⟩ := ih
    rw [run_append, qualifyingRun_append]
    cases call with
    | markConsolidated epoch => exact ⟨rfl, hconfig⟩
    | observe signal epoch =>
      rw [exec, observe_eq]
      refine ⟨?_, hconfig⟩
      dsimp only
      split
      · rw [hstreak, UInt64.ofNat_add]
        rfl
      · rfl

/-- An observation answers by the length of the run it ends, as long as that can be counted. -/
theorem observe_of_run (config : ConsolidationControllerConfig D) (calls : List (Call D))
    (signal : ConsolidationSignal D) (epoch : UInt64)
    (hcounted : qualifyingRun config (calls ++ [.observe signal epoch]) < 2 ^ 64) :
    ((run config calls).observe signal epoch).1 = true ↔ signal.storageLimitExceeded = true ∨
      max 1 config.latencyBreachSamples.toNat ≤
        qualifyingRun config (calls ++ [.observe signal epoch]) := by
  obtain ⟨hstreak, hconfig⟩ := streak_eq config calls
  rw [qualifyingRun_append] at hcounted ⊢
  rw [observe_eq, hconfig, hstreak, Bool.or_eq_true, Bool.and_eq_true, decide_eq_true_eq,
    UInt64.le_iff_toNat_le]
  refine or_congr_right ?_
  split at hcounted
  · rename_i hqualifies
    have hsum : (UInt64.ofNat (qualifyingRun config calls) + 1).toNat =
        qualifyingRun config calls + 1 := by
      rw [UInt64.toNat_add, UInt64.toNat_ofNat', UInt64.toNat_one]
      omega
    rw [hsum, if_pos hqualifies, and_iff_right hqualifies]
    omega
  · rename_i hbreaks
    rw [if_neg hbreaks]
    exact iff_of_false (fun h => hbreaks h.1) (by omega)

/-- An observation answers yes exactly on a storage breach or when it ends a run of qualifying
calls that is long enough, unless the run is too long to be counted. -/
theorem observe_iff (config : ConsolidationControllerConfig D) (calls : List (Call D))
    (signal : ConsolidationSignal D) (epoch : UInt64)
    (hcounted : ¬ LastQualify config (2 ^ 64) (calls ++ [.observe signal epoch])) :
    ((run config calls).observe signal epoch).1 = true ↔
      signal.storageLimitExceeded = true ∨
        LastQualify config (max 1 config.latencyBreachSamples.toNat)
          (calls ++ [.observe signal epoch]) := by
  rw [lastQualify_iff] at hcounted ⊢
  exact observe_of_run config calls signal epoch (not_le.mp hcounted)

/-- A latency breach with a tenth of growth and more. -/
def breachSignal : ConsolidationSignal ℚ := ⟨1.12, 1.30, false, true, true⟩

/-- Five breaches in a row are answered with yes: they all qualify. -/
theorem observe_iff_five :
    ((run ConsolidationControllerConfig.defaults
        (List.replicate 4 (.observe breachSignal 1))).observe breachSignal 1).1 = true ∧
      LastQualify ConsolidationControllerConfig.defaults 5
        (List.replicate 4 (.observe breachSignal 1) ++ [.observe breachSignal 1]) := by
  have hanswer : ((run ConsolidationControllerConfig.defaults
      (List.replicate 4 (.observe breachSignal 1))).observe breachSignal 1).1 = true := by
    decide +kernel
  have hiff := observe_iff ConsolidationControllerConfig.defaults
    (List.replicate 4 (.observe breachSignal 1)) breachSignal 1 fun hlong => absurd hlong.1 (by decide)
  exact ⟨hanswer, (hiff.mp hanswer).resolve_left (by decide)⟩

/-- An observation leaves the epoch of the last cutover alone. -/
theorem lastConsolidationEpoch_observe (controller : ConsolidationController D)
    (signal : ConsolidationSignal D) (epoch : UInt64) :
    (controller.exec (.observe signal epoch)).lastConsolidationEpoch =
      controller.lastConsolidationEpoch := by
  rw [exec, observe_eq]

/-- A latency breach with meaningful growth and without a storage breach. -/
def Breach (config : ConsolidationControllerConfig D) (signal : ConsolidationSignal D) : Prop :=
  signal.storageLimitExceeded = false ∧ signal.latencyLimitExceeded = true ∧
    DoubleArith.le config.minStorageGrowthForLatencyTrigger signal.storageGrowthRatio = true

/-- Where no cutover is on record, breaches make a run. -/
theorem qualifyingRun_replicate {signal : ConsolidationSignal D}
    (hlast : (run config calls).lastConsolidationEpoch = 0) (hbreach : Breach config signal)
    (epoch : UInt64) (n : ℕ) :
    qualifyingRun config (calls ++ List.replicate n (.observe signal epoch)) =
        qualifyingRun config calls + n ∧
      (run config (calls ++ List.replicate n (.observe signal epoch))).lastConsolidationEpoch = 0 := by
  induction n with
  | zero => simpa using hlast
  | succ n ih =>
    obtain ⟨hrun, hzero⟩ := ih
    obtain ⟨hstorage, hlatency, hgrowth⟩ := hbreach
    have hconfig := (streak_eq config (calls ++ List.replicate n (.observe signal epoch))).2
    rw [List.replicate_succ', ← List.append_assoc, qualifyingRun_append, run_append,
      lastConsolidationEpoch_observe, if_pos]
    · exact ⟨by rw [hrun, Nat.add_assoc], hzero⟩
    · simp [qualifies, cooldownComplete, hstorage, hlatency, hgrowth, hconfig, hzero]

/-- The streak starts again after `2 ^ 64` breaches in a row. -/
theorem not_observe_iff :
    ¬ ∀ (config : ConsolidationControllerConfig ℚ) (calls : List (Call ℚ))
      (signal : ConsolidationSignal ℚ) (epoch : UInt64),
      ((run config calls).observe signal epoch).1 = true ↔
        signal.storageLimitExceeded = true ∨
          LastQualify config (max 1 config.latencyBreachSamples.toNat)
            (calls ++ [.observe signal epoch]) := by
  intro h
  let config : ConsolidationControllerConfig ℚ := ConsolidationControllerConfig.defaults
  have hbreach : Breach config breachSignal := ⟨rfl, rfl, by decide +kernel⟩
  have hmany : ∀ n, n = 2 ^ 64 - 1 → False := fun n hn => by
    obtain ⟨hrun, hlast⟩ := @qualifyingRun_replicate ℚ _ config [] breachSignal rfl hbreach 1 n
    have hnext := (@qualifyingRun_replicate ℚ _ config [] breachSignal rfl hbreach 1 (n + 1)).1
    rw [List.nil_append] at hrun hlast hnext
    have hnone : qualifyingRun config [] = 0 := rfl
    have hwraps : UInt64.ofNat n + 1 = 0 := by
      refine UInt64.toNat_inj.mp ?_
      rw [UInt64.toNat_add, UInt64.toNat_ofNat', hn, UInt64.toNat_one, UInt64.toNat_zero]
      norm_num
    have hanswer := (h config (List.replicate n (.observe breachSignal 1)) breachSignal 1).mpr
      (Or.inr ?_)
    · obtain ⟨hstreak, hconfig⟩ := streak_eq config (List.replicate n (.observe breachSignal 1))
      have hfive : ¬ config.latencyBreachSamples ≤ 0 := by decide
      rw [observe_eq, hstreak, hrun, hconfig, hnone, Nat.zero_add, hwraps, decide_eq_false hfive,
        Bool.and_false] at hanswer
      exact Bool.false_ne_true hanswer
    · have hfive : max 1 config.latencyBreachSamples.toNat = 5 := by decide
      rw [lastQualify_iff, ← List.replicate_succ', hnext, hnone, hfive]
      omega
  exact hmany _ rfl

/-- After a cutover and until the next one, no observation within the cooldown answers yes without
a storage breach. -/
def CooldownHolds (config : ConsolidationControllerConfig D) (earlier : List (Call D))
    (cutover : UInt64) : Prop :=
  ∀ later : List (Call D), (∀ epoch, .markConsolidated epoch ∉ later) →
    ∀ (signal : ConsolidationSignal D) (epoch : UInt64), cutover ≤ epoch →
      epoch.toNat < cutover.toNat + config.minEpochsBetweenConsolidations.toNat →
      ((run config (earlier ++ [.markConsolidated cutover] ++ later)).observe signal epoch).1 =
        true → signal.storageLimitExceeded = true

/-- The epoch of the last cutover stays until the next one. -/
theorem lastConsolidationEpoch_run (earlier : List (Call D)) (cutover : UInt64)
    {later : List (Call D)} (hlater : ∀ epoch, .markConsolidated epoch ∉ later) :
    (run config (earlier ++ [.markConsolidated cutover] ++ later)).lastConsolidationEpoch =
      cutover := by
  induction later using List.reverseRecOn with
  | nil =>
    rw [List.append_nil, run_append]
    rfl
  | append_singleton later call ih =>
    rw [← List.append_assoc, run_append]
    cases call with
    | markConsolidated epoch => exact absurd (by simp) (hlater epoch)
    | observe signal epoch =>
      rw [lastConsolidationEpoch_observe]
      exact ih fun epoch hmem => hlater epoch (List.mem_append_left _ hmem)

/-- The cooldown holds exactly after a cutover at another epoch than zero, unless it is empty or no
growth ever counts as meaningful. -/
theorem cooldown_holds_iff (config : ConsolidationControllerConfig D) (earlier : List (Call D))
    (cutover : UInt64)
    (hfits : cutover.toNat + config.minEpochsBetweenConsolidations.toNat < 2 ^ 64) :
    CooldownHolds config earlier cutover ↔
      cutover ≠ 0 ∨ config.minEpochsBetweenConsolidations = 0 ∨
        ∀ ratio, DoubleArith.le config.minStorageGrowthForLatencyTrigger ratio = false := by
  constructor
  · intro hholds
    by_contra hnot
    simp only [not_or, not_not, not_forall, Bool.not_eq_false] at hnot
    obtain ⟨rfl, hnonempty, ratio, hratio⟩ := hnot
    let signal : ConsolidationSignal D := ⟨ratio, ratio, false, true, true⟩
    have hbreach : Breach config signal := ⟨rfl, rfl, hratio⟩
    have hlast := @lastConsolidationEpoch_run D _ config earlier 0 [] (by simp)
    rw [List.append_nil] at hlast
    have hsamples := config.latencyBreachSamples.toNat_lt
    obtain ⟨samples, hsucc⟩ : ∃ samples, max 1 config.latencyBreachSamples.toNat = samples + 1 :=
      ⟨max 1 config.latencyBreachSamples.toNat - 1, by omega⟩
    have hrun := (qualifyingRun_replicate hlast hbreach 0 (samples + 1)).1
    rw [qualifyingRun_append, if_neg (by simp [qualifies]), Nat.zero_add, List.replicate_succ',
      ← List.append_assoc] at hrun
    have hanswer := (observe_of_run config _ signal 0 (by rw [hrun]; omega)).mpr
      (Or.inr (by rw [hrun]; omega))
    have hpos : 0 < config.minEpochsBetweenConsolidations.toNat :=
      Nat.pos_of_ne_zero fun hzero => hnonempty (UInt64.toNat_inj.mp hzero)
    have hstorage := hholds (List.replicate samples (.observe signal 0))
      (fun epoch hmem => absurd (List.eq_of_mem_replicate hmem) nofun) signal 0 (UInt64.le_refl _)
      (by simpa using hpos) hanswer
    exact Bool.false_ne_true hstorage
  · intro hcondition later hlater signal epoch hle hlt hanswer
    have hlast := @lastConsolidationEpoch_run D _ config earlier cutover later hlater
    have hconfig := (streak_eq config (earlier ++ [.markConsolidated cutover] ++ later)).2
    generalize run config (earlier ++ [.markConsolidated cutover] ++ later) = controller at *
    have hquiet : controller.qualifies (.observe signal epoch) = false := by
      rcases hcondition with hcutover | hempty | hgrowth
      · have hwait : ¬ cutover + config.minEpochsBetweenConsolidations ≤ epoch := by
          rw [UInt64.le_iff_toNat_le, UInt64.toNat_add, Nat.mod_eq_of_lt hfits]
          omega
        simp [qualifies, cooldownComplete, hlast, hconfig, hcutover, hwait]
      · rw [hempty] at hlt
        exact absurd (UInt64.le_iff_toNat_le.mp hle) (by simpa using hlt)
      · simp [qualifies, hconfig, hgrowth]
    rw [observe_eq, hquiet, Bool.false_and, Bool.or_false] at hanswer
    exact hanswer

/-- After a cutover at epoch 13 the cooldown holds. -/
theorem cooldown_holds_iff_thirteen :
    CooldownHolds (ConsolidationControllerConfig.defaults : ConsolidationControllerConfig ℚ) [] 13 :=
  (cooldown_holds_iff _ [] 13 (by decide)).mpr (Or.inl (by decide))

/-- After a cutover at epoch 0, five breaches at the next epochs are answered with yes. -/
theorem not_cooldown_holds :
    ¬ ∀ (config : ConsolidationControllerConfig ℚ) (earlier : List (Call ℚ)) (cutover : UInt64),
      cutover.toNat + config.minEpochsBetweenConsolidations.toNat < 2 ^ 64 →
        CooldownHolds config earlier cutover := by
  intro h
  have hstorage := h ConsolidationControllerConfig.defaults [] 0 (by decide)
    [.observe breachSignal 1, .observe breachSignal 2, .observe breachSignal 3,
      .observe breachSignal 4] (by simp) breachSignal 5 (by decide) (by decide) (by decide +kernel)
  exact Bool.false_ne_true hstorage

end ConsolidationController

end VeloGraphX
