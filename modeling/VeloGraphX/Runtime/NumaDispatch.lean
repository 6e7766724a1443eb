import Mathlib
import VeloGraphX.Runtime.ClientScript
import VeloGraphX.Runtime.NumaScheduler

/-!
# Work on the partitions of a graph

`parallel_for_partitions` submits a task for each partition to a queue of the partition's node and
waits. Each vertex is covered by one task, which is complete when the call ends, whatever else the
pool does. Which queues are used depends on how the number of nodes and the workers of a node fit
together: partition `i` takes turn `i` of its node, so a node whose partitions come at a distance that
has a factor in common with its workers leaves some of them without a partition of their own.
-/

namespace VeloGraphX

open Tiling

namespace NumaLocalScheduler

/-- The queue of a turn of the loop of `parallel_for_partitions`. -/
def queueForPartition (scheduler : NumaLocalScheduler) (partition : NumaVertexPartition)
    (sequence : ℕ) : ℕ :=
  match partition.nodeId with
  | some node => scheduler.preferredQueueForNode node sequence
  | none => sequence % max 1 scheduler.pool.size

/-- The loop of `parallel_for_partitions`: a task calls `fn` on its partition. -/
def partitionSubmissions (scheduler : NumaLocalScheduler)
    (fn : NumaVertexPartition → Option ExceptionPtr) :
    List NumaVertexPartition → ℕ → List Submission
  | [], _ => []
  | partition :: rest, sequence =>
    ⟨[(partition.partitionId, fn partition)], scheduler.queueForPartition partition sequence⟩ ::
      scheduler.partitionSubmissions fn rest (addU64 sequence 1)

/-- `parallel_for_partitions`, as the calls of the thread that makes it. -/
def parallelForPartitions (scheduler : NumaLocalScheduler)
    (fn : NumaVertexPartition → Option ExceptionPtr) : List Choice :=
  submitAndWait (scheduler.partitionSubmissions fn scheduler.partitions 0)

variable {scheduler : NumaLocalScheduler} {fn : NumaVertexPartition → Option ExceptionPtr}

/-- The submission at a turn. -/
theorem getElem?_partitionSubmissions {partitions : List NumaVertexPartition} {sequence : ℕ}
    (hfew : sequence + partitions.length < 2 ^ 64) (i : ℕ) :
    (scheduler.partitionSubmissions fn partitions sequence)[i]? = partitions[i]?.map fun partition =>
      ⟨[(partition.partitionId, fn partition)],
        scheduler.queueForPartition partition (sequence + i)⟩ := by
  induction partitions generalizing sequence i with
  | nil => rfl
  | cons partition rest ih =>
    rw [List.length_cons] at hfew
    have hnext : addU64 sequence 1 = sequence + 1 := Nat.mod_eq_of_lt (by omega)
    cases i with
    | zero => rfl
    | succ i =>
      have hsum : sequence + (i + 1) = sequence + 1 + i := by omega
      rw [partitionSubmissions, List.getElem?_cons_succ, List.getElem?_cons_succ, hnext,
        ih (by omega), hsum]

end NumaLocalScheduler

section Plan

variable {n : ℕ} {info : NumaInfo} {mode : NumaMode}

/-- The number of partitions asked for, where zero means one for each node. -/
def requestedParts (info : NumaInfo) (parts : ℕ) : ℕ :=
  if parts = 0 then if info.topology.isEmpty then 1 else info.topology.length else parts

/-- The partition of a plan with a given number. -/
theorem getElem?_planNumaVertexPartitions (n : ℕ) (info : NumaInfo) (mode : NumaMode)
    (parts i : ℕ) : (planNumaVertexPartitions n info mode parts)[i]? =
      (contiguousPartitions n (requestedParts info parts))[i]?.map (placeRange info mode i) :=
  List.getElem?_mapIdx

/-- The number of partitions. -/
theorem length_planNumaVertexPartitions (n : ℕ) (info : NumaInfo) (mode : NumaMode) (parts : ℕ) :
    (planNumaVertexPartitions n info mode parts).length =
      clampedParts n (requestedParts info parts) := by
  unfold planNumaVertexPartitions contiguousPartitions requestedParts
  simp

/-- A plan has not more partitions than fit 32 bits. -/
theorem length_planNumaVertexPartitions_lt (hn : n < 2 ^ 32) (info : NumaInfo) (mode : NumaMode)
    (parts : ℕ) : (planNumaVertexPartitions n info mode parts).length < 2 ^ 32 := by
  rw [length_planNumaVertexPartitions]
  have hparts := (clampedParts_bounds n (requestedParts info parts)).2
  omega

/-- A partition has its number and its range, whatever node it is placed on. -/
theorem placeRange_fields (info : NumaInfo) (mode : NumaMode) (i : ℕ) (range : ℕ × ℕ) :
    (placeRange info mode i range).partitionId = i ∧
      (placeRange info mode i range).range = range := by
  unfold placeRange
  dsimp only
  split <;> exact ⟨rfl, rfl⟩

/-- The node a partition is placed on. -/
theorem nodeId_placeRange (hmode : mode ≠ .off) {i : ℕ}
    (hturn : i % info.topology.length < info.topology.length) (range : ℕ × ℕ) :
    (placeRange info mode i range).nodeId = some info.topology[i % info.topology.length].id := by
  unfold placeRange
  rw [if_pos ⟨hmode, List.ne_nil_of_length_pos (Nat.zero_lt_of_lt hturn)⟩,
    List.getD_eq_getElem _ _ hturn]

end Plan

section Covers

variable {threads clients n parts t : ℕ} {queueGroups : List ℕ} {info : NumaInfo} {mode : NumaMode}
  {fn : NumaVertexPartition → Option ExceptionPtr} {s₀ s : PoolState} {mine : List Task}

/-- Task `i` of a call is on the partition with the vertex, is complete and has run once. -/
def CoveredBy (fn : NumaVertexPartition → Option ExceptionPtr) (plan : List NumaVertexPartition)
    (mine : List Task) (s : PoolState) (vertex i : ℕ) : Prop :=
  ∃ partition, plan[i]? = some partition ∧ Inside partition.range vertex ∧
    ∃ task, mine[i]? = some task ∧ task.invocations = [(i, fn partition)] ∧
      task ∈ s.completed ∧ s.runs.count task = 1

/-- A call of `parallel_for_partitions` on a pool that other threads use. -/
structure Dispatches (threads : ℕ) (queueGroups : List ℕ) (clients : ℕ)
    (plan : List NumaVertexPartition) (fn : NumaVertexPartition → Option ExceptionPtr) (t : ℕ)
    (s₀ s : PoolState) (mine : List Task) : Prop where
  reachable : Reachable (PoolState.start threads queueGroups clients) s₀
  idle : s₀.threads[t]? = some .idle
  follows : Follows t s₀ ((NumaLocalScheduler.make (WorkStealingPool.make threads queueGroups)
    plan).parallelForPartitions fn) s [] mine
  ended : s.Ended t

/-- Whatever the other threads do, when a call of `parallel_for_partitions` ends every vertex is
covered by one task of the call, which is complete and has run once. Where one of its tasks failed,
the pool holds a failure, unless this one was recorded before the last rethrow, which throws the
first of the recorded failures and drops the others. -/
theorem parallel_for_partitions_covers (hn : n < 2 ^ 32)
    (h : Dispatches threads queueGroups clients (planNumaVertexPartitions n info mode parts) fn t
      s₀ s mine) :
    (∀ vertex < n, ∃! i, CoveredBy fn (planNumaVertexPartitions n info mode parts) mine s vertex i) ∧
      mine.Nodup ∧ mine.length = (planNumaVertexPartitions n info mode parts).length ∧
      ∀ task ∈ mine, task.outcome ≠ none → task ∉ s.reported → s.pool.firstException ≠ none := by
  have hlocated := PoolState.Located.run h.reachable (.start threads queueGroups clients)
  have hwaits := PoolState.Waits.run h.reachable (.start threads queueGroups clients)
    (.start threads queueGroups clients)
  have hsurfaced := PoolState.Surfaced.run h.follows.run
    (PoolState.Surfaced.run h.reachable (.start threads queueGroups clients))
  obtain ⟨hmine, hnodup, hcomplete⟩ := h.follows.complete hlocated hwaits h.idle h.ended
  have hfew := length_planNumaVertexPartitions_lt hn info mode parts
  have htasks : mine.map Task.invocations = (planNumaVertexPartitions n info mode parts).map
      fun partition => [(partition.partitionId, fn partition)] := by
    refine List.ext_getElem? fun i => ?_
    rw [hmine, List.getElem?_map, List.getElem?_map,
      NumaLocalScheduler.getElem?_partitionSubmissions (by
        rw [Nat.zero_add]
        exact hfew.trans (by norm_num)), Option.map_map]
    rfl
  refine ⟨fun vertex hvertex => ?_, hnodup, ?_, fun task htask houtcome hnew =>
    hsurfaced.throws (hcomplete task htask).1 houtcome hnew⟩
  · have htiles := tiles_contiguousPartitions hn (requestedParts info parts)
    obtain ⟨range, hrange, hinside⟩ := htiles.exists_inside (Nat.zero_le vertex) hvertex
    obtain ⟨i, hi, hget⟩ := List.mem_iff_getElem.mp hrange
    have hplan : (planNumaVertexPartitions n info mode parts)[i]? =
        some (placeRange info mode i range) := by
      rw [getElem?_planNumaVertexPartitions, List.getElem?_eq_getElem hi, hget]
      rfl
    refine ⟨i, ⟨_, hplan, ?_, ?_⟩, ?_⟩
    · rw [(placeRange_fields info mode i range).2]
      exact hinside
    · have htask := congrArg (fun tasks => tasks[i]?) htasks
      simp only [List.getElem?_map, hplan, Option.map_some,
        (placeRange_fields info mode i range).1, Option.map_eq_some_iff] at htask
      obtain ⟨task, htask, hinvocations⟩ := htask
      exact ⟨task, htask, hinvocations, hcomplete task (List.mem_of_getElem? htask)⟩
    · rintro j ⟨partition, hother, hin, -⟩
      rw [getElem?_planNumaVertexPartitions, Option.map_eq_some_iff] at hother
      obtain ⟨other, hother, rfl⟩ := hother
      rw [(placeRange_fields info mode j other).2] at hin
      obtain ⟨hj, rfl⟩ := List.getElem?_eq_some_iff.mp hother
      subst hget
      have hpairs := List.pairwise_iff_getElem.mp htiles.pairwise
      rcases lt_trichotomy i j with hlt | heq | hgt
      · exact absurd ((hpairs i j hi hj hlt).trans hin.1) hinside.2.not_ge
      · exact heq.symm
      · exact absurd ((hpairs j i hj hi hgt).trans hinside.1) hin.2.not_ge
  · have hlength := congrArg List.length htasks
    rwa [List.length_map, List.length_map] at hlength

/-- A step of thread `t`, which makes the calls of a script. -/
def PoolState.stepScript (s : PoolState) (t : ℕ) (rest : List Choice) :
    Option (PoolState × List Choice) :=
  match s.threads[t]?, rest with
  | some .idle, [] => none
  | some .idle, choice :: rest => (s.step t choice).map fun s' => (s', rest)
  | _, rest => (s.step t .proceed).map fun s' => (s', rest)

/-- The first steps of an interleaving in which only thread `t` takes steps. -/
def PoolState.alone (t : ℕ) : ℕ → PoolState → List Choice → List Task →
    Option (PoolState × List Choice × List Task)
  | 0, s, rest, mine => some (s, rest, mine)
  | k + 1, s, rest, mine => (s.stepScript t rest).bind fun next =>
    PoolState.alone t k next.1 next.2 (mine ++ next.1.counted.drop s.counted.length)

/-- These steps follow the script. -/
theorem Follows.alone {script rest rest' : List Choice} {mine' : List Task} {k : ℕ}
    (h : Follows t s₀ script s rest mine) {s' : PoolState}
    (hsteps : PoolState.alone t k s rest mine = some (s', rest', mine')) :
    Follows t s₀ script s' rest' mine' := by
  induction k generalizing s rest mine with
  | zero =>
    cases hsteps
    exact h
  | succ k ih =>
    obtain ⟨⟨next, later⟩, hstep, hrest⟩ := Option.bind_eq_some_iff.mp hsteps
    refine ih ?_ hrest
    unfold PoolState.stepScript at hstep
    split at hstep
    · exact absurd hstep nofun
    · rename_i choice later' hidle
      obtain ⟨s₁, hs₁, heq⟩ := Option.map_eq_some_iff.mp hstep
      obtain ⟨rfl, rfl⟩ := Prod.mk.inj heq
      exact h.call hidle hs₁
    · rename_i calls _ _ hnil hcons
      obtain ⟨s₁, hs₁, heq⟩ := Option.map_eq_some_iff.mp hstep
      obtain ⟨rfl, rfl⟩ := Prod.mk.inj heq
      obtain ⟨c, hc, -⟩ := Option.map_eq_some_iff.mp hs₁
      refine h.proceed hc (fun hidle => ?_) hs₁
      subst hidle
      cases calls with
      | nil => exact hnil hc rfl
      | cons choice later => exact hcons choice later hc rfl

/-- The case of two vertices on two nodes, where the caller takes both tasks itself. -/
theorem parallel_for_partitions_covers_two :
    ∃ s mine, ∀ vertex < 2, ∃! i, CoveredBy (fun _ => none) (planNumaVertexPartitions 2
      { topology := [⟨0, [0]⟩, ⟨1, [1]⟩] } .autoDetect) mine s vertex i := by
  have hsteps : ∃ s mine, PoolState.alone 2 19 (PoolState.start 2 [] 1)
      ((NumaLocalScheduler.make (WorkStealingPool.make 2 []) (planNumaVertexPartitions 2
        { topology := [⟨0, [0]⟩, ⟨1, [1]⟩] } .autoDetect)).parallelForPartitions fun _ => none) [] =
        some (s, [], mine) ∧ ∃ wait, s.threads[2]? = some (.rethrowing wait) :=
    ⟨_, _, rfl, _, rfl⟩
  obtain ⟨s, mine, hsteps, hend⟩ := hsteps
  exact ⟨s, mine, (parallel_for_partitions_covers (by norm_num)
    ⟨.refl, rfl, Follows.start.alone hsteps, Or.inr hend⟩).1⟩

end Covers

section Spread

/-- Two congruences are one modulo the least common multiple. -/
theorem modEq_lcm_iff {a b i j : ℕ} : i ≡ j [MOD a.lcm b] ↔ i ≡ j [MOD a] ∧ i ≡ j [MOD b] := by
  simp only [← Int.natCast_modEq_iff, Int.modEq_and_modEq_iff_modEq_lcm]
  rfl

/-- A list of values that repeat with a period: how often a value stands in it. -/
theorem count_periodic {q : ℕ → ℕ} {period P : ℕ} (hperiod : 0 < period)
    (h : ∀ i < P, ∀ j < P, q i = q j ↔ i ≡ j [MOD period]) {i : ℕ} (hi : i < P) :
    ((List.range P).map q).count (q i) =
      P / period + if i % period < P % period then 1 else 0 := by
  rw [← Nat.count_modEq_card P hperiod i, List.count, List.countP_map, Nat.count]
  refine List.countP_congr fun j hj => ?_
  rw [Function.comp_apply, beq_iff_eq, decide_eq_true_eq, h j (List.mem_range.mp hj) i hi]

/-- How many values stand in it. -/
theorem length_dedup_periodic {q : ℕ → ℕ} {period P : ℕ} (hperiod : 0 < period)
    (h : ∀ i < P, ∀ j < P, q i = q j ↔ i ≡ j [MOD period]) :
    ((List.range P).map q).dedup.length = min P period := by
  have himage : ((List.range P).map q).toFinset = (Finset.range (min P period)).image q := by
    ext value
    simp only [List.mem_toFinset, List.mem_map, List.mem_range, Finset.mem_image, Finset.mem_range]
    constructor
    · rintro ⟨i, hi, rfl⟩
      have hle := Nat.mod_le i period
      have hlt := Nat.mod_lt i hperiod
      exact ⟨i % period, by omega, (h _ (by omega) i hi).mpr (Nat.mod_modEq i period)⟩
    · rintro ⟨i, hi, rfl⟩
      exact ⟨i, by omega, rfl⟩
  have hinj : Set.InjOn q (Finset.range (min P period)) := by
    intro i hi j hj heq
    rw [Finset.mem_coe, Finset.mem_range] at hi hj
    have hmod := (h i (by omega) j (by omega)).mp heq
    rwa [Nat.ModEq, Nat.mod_eq_of_lt (by omega), Nat.mod_eq_of_lt (by omega)] at hmod
  rw [← List.card_toFinset, himage, Finset.card_image_of_injOn hinj, Finset.card_range]

variable {n parts : ℕ} {info : NumaInfo} {mode : NumaMode} {pool : WorkStealingPool}

namespace NumaLocalScheduler

/-- The nodes of a scheduler for a plan are the first ones of the topology. -/
theorem nodeIds_plan (hmode : mode ≠ .off) (hnodes : 0 < info.topology.length)
    (hids : (info.topology.map NumaNodeInfo.id).Nodup) (pool : WorkStealingPool) (n parts : ℕ) :
    (make pool (planNumaVertexPartitions n info mode parts)).nodeIds.Perm
      ((info.topology.map NumaNodeInfo.id).take (planNumaVertexPartitions n info mode parts).length) := by
  obtain ⟨hnodup, hmem⟩ := make_nodeIds pool (planNumaVertexPartitions n info mode parts)
  refine (List.perm_ext_iff_of_nodup hnodup (hids.sublist (List.take_sublist _ _))).mpr fun id => ?_
  rw [hmem, List.mem_take_iff_getElem]
  constructor
  · rintro ⟨partition, hpartition, hnode⟩
    obtain ⟨i, hi, rfl⟩ := List.mem_iff_getElem.mp hpartition
    have hget := List.getElem?_eq_getElem hi
    rw [getElem?_planNumaVertexPartitions, Option.map_eq_some_iff] at hget
    obtain ⟨range, -, hrange⟩ := hget
    rw [← hrange, nodeId_placeRange hmode (Nat.mod_lt _ hnodes)] at hnode
    have hle := Nat.mod_le i info.topology.length
    have hlt := Nat.mod_lt i hnodes
    refine ⟨i % info.topology.length, ?_, ?_⟩
    · rw [List.length_map]
      omega
    · rw [List.getElem_map]
      exact Option.some.inj hnode
  · rintro ⟨i, hi, rfl⟩
    rw [List.length_map] at hi
    have hlt : i < (planNumaVertexPartitions n info mode parts).length := by omega
    refine ⟨_, List.getElem_mem hlt, ?_⟩
    have hget := List.getElem?_eq_getElem hlt
    rw [getElem?_planNumaVertexPartitions, Option.map_eq_some_iff] at hget
    obtain ⟨range, -, hrange⟩ := hget
    have hmod : i % info.topology.length = i := Nat.mod_eq_of_lt (by omega)
    rw [← hrange, nodeId_placeRange hmode (Nat.mod_lt _ hnodes), List.getElem_map]
    simp only [hmod]

/-- The number of nodes a scheduler for a plan knows. -/
theorem length_nodeIds_plan (hmode : mode ≠ .off) (hnodes : 0 < info.topology.length)
    (hids : (info.topology.map NumaNodeInfo.id).Nodup) (pool : WorkStealingPool) (n parts : ℕ) :
    (make pool (planNumaVertexPartitions n info mode parts)).nodeIds.length =
      min (planNumaVertexPartitions n info mode parts).length info.topology.length := by
  rw [(nodeIds_plan hmode hnodes hids pool n parts).length_eq, List.length_take, List.length_map]

/-- The queue that partition `i` is sent to, where the nodes have equally many workers. -/
def queueOf (scheduler : NumaLocalScheduler) (info : NumaInfo) (i : ℕ) : ℕ :=
  let count := scheduler.nodeIds.length
  scheduler.nodeIds.idxOf ((info.topology.map NumaNodeInfo.id).getD (i % info.topology.length) 0) +
    i % (scheduler.pool.size / count) * count

/-- The queue of a turn of the loop, which is one of the pool's. -/
theorem queueForPartition_plan (hmode : mode ≠ .off) (hnodes : 0 < info.topology.length)
    {pool : WorkStealingPool} (hpos : 0 < pool.size) (hsize : pool.size ≤ 2 ^ 63)
    (hdvd : (make pool (planNumaVertexPartitions n info mode parts)).nodeIds.length ∣ pool.size)
    {i : ℕ} {partition : NumaVertexPartition}
    (hget : (planNumaVertexPartitions n info mode parts)[i]? = some partition) :
    let scheduler := make pool (planNumaVertexPartitions n info mode parts)
    scheduler.queueForPartition partition i = scheduler.queueOf info i ∧
      scheduler.queueOf info i < pool.size := by
  intro scheduler
  have hdvd : scheduler.nodeIds.length ∣ scheduler.pool.size := hdvd
  have hle : scheduler.nodeIds.length ≤ scheduler.pool.size := Nat.le_of_dvd hpos hdvd
  have hmem := List.mem_of_getElem? hget
  rw [getElem?_planNumaVertexPartitions, Option.map_eq_some_iff] at hget
  obtain ⟨range, -, hrange⟩ := hget
  have hturn : i % info.topology.length < info.topology.length := Nat.mod_lt _ hnodes
  have hnode := nodeId_placeRange hmode hturn range
  rw [hrange] at hnode
  have hknown : info.topology[i % info.topology.length].id ∈ scheduler.nodeIds := ((make_nodeIds pool _).2 _).mpr ⟨partition, hmem, hnode⟩
  have hinside := slot_lt (List.idxOf_lt_length_of_mem hknown) hle
    (Or.inl hdvd : InPool scheduler.pool.size scheduler.nodeIds.length _ i)
  have hqueue := preferredQueueForNode_eq hknown hle hsize i
  have hlt : i % info.topology.length < (info.topology.map NumaNodeInfo.id).length := by
    rw [List.length_map]
    exact Nat.mod_lt _ hnodes
  have hslot : scheduler.queueOf info i = slot scheduler.pool.size scheduler.nodeIds.length
      (scheduler.nodeIds.idxOf info.topology[i % info.topology.length].id) i := by
    rw [slot, turns_eq scheduler.pool.size (Nat.pos_of_dvd_of_pos hdvd hpos), if_pos hdvd,
      Nat.add_zero, queueOf, List.getD_eq_getElem _ _ hlt, List.getElem_map]
  rw [hslot]
  refine ⟨?_, hinside⟩
  rw [queueForPartition, hnode]
  exact hqueue.trans (Nat.mod_eq_of_lt hinside)

/-- The queues of the submissions. -/
theorem hints_plan (hn : n < 2 ^ 32) (hmode : mode ≠ .off) (hnodes : 0 < info.topology.length)
    {pool : WorkStealingPool} (hpos : 0 < pool.size) (hsize : pool.size ≤ 2 ^ 63)
    (hdvd : (make pool (planNumaVertexPartitions n info mode parts)).nodeIds.length ∣ pool.size)
    (fn : NumaVertexPartition → Option ExceptionPtr) :
    let plan := planNumaVertexPartitions n info mode parts
    let scheduler := make pool plan
    (scheduler.partitionSubmissions fn plan 0).map Submission.hint =
      (List.range plan.length).map (scheduler.queueOf info) := by
  intro plan scheduler
  have hfew : plan.length < 2 ^ 32 := length_planNumaVertexPartitions_lt hn info mode parts
  refine List.ext_getElem? fun i => ?_
  rw [List.getElem?_map, List.getElem?_map, getElem?_partitionSubmissions (by omega),
    Option.map_map]
  by_cases hi : i < plan.length
  · have hget : plan[i]? = some plan[i] := List.getElem?_eq_getElem hi
    have hqueue := (queueForPartition_plan hmode hnodes hpos hsize hdvd hget).1
    rw [hget, List.getElem?_range hi, Option.map_some, Option.map_some, Function.comp_apply,
      Nat.zero_add]
    exact congrArg some hqueue
  · rw [List.getElem?_eq_none (not_lt.mp hi), List.getElem?_eq_none (by
      rw [List.length_range]
      exact not_lt.mp hi)]
    rfl

/-- Two partitions are sent to one queue exactly when their numbers agree modulo the number of nodes
and modulo the number of workers of a node. -/
theorem queueOf_eq_iff (hmode : mode ≠ .off) (hnodes : 0 < info.topology.length)
    (hids : (info.topology.map NumaNodeInfo.id).Nodup) (pool : WorkStealingPool) (n parts : ℕ)
    {i j : ℕ} (hi : i < (planNumaVertexPartitions n info mode parts).length)
    (hj : j < (planNumaVertexPartitions n info mode parts).length) :
    let scheduler := make pool (planNumaVertexPartitions n info mode parts)
    let count := scheduler.nodeIds.length
    scheduler.queueOf info i = scheduler.queueOf info j ↔
      i ≡ j [MOD count.lcm (pool.size / count)] := by
  intro scheduler count
  have hcount : count = min (planNumaVertexPartitions n info mode parts).length
    info.topology.length := length_nodeIds_plan hmode hnodes hids pool n parts
  have hperm := nodeIds_plan hmode hnodes hids pool n parts
  -- the node of a partition is one of the first `count`
  have hnode : ∀ k < (planNumaVertexPartitions n info mode parts).length,
      k % info.topology.length = k % count ∧ k % count < info.topology.length ∧ k % count < count ∧
        (info.topology.map NumaNodeInfo.id).getD (k % info.topology.length) 0 ∈ scheduler.nodeIds := by
    intro k hk
    have hpos : 0 < count := by omega
    have hsame : k % info.topology.length = k % count := by
      rcases le_total info.topology.length (planNumaVertexPartitions n info mode parts).length with
        hle | hle
      · rw [hcount, min_eq_right hle]
      · rw [hcount, min_eq_left hle, Nat.mod_eq_of_lt hk, Nat.mod_eq_of_lt (hk.trans_le hle)]
    have hlt := Nat.mod_lt k hpos
    have hlt' : k % count < info.topology.length := by omega
    refine ⟨hsame, hlt', hlt, hperm.mem_iff.mpr (List.mem_take_iff_getElem.mpr
      ⟨k % count, ?_, ?_⟩)⟩
    · rw [List.length_map]
      omega
    · rw [hsame, List.getD_eq_getElem]
  obtain ⟨hsame, hilt, hicount, hiknown⟩ := hnode i hi
  obtain ⟨hsame', hjlt, hjcount, hjknown⟩ := hnode j hj
  have hirank := List.idxOf_lt_length_of_mem hiknown
  have hjrank := List.idxOf_lt_length_of_mem hjknown
  rw [modEq_lcm_iff]
  unfold queueOf
  dsimp only
  constructor
  · intro heq
    have hmod := congrArg (· % count) heq
    have hdiv := congrArg (· / count) heq
    simp only [count, Nat.add_mul_mod_self_right, Nat.mod_eq_of_lt hirank,
      Nat.mod_eq_of_lt hjrank] at hmod
    simp only [count, Nat.add_mul_div_right _ _ (Nat.zero_lt_of_lt hirank),
      Nat.div_eq_of_lt hirank, Nat.div_eq_of_lt hjrank, Nat.zero_add] at hdiv
    refine ⟨?_, hdiv⟩
    have hids' := (List.idxOf_inj hiknown).mp hmod
    rw [hsame, hsame', List.getD_eq_getElem _ _ (by rwa [List.length_map]),
      List.getD_eq_getElem _ _ (by rwa [List.length_map])] at hids'
    exact hids.getElem_inj_iff.mp hids'
  · rintro ⟨hmod, hdiv⟩
    rw [hsame, hsame', show i % count = j % count from hmod,
      show i % (scheduler.pool.size / count) = j % (scheduler.pool.size / count) from hdiv]

/-- Where the nodes have equally many workers, a partition is sent to one of the pool's queues, and
two are sent to the same one exactly when their numbers agree modulo the least common multiple of the
number of nodes and the workers of a node. So as many queues are used as this multiple says, each for
its share of the partitions up to one, and the others only by stealing. -/
theorem parallel_for_partitions_spread (hn : n < 2 ^ 32) (hmode : mode ≠ .off)
    (hnodes : 0 < info.topology.length) (hids : (info.topology.map NumaNodeInfo.id).Nodup)
    (hpos : 0 < pool.size) (hsize : pool.size ≤ 2 ^ 63)
    (hdvd : (make pool (planNumaVertexPartitions n info mode parts)).nodeIds.length ∣ pool.size)
    (fn : NumaVertexPartition → Option ExceptionPtr) :
    let plan := planNumaVertexPartitions n info mode parts
    let scheduler := make pool plan
    let hints := (scheduler.partitionSubmissions fn plan 0).map Submission.hint
    let count := min plan.length info.topology.length
    let period := count.lcm (pool.size / count)
    hints.length = plan.length ∧ (∀ hint ∈ hints, hint < pool.size) ∧
      (∀ i < plan.length, ∀ j < plan.length, hints[i]? = hints[j]? ↔ i ≡ j [MOD period]) ∧
      (∀ i < plan.length, ∀ hint, hints[i]? = some hint →
        hints.count hint = plan.length / period + if i % period < plan.length % period then 1 else 0) ∧
      hints.dedup.length = min plan.length period := by
  intro plan scheduler hints count period
  have hcount : scheduler.nodeIds.length = count :=
    length_nodeIds_plan hmode hnodes hids pool n parts
  have hhints : hints = (List.range plan.length).map (scheduler.queueOf info) :=
    hints_plan hn hmode hnodes hpos hsize hdvd fn
  have hsame : ∀ i < plan.length, ∀ j < plan.length,
      scheduler.queueOf info i = scheduler.queueOf info j ↔ i ≡ j [MOD period] := by
    intro i hi j hj
    have hiff := queueOf_eq_iff hmode hnodes hids pool n parts hi hj
    dsimp only at hiff
    rwa [hcount] at hiff
  have hget : ∀ i < plan.length, hints[i]? = some (scheduler.queueOf info i) := by
    intro i hi
    rw [hhints, List.getElem?_map, List.getElem?_range hi]
    rfl
  have hcountpos : 0 < count := hcount ▸ Nat.pos_of_dvd_of_pos hdvd hpos
  have hworkers : 0 < pool.size / count := Nat.div_pos (Nat.le_of_dvd hpos (hcount ▸ hdvd)) hcountpos
  have hperiod : 0 < period := Nat.lcm_pos hcountpos hworkers
  refine ⟨?_, fun hint hhint => ?_, fun i hi j hj => ?_, fun i hi hint hhint => ?_, ?_⟩
  · rw [hhints, List.length_map, List.length_range]
  · rw [hhints] at hhint
    obtain ⟨i, hi, rfl⟩ := List.mem_map.mp hhint
    exact (queueForPartition_plan hmode hnodes hpos hsize hdvd
      (List.getElem?_eq_getElem (List.mem_range.mp hi))).2
  · rw [hget i hi, hget j hj, Option.some_inj]
    exact hsame i hi j hj
  · rw [hget i hi, Option.some_inj] at hhint
    rw [← hhint, hhints]
    exact count_periodic hperiod hsame hi
  · rw [hhints]
    exact length_dedup_periodic hperiod hsame

/-- The case of eight partitions on two nodes with two workers each, where two queues get all of
them. -/
theorem parallel_for_partitions_spread_half :
    let plan := planNumaVertexPartitions 8 { topology := [⟨0, [0, 1]⟩, ⟨1, [2, 3]⟩] } .autoDetect 8
    (((make (WorkStealingPool.make 4 []) plan).partitionSubmissions (fun _ => none) plan 0).map
      Submission.hint).dedup.length = 2 :=
  (parallel_for_partitions_spread (by norm_num) (by decide) (by decide) (by decide) (by decide)
    (by decide) (by decide) fun _ => none).2.2.2.2.trans (by decide)

end NumaLocalScheduler

end Spread

end VeloGraphX
