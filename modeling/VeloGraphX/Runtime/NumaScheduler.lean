import Mathlib
import VeloGraphX.Runtime.Partitioner
import VeloGraphX.Runtime.WorkStealingPool

/-!
# Queues for the nodes of a NUMA topology

The worker of queue `i` is placed on the node of rank `i` modulo the number of nodes. The scheduler
looks for a queue of a given node by going through that node's workers in turn. It gives every node
as many turns as the node with the most workers has, and where the pool's size is not a multiple of
the number of nodes the last turn of the others falls on a queue of another node.
-/

namespace VeloGraphX

/-- `NumaPlacement`. -/
structure NumaPlacement where
  mode : NumaMode := .autoDetect
  workerIndex : ℕ := 0
  nodeId : Option ℕ := none
  cpuId : Option ℕ := none
deriving DecidableEq, Repr

/-- `choose_numa_placement`. -/
def chooseNumaPlacement (info : NumaInfo) (mode : NumaMode) (workerIndex : ℕ) : NumaPlacement :=
  let placement : NumaPlacement := { mode := mode, workerIndex := workerIndex }
  if mode = .off ∨ info.topology = [] then placement
  else
    let node := info.topology.getD (workerIndex % info.topology.length) default
    let placement := { placement with nodeId := some node.id }
    if node.cpus = [] then placement
    else
      let localWorker := workerIndex / info.topology.length
      { placement with cpuId := some (node.cpus.getD (localWorker % node.cpus.length) 0) }

/-- `NumaLocalScheduler`. -/
structure NumaLocalScheduler where
  pool : WorkStealingPool
  partitions : List NumaVertexPartition
  nodeIds : List ℕ

/-- A turn of the constructor's loop: the node of a partition, unless it is already known. -/
def learnNode (nodeIds : List ℕ) (partition : NumaVertexPartition) : List ℕ :=
  match partition.nodeId with
  | none => nodeIds
  | some id => if id ∈ nodeIds then nodeIds else nodeIds ++ [id]

namespace NumaLocalScheduler

/-- The constructor. -/
def make (pool : WorkStealingPool) (partitions : List NumaVertexPartition) : NumaLocalScheduler :=
  { pool := pool
    partitions := partitions
    nodeIds := (partitions.foldl learnNode []).insertionSort (· ≤ ·) }

/-- `preferred_queue_for_node`. -/
def preferredQueueForNode (scheduler : NumaLocalScheduler) (nodeId : ℕ) (sequence : ℕ := 0) : ℕ :=
  let size := scheduler.pool.size
  if size = 0 ∨ scheduler.nodeIds = [] then sequence % max 1 size
  else
    let nodeCount := scheduler.nodeIds.length
    let nodeRank := if nodeId ∈ scheduler.nodeIds then scheduler.nodeIds.idxOf nodeId
      else nodeId % nodeCount
    let localWorkers := subU64 (addU64 size nodeCount) 1 / nodeCount
    addU64 nodeRank (mulU64 (sequence % localWorkers) nodeCount) % size

end NumaLocalScheduler

section Turns

variable {size count rank sequence : ℕ}

/-- The number of turns: `size / count`, rounded up. -/
def turns (size count : ℕ) : ℕ := (size + count - 1) / count

/-- Rounding up adds one unless the division is exact. -/
theorem turns_eq (size : ℕ) (hcount : 0 < count) :
    turns size count = size / count + if count ∣ size then 0 else 1 := by
  have hsum : size + count - 1 = size + (count - 1) := by omega
  rw [turns, hsum, Nat.add_div hcount, Nat.div_eq_of_lt (show count - 1 < count by omega),
    Nat.mod_eq_of_lt (show count - 1 < count by omega), Nat.add_zero]
  by_cases hdvd : count ∣ size
  · have hzero := Nat.mod_eq_zero_of_dvd hdvd
    rw [if_pos hdvd, if_neg (by omega)]
  · have hpos : size % count ≠ 0 := fun hzero => hdvd (Nat.dvd_of_mod_eq_zero hzero)
    rw [if_neg hdvd, if_pos (by omega)]

/-- The queue of a node's turn, before it is taken modulo the size of the pool. -/
def slot (size count rank sequence : ℕ) : ℕ := rank + sequence % turns size count * count

/-- The turn stays in the pool: the pool's size is a multiple of the number of nodes, or the node is
one of those with a worker more than others, or it is not the last turn of those. -/
def InPool (size count rank sequence : ℕ) : Prop :=
  count ∣ size ∨ rank < size % count ∨ sequence % (size / count + 1) ≠ size / count

/-- A turn that stays in the pool has a slot below its size. -/
theorem slot_lt (hrank : rank < count) (hsize : count ≤ size)
    (h : InPool size count rank sequence) : slot size count rank sequence < size := by
  have hcount : 0 < count := by omega
  have hdiv := Nat.div_add_mod' size count
  have hquotient : 1 ≤ size / count := (Nat.one_le_div_iff hcount).mpr hsize
  have hturn : sequence % turns size count < size / count →
      slot size count rank sequence < size := fun hlt => by
    have hmul : (sequence % turns size count + 1) * count ≤ size / count * count :=
      Nat.mul_le_mul_right count hlt
    rw [Nat.add_one_mul] at hmul
    rw [slot]
    omega
  by_cases hdvd : count ∣ size
  · refine hturn ?_
    rw [turns_eq size hcount, if_pos hdvd, Nat.add_zero]
    exact Nat.mod_lt _ hquotient
  · rw [turns_eq size hcount, if_neg hdvd] at hturn
    have hlast := Nat.mod_lt sequence (Nat.succ_pos (size / count))
    rcases h with hexact | hmore | hbefore
    · exact absurd hexact hdvd
    · have hmul : sequence % (size / count + 1) * count ≤ size / count * count :=
        Nat.mul_le_mul_right count (Nat.lt_succ_iff.mp hlast)
      rw [slot, turns_eq size hcount, if_neg hdvd]
      omega
    · exact hturn (lt_of_le_of_ne (Nat.lt_succ_iff.mp hlast) hbefore)

/-- The slot of any other turn is beyond the pool, by less than the node's rank. -/
theorem slot_of_not_inPool (hcount : 0 < count) (h : ¬ InPool size count rank sequence) :
    0 < size % count ∧ slot size count rank sequence + size % count = size + rank := by
  simp only [InPool, not_or, not_not] at h
  obtain ⟨hdvd, -, hlast⟩ := h
  refine ⟨Nat.pos_of_ne_zero fun hzero => hdvd (Nat.dvd_of_mod_eq_zero hzero), ?_⟩
  have hdiv := Nat.div_add_mod' size count
  rw [slot, turns_eq size hcount, if_neg hdvd, hlast]
  omega

/-- The queue has the rank modulo the number of nodes exactly when the turn stays in the pool. -/
theorem slot_mod (hrank : rank < count) (hsize : count ≤ size) :
    slot size count rank sequence % size % count = rank ↔ InPool size count rank sequence := by
  by_cases h : InPool size count rank sequence
  · refine iff_of_true ?_ h
    rw [Nat.mod_eq_of_lt (slot_lt hrank hsize h), slot, Nat.add_mul_mod_self_right,
      Nat.mod_eq_of_lt hrank]
  · refine iff_of_false (fun heq => ?_) h
    obtain ⟨hpos, hslot⟩ := slot_of_not_inPool (by omega) h
    have hmore : size % count ≤ rank := by
      simp only [InPool, not_or, not_lt] at h
      exact h.2.1
    have hback : slot size count rank sequence % size = rank - size % count := by
      have hsum : slot size count rank sequence = rank - size % count + size := by omega
      rw [hsum, Nat.add_mod_right, Nat.mod_eq_of_lt (by omega)]
    rw [hback, Nat.mod_eq_of_lt (by omega)] at heq
    omega

/-- No slot needs more than 64 bits. -/
theorem slot_lt_two_mul (hrank : rank < count) (hsize : count ≤ size) :
    slot size count rank sequence < 2 * size := by
  by_cases h : InPool size count rank sequence
  · have hlt := slot_lt hrank hsize h
    omega
  · obtain ⟨hpos, hslot⟩ := slot_of_not_inPool (by omega) h
    omega

/-- Where the division is not exact, the last turn of the last node leaves the pool. -/
theorem not_inPool_last (hcount : 0 < count) (hdvd : ¬ count ∣ size) :
    ¬ InPool size count (count - 1) (size / count) := by
  have hmod := Nat.mod_lt size hcount
  simp only [InPool, not_or, not_lt, not_not]
  exact ⟨hdvd, by omega, Nat.mod_eq_of_lt (Nat.lt_succ_self _)⟩

end Turns

namespace NumaLocalScheduler

variable {scheduler : NumaLocalScheduler} {node sequence : ℕ}

/-- The ids of the scheduler's nodes, each of them once. -/
theorem make_nodeIds (pool : WorkStealingPool) (partitions : List NumaVertexPartition) :
    (make pool partitions).nodeIds.Nodup ∧ ∀ id, id ∈ (make pool partitions).nodeIds ↔
      ∃ partition ∈ partitions, partition.nodeId = some id := by
  have hlearn : ∀ (partitions : List NumaVertexPartition) (ids : List ℕ), ids.Nodup →
      (partitions.foldl learnNode ids).Nodup ∧ ∀ id, id ∈ partitions.foldl learnNode ids ↔
        id ∈ ids ∨ ∃ partition ∈ partitions, partition.nodeId = some id := by
    intro partitions
    induction partitions with
    | nil => exact fun ids hids => ⟨hids, fun id => by simp⟩
    | cons partition rest ih =>
      intro ids hids
      have hstep : (learnNode ids partition).Nodup ∧
          ∀ id, id ∈ learnNode ids partition ↔ id ∈ ids ∨ partition.nodeId = some id := by
        unfold learnNode
        cases hnode : partition.nodeId with
        | none => exact ⟨hids, fun id => by simp⟩
        | some id =>
          by_cases hmem : id ∈ ids
          · simp only [if_pos hmem]
            refine ⟨hids, fun other => ⟨Or.inl, ?_⟩⟩
            rintro (hother | heq)
            · exact hother
            · exact Option.some.inj heq ▸ hmem
          · simp only [if_neg hmem]
            exact ⟨List.nodup_append_comm.mpr (by simpa using ⟨hmem, hids⟩), fun other => by
              simp [eq_comm]⟩
      obtain ⟨hnodup, hmem⟩ := ih _ hstep.1
      refine ⟨hnodup, fun id => ?_⟩
      rw [List.foldl_cons, hmem, hstep.2, or_assoc]
      simp
  obtain ⟨hnodup, hmem⟩ := hlearn partitions [] List.nodup_nil
  refine ⟨(List.perm_insertionSort _ _).nodup_iff.mpr hnodup, fun id => ?_⟩
  exact (List.perm_insertionSort _ _).mem_iff.trans ((hmem id).trans (by simp))

/-- The queue of a known node. -/
theorem preferredQueueForNode_eq (hnode : node ∈ scheduler.nodeIds)
    (hle : scheduler.nodeIds.length ≤ scheduler.pool.size) (hsize : scheduler.pool.size ≤ 2 ^ 63)
    (sequence : ℕ) : scheduler.preferredQueueForNode node sequence =
      slot scheduler.pool.size scheduler.nodeIds.length (scheduler.nodeIds.idxOf node) sequence %
        scheduler.pool.size := by
  have hrank := List.idxOf_lt_length_of_mem hnode
  have hlt : slot scheduler.pool.size scheduler.nodeIds.length (scheduler.nodeIds.idxOf node)
      sequence < 2 * scheduler.pool.size := slot_lt_two_mul hrank hle
  have hnil : ¬ (scheduler.pool.size = 0 ∨ scheduler.nodeIds = []) := by
    rintro (hzero | hnil)
    · omega
    · exact List.ne_nil_of_mem hnode hnil
  unfold preferredQueueForNode
  simp only [if_neg hnil, if_pos hnode]
  generalize scheduler.nodeIds.length = count at hle hrank hlt ⊢
  generalize scheduler.pool.size = size at hle hsize hlt ⊢
  generalize scheduler.nodeIds.idxOf node = rank at hrank hlt ⊢
  have hsum : subU64 (addU64 size count) 1 = size + count - 1 := by
    unfold subU64 addU64
    omega
  have hturns : subU64 (addU64 size count) 1 / count = turns size count := by rw [hsum, turns]
  have hmul : mulU64 (sequence % turns size count) count = sequence % turns size count * count :=
    Nat.mod_eq_of_lt (by unfold slot at hlt; omega)
  have hadd : addU64 rank (sequence % turns size count * count) = slot size count rank sequence :=
    Nat.mod_eq_of_lt (by unfold slot at hlt; omega)
  rw [hturns, hmul, hadd]

/-- A queue's worker is placed on the node of its rank. -/
theorem chooseNumaPlacement_nodeId {info : NumaInfo} {mode : NumaMode} (hmode : mode ≠ .off)
    {nodeIds : List ℕ} (hids : info.topology.map NumaNodeInfo.id = nodeIds) (hpos : nodeIds ≠ [])
    (worker : ℕ) :
    (chooseNumaPlacement info mode worker).nodeId = nodeIds[worker % nodeIds.length]? := by
  subst hids
  have hnil : info.topology ≠ [] := fun h => hpos (by rw [h, List.map_nil])
  have hlt : worker % info.topology.length < info.topology.length :=
    Nat.mod_lt _ (List.length_pos_iff.mpr hnil)
  have hnode : (chooseNumaPlacement info mode worker).nodeId =
      some (info.topology.getD (worker % info.topology.length) default).id := by
    unfold chooseNumaPlacement
    rw [if_neg (not_or.mpr ⟨hmode, hnil⟩)]
    dsimp only
    split <;> rfl
  rw [hnode, List.length_map, List.getElem?_map, List.getD_eq_getElem?_getD,
    List.getElem?_eq_getElem hlt]
  rfl

/-- The queue for a node is one of the pool's, its index modulo the number of nodes is the node's
rank, and on a topology of these nodes its worker is placed on the node. -/
structure RoutesLocally (scheduler : NumaLocalScheduler) (node sequence : ℕ) : Prop where
  valid : scheduler.preferredQueueForNode node sequence < scheduler.pool.size
  congruent : scheduler.preferredQueueForNode node sequence % scheduler.nodeIds.length =
    scheduler.nodeIds.idxOf node
  placed : ∀ (info : NumaInfo) (mode : NumaMode), mode ≠ .off →
    info.topology.map NumaNodeInfo.id = scheduler.nodeIds →
    (chooseNumaPlacement info mode (scheduler.preferredQueueForNode node sequence)).nodeId =
      some node

/-- The queues for different nodes are different. -/
def QueuesDisjoint (scheduler : NumaLocalScheduler) : Prop :=
  ∀ node ∈ scheduler.nodeIds, ∀ other ∈ scheduler.nodeIds, node ≠ other →
    ∀ sequence < 2 ^ 64, ∀ sequence' < 2 ^ 64,
      scheduler.preferredQueueForNode node sequence ≠
        scheduler.preferredQueueForNode other sequence'

/-- A queue is local to its node exactly when the turn stays in the pool. -/
theorem routesLocally_iff_inPool (hnode : node ∈ scheduler.nodeIds)
    (hle : scheduler.nodeIds.length ≤ scheduler.pool.size) (hsize : scheduler.pool.size ≤ 2 ^ 63) :
    scheduler.RoutesLocally node sequence ↔ InPool scheduler.pool.size scheduler.nodeIds.length
      (scheduler.nodeIds.idxOf node) sequence := by
  have hrank := List.idxOf_lt_length_of_mem hnode
  have heq := preferredQueueForNode_eq hnode hle hsize sequence
  refine ⟨fun h => (slot_mod hrank hle).mp (heq ▸ h.congruent), fun h => ?_⟩
  have hcongruent := (congrArg (· % scheduler.nodeIds.length) heq).trans
    ((slot_mod hrank hle).mpr h)
  refine ⟨heq ▸ Nat.mod_lt _ (by omega), hcongruent, fun info mode hmode hids => ?_⟩
  rw [chooseNumaPlacement_nodeId hmode hids (List.ne_nil_of_mem hnode), hcongruent,
    List.getElem?_eq_getElem hrank, List.getElem_idxOf]

/-- Local queues of different nodes are different. -/
theorem queuesDisjoint_of_local
    (h : ∀ node ∈ scheduler.nodeIds, ∀ sequence < 2 ^ 64, scheduler.RoutesLocally node sequence) :
    scheduler.QueuesDisjoint := by
  intro node hnode other hother hne sequence hsequence sequence' hsequence' heq
  have hrank := (h node hnode sequence hsequence).congruent
  rw [heq, (h other hother sequence' hsequence').congruent] at hrank
  exact hne ((List.idxOf_inj hnode).mp hrank.symm)

/-- Where some nodes have more workers than others, the last turn of the last node falls on the
first queue of another node. -/
theorem dvd_of_queuesDisjoint (hnodup : scheduler.nodeIds.Nodup)
    (hle : scheduler.nodeIds.length ≤ scheduler.pool.size) (hsize : scheduler.pool.size ≤ 2 ^ 63)
    (h : scheduler.QueuesDisjoint) :
    scheduler.nodeIds = [] ∨ scheduler.nodeIds.length ∣ scheduler.pool.size := by
  refine or_iff_not_imp_left.mpr fun hnil => ?_
  by_contra hdvd
  have hpos : 0 < scheduler.nodeIds.length := List.length_pos_iff.mpr hnil
  have hout := not_inPool_last hpos hdvd
  obtain ⟨hmore, hslot⟩ := slot_of_not_inPool hpos hout
  have hrest := Nat.mod_lt scheduler.pool.size hpos
  have hturn : scheduler.pool.size / scheduler.nodeIds.length < 2 ^ 64 :=
    (Nat.div_le_self _ _).trans_lt (by omega)
  have hqueue : ∀ (rank : ℕ) (hrank : rank < scheduler.nodeIds.length) (sequence : ℕ),
      scheduler.preferredQueueForNode scheduler.nodeIds[rank] sequence =
        slot scheduler.pool.size scheduler.nodeIds.length rank sequence % scheduler.pool.size := by
    intro rank hrank sequence
    rw [preferredQueueForNode_eq (List.getElem_mem hrank) hle hsize, hnodup.idxOf_getElem]
  have hlast : scheduler.nodeIds.length - 1 < scheduler.nodeIds.length := by omega
  have hother : scheduler.nodeIds.length - 1 - scheduler.pool.size % scheduler.nodeIds.length <
      scheduler.nodeIds.length := by omega
  have hne : scheduler.nodeIds[scheduler.nodeIds.length - 1] ≠ scheduler.nodeIds[
      scheduler.nodeIds.length - 1 - scheduler.pool.size % scheduler.nodeIds.length] := fun heq => by
    have hsame := (hnodup.getElem_inj_iff).mp heq
    omega
  refine h _ (List.getElem_mem hlast) _ (List.getElem_mem hother) hne _ hturn 0 (by norm_num) ?_
  rw [hqueue _ hlast, hqueue _ hother]
  have hfirst : slot scheduler.pool.size scheduler.nodeIds.length
      (scheduler.nodeIds.length - 1 - scheduler.pool.size % scheduler.nodeIds.length) 0 =
        scheduler.nodeIds.length - 1 - scheduler.pool.size % scheduler.nodeIds.length := by
    rw [slot, Nat.zero_mod, Nat.zero_mul, Nat.add_zero]
  have hback : slot scheduler.pool.size scheduler.nodeIds.length (scheduler.nodeIds.length - 1)
      (scheduler.pool.size / scheduler.nodeIds.length) = scheduler.nodeIds.length - 1 -
        scheduler.pool.size % scheduler.nodeIds.length + scheduler.pool.size := by omega
  rw [hfirst, hback, Nat.add_mod_right]

/-- A queue is local to its node exactly when the turn stays in the pool. All queues are local, and
the queues of different nodes are different, exactly when the pool's size is a multiple of the number
of nodes, or there is no node. -/
theorem queues_local_iff (pool : WorkStealingPool) (partitions : List NumaVertexPartition)
    (hle : (make pool partitions).nodeIds.length ≤ pool.size) (hsize : pool.size ≤ 2 ^ 63) :
    let scheduler := make pool partitions
    (∀ node ∈ scheduler.nodeIds, ∀ sequence, scheduler.RoutesLocally node sequence ↔
      InPool pool.size scheduler.nodeIds.length (scheduler.nodeIds.idxOf node) sequence) ∧
    ((∀ node ∈ scheduler.nodeIds, ∀ sequence < 2 ^ 64, scheduler.RoutesLocally node sequence) ↔
      scheduler.nodeIds = [] ∨ scheduler.nodeIds.length ∣ pool.size) ∧
    (scheduler.QueuesDisjoint ↔
      scheduler.nodeIds = [] ∨ scheduler.nodeIds.length ∣ pool.size) := by
  intro scheduler
  have hturn : ∀ node ∈ scheduler.nodeIds, ∀ sequence, scheduler.RoutesLocally node sequence ↔
      InPool pool.size scheduler.nodeIds.length (scheduler.nodeIds.idxOf node) sequence :=
    fun node hnode sequence => routesLocally_iff_inPool hnode hle hsize
  have hlocal : scheduler.nodeIds = [] ∨ scheduler.nodeIds.length ∣ pool.size →
      ∀ node ∈ scheduler.nodeIds, ∀ sequence < 2 ^ 64, scheduler.RoutesLocally node sequence := by
    rintro (hnil | hdvd) node hnode sequence -
    · exact absurd (hnil ▸ hnode) List.not_mem_nil
    · exact (hturn node hnode sequence).mpr (Or.inl hdvd)
  have hdvd : scheduler.QueuesDisjoint →
      scheduler.nodeIds = [] ∨ scheduler.nodeIds.length ∣ pool.size :=
    dvd_of_queuesDisjoint (make_nodeIds pool partitions).1 hle hsize
  exact ⟨hturn, ⟨fun h => hdvd (queuesDisjoint_of_local h), hlocal⟩,
    ⟨hdvd, fun h => queuesDisjoint_of_local (hlocal h)⟩⟩

/-- A scheduler for the vertices of two nodes. -/
def twoNodes (threads : ℕ) : NumaLocalScheduler :=
  make (WorkStealingPool.make threads []) (planNumaVertexPartitions 100
    { topology := [⟨0, [0, 2]⟩, ⟨1, [1, 3]⟩] } .autoDetect 4)

/-- The case of two nodes and four workers. -/
theorem queues_local_iff_four :
    (twoNodes 4).RoutesLocally 1 7 ∧ (twoNodes 4).QueuesDisjoint := by
  have h := queues_local_iff (WorkStealingPool.make 4 []) (twoNodes 4).partitions
    (by decide) (by decide)
  have hdvd : (twoNodes 4).nodeIds = [] ∨ (twoNodes 4).nodeIds.length ∣ 4 := by decide
  exact ⟨h.2.1.mpr hdvd 1 (by decide) 7 (by norm_num), h.2.2.mpr hdvd⟩

/-- With three workers, node 1 is sent to the worker of node 0 at every second turn. -/
theorem not_queues_local :
    ¬ (∀ node ∈ (twoNodes 3).nodeIds, ∀ sequence < 2 ^ 64,
        (twoNodes 3).RoutesLocally node sequence) ∧
      ¬ (twoNodes 3).QueuesDisjoint := by
  have hzero : (twoNodes 3).preferredQueueForNode 0 0 = 0 := by decide
  have hone : (twoNodes 3).preferredQueueForNode 1 1 = 0 := by decide
  refine ⟨fun h => ?_, fun h => ?_⟩
  · have hcongruent := (h 1 (by decide) 1 (by norm_num)).congruent
    rw [hone] at hcongruent
    exact absurd hcongruent (by decide)
  · exact h 0 (by decide) 1 (by decide) (by decide) 0 (by norm_num) 1 (by norm_num)
      (hzero.trans hone.symm)

end NumaLocalScheduler

end VeloGraphX
