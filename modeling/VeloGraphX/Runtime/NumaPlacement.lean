import Mathlib
import VeloGraphX.Runtime.NumaScheduler

/-!
# Placing workers on nodes and CPUs

Workers go round the nodes, and the workers of one node go round its CPUs. So the workers of a CPU
are those with one remainder, and every node and every CPU gets its share of them up to one.
-/

namespace VeloGraphX

/-- `plan_numa_workers`. -/
def planNumaWorkers (info : NumaInfo) (mode : NumaMode) (workers : ℕ) : List NumaPlacement :=
  (List.range workers).map (chooseNumaPlacement info mode)

variable {info : NumaInfo} {mode : NumaMode}

/-- Without a topology, or with the mode off, no worker is placed. -/
theorem chooseNumaPlacement_off (h : mode = .off ∨ info.topology = []) (worker : ℕ) :
    chooseNumaPlacement info mode worker = { mode := mode, workerIndex := worker } := if_pos h

/-- The node of a worker. -/
theorem nodeId_chooseNumaPlacement (hmode : mode ≠ .off) {worker : ℕ}
    (hturn : worker % info.topology.length < info.topology.length) :
    (chooseNumaPlacement info mode worker).nodeId =
      some info.topology[worker % info.topology.length].id := by
  have hplaced : ¬ (mode = .off ∨ info.topology = []) := by
    rintro (hoff | hnil)
    · exact hmode hoff
    · rw [hnil] at hturn
      exact Nat.not_lt_zero _ hturn
  unfold chooseNumaPlacement
  rw [if_neg hplaced, List.getD_eq_getElem _ _ hturn]
  dsimp only
  split <;> rfl

/-- The CPU of a worker, if its node has one. -/
theorem cpuId_chooseNumaPlacement (hmode : mode ≠ .off) {worker : ℕ}
    (hturn : worker % info.topology.length < info.topology.length) :
    let cpus := info.topology[worker % info.topology.length].cpus
    (chooseNumaPlacement info mode worker).cpuId =
      cpus[worker / info.topology.length % cpus.length]? := by
  have hplaced : ¬ (mode = .off ∨ info.topology = []) := by
    rintro (hoff | hnil)
    · exact hmode hoff
    · rw [hnil] at hturn
      exact Nat.not_lt_zero _ hturn
  unfold chooseNumaPlacement
  rw [if_neg hplaced, List.getD_eq_getElem _ _ hturn]
  dsimp only
  generalize info.topology[worker % info.topology.length].cpus = cpus
  split
  · rename_i hempty
    rw [hempty]
    rfl
  · rename_i hsome
    have hlt := Nat.mod_lt (worker / info.topology.length) (List.length_pos_of_ne_nil hsome)
    rw [List.getD_eq_getElem _ _ hlt, List.getElem?_eq_getElem hlt]

/-- A remainder in mixed radix. -/
theorem modEq_mixed_iff {nodes cpus k r : ℕ} (hk : k < nodes) (hr : r < cpus) (i : ℕ) :
    i ≡ k + nodes * r [MOD nodes * cpus] ↔ i % nodes = k ∧ i / nodes % cpus = r := by
  have hlt : k + nodes * r < nodes * cpus := by
    have hle : nodes * (r + 1) ≤ nodes * cpus := Nat.mul_le_mul_left nodes hr
    rw [Nat.mul_succ] at hle
    omega
  rw [Nat.ModEq, Nat.mod_eq_of_lt hlt, Nat.mod_mul]
  constructor
  · intro heq
    have hmod := congrArg (· % nodes) heq
    have hdiv := congrArg (· / nodes) heq
    have hpos : 0 < nodes := by omega
    simp only [Nat.add_mul_mod_self_left, Nat.mod_mod, Nat.mod_eq_of_lt hk] at hmod
    simp only [Nat.add_mul_div_left _ _ hpos, Nat.div_eq_of_lt hk,
      Nat.div_eq_of_lt (Nat.mod_lt i hpos), Nat.zero_add] at hdiv
    exact ⟨hmod, hdiv⟩
  · rintro ⟨rfl, rfl⟩
    rfl

/-- A CPU belongs to one node, in one place. -/
theorem cpu_unique (hcpus : (info.topology.flatMap NumaNodeInfo.cpus).Nodup) {i j x y : ℕ}
    (hi : i < info.topology.length) (hj : j < info.topology.length) {cpu : ℕ}
    (hx : info.topology[i].cpus[x]? = some cpu) (hy : info.topology[j].cpus[y]? = some cpu) :
    i = j ∧ x = y := by
  obtain ⟨heach, hdisjoint⟩ := List.nodup_flatMap.mp hcpus
  have hij : i = j := by
    have hapart := List.pairwise_iff_getElem.mp hdisjoint
    rcases lt_trichotomy i j with hlt | heq | hgt
    · exact absurd (List.mem_of_getElem? hy) (hapart i j hi hj hlt (List.mem_of_getElem? hx))
    · exact heq
    · exact absurd (List.mem_of_getElem? hx) (hapart j i hj hi hgt (List.mem_of_getElem? hy))
  subst hij
  obtain ⟨hx', hxeq⟩ := List.getElem?_eq_some_iff.mp hx
  obtain ⟨hy', hyeq⟩ := List.getElem?_eq_some_iff.mp hy
  exact ⟨rfl, (heach _ (List.getElem_mem hi)).getElem_inj_iff.mp (hxeq.trans hyeq.symm)⟩

/-- How many workers a node gets. -/
theorem count_node (hmode : mode ≠ .off) (hids : (info.topology.map NumaNodeInfo.id).Nodup)
    (workers : ℕ) {k : ℕ} (hk : k < info.topology.length) :
    (planNumaWorkers info mode workers).countP
        (fun placement => decide (placement.nodeId = some info.topology[k].id)) =
      workers / info.topology.length + if k < workers % info.topology.length then 1 else 0 := by
  have hnodes : 0 < info.topology.length := by omega
  have hcount := Nat.count_modEq_card workers hnodes k
  rw [Nat.mod_eq_of_lt hk] at hcount
  rw [← hcount, planNumaWorkers, List.countP_map, Nat.count]
  refine List.countP_congr fun worker _ => ?_
  simp only [Function.comp_apply, decide_eq_true_eq]
  rw [nodeId_chooseNumaPlacement hmode (Nat.mod_lt _ hnodes), Option.some_inj, Nat.ModEq, Nat.mod_eq_of_lt hk]
  have hworker : worker % info.topology.length < (info.topology.map NumaNodeInfo.id).length := by
    rw [List.length_map]
    exact Nat.mod_lt _ hnodes
  have hnode : k < (info.topology.map NumaNodeInfo.id).length := by rwa [List.length_map]
  have hinj : (info.topology.map NumaNodeInfo.id)[worker % info.topology.length] =
      (info.topology.map NumaNodeInfo.id)[k] ↔ worker % info.topology.length = k :=
    hids.getElem_inj_iff
  rwa [List.getElem_map, List.getElem_map] at hinj

/-- How many workers a CPU gets. -/
theorem count_cpu (hmode : mode ≠ .off) (hcpus : (info.topology.flatMap NumaNodeInfo.cpus).Nodup)
    (workers : ℕ) {k r : ℕ} (hk : k < info.topology.length)
    (hr : r < info.topology[k].cpus.length) :
    let cpus := info.topology[k].cpus
    let shares := info.topology.length * cpus.length
    (planNumaWorkers info mode workers).countP
        (fun placement => decide (placement.cpuId = some cpus[r])) =
      workers / shares + if k + info.topology.length * r < workers % shares then 1 else 0 := by
  have hnodes : 0 < info.topology.length := by omega
  have hshares : 0 < info.topology.length * info.topology[k].cpus.length :=
    Nat.mul_pos hnodes (by omega)
  have hlt : k + info.topology.length * r < info.topology.length * info.topology[k].cpus.length := by
    have hle := Nat.mul_le_mul_left info.topology.length (Nat.succ_le_of_lt hr)
    rw [Nat.mul_succ] at hle
    omega
  have hcount := Nat.count_modEq_card workers hshares (k + info.topology.length * r)
  rw [Nat.mod_eq_of_lt hlt] at hcount
  dsimp only
  rw [← hcount, planNumaWorkers, List.countP_map, Nat.count]
  refine List.countP_congr fun worker _ => ?_
  simp only [Function.comp_apply, decide_eq_true_eq]
  rw [modEq_mixed_iff hk hr, cpuId_chooseNumaPlacement hmode (Nat.mod_lt _ hnodes)]
  constructor
  · intro hsome
    obtain ⟨hnode, hplace⟩ := cpu_unique hcpus (Nat.mod_lt _ hnodes) hk hsome
      (List.getElem?_eq_getElem hr)
    subst hnode
    exact ⟨rfl, hplace⟩
  · rintro ⟨hnode, hplace⟩
    subst hnode
    rw [hplace, List.getElem?_eq_getElem hr]

/-- A topology whose nodes have different ids and share no CPU. -/
structure NumaInfo.Separate (info : NumaInfo) : Prop where
  ids : (info.topology.map NumaNodeInfo.id).Nodup
  cpus : (info.topology.flatMap NumaNodeInfo.cpus).Nodup

/-- No CPU gets two workers as long as every node with CPUs has one for each of its turns. -/
theorem nodup_cpuIds (hmode : mode ≠ .off) (h : info.Separate) {workers : ℕ}
    (hfew : ∀ node ∈ info.topology, node.cpus ≠ [] →
      workers ≤ info.topology.length * node.cpus.length) :
    ((planNumaWorkers info mode workers).filterMap NumaPlacement.cpuId).Nodup := by
  refine List.nodup_iff_count_le_one.mpr fun cpu => ?_
  rw [List.count_filterMap]
  by_cases hplaced : ∃ placement ∈ planNumaWorkers info mode workers, placement.cpuId = some cpu
  · obtain ⟨placement, hmem, hcpu⟩ := hplaced
    obtain ⟨worker, -, rfl⟩ := List.mem_map.mp hmem
    have hnodes : 0 < info.topology.length := by
      refine List.length_pos_of_ne_nil fun hnil => ?_
      rw [chooseNumaPlacement_off (Or.inr hnil)] at hcpu
      exact Option.some_ne_none cpu hcpu.symm
    have hk := Nat.mod_lt worker hnodes
    rw [cpuId_chooseNumaPlacement hmode hk] at hcpu
    obtain ⟨hr, heq⟩ := List.getElem?_eq_some_iff.mp hcpu
    have hcount := count_cpu hmode h.cpus workers hk hr
    have hle := hfew _ (List.getElem_mem hk) (List.ne_nil_of_length_pos (by omega))
    dsimp only at hcount
    rw [heq] at hcount
    simp only [beq_eq_decide]
    rw [hcount]
    rcases hle.lt_or_eq with hlt | heq
    · rw [Nat.div_eq_of_lt hlt]
      split <;> omega
    · rw [← heq, Nat.mod_self, if_neg (Nat.not_lt_zero _)]
      rcases Nat.eq_zero_or_pos workers with hzero | hpos
      · rw [hzero]
        decide
      · rw [Nat.div_self hpos]
  · rw [List.countP_eq_zero.mpr fun placement hmem hcpu =>
      hplaced ⟨placement, hmem, eq_of_beq hcpu⟩]
    exact Nat.zero_le 1

/-- Every node and every CPU gets its share of the workers up to one, whatever their number, and no
CPU gets two as long as there is one for every turn of its node. -/
theorem plan_numa_workers_evenly (hmode : mode ≠ .off) (h : info.Separate) (workers : ℕ) :
    let plan := planNumaWorkers info mode workers
    let nodes := info.topology.length
    (∀ k (hk : k < nodes), plan.countP (fun placement =>
        decide (placement.nodeId = some info.topology[k].id)) =
      workers / nodes + if k < workers % nodes then 1 else 0) ∧
    (∀ k (hk : k < nodes) r (hr : r < info.topology[k].cpus.length),
      let shares := nodes * info.topology[k].cpus.length
      plan.countP (fun placement => decide (placement.cpuId = some info.topology[k].cpus[r])) =
        workers / shares + if k + nodes * r < workers % shares then 1 else 0) ∧
    ((∀ node ∈ info.topology, node.cpus ≠ [] → workers ≤ nodes * node.cpus.length) →
      (plan.filterMap NumaPlacement.cpuId).Nodup) :=
  ⟨fun _ hk => count_node hmode h.ids workers hk,
    fun _ hk _ hr => count_cpu hmode h.cpus workers hk hr, nodup_cpuIds hmode h⟩

/-- The case of two nodes with two CPUs each, and three workers. -/
theorem plan_numa_workers_evenly_three :
    ((planNumaWorkers ⟨[⟨0, [0, 1]⟩, ⟨1, [2, 3]⟩]⟩ .interleave 3).filterMap
      NumaPlacement.cpuId).Nodup :=
  (@plan_numa_workers_evenly ⟨[⟨0, [0, 1]⟩, ⟨1, [2, 3]⟩]⟩ .interleave (by decide)
    ⟨by decide, by decide⟩ 3).2.2 (by decide)

end VeloGraphX
