import Mathlib
import VeloGraphX.Incremental.BfsReached

/-!
# Incremental breadth-first distances: what a batch leaves behind

The three arrays that survive a batch are cleared at the vertices of two lists only. Whatever the
graph answers, and wherever the invalidation stops, every entry that is not zero belongs to a vertex
of its list, so clearing leaves no entry behind, at whatever index.
-/

namespace VeloGraphX

open FuelLoop PointUpdate GraphAccess

/-- No entry of the three arrays is set. -/
def Workspace.Zero (work : Workspace) : Prop :=
  (∀ i, work.affected.getD i 0 = 0) ∧
    ∀ i, work.lostParentCount.getD i 0 = 0 ∧ work.shortestParentCount.getD i 0 = 0

/-- Every entry that is set is the entry of a vertex of its list. -/
structure Listed (state : Invalidation) : Prop where
  affected : ∀ i, state.work.affected.getD i 0 ≠ 0 → i ∈ state.affectedVertices.map Fin.val
  touched : ∀ i, state.work.lostParentCount.getD i 0 ≠ 0 ∨
    state.work.shortestParentCount.getD i 0 ≠ 0 → i ∈ state.work.touchedLossVertices.map Fin.val

/-- An entry read by its index is an entry of the array, or beyond it. -/
theorem forall_getD_eq_zero {cells : List ℕ} (h : ∀ i, cells.getD i 0 = 0) : ∀ c ∈ cells, c = 0 := by
  intro c hc
  obtain ⟨i, hi, rfl⟩ := List.mem_iff_getElem.mp hc
  rw [← List.getD_eq_getElem cells 0 hi]
  exact h i

/-- Growing an array by zeros changes no entry, at whatever index. -/
theorem getD_grow (cells : List ℕ) (n i : ℕ) :
    (if cells.length < n then resize cells n 0 else cells).getD i 0 = cells.getD i 0 := by
  split
  · rw [getD_resize (by omega)]
    split
    · rfl
    · rw [ite_self, List.getD_eq_default _ _ (by omega)]
  · rfl

section Workspaces

variable {work : Workspace} {state : Invalidation}

/-- A workspace without set entries grows to one. -/
theorem Workspace.Zero.ensure (h : work.Zero) (n : ℕ) : (work.ensure n).Zero :=
  ⟨fun i => (getD_grow _ n i).trans (h.1 i),
    fun i => ⟨(getD_grow _ n i).trans (h.2 i).1, (getD_grow _ n i).trans (h.2 i).2⟩⟩

/-- Where nothing is set nothing has to be listed. -/
theorem Workspace.Zero.listed (h : work.Zero) : Listed { work := work } :=
  ⟨fun i hi => absurd (h.1 i) hi,
    fun i hi => hi.elim (fun hlost => absurd (h.2 i).1 hlost) fun hcount => absurd (h.2 i).2 hcount⟩

/-- Recording a lost parent lists what it sets. -/
theorem Listed.recordParentLoss {G : Type} [GraphAccess G] {g : G} {dist : List ℕ}
    {source : VertexId} (h : Listed state) (v : VertexId) :
    Listed (recordParentLoss g dist source state v) := by
  have hrecorded := @recorded_recordParentLoss G _ g dist source state v
  refine ⟨fun i hi => ?_, fun i hi => ?_⟩
  · rcases hrecorded.affected i hi with hbefore | ⟨rfl, hlisted⟩
    · exact List.map_subset _ hrecorded.affectedVertices (h.affected i hbefore)
    · exact List.mem_map_of_mem hlisted
  · rcases hrecorded.touched i hi with hbefore | ⟨rfl, hlisted⟩
    · exact List.map_subset _ hrecorded.touchedVertices (h.touched i hbefore)
    · exact List.mem_map_of_mem hlisted

/-- Clearing the listed vertices leaves nothing set, also after the arrays have grown. -/
theorem Listed.clear (h : Listed state) (n : ℕ) :
    ((state.work.ensure n).clear state.affectedVertices).Zero := by
  have hcleared : ∀ (cells : List ℕ) (vertices : List VertexId) (i : ℕ),
      (cells.getD i 0 ≠ 0 → i ∈ vertices.map Fin.val) → (zeroCells (if cells.length < n
        then resize cells n 0 else cells) vertices).getD i 0 = 0 := by
    intro cells vertices i hlisted
    rw [getD_zeroCells_nat, getD_grow]
    split
    · rfl
    · rename_i hout
      exact not_not.mp fun hset => hout (hlisted hset)
  exact ⟨fun i => hcleared _ _ i (h.affected i),
    fun i => ⟨hcleared _ _ i fun hset => h.touched i (Or.inl hset),
      hcleared _ _ i fun hset => h.touched i (Or.inr hset)⟩⟩

end Workspaces

namespace IncrementalBFS

variable {G D : Type} [GraphAccess G] {engine engine' : IncrementalBFS G D} {fuel : ℕ}

/-- `recompute` sets nothing. -/
theorem zero_recompute (h : engine.work.Zero) (hrun : engine.recompute fuel = some engine') :
    engine'.work.Zero := by
  obtain ⟨levels, -, rfl⟩ := Option.map_eq_some_iff.mp hrun
  exact h.ensure _

/-- The end of `apply` clears what the invalidation has set, on both of its exits. -/
theorem zero_finish {state : Invalidation} (h : Listed state)
    {additions : List (VertexId × VertexId)} {fallback : Bool}
    (hrun : engine.finish fuel additions state fallback = some engine') : engine'.work.Zero := by
  unfold finish at hrun
  dsimp only at hrun
  split at hrun
  · obtain ⟨next, hnext, rfl⟩ := Option.map_eq_some_iff.mp hrun
    have hzero : next.work.Zero := zero_recompute (h.clear _) hnext
    exact hzero
  · obtain ⟨repaired, -, hrest⟩ := Option.bind_eq_some_iff.mp hrun
    obtain ⟨levels, -, rfl⟩ := Option.map_eq_some_iff.mp hrest
    exact h.clear _

/-- The search for affected vertices lists what it sets, also when it gives up. -/
theorem listed_invalidated [DoubleArith D] (h : engine.work.Zero) {final : FinalUpdates}
    {result : Invalidation × Bool} (hrun : engine.invalidated fuel final = some result) :
    Listed result.1 := by
  have hprepared : engine.preparedWork.Zero := h.ensure (vertexCount engine.graph)
  unfold invalidated at hrun
  dsimp only at hrun
  split at hrun
  · exact Option.some.inj hrun ▸ hprepared.listed
  · exact computeAffected_keeps Listed (fun _ v hstate => hstate.recordParentLoss v)
      hprepared.listed hrun

/-- `apply` leaves nothing set. -/
theorem zero_apply [DoubleArith D] (h : engine.work.Zero) {batch : UpdateBatch}
    (hrun : engine.apply fuel batch = some engine') : engine'.work.Zero := by
  rw [apply_eq] at hrun
  split at hrun
  · exact Option.some.inj hrun ▸ h
  · obtain ⟨final, -, hrest⟩ := Option.bind_eq_some_iff.mp hrun
    obtain ⟨result, hresult, hfinish⟩ := Option.bind_eq_some_iff.mp hrest
    exact zero_finish (listed_invalidated h hresult) hfinish

/-- The states between the calls of a run: construction, `apply` and `recompute`, and changes of the
graph by others. -/
inductive BetweenCalls [DoubleArith D] : IncrementalBFS G D → Prop
  | create {g : G} {source : VertexId} {fraction : D} {fuel : ℕ} {engine : IncrementalBFS G D}
      (hrun : IncrementalBFS.create fuel g source fraction = some engine) : BetweenCalls engine
  | apply {engine engine' : IncrementalBFS G D} {batch : UpdateBatch} {fuel : ℕ}
      (hbefore : BetweenCalls engine) (hrun : engine.apply fuel batch = some engine') :
      BetweenCalls engine'
  | recompute {engine engine' : IncrementalBFS G D} {fuel : ℕ} (hbefore : BetweenCalls engine)
      (hrun : engine.recompute fuel = some engine') : BetweenCalls engine'
  | mutate {engine : IncrementalBFS G D} (hbefore : BetweenCalls engine) (g : G) :
      BetweenCalls { engine with graph := g }

/-- Between calls nothing is set. -/
theorem BetweenCalls.zero [DoubleArith D] (h : BetweenCalls engine) : engine.work.Zero := by
  induction h with
  | create hrun =>
    exact zero_recompute ⟨fun _ => List.getD_nil, fun _ => ⟨List.getD_nil, List.getD_nil⟩⟩ hrun
  | apply _ hrun ih => exact zero_apply ih hrun
  | recompute _ hrun ih => exact zero_recompute ih hrun
  | mutate _ _ ih => exact ih

/-- Between the calls of a run every entry of the arrays that survive a batch is zero, for any graph
type, whatever the graphs answer, and wherever the invalidation of a batch has stopped. -/
theorem workspace_zero [DoubleArith D] (h : BetweenCalls engine) :
    (∀ c ∈ engine.work.affected, c = 0) ∧ (∀ c ∈ engine.work.lostParentCount, c = 0) ∧
      ∀ c ∈ engine.work.shortestParentCount, c = 0 :=
  ⟨forall_getD_eq_zero h.zero.1, forall_getD_eq_zero fun i => (h.zero.2 i).1,
    forall_getD_eq_zero fun i => (h.zero.2 i).2⟩

/-- The deletion of the only arc of a graph. -/
theorem workspace_zero_deletion : ∃ first last : IncrementalBFS (DynamicGraph ℚ) ℚ,
    first.graph = (DynamicGraph.create 3 true).apply ⟨[⟨0, 1, true, 0⟩]⟩ ∧
      first.apply 10 ⟨[⟨0, 1, false, 0⟩]⟩ = some last ∧ (∀ c ∈ last.work.affected, c = 0) ∧
        (∀ c ∈ last.work.lostParentCount, c = 0) ∧ ∀ c ∈ last.work.shortestParentCount, c = 0 := by
  obtain ⟨last, hruns⟩ := Option.isSome_iff_exists.mp (show ((create 10
    ((DynamicGraph.create 3 true : DynamicGraph ℚ).apply ⟨[⟨0, 1, true, 0⟩]⟩) 0 (0.35 : ℚ)).bind
      fun first => first.apply 10 ⟨[⟨0, 1, false, 0⟩]⟩).isSome = true by decide +kernel)
  obtain ⟨first, hcreate, happly⟩ := Option.bind_eq_some_iff.mp hruns
  obtain ⟨levels, -, heq⟩ := Option.map_eq_some_iff.mp hcreate
  exact ⟨first, last, heq ▸ rfl, happly, workspace_zero (.apply (.create hcreate) happly)⟩

end IncrementalBFS

end VeloGraphX
