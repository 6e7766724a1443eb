import Mathlib
import VeloGraphX.Incremental.PageRank
import VeloGraphX.Lib.PointUpdate

/-!
# One iteration of the local repair

An iteration gives every active vertex the value of its equation, computed from the ranks before the
iteration, and activates the out-neighbours of the vertices that moved. Its result is described
without the loop, whatever arithmetic the ranks are in.
-/

namespace VeloGraphX

open FuelLoop ReadableGraph PointUpdate
open DoubleArith (ofNat toNat lt le)

/-- Whether a batch was repaired without a full solution. -/
def ApplyExit.isLocal {D : Type} : ApplyExit D → Bool
  | .inactive | .localized _ => true
  | _ => false

section ActiveSets

variable {n : ℕ} {set : ActiveSet} {v w : VertexId}

/-- The flag of a vertex. -/
def ActiveSet.flag (set : ActiveSet) (v : VertexId) : Bool := set.active.getD v false

/-- One flag a vertex, and the count of those set. -/
structure ActiveSet.Sized (n : ℕ) (set : ActiveSet) : Prop where
  length_eq : set.active.length = n
  counted : set.activeCount = PageRank.countFlags set.active

/-- No flag is set at first. -/
theorem sized_inactive (n : ℕ) : ActiveSet.Sized n ⟨List.replicate n false, 0⟩ := by
  refine ⟨List.length_replicate, ?_⟩
  rw [PageRank.countFlags, List.countP_replicate]
  rfl

/-- Setting a flag counts it. -/
theorem ActiveSet.Sized.activate (h : set.Sized n) (v : VertexId) : (set.activate n v).Sized n := by
  unfold ActiveSet.activate
  split
  · rename_i hnew
    rw [Bool.and_eq_true, decide_eq_true_eq, Bool.not_eq_true'] at hnew
    have hlt : v.val < set.active.length := h.length_eq ▸ hnew.1
    refine ⟨List.length_set.trans h.length_eq, ?_⟩
    have hget : set.active[v.val] = false := (List.getD_eq_getElem _ _ hlt).symm.trans hnew.2
    dsimp only
    rw [PageRank.countFlags, List.countP_set hlt, hget, h.counted, PageRank.countFlags]
    simp
  · exact h

/-- The flags after setting one. -/
theorem ActiveSet.Sized.flag_activate (h : set.Sized n) (hw : w.val < n) :
    (set.activate n v).flag w = true ↔ set.flag w = true ∨ w = v := by
  unfold ActiveSet.activate
  split
  · rename_i hnew
    rw [Bool.and_eq_true, decide_eq_true_eq, Bool.not_eq_true'] at hnew
    rw [ActiveSet.flag, getD_set (h.length_eq ▸ hnew.1)]
    simp only [Fin.val_inj]
    by_cases hwv : w = v
    · rw [if_pos hwv]
      exact iff_of_true rfl (Or.inr hwv)
    · rw [if_neg hwv, or_iff_left hwv]
      rfl
  · rename_i hold
    refine ⟨Or.inl, fun hor => hor.elim id fun hwv => ?_⟩
    rw [Bool.and_eq_true, decide_eq_true_eq, Bool.not_eq_true', not_and, Bool.not_eq_false] at hold
    exact hwv ▸ hold (hwv ▸ hw)

/-- Setting the flags of a list of vertices. -/
theorem ActiveSet.Sized.foldl_activate (h : set.Sized n) (ids : List VertexId) :
    (ids.foldl (ActiveSet.activate n) set).Sized n ∧ ∀ w : VertexId, w.val < n →
      ((ids.foldl (ActiveSet.activate n) set).flag w = true ↔ set.flag w = true ∨ w ∈ ids) := by
  induction ids generalizing set with
  | nil => exact ⟨h, fun w _ => by simp⟩
  | cons v rest ih =>
    obtain ⟨hsized, hflags⟩ := ih (h.activate v)
    refine ⟨hsized, fun w hw => ?_⟩
    rw [List.foldl_cons, hflags w hw, h.flag_activate hw, List.mem_cons, or_assoc]

/-- No flag is set when the count is zero. -/
theorem ActiveSet.Sized.flag_of_count_zero (h : set.Sized n) (hzero : set.activeCount = 0)
    (v : VertexId) : set.flag v = false := by
  rw [h.counted, PageRank.countFlags, List.countP_eq_zero] at hzero
  by_cases hv : v.val < set.active.length
  · rw [ActiveSet.flag, List.getD_eq_getElem _ _ hv]
    simpa using hzero _ (List.getElem_mem hv)
  · rw [ActiveSet.flag, List.getD_eq_default _ _ (not_lt.mp hv)]

end ActiveSets

namespace PageRank

variable {G D : Type} [ReadableGraph G] [RankArith D] {g : G} {damping tol : D}
  {state : LocalState D}

/-- The value of a vertex's equation. -/
def updatedRank (g : G) (damping : D) (rank : List D) (v : VertexId) : D :=
  (1.0 - damping) / ofNat (vertexCount g) + damping * gatherLocal g rank v

/-- An active vertex whose rank moves by more than the tolerance. -/
def Moves (g : G) (damping tol : D) (state : LocalState D) (v : VertexId) : Prop :=
  state.frontier.flag v = true ∧
    lt tol (RankArith.abs (updatedRank g damping state.rank v - state.rank.getD v 0.0)) = true

/-- One rank and one flag a vertex. -/
structure LocalSized (n : ℕ) (state : LocalState D) : Prop where
  rank_length : state.rank.length = n
  frontier : state.frontier.Sized n

/-- What an iteration leaves behind: ranks, and flags of the out-neighbours of what has moved. -/
structure TurnSpec (g : G) (damping tol : D) (state state' : LocalState D) : Prop where
  sized : LocalSized (vertexCount g) state'
  rank : ∀ v : VertexId, v.val < vertexCount g → state'.rank.getD v 0.0 =
    if state.frontier.flag v = true then updatedRank g damping state.rank v else state.rank.getD v 0.0
  flag : ∀ w : VertexId, w.val < vertexCount g → (state'.frontier.flag w = true ↔
    ∃ v : VertexId, v.val < vertexCount g ∧ Moves g damping tol state v ∧ w ∈ forEachNeighbor g v)

omit [RankArith D] in
/-- Activating for the next iteration. -/
theorem foldl_activateNext (n : ℕ) (ids : List VertexId) (turn : LocalTurn D) :
    (ids.foldl (activateNext n) turn).nextRank = turn.nextRank ∧
      (ids.foldl (activateNext n) turn).nextFrontier =
        ids.foldl (ActiveSet.activate n) turn.nextFrontier := by
  have hone : ∀ (v : VertexId) (turn : LocalTurn D), (activateNext n turn v).nextRank = turn.nextRank ∧
      (activateNext n turn v).nextFrontier = turn.nextFrontier.activate n v := by
    intro v turn
    unfold activateNext
    split
    · exact ⟨rfl, rfl⟩
    · rename_i hold
      exact ⟨rfl, (if_neg hold).symm⟩
  induction ids generalizing turn with
  | nil => exact ⟨rfl, rfl⟩
  | cons v rest ih =>
    obtain ⟨hrank, hfrontier⟩ := ih (activateNext n turn v)
    rw [List.foldl_cons, List.foldl_cons, hrank, hfrontier, (hone v turn).1, (hone v turn).2]
    exact ⟨rfl, rfl⟩

/-- What one vertex does to the next ranks and flags. -/
theorem repairVertex_spec (v : VertexId) (turn : LocalTurn D) :
    (repairVertex g damping ((1.0 - damping) / ofNat (vertexCount g)) tol state v turn).nextRank =
        (if state.frontier.flag v = true then
          turn.nextRank.set v (updatedRank g damping state.rank v) else turn.nextRank) ∧
      (Moves g damping tol state v →
        (repairVertex g damping ((1.0 - damping) / ofNat (vertexCount g)) tol state v
          turn).nextFrontier = (forEachNeighbor g v).foldl (ActiveSet.activate (vertexCount g))
            turn.nextFrontier) ∧
      (¬ Moves g damping tol state v →
        (repairVertex g damping ((1.0 - damping) / ofNat (vertexCount g)) tol state v
          turn).nextFrontier = turn.nextFrontier) := by
  unfold repairVertex
  by_cases hflag : state.frontier.flag v = true
  · rw [if_pos hflag, if_neg (by rw [← ActiveSet.flag, hflag]; decide)]
    dsimp only
    split
    · rename_i hmoved
      obtain ⟨hrank, hfrontier⟩ := foldl_activateNext (vertexCount g) (forEachNeighbor g v)
        { turn with
          nextRank := turn.nextRank.set v (updatedRank g damping state.rank v)
          iterL1 := turn.iterL1 + RankArith.abs (updatedRank g damping state.rank v -
            state.rank.getD v 0.0)
          iterLinf := RankArith.max turn.iterLinf (RankArith.abs (updatedRank g damping state.rank v -
            state.rank.getD v 0.0)) }
      exact ⟨hrank, fun _ => hfrontier, fun hstays => absurd ⟨hflag, hmoved⟩ hstays⟩
    · rename_i hstays
      exact ⟨rfl, fun hmoves => absurd hmoves.2 hstays, fun _ => rfl⟩
  · rw [if_neg hflag, if_pos (by simpa [ActiveSet.flag] using hflag)]
    exact ⟨rfl, fun hmoves => absurd hmoves.1 hflag, fun _ => rfl⟩

/-- The same, cell by cell. -/
theorem repairVertex_cells {v : VertexId} (hv : v.val < vertexCount g) (turn : LocalTurn D)
    (hlength : turn.nextRank.length = vertexCount g)
    (hsized : turn.nextFrontier.Sized (vertexCount g)) :
    let next := repairVertex g damping ((1.0 - damping) / ofNat (vertexCount g)) tol state v turn
    next.nextRank.length = vertexCount g ∧ next.nextFrontier.Sized (vertexCount g) ∧
      (∀ w : VertexId, next.nextRank.getD w 0.0 =
        if w = v ∧ state.frontier.flag w = true then updatedRank g damping state.rank w
        else turn.nextRank.getD w 0.0) ∧
      ∀ w : VertexId, w.val < vertexCount g → (next.nextFrontier.flag w = true ↔
        turn.nextFrontier.flag w = true ∨
          Moves g damping tol state v ∧ w ∈ forEachNeighbor g v) := by
  obtain ⟨hrank, hmoves, hstays⟩ := @repairVertex_spec G D _ _ g damping tol state v turn
  dsimp only
  generalize repairVertex g damping ((1.0 - damping) / ofNat (vertexCount g)) tol state v turn =
    next at hrank hmoves hstays ⊢
  have hfrontier : next.nextFrontier.Sized (vertexCount g) ∧
      ∀ w : VertexId, w.val < vertexCount g → (next.nextFrontier.flag w = true ↔
        turn.nextFrontier.flag w = true ∨
          Moves g damping tol state v ∧ w ∈ forEachNeighbor g v) := by
    by_cases hmove : Moves g damping tol state v
    · obtain ⟨hsized', hflags⟩ := hsized.foldl_activate (forEachNeighbor g v)
      rw [hmoves hmove]
      refine ⟨hsized', fun w hw => ?_⟩
      rw [hflags w hw, and_iff_right hmove]
    · rw [hstays hmove]
      have hnone : ∀ w, ¬ (Moves g damping tol state v ∧ w ∈ forEachNeighbor g v) :=
        fun w hand => hmove hand.1
      exact ⟨hsized, fun w _ => by rw [or_iff_left (hnone w)]⟩
  refine ⟨?_, hfrontier.1, fun w => ?_, hfrontier.2⟩ <;> rw [hrank]
  · split
    · rw [List.length_set, hlength]
    · exact hlength
  · by_cases hflag : state.frontier.flag v = true
    · rw [if_pos hflag, getD_set (hlength.symm ▸ hv)]
      simp only [Fin.val_inj]
      by_cases hwv : w = v
      · rw [if_pos hwv, if_pos ⟨hwv, hwv ▸ hflag⟩, hwv]
      · rw [if_neg hwv, if_neg fun hand => hwv hand.1]
    · have hnot : ¬ (w = v ∧ state.frontier.flag w = true) :=
        fun hand => hflag (hand.1 ▸ hand.2)
      rw [if_neg hflag, if_neg hnot]

/-- What a list of vertices does to the next ranks and flags. -/
theorem foldl_repairVertex (ids : List VertexId) (hids : ∀ v ∈ ids, v.val < vertexCount g)
    (turn : LocalTurn D) (hlength : turn.nextRank.length = vertexCount g)
    (hsized : turn.nextFrontier.Sized (vertexCount g)) :
    let turn' := ids.foldl (fun turn v =>
      repairVertex g damping ((1.0 - damping) / ofNat (vertexCount g)) tol state v turn) turn
    turn'.nextRank.length = vertexCount g ∧ turn'.nextFrontier.Sized (vertexCount g) ∧
      (∀ w : VertexId, turn'.nextRank.getD w 0.0 =
        if w ∈ ids ∧ state.frontier.flag w = true then updatedRank g damping state.rank w
        else turn.nextRank.getD w 0.0) ∧
      ∀ w : VertexId, w.val < vertexCount g → (turn'.nextFrontier.flag w = true ↔
        turn.nextFrontier.flag w = true ∨
          ∃ v ∈ ids, Moves g damping tol state v ∧ w ∈ forEachNeighbor g v) := by
  induction ids generalizing turn with
  | nil => exact ⟨hlength, hsized, fun w => by simp, fun w _ => by simp⟩
  | cons v rest ih =>
    obtain ⟨hnextLength, hnextSized, hnextRank, hnextFlag⟩ := @repairVertex_cells G D _ _ g damping
      tol state v (hids v List.mem_cons_self) turn hlength hsized
    obtain ⟨hlast, hsizedLast, hrankLast, hflagLast⟩ :=
      ih (fun w hw => hids w (List.mem_cons_of_mem v hw)) _ hnextLength hnextSized
    refine ⟨hlast, hsizedLast, fun w => ?_, fun w hw => ?_⟩
    · rw [List.foldl_cons, hrankLast w, hnextRank w, ← ite_or]
      refine if_congr ?_ rfl rfl
      rw [List.mem_cons, ← or_and_right, or_comm]
    · rw [List.foldl_cons, hflagLast w hw, hnextFlag w hw, List.exists_mem_cons_iff, or_assoc]

/-- What an iteration that ends leaves behind. -/
theorem localTurn_spec {fuel : ℕ} {state' : LocalState D} (hsized : LocalSized (vertexCount g) state)
    (hrun : localTurn g damping fuel tol state = some state') :
    TurnSpec g damping tol state state' := by
  obtain ⟨turn, hturn, rfl⟩ := Option.map_eq_some_iff.mp hrun
  obtain ⟨-, rfl⟩ := vertexLoop_eq hturn
  have hids : ∀ v ∈ idsBelow (vertexCount g), v.val < vertexCount g := fun v => mem_idsBelow.mp
  obtain ⟨hlength, hfrontier, hrank, hflag⟩ := @foldl_repairVertex G D _ _ g damping tol state
    (idsBelow (vertexCount g)) hids
    { nextRank := state.rank, nextFrontier := ⟨List.replicate (vertexCount g) false, 0⟩,
      everActive := state.everActive, iterL1 := 0.0, iterLinf := 0.0 } hsized.rank_length
    (sized_inactive (vertexCount g))
  refine ⟨⟨hlength, hfrontier⟩, fun v hv => ?_, fun w hw => ?_⟩
  · refine (hrank v).trans (if_congr (and_iff_right (mem_idsBelow.mpr hv)) rfl rfl)
  · have hnone : ActiveSet.flag ⟨List.replicate (vertexCount g) false, 0⟩ w = false :=
      List.getD_replicate _ hw
    refine (hflag w hw).trans ?_
    dsimp only
    rw [hnone, or_iff_right Bool.false_ne_true]
    simp only [mem_idsBelow]

/-- With fewer than `2 ^ 32` vertices an iteration ends. -/
theorem returns_localTurn (hn : vertexCount g < 2 ^ 32) (hsized : LocalSized (vertexCount g) state) :
    Returns (fun fuel => localTurn g damping fuel tol state) fun state' =>
      TurnSpec g damping tol state state' := by
  obtain ⟨turn, hturn, bound, hrun⟩ := returns_vertexLoop hn
    (repairVertex g damping ((1.0 - damping) / ofNat (vertexCount g)) tol state)
    { nextRank := state.rank, nextFrontier := ⟨List.replicate (vertexCount g) false, 0⟩,
      everActive := state.everActive, iterL1 := 0.0, iterLinf := 0.0 }
  have hlocal : ∀ fuel, bound ≤ fuel → localTurn g damping fuel tol state = some
      { rank := turn.nextRank, frontier := turn.nextFrontier, everActive := turn.everActive,
        iterations := state.iterations + 1, residualL1 := turn.iterL1,
        residualLinf := turn.iterLinf } :=
    fun fuel hfuel => congrArg (Option.map _) (hrun fuel hfuel)
  exact ⟨_, localTurn_spec hsized (hlocal bound le_rfl), bound, hlocal⟩

/-- The state after a number of iterations, or when nothing is active any more. -/
def localAfter (g : G) (damping tol : D) (fuel : ℕ) : ℕ → LocalState D → Option (LocalState D)
  | 0, state => some state
  | k + 1, state =>
    if state.frontier.activeCount = 0 then some state
    else (localTurn g damping fuel tol state).bind (localAfter g damping tol fuel k)

/-- What every iteration keeps holds after a number of them. -/
theorem localAfter_keeps (inv : LocalState D → Prop)
    (hturn : ∀ state state', LocalSized (vertexCount g) state → inv state →
      TurnSpec g damping tol state state' → inv state') {fuel k : ℕ} {state' : LocalState D}
    (hsized : LocalSized (vertexCount g) state) (hinv : inv state)
    (hrun : localAfter g damping tol fuel k state = some state') :
    LocalSized (vertexCount g) state' ∧ inv state' := by
  induction k generalizing state with
  | zero => exact Option.some.inj hrun ▸ ⟨hsized, hinv⟩
  | succ k ih =>
    rw [localAfter] at hrun
    split at hrun
    · exact Option.some.inj hrun ▸ ⟨hsized, hinv⟩
    · obtain ⟨next, hnext, hrest⟩ := Option.bind_eq_some_iff.mp hrun
      have hspec := localTurn_spec hsized hnext
      exact ih hspec.sized (hturn state next hsized hinv hspec) hrest

/-- With fewer than `2 ^ 32` vertices every number of iterations ends. -/
theorem returns_localAfter (hn : vertexCount g < 2 ^ 32) (k : ℕ)
    (hsized : LocalSized (vertexCount g) state) :
    Returns (fun fuel => localAfter g damping tol fuel k state) fun _ => True := by
  induction k generalizing state with
  | zero => exact Returns.pure trivial
  | succ k ih =>
    simp only [localAfter]
    split
    · exact Returns.pure trivial
    · exact (returns_localTurn hn hsized).bind fun next hnext => ih hnext.sized

/-- The loop of the repair stops after some number of iterations. -/
theorem exists_localAfter {fuel limit left : ℕ} {final : LocalState D} {reachedLimit : Bool}
    (hrun : localLoop g damping fuel tol limit left state = some (final, reachedLimit)) :
    ∃ k ≤ left, localAfter g damping tol fuel k state = some final := by
  induction left generalizing state with
  | zero =>
    obtain ⟨rfl, -⟩ := Prod.mk.inj (Option.some.inj hrun)
    exact ⟨0, le_rfl, rfl⟩
  | succ left ih =>
    rw [localLoop] at hrun
    split at hrun
    · obtain ⟨rfl, -⟩ := Prod.mk.inj (Option.some.inj hrun)
      exact ⟨0, Nat.zero_le _, rfl⟩
    · rename_i hactive
      obtain ⟨next, hnext, hrest⟩ := Option.bind_eq_some_iff.mp hrun
      split at hrest
      · obtain ⟨rfl, -⟩ := Prod.mk.inj (Option.some.inj hrest)
        refine ⟨1, by omega, ?_⟩
        rw [localAfter, if_neg hactive, hnext]
        rfl
      · obtain ⟨k, hk, hafter⟩ := ih hrest
        refine ⟨k + 1, by omega, ?_⟩
        rw [localAfter, if_neg hactive, hnext]
        exact hafter

end PageRank

namespace IncrementalPageRank

open PageRank

variable {G D : Type} [GraphAccess G] [RankArith D] {engine engine' : IncrementalPageRank G D}
  {batch : UpdateBatch} {tol fraction : D} {fuel localIterations : ℕ}

/-- What a batch has passed that was repaired locally. -/
structure LocalFacts (engine engine' : IncrementalPageRank G D) (batch : UpdateBatch) : Prop where
  nonempty : batch.empty = false
  graph : engine'.graph = GraphAccess.applyUpdates engine.graph batch
  count : vertexCount (GraphAccess.applyUpdates engine.graph batch) = engine.rank.length
  before : engine.danglingVertices = 0
  after : engine'.danglingVertices = 0
  candidates : ∀ v ∈ danglingCandidates (GraphAccess.isDirected engine.graph) batch.updates,
    v.val < vertexCount (GraphAccess.applyUpdates engine.graph batch) →
      neighborCount (GraphAccess.applyUpdates engine.graph batch) v ≠ 0

/-- A local repair ends in what its loop leaves, or had nothing to repair. -/
def LocalResult (engine engine' : IncrementalPageRank G D) (batch : UpdateBatch) (tol : D)
    (fuel localIterations : ℕ) : ApplyExit D → Prop
  | .inactive => engine'.rank = engine.rank ∧
      (seedFrontier engine'.graph batch.updates).activeCount = 0
  | .localized final => engine'.rank = final.rank ∧
      ∃ k ≤ localIterations, localAfter engine'.graph engine.damping tol fuel k
        (seedState engine.rank (seedFrontier engine'.graph batch.updates)) = some final
  | _ => True

omit [RankArith D] in
/-- What the guard of `apply` finds out about the candidates. -/
theorem no_dangling_candidate {g : G} {candidates : List VertexId}
    (h : ¬ (candidates.any fun v =>
      decide (v.val < vertexCount g) && decide (neighborCount g v = 0)) = true) :
    ∀ v ∈ candidates, v.val < vertexCount g → neighborCount g v ≠ 0 := by
  intro v hv hlt hzero
  refine h (List.any_eq_true.mpr ⟨v, hv, ?_⟩)
  exact Bool.and_eq_true_iff.mpr ⟨decide_eq_true hlt, decide_eq_true hzero⟩

/-- The exits of `apply` that do not solve the whole graph again. -/
theorem apply_isLocal {exit : ApplyExit D}
    (hrun : engine.apply fuel batch localIterations tol fraction = some (exit, engine'))
    (hlocal : exit.isLocal = true) :
    LocalFacts engine engine' batch ∧
      LocalResult engine engine' batch tol fuel localIterations exit := by
  unfold apply at hrun
  split at hrun
  · obtain ⟨rfl, -⟩ := Prod.mk.inj (Option.some.inj hrun)
    exact absurd hlocal Bool.false_ne_true
  rename_i hnonempty
  have hrecomputed : ∀ (engine : IncrementalPageRank G D),
      (engine.recompute fuel).map (fun engine => (ApplyExit.recomputed, engine)) ≠
        some (exit, engine') := by
    intro other heq
    obtain ⟨last, -, hlast⟩ := Option.map_eq_some_iff.mp heq
    obtain ⟨rfl, -⟩ := Prod.mk.inj hlast
    exact absurd hlocal Bool.false_ne_true
  dsimp only at hrun
  split at hrun
  · obtain ⟨rfl, -⟩ := Prod.mk.inj (Option.some.inj hrun)
    exact absurd hlocal Bool.false_ne_true
  split at hrun
  · exact absurd hrun (hrecomputed _)
  rename_i hguard
  split at hrun
  · exact absurd hrun (hrecomputed _)
  rename_i hcandidates
  rw [not_or, not_ne_iff, not_ne_iff] at hguard
  have hnotDangling := no_dangling_candidate hcandidates
  split at hrun
  · rename_i hinactive
    obtain ⟨rfl, rfl⟩ := Prod.mk.inj (Option.some.inj hrun)
    exact ⟨⟨Bool.eq_false_iff.mpr hnonempty, rfl, hguard.1, hguard.2, rfl, hnotDangling⟩, rfl,
      hinactive⟩
  split at hrun
  · exact absurd hrun (hrecomputed _)
  obtain ⟨⟨final, reachedLimit⟩, hloop, hrest⟩ := Option.bind_eq_some_iff.mp hrun
  dsimp only at hrest
  split at hrest
  · exact absurd hrest (hrecomputed _)
  · obtain ⟨rfl, rfl⟩ := Prod.mk.inj (Option.some.inj hrest)
    exact ⟨⟨Bool.eq_false_iff.mpr hnonempty, rfl, hguard.1, hguard.2, rfl, hnotDangling⟩, rfl,
      exists_localAfter hloop⟩

end IncrementalPageRank

end VeloGraphX
