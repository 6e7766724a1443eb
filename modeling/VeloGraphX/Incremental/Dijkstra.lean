import Mathlib
import VeloGraphX.Lib.PriorityQueue
import VeloGraphX.Model.Distances

/-!
# Dijkstra propagation over saturating 64-bit distances

`propagateDijkstra` settles queue entries in order of distance, skips stale ones, and never
forms a sum beyond `kDijkstraInf`. Every turn takes an entry out and every new entry lowers a
distance, so the loop ends for every input; from justified labels whose unrelaxed arcs leave
queued vertices it ends in the exact distances.
-/

namespace VeloGraphX

open PointUpdate PriorityQueue ShortestPath

/-- `kDijkstraInf`. -/
def kDijkstraInf : ℕ := (2 ^ 64 - 1) / 4

/-- A queue entry: a distance and a vertex, ordered lexicographically. -/
abbrev Item := ℕ ×ₗ VertexId

/-- The relaxation of one arc, as done by the callback in `propagate_dijkstra`. -/
def relaxArc (distance : ℕ) (state : List ℕ × List Item) (arc : VertexId × ℕ) :
    List ℕ × List Item :=
  let (dist, queue) := state
  let (v, weight) := arc
  if dist.length ≤ v || subU64 kDijkstraInf distance < weight then state
  else
    let candidate := addU64 distance weight
    if candidate < dist.getD v 0 then
      (dist.set v candidate, toLex (candidate, v) :: queue)
    else state

/-- Relaxing pays for a new queue entry by a lower distance. -/
theorem relaxArc_measure (distance : ℕ) (state : List ℕ × List Item) (arc : VertexId × ℕ) :
    2 * (relaxArc distance state arc).1.sum + (relaxArc distance state arc).2.length ≤
      2 * state.1.sum + state.2.length := by
  obtain ⟨dist, queue⟩ := state
  obtain ⟨v, weight⟩ := arc
  unfold relaxArc
  dsimp only
  split
  · exact le_rfl
  · split
    · rename_i hrange hlt
      have hv : v.val < dist.length := by
        simp only [Bool.or_eq_true, decide_eq_true_eq, not_or, not_le] at hrange
        exact hrange.1
      have hsum := sum_set hv (addU64 distance weight)
      simp only [List.length_cons]
      omega
    · exact le_rfl

/-- The same for all arcs of a vertex. -/
theorem foldl_relaxArc_measure (distance : ℕ) (arcs : List (VertexId × ℕ))
    (state : List ℕ × List Item) :
    2 * (arcs.foldl (relaxArc distance) state).1.sum +
        (arcs.foldl (relaxArc distance) state).2.length ≤
      2 * state.1.sum + state.2.length := by
  induction arcs generalizing state with
  | nil => exact le_rfl
  | cons arc rest ih => exact (ih _).trans (relaxArc_measure distance state arc)

/-- `propagate_dijkstra`: the distances after the queue has run empty. -/
def propagateDijkstra (enumerate : VertexId → List (VertexId × ℕ)) (dist : List ℕ)
    (queue : List Item) : List ℕ :=
  match _hpop : popMin queue with
  | none => dist
  | some (item, rest) =>
    let (distance, u) := ofLex item
    if dist.length ≤ u || distance ≠ dist.getD u 0 then propagateDijkstra enumerate dist rest
    else
      propagateDijkstra enumerate ((enumerate u).foldl (relaxArc distance) (dist, rest)).1
        ((enumerate u).foldl (relaxArc distance) (dist, rest)).2
termination_by 2 * dist.sum + queue.length
decreasing_by
  · have := length_popMin _hpop
    omega
  · have hpopped := length_popMin _hpop
    have hfold := foldl_relaxArc_measure distance (enumerate u) (dist, rest)
    simp only at hfold
    omega

/-- `recompute_dijkstra`. -/
def recomputeDijkstra (vertexCount : ℕ) (source : VertexId)
    (enumerate : VertexId → List (VertexId × ℕ)) : List ℕ :=
  let dist := List.replicate vertexCount kDijkstraInf
  if vertexCount ≤ source then dist
  else propagateDijkstra enumerate (dist.set source 0) [toLex (0, source)]

/-- The labelling of a propagation state. -/
def labels (state : List ℕ × List Item) : VertexId → ℕ := label kDijkstraInf state.1

/-- A queue holds a vertex when it has an entry with the vertex's current distance. -/
def Queued (state : List ℕ × List Item) (x : VertexId) : Prop :=
  toLex (labels state x, x) ∈ state.2

/-- What stays true while the arcs of a vertex of known distance are relaxed. -/
structure Scanning (n : ℕ) (u : VertexId) (distance : ℕ) (state : List ℕ × List Item) : Prop where
  length_eq : state.1.length = n
  source : labels state u = distance
  le_inf : ∀ x, labels state x ≤ kDijkstraInf

/-- Relaxing arcs keeps the size of the distance array. -/
theorem length_relaxArc (distance : ℕ) (state : List ℕ × List Item) (a : VertexId × ℕ) :
    (relaxArc distance state a).1.length = state.1.length := by
  unfold relaxArc
  dsimp only
  split
  · rfl
  · split
    · exact List.length_set
    · rfl

/-- Relaxing an arc from a vertex of known distance relaxes the labels and queues what it
lowers; no sum leaves the 64-bit range. -/
theorem relaxArc_spec {distance n : ℕ} {u v : VertexId} (weight : ℕ)
    {state : List ℕ × List Item} (hv : v.val < n) (h : Scanning n u distance state) :
    Relaxes labels Queued state (relaxArc distance state (v, weight)) u weight v := by
  obtain ⟨dist, queue⟩ := state
  have hlen : dist.length = n := h.length_eq
  have hu := h.source
  have hdistance := h.le_inf u
  have hlabel := h.le_inf v
  have hinf : kDijkstraInf < 2 ^ 64 := by decide
  rw [hu] at hdistance
  have hsub : subU64 kDijkstraInf distance = kDijkstraInf - distance := by
    rw [subU64, show kDijkstraInf + 2 ^ 64 - distance = kDijkstraInf - distance + 2 ^ 64 by omega,
      Nat.add_mod_right, Nat.mod_eq_of_lt (by omega)]
  have hkeep : ¬ distance + weight < labels (dist, queue) v →
      Relaxes labels Queued (dist, queue) (dist, queue) u weight v := fun hnot =>
    ⟨(relax_eq_self (by rw [hu]; omega)).symm, fun _ => id,
      fun hlt => absurd (hu ▸ hlt) hnot⟩
  have hcell : dist.getD v 0 = labels (dist, queue) v :=
    (label_eq_getD kDijkstraInf (hlen ▸ hv) 0).symm
  unfold relaxArc
  dsimp only
  rw [hsub, hcell]
  split
  · rename_i hskip
    simp only [Bool.or_eq_true, decide_eq_true_eq] at hskip
    exact hkeep (by omega)
  · rename_i hskip
    simp only [Bool.or_eq_true, decide_eq_true_eq, not_or] at hskip
    have hadd : addU64 distance weight = distance + weight := Nat.mod_eq_of_lt (by omega)
    rw [hadd]
    split
    · rename_i hlt
      have hset : ∀ queue', labels (dist.set v (distance + weight), queue') =
          Function.update (labels (dist, queue)) v (distance + weight) :=
        fun _ => label_set kDijkstraInf (hlen ▸ hv) _
      refine ⟨?_, fun x hx => ?_, fun _ => ?_⟩
      · rw [hset, relax, hu, min_eq_right hlt.le]
      · unfold Queued
        rw [hset]
        by_cases hxv : x = v
        · subst hxv
          rw [Function.update_self]
          exact List.mem_cons_self
        · rw [Function.update_of_ne hxv]
          exact List.mem_cons_of_mem _ hx
      · unfold Queued
        rw [hset, Function.update_self]
        exact List.mem_cons_self
    · exact hkeep ‹_›

/-- Relaxing an arc keeps what the scan relies on. -/
theorem Scanning.relaxArc {distance n : ℕ} {u v : VertexId} {weight : ℕ}
    {state : List ℕ × List Item} (hv : v.val < n) (h : Scanning n u distance state) :
    Scanning n u distance (relaxArc distance state (v, weight)) := by
  have hrelaxes := relaxArc_spec weight hv h
  refine ⟨(length_relaxArc _ _ _).trans h.length_eq, ?_, fun x => ?_⟩
  · rw [hrelaxes.label_eq, relax_source]
    exact h.source
  · rw [hrelaxes.label_eq]
    exact (relax_le _ _ _ _ _).trans (h.le_inf x)

/-- An enumeration lists exactly the arcs out of each vertex, one for each target. -/
structure Enumerates (enumerate : VertexId → List (VertexId × ℕ))
    (arc : VertexId → ℕ → VertexId → Prop) : Prop where
  mem_iff : ∀ u w v, (v, w) ∈ enumerate u ↔ arc u w v
  unique : ∀ u w w' v, arc u w v → arc u w' v → w = w'

/-- One turn of the loop, with a live entry or without. -/
theorem propagateDijkstra_pop (enumerate : VertexId → List (VertexId × ℕ)) {dist : List ℕ}
    {queue rest : List Item} {item : Item} {distance : ℕ} {u : VertexId}
    (hpop : popMin queue = some (item, rest)) (hitem : ofLex item = (distance, u)) :
    propagateDijkstra enumerate dist queue =
      if dist.length ≤ u || distance ≠ dist.getD u 0 then propagateDijkstra enumerate dist rest
      else
        propagateDijkstra enumerate ((enumerate u).foldl (relaxArc distance) (dist, rest)).1
          ((enumerate u).foldl (relaxArc distance) (dist, rest)).2 := by
  rw [propagateDijkstra]
  split
  · rename_i hnone
    exact absurd (hpop.symm.trans hnone) (by simp)
  · rename_i item' rest' hsome
    obtain ⟨rfl, rfl⟩ := Prod.mk.inj (Option.some.inj (hpop.symm.trans hsome))
    rw [hitem]

/-- From justified labels whose unrelaxed arcs leave queued vertices, propagation ends in the
exact labels. -/
theorem propagateDijkstra_spec {start : Set VertexId} {arc : VertexId → ℕ → VertexId → Prop}
    {enumerate : VertexId → List (VertexId × ℕ)} (henum : Enumerates enumerate arc) {n : ℕ}
    (htarget : ∀ u w v, arc u w v → v.val < n) (dist : List ℕ) (queue : List Item)
    (hlen : dist.length = n) (hjust : Justified start arc kDijkstraInf (label kDijkstraInf dist))
    (hrel : Relaxed arc (fun x _ => Queued (dist, queue) x) (label kDijkstraInf dist)) :
    (propagateDijkstra enumerate dist queue).length = n ∧
      Exact start arc kDijkstraInf
        (label kDijkstraInf (propagateDijkstra enumerate dist queue)) := by
  induction dist, queue using propagateDijkstra.induct enumerate with
  | case1 dist queue hpop =>
    rw [popMin_eq_none.mp hpop] at hrel ⊢
    rw [propagateDijkstra]
    exact ⟨hlen, hjust.exact (hrel.mono fun x _ hx => absurd hx List.not_mem_nil)⟩
  | case2 dist queue item rest hpop distance u hitem hskip ih =>
    rw [propagateDijkstra_pop enumerate hpop hitem, if_pos hskip]
    obtain ⟨hmem, -, -⟩ := popMin_eq_some hpop
    refine ih hlen hjust fun x w v harc => ?_
    rcases hrel x w v harc with hqueued | hle
    · by_cases hx : toLex (label kDijkstraInf dist x, x) = item
      · -- the popped entry is stale, so it belongs to an id without a finite label
        subst hx
        obtain ⟨rfl, rfl⟩ := Prod.mk.inj hitem
        simp only [Bool.or_eq_true, decide_eq_true_eq] at hskip
        have hout : dist.length ≤ x.val := by
          by_contra hlt
          exact hskip.elim hlt fun hne => hne (label_eq_getD kDijkstraInf (not_le.mp hlt) 0)
        rw [label_of_le hout]
        exact Or.inr ((hjust.le_cap v).trans (Nat.le_add_right _ _))
      · exact Or.inl (mem_popMin_of_ne hpop hqueued hx)
    · exact Or.inr hle
  | case3 dist queue item rest hpop distance u hitem hlive ih =>
    rw [propagateDijkstra_pop enumerate hpop hitem, if_neg hlive]
    simp only [Bool.or_eq_true, decide_eq_true_eq, not_or, not_le, not_not] at hlive
    have hu : label kDijkstraInf dist u = distance :=
      (label_eq_getD kDijkstraInf hlive.1 0).trans hlive.2.symm
    have hrest : Relaxed arc (fun x _ => Queued (dist, rest) x ∨ x = u) (labels (dist, rest)) := by
      refine hrel.mono fun x _ hx => ?_
      by_cases hxu : x = u
      · exact Or.inr hxu
      · refine Or.inl (mem_popMin_of_ne hpop hx fun heq => hxu ?_)
        subst heq
        exact (Prod.mk.inj hitem).2
    obtain ⟨hscan, hjust', hrel'⟩ := scan labels Queued (Scanning n u distance)
      (relaxArc distance) u Prod.snd Prod.fst
      (fun s hs a ha => ⟨hs.relaxArc (htarget u _ _ ((henum.mem_iff u a.2 a.1).mp ha)),
        relaxArc_spec a.2 (htarget u _ _ ((henum.mem_iff u a.2 a.1).mp ha)) hs⟩)
      (fun a ha => (henum.mem_iff u a.2 a.1).mp ha)
      (fun w v harc => ⟨(v, w), (henum.mem_iff u w v).mpr harc, rfl⟩)
      (fun a ha w harc => henum.unique u w a.2 a.1 harc ((henum.mem_iff u a.2 a.1).mp ha))
      (dist, rest) ⟨hlen, hu, hjust.le_cap⟩ hjust hrest
    exact ih hscan.length_eq hjust' hrel'

/-- What stays true while arcs out of several vertices are relaxed. -/
structure Sized (n : ℕ) (state : List ℕ × List Item) : Prop where
  length_eq : state.1.length = n
  le_inf : ∀ x, labels state x ≤ kDijkstraInf

/-- Relax one arc, given by its source, weight and target. -/
def relaxOffered (state : List ℕ × List Item) (a : VertexId × ℕ × VertexId) :
    List ℕ × List Item := relaxArc (labels state a.1) state (a.2.2, a.2.1)

/-- Relaxing an arc between vertices relaxes the labels and queues what it lowers. -/
theorem Sized.relaxOffered {n : ℕ} {state : List ℕ × List Item} (h : Sized n state)
    {a : VertexId × ℕ × VertexId} (htarget : a.2.2.val < n) :
    Sized n (relaxOffered state a) ∧
      Relaxes labels Queued state (relaxOffered state a) a.1 a.2.1 a.2.2 := by
  have hscan : Scanning n a.1 (labels state a.1) state := ⟨h.length_eq, rfl, h.le_inf⟩
  have hafter : Scanning n a.1 (labels state a.1) (VeloGraphX.relaxOffered state a) :=
    hscan.relaxArc htarget
  exact ⟨⟨hafter.length_eq, hafter.le_inf⟩, relaxArc_spec a.2.1 htarget hscan⟩

/-- Relaxing arcs one by one keeps the size. -/
theorem Sized.foldl_relaxOffered {n : ℕ} {arcs : List (VertexId × ℕ × VertexId)}
    (htarget : ∀ a ∈ arcs, a.2.2.val < n) {state : List ℕ × List Item} (h : Sized n state) :
    Sized n (arcs.foldl VeloGraphX.relaxOffered state) := by
  induction arcs generalizing state with
  | nil => exact h
  | cons a rest ih =>
    exact ih (fun b hb => htarget b (List.mem_cons_of_mem _ hb))
      (h.relaxOffered (htarget a List.mem_cons_self)).1

/-- A batch that relaxes for each operation the arcs that it offers relaxes all of them. -/
theorem Sized.foldl_eq {n : ℕ} {ο : Type} {step : List ℕ × List Item → ο → List ℕ × List Item}
    {offered : ο → List (VertexId × ℕ × VertexId)} {ops : List ο}
    (htarget : ∀ op ∈ ops, ∀ a ∈ offered op, a.2.2.val < n)
    (hstep : ∀ op ∈ ops, ∀ state, Sized n state →
      step state op = (offered op).foldl VeloGraphX.relaxOffered state)
    {state : List ℕ × List Item} (h : Sized n state) :
    ops.foldl step state = (ops.flatMap offered).foldl VeloGraphX.relaxOffered state := by
  induction ops generalizing state with
  | nil => rfl
  | cons op rest ih =>
    rw [List.foldl_cons, List.flatMap_cons, List.foldl_append, hstep op List.mem_cons_self _ h]
    exact ih (fun op' hop => htarget op' (List.mem_cons_of_mem _ hop))
      (fun op' hop => hstep op' (List.mem_cons_of_mem _ hop))
      (h.foldl_relaxOffered (htarget op List.mem_cons_self))

/-- Localized relaxation: if every unrelaxed arc is offered by some operation, relaxing the
offered arcs and propagating ends in the exact labels. -/
theorem propagateDijkstra_offered {start : Set VertexId} {arc : VertexId → ℕ → VertexId → Prop}
    {enumerate : VertexId → List (VertexId × ℕ)} (henum : Enumerates enumerate arc) {n : ℕ}
    (htarget : ∀ u w v, arc u w v → v.val < n) {ο : Type}
    {step : List ℕ × List Item → ο → List ℕ × List Item}
    {offered : ο → List (VertexId × ℕ × VertexId)} {ops : List ο}
    (hstep : ∀ op ∈ ops, ∀ state, Sized n state →
      step state op = (offered op).foldl relaxOffered state)
    (harc : ∀ op ∈ ops, ∀ a ∈ offered op, arc a.1 a.2.1 a.2.2) {dist : List ℕ}
    (hlen : dist.length = n) (hjust : Justified start arc kDijkstraInf (label kDijkstraInf dist))
    (hrel : Relaxed arc (fun u v => ∃ op ∈ ops, ∃ w, (u, w, v) ∈ offered op)
      (label kDijkstraInf dist)) :
    (propagateDijkstra enumerate (ops.foldl step (dist, [])).1
        (ops.foldl step (dist, [])).2).length = n ∧
      Exact start arc kDijkstraInf (label kDijkstraInf
        (propagateDijkstra enumerate (ops.foldl step (dist, [])).1
          (ops.foldl step (dist, [])).2)) := by
  have hsized : Sized n (dist, []) := ⟨hlen, hjust.le_cap⟩
  have hlist : ∀ a ∈ ops.flatMap offered, arc a.1 a.2.1 a.2.2 := fun a ha => by
    obtain ⟨op, hop, hmem⟩ := List.mem_flatMap.mp ha
    exact harc op hop a hmem
  have hoffered : Relaxed arc (fun u v => Queued (dist, []) u ∨
      ∃ a ∈ ops.flatMap offered, a.1 = u ∧ a.2.2 = v) (labels (dist, [])) :=
    Relaxed.mono hrel fun u v ⟨op, hop, w, hmem⟩ =>
      Or.inr ⟨(u, w, v), List.mem_flatMap.mpr ⟨op, hop, hmem⟩, rfl, rfl⟩
  rw [hsized.foldl_eq (fun op hop a ha => htarget _ _ _ (harc op hop a ha)) hstep]
  obtain ⟨hsized', hjust', hrel'⟩ := relaxAll labels Queued (Sized n) relaxOffered Prod.fst
    (·.2.1) (·.2.2)
    (fun s hs a ha => hs.relaxOffered (htarget _ _ _ (hlist a ha))) hlist
    (fun a ha w hneed => henum.unique _ _ _ _ hneed (hlist a ha)) (dist, []) hsized hjust hoffered
  exact propagateDijkstra_spec henum htarget _ _ hsized'.length_eq hjust' hrel'

/-- Recomputation yields the exact labels, also when the source is not a vertex. -/
theorem recomputeDijkstra_spec {arc : VertexId → ℕ → VertexId → Prop}
    {enumerate : VertexId → List (VertexId × ℕ)} (henum : Enumerates enumerate arc) {n : ℕ}
    (htarget : ∀ u w v, arc u w v → v.val < n) (source : VertexId) :
    (recomputeDijkstra n source enumerate).length = n ∧
      Exact (startAt source n) arc kDijkstraInf
        (label kDijkstraInf (recomputeDijkstra n source enumerate)) := by
  unfold recomputeDijkstra
  dsimp only
  have hblank := label_replicate kDijkstraInf n
  split
  · rename_i hout
    refine ⟨List.length_replicate, ?_⟩
    rw [hblank]
    refine Justified.exact ⟨fun _ => le_rfl, fun v hv => ?_, fun v hlt => absurd hlt (lt_irrefl _)⟩
      fun u w v _ => Or.inr (Nat.le_add_right _ _)
    exact absurd (hv.1 ▸ hv.2) (not_lt.mpr hout)
  · rename_i hin
    have hsource : source.val < (List.replicate n kDijkstraInf).length := by
      rw [List.length_replicate]
      exact not_le.mp hin
    have hlabel := label_set kDijkstraInf hsource 0
    rw [hblank] at hlabel
    have hother : ∀ v, v ≠ source → label kDijkstraInf
        ((List.replicate n kDijkstraInf).set source 0) v = kDijkstraInf := fun v hv => by
      rw [hlabel, Function.update_of_ne hv]
    have hzero : label kDijkstraInf ((List.replicate n kDijkstraInf).set source 0) source = 0 := by
      rw [hlabel, Function.update_self]
    refine propagateDijkstra_spec henum htarget _ _ (by simp) ⟨fun v => ?_, fun v hv => ?_,
      fun v hlt => ?_⟩ fun u w v _ => ?_
    · by_cases hv : v = source
      · rw [hv, hzero]
        exact Nat.zero_le _
      · exact (hother v hv).le
    · rw [hv.1, hzero]
    · by_cases hv : v = source
      · exact ⟨0, Nat.zero_le _, .nil ⟨hv, hv ▸ not_le.mp hin⟩⟩
      · rw [hother v hv] at hlt
        exact absurd hlt (lt_irrefl _)
    · by_cases hu : u = source
      · refine Or.inl ?_
        unfold Queued labels
        rw [hu]
        dsimp only
        rw [hzero]
        exact List.mem_singleton_self _
      · have hle : label kDijkstraInf ((List.replicate n kDijkstraInf).set source 0) v ≤
            kDijkstraInf := by
          by_cases hv : v = source
          · rw [hv, hzero]
            exact Nat.zero_le _
          · exact (hother v hv).le
        rw [hother u hu]
        exact Or.inr (hle.trans (Nat.le_add_right _ _))

end VeloGraphX
