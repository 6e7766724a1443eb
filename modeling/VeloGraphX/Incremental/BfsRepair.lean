import Mathlib
import VeloGraphX.Incremental.BfsLevels

/-!
# Incremental breadth-first distances: repair and insertion

On the graph after a batch, the affected vertices lose their distances and get them back from
unaffected neighbours and from each other through a heap; what they gained in closeness is
propagated. Afterwards every arc that was there before is relaxed, and relaxing the inserted
arcs leaves only queued work.
-/

namespace VeloGraphX

open FuelLoop PointUpdate PriorityQueue ShortestPath GraphAccess ArcSet

section Additions

variable {G : Type} [GraphAccess G] {g : G} {arcs : ArcSet} {start : Set VertexId}

/-- `relax_edge` relaxes an arc between vertices. -/
theorem relaxEdge_spec {n : ℕ} {u v : VertexId} {state : Levels × List VertexId}
    (h : Leveled n state.1) (hu : u.val < n) (hv : v.val < n) :
    Leveled n (relaxEdge state u v).1 ∧
      Relaxes queueLabels InQueue state (relaxEdge state u v) u 1 v := by
  obtain ⟨levels, q⟩ := state
  have h : Leveled n levels := h
  unfold relaxEdge
  dsimp only
  rw [h.length_eq, h.getD_eq hu, h.getD_eq hv]
  split
  · rename_i hskip
    have hfar : levels.labels u = unreachable := by
      simp only [Bool.or_eq_true, decide_eq_true_eq] at hskip
      omega
    refine ⟨h, relaxes_refl ?_⟩
    change levels.labels v ≤ levels.labels u + 1
    rw [hfar]
    exact (h.le v).trans (Nat.le_succ _)
  · rename_i hlive
    simp only [Bool.or_eq_true, decide_eq_true_eq, not_or] at hlive
    rw [addU32_one (lt_of_le_of_ne (h.le u) hlive.2)]
    split
    · exact relaxes_lower h hv ‹_›
    · exact ⟨h, relaxes_refl (not_lt.mp ‹_›)⟩

/-- `relax_edge` does nothing on a self-loop. -/
theorem relaxEdge_self {n : ℕ} {state : Levels × List VertexId} (h : Leveled n state.1)
    (u : VertexId) : relaxEdge state u u = state := by
  obtain ⟨levels, q⟩ := state
  have h : Leveled n levels := h
  unfold relaxEdge
  dsimp only
  split
  · rfl
  · rename_i hlive
    simp only [Bool.or_eq_true, decide_eq_true_eq, not_or, h.length_eq] at hlive
    rw [h.getD_eq (not_le.mp hlive.1.1)] at hlive ⊢
    rw [addU32_one (lt_of_le_of_ne (h.le u) hlive.2), if_neg (by omega)]

/-- The arcs an added edge offers for relaxation. -/
def offeredEdges (directed : Bool) (edge : VertexId × VertexId) : List (VertexId × VertexId) :=
  if edge.1 = edge.2 then []
  else if directed then [edge] else [edge, (edge.2, edge.1)]

/-- Relaxing a list of arcs between vertices keeps the distances levelled. -/
theorem Leveled.foldl_relaxEdge {n : ℕ} {list : List (VertexId × VertexId)}
    (hlist : ∀ a ∈ list, a.1.val < n ∧ a.2.val < n) {state : Levels × List VertexId}
    (h : Leveled n state.1) :
    Leveled n (list.foldl (fun state a => relaxEdge state a.1 a.2) state).1 := by
  induction list generalizing state with
  | nil => exact h
  | cons a rest ih =>
    have ha := hlist a List.mem_cons_self
    exact ih (fun b hb => hlist b (List.mem_cons_of_mem _ hb)) (relaxEdge_spec h ha.1 ha.2).1

/-- Relaxing the added edges relaxes the arcs they offer. -/
theorem foldl_relaxAddition {n : ℕ} (directed : Bool) {additions : List (VertexId × VertexId)}
    (hlist : ∀ a ∈ additions.flatMap (offeredEdges directed), a.1.val < n ∧ a.2.val < n)
    {state : Levels × List VertexId} (h : Leveled n state.1) :
    additions.foldl (relaxAddition directed) state =
      (additions.flatMap (offeredEdges directed)).foldl
        (fun state a => relaxEdge state a.1 a.2) state := by
  induction additions generalizing state with
  | nil => rfl
  | cons edge rest ih =>
    rw [List.flatMap_cons] at hlist
    have hrest := fun a ha => hlist a (List.mem_append_right _ ha)
    have hfirst := fun a ha => hlist a (List.mem_append_left _ ha)
    have hstep : relaxAddition directed state edge =
        (offeredEdges directed edge).foldl (fun state a => relaxEdge state a.1 a.2) state := by
      obtain ⟨u, v⟩ := edge
      unfold relaxAddition offeredEdges
      dsimp only
      by_cases hloop : u = v
      · subst hloop
        rw [if_pos rfl, relaxEdge_self h, relaxEdge_self h]
        exact ite_self _
      · rw [if_neg hloop]
        cases directed <;> rfl
    rw [List.foldl_cons, List.flatMap_cons, List.foldl_append, hstep]
    exact ih hrest (h.foldl_relaxEdge hfirst)

/-- If every unrelaxed arc is offered by an added edge, relaxing these leaves only arcs out of
queued vertices unrelaxed. -/
theorem relaxAdditions_spec (hserves : Serves g arcs) {directed : Bool}
    {additions : List (VertexId × VertexId)}
    (hmem : ∀ a ∈ additions.flatMap (offeredEdges directed), a ∈ arcs) {levels : Levels}
    (hleveled : Leveled (vertexCount g) levels)
    (hjust : Justified start (unitArc arcs) unreachable levels.labels)
    (hrel : Relaxed (unitArc arcs)
      (fun u v => (u, v) ∈ additions.flatMap (offeredEdges directed)) levels.labels) :
    let state := additions.foldl (relaxAddition directed) (levels, [])
    Leveled (vertexCount g) state.1 ∧ Justified start (unitArc arcs) unreachable state.1.labels ∧
      Relaxed (unitArc arcs) (fun x _ => x ∈ state.2) state.1.labels := by
  have hwithin : ∀ a ∈ additions.flatMap (offeredEdges directed),
      a.1.val < vertexCount g ∧ a.2.val < vertexCount g := fun a ha =>
    hserves.simple.within a.1 a.2 (hmem a ha)
  dsimp only
  rw [foldl_relaxAddition directed hwithin hleveled]
  exact relaxAll queueLabels InQueue (fun state => Leveled (vertexCount g) state.1)
    (fun state a => relaxEdge state a.1 a.2) Prod.fst (fun _ => 1) Prod.snd
    (fun s hs a ha => relaxEdge_spec hs (hwithin a ha).1 (hwithin a ha).2)
    (fun a ha => ⟨rfl, hmem a ha⟩) (fun a _ w harc => harc.1) (levels, []) hleveled hjust
    (hrel.mono fun u v huv => Or.inr ⟨(u, v), huv, rfl, rfl⟩)

end Additions

section Reset

/-- Taking a distance away keeps the count right. -/
theorem resetLevel_spec {n : ℕ} {levels : Levels} (h : Leveled n levels) {v : VertexId}
    (hv : v.val < n) : Leveled n (resetLevel levels v) ∧
      (resetLevel levels v).labels = Function.update levels.labels v unreachable := by
  unfold resetLevel
  rw [h.length_eq, h.getD_eq hv]
  split
  · rename_i hfinite
    simp only [Bool.and_eq_true, decide_eq_true_eq] at hfinite
    have hlabels : ∀ count, (Levels.mk (levels.dist.set v unreachable) count).labels =
        Function.update levels.labels v unreachable := fun _ =>
      label_set unreachable (h.length_eq.symm ▸ hv) unreachable
    refine ⟨⟨List.length_set.trans h.length_eq, fun x => ?_, ?_⟩, hlabels _⟩
    · rw [hlabels]
      by_cases hx : x = v
      · rw [hx, Function.update_self]
      · rw [Function.update_of_ne hx]
        exact h.le x
    · have hset : {x | Function.update levels.labels v unreachable x ≠ unreachable} =
          {x | levels.labels x ≠ unreachable} \ {v} := Set.ext fun x => by
        by_cases hx : x = v <;> simp [hx]
      have hmem : v ∈ {x | levels.labels x ≠ unreachable} := hfinite.2
      have hpos : 0 < {x | levels.labels x ≠ unreachable}.ncard :=
        (Set.ncard_pos (Set.toFinite _)).mpr ⟨v, hmem⟩
      have hle := ncard_le {x | levels.labels x ≠ unreachable}
      rw [hlabels, hset, Set.ncard_sdiff_singleton_of_mem hmem, h.counted]
      unfold subU64
      dsimp only
      omega
  · rename_i hfar
    have hcap : levels.labels v = unreachable := by
      simpa [hv] using hfar
    rw [← hcap, Function.update_eq_self]
    exact ⟨h, rfl⟩

/-- Taking the distances of several vertices away. -/
theorem foldl_resetLevel_spec {n : ℕ} {list : List VertexId} (hlist : ∀ v ∈ list, v.val < n)
    {levels : Levels} (h : Leveled n levels) : Leveled n (list.foldl resetLevel levels) ∧
      ∀ x, (list.foldl resetLevel levels).labels x =
        if x ∈ list then unreachable else levels.labels x := by
  induction list generalizing levels with
  | nil => exact ⟨h, fun x => (if_neg List.not_mem_nil).symm⟩
  | cons v rest ih =>
    obtain ⟨hleveled, hlabels⟩ := resetLevel_spec h (hlist v List.mem_cons_self)
    obtain ⟨hafter, hrest⟩ := ih (fun x hx => hlist x (List.mem_cons_of_mem _ hx)) hleveled
    refine ⟨hafter, fun x => ?_⟩
    rw [List.foldl_cons, hrest, hlabels]
    by_cases hx : x = v
    · subst hx
      rw [Function.update_self, ite_self, if_pos List.mem_cons_self]
    · rw [Function.update_of_ne hx]
      simp only [List.mem_cons, hx, false_or]

end Reset

section Heap

variable {G : Type} [GraphAccess G] {g : G} {arcs : ArcSet} {start : Set VertexId}
  {affected : List ℕ} {S : Set VertexId}

/-- The flags mark exactly the vertices of a set. -/
structure Flags (n : ℕ) (affected : List ℕ) (S : Set VertexId) : Prop where
  length_le : n ≤ affected.length
  mem_iff : ∀ x : VertexId, x.val < n → (affected.getD x 0 ≠ 0 ↔ x ∈ S)

/-- A fold that keeps the smallest candidate. -/
theorem foldl_min_spec {α : Type*} (list : List α) (candidate : α → ℕ) (initial : ℕ) :
    list.foldl (fun best a => min best (candidate a)) initial ≤ initial ∧
      (∀ a ∈ list, list.foldl (fun best a => min best (candidate a)) initial ≤ candidate a) ∧
      (list.foldl (fun best a => min best (candidate a)) initial ≠ initial →
        ∃ a ∈ list, list.foldl (fun best a => min best (candidate a)) initial = candidate a) := by
  induction list generalizing initial with
  | nil => exact ⟨le_rfl, by simp, fun h => absurd rfl h⟩
  | cons a rest ih =>
    obtain ⟨hle, hall, hsome⟩ := ih (min initial (candidate a))
    rw [List.foldl_cons]
    refine ⟨hle.trans (min_le_left _ _), fun b hb => ?_, fun hne => ?_⟩
    · rcases List.mem_cons.mp hb with rfl | hb
      · exact hle.trans (min_le_right _ _)
      · exact hall b hb
    · by_cases hsame : rest.foldl (fun best a => min best (candidate a))
          (min initial (candidate a)) = min initial (candidate a)
      · rw [hsame] at hne ⊢
        refine ⟨a, List.mem_cons_self, ?_⟩
        exact (min_choice initial (candidate a)).resolve_left hne
      · obtain ⟨b, hb, heq⟩ := hsome hsame
        exact ⟨b, List.mem_cons_of_mem _ hb, heq⟩

open Classical in
/-- The callback keeps the smaller of the best distance and that over one neighbour. -/
theorem boundaryArc_eq {n : ℕ} (hflags : Flags n affected S) {levels : Levels}
    (h : Leveled n levels) {p : VertexId} (hp : p.val < n) {best : ℕ} (hbest : best ≤ unreachable) :
    boundaryArc affected levels.dist best p = min best
      (if p ∈ S ∨ levels.labels p = unreachable then unreachable else levels.labels p + 1) := by
  have hlen := hflags.length_le
  have hguard : (decide (levels.dist.length ≤ p.val) || decide (affected.length ≤ p.val) ||
      decide (affected.getD p 0 ≠ 0) || decide (levels.dist.getD p 0 = unreachable)) = true ↔
        p ∈ S ∨ levels.labels p = unreachable := by
    rw [h.length_eq, h.getD_eq hp]
    simp only [Bool.or_eq_true, decide_eq_true_eq, hflags.mem_iff p hp]
    refine or_congr_left ((or_congr_left ?_).trans (Iff.of_eq (false_or _)))
    exact iff_false_intro (by omega)
  unfold boundaryArc
  by_cases hskip : p ∈ S ∨ levels.labels p = unreachable
  · rw [if_pos (hguard.mpr hskip), if_pos hskip, min_eq_left hbest]
  · rw [if_neg (mt hguard.mp hskip), if_neg hskip, h.getD_eq hp,
      addU32_one (lt_of_le_of_ne (h.le p) fun hfar => hskip (Or.inr hfar))]
    dsimp only
    split <;> omega

/-- The best distance over unaffected neighbours. -/
theorem bestBoundaryDistance_spec (hserves : Serves g arcs) (htransposes : Transposes g arcs)
    (hflags : Flags (vertexCount g) affected S) {levels : Levels}
    (h : Leveled (vertexCount g) levels) (v : VertexId) :
    let best := bestBoundaryDistance g affected levels.dist v
    (best ≠ unreachable → ∃ p, (p, v) ∈ arcs ∧ p ∉ S ∧ levels.labels p < unreachable ∧
        best = levels.labels p + 1) ∧
      best ≤ unreachable ∧ ∀ p, (p, v) ∈ arcs → p ∉ S → best ≤ levels.labels p + 1 := by
  classical
  have hwithin : ∀ p ∈ forEachInNeighbor g v, p.val < vertexCount g := fun p hp =>
    (hserves.simple.within p v ((htransposes.mem_inNeighbor p v).mp hp)).1
  have hfold : bestBoundaryDistance g affected levels.dist v =
      (forEachInNeighbor g v).foldl (fun best p => min best
        (if p ∈ S ∨ levels.labels p = unreachable then unreachable else levels.labels p + 1))
        unreachable := by
    have hgeneral : ∀ (list : List VertexId) (best : ℕ), (∀ p ∈ list, p.val < vertexCount g) →
        best ≤ unreachable → list.foldl (boundaryArc affected levels.dist) best =
          list.foldl (fun best p => min best
            (if p ∈ S ∨ levels.labels p = unreachable then unreachable
              else levels.labels p + 1)) best := by
      intro list
      induction list with
      | nil => exact fun _ _ _ => rfl
      | cons p rest ih =>
        intro best hlist hbest
        rw [List.foldl_cons, List.foldl_cons,
          boundaryArc_eq hflags h (hlist p List.mem_cons_self) hbest]
        exact ih _ (fun q hq => hlist q (List.mem_cons_of_mem _ hq)) ((min_le_left _ _).trans hbest)
    exact hgeneral _ _ hwithin le_rfl
  dsimp only
  rw [hfold]
  obtain ⟨hle, hall, hsome⟩ := foldl_min_spec (forEachInNeighbor g v)
    (fun p => if p ∈ S ∨ levels.labels p = unreachable then unreachable else levels.labels p + 1)
    unreachable
  refine ⟨fun hne => ?_, hle, fun p harc hp => ?_⟩
  · obtain ⟨p, hp, heq⟩ := hsome hne
    rw [heq] at hne ⊢
    by_cases hskip : p ∈ S ∨ levels.labels p = unreachable
    · exact absurd (if_pos hskip) hne
    · rw [if_neg hskip]
      exact ⟨p, (htransposes.mem_inNeighbor p v).mp hp, fun hmem => hskip (Or.inl hmem),
        lt_of_le_of_ne (h.le p) fun hfar => hskip (Or.inr hfar), rfl⟩
  · have hcandidate := hall p ((htransposes.mem_inNeighbor p v).mpr harc)
    by_cases hfar : levels.labels p = unreachable
    · rw [hfar]
      exact hle.trans (Nat.le_succ _)
    · rwa [if_neg (not_or.mpr ⟨hp, hfar⟩)] at hcandidate

/-- The labelling of a state with a heap. -/
def heapLabels (state : Levels × List Item) : VertexId → ℕ := state.1.labels

/-- A vertex whose current distance is in the heap. -/
def InHeap (state : Levels × List Item) (x : VertexId) : Prop :=
  toLex (heapLabels state x, x) ∈ state.2

/-- What the repair keeps: labels outside the affected vertices stay, and the heap holds
finite distances only. -/
structure Repairing (n : ℕ) (S : Set VertexId) (base : VertexId → ℕ)
    (state : Levels × List Item) : Prop where
  leveled : Leveled n state.1
  outside : ∀ x, x ∉ S → heapLabels state x = base x
  finite : ∀ item ∈ state.2, (ofLex item).1 < unreachable

/-- Lowering the label of an affected vertex and pushing it on the heap. -/
theorem Repairing.push {n : ℕ} {base : VertexId → ℕ} {levels : Levels} {heap : List Item}
    (h : Repairing n S base (levels, heap)) {v : VertexId} (hv : v.val < n) (hmem : v ∈ S)
    {distance : ℕ} (hlt : distance < levels.labels v) :
    Repairing n S base (levels.lower v distance, toLex (distance, v) :: heap) ∧
      (levels.lower v distance).labels = Function.update levels.labels v distance ∧
      (∀ x, InHeap (levels, heap) x →
        InHeap (levels.lower v distance, toLex (distance, v) :: heap) x) ∧
      InHeap (levels.lower v distance, toLex (distance, v) :: heap) v := by
  obtain ⟨hleveled, hlabels⟩ := h.leveled.lower hv hlt
  have hself : InHeap (levels.lower v distance, toLex (distance, v) :: heap) v := by
    unfold InHeap heapLabels
    dsimp only
    rw [hlabels, Function.update_self]
    exact List.mem_cons_self
  refine ⟨⟨hleveled, fun x hx => ?_, fun item hitem => ?_⟩, hlabels, fun x hx => ?_, hself⟩
  · unfold heapLabels
    rw [hlabels, Function.update_of_ne (ne_of_mem_of_not_mem hmem hx).symm]
    exact h.outside x hx
  · rcases List.mem_cons.mp hitem with rfl | hitem
    · exact hlt.trans_le (h.leveled.le v)
    · exact h.finite item hitem
  · by_cases hxv : x = v
    · rw [hxv]
      exact hself
    · unfold InHeap heapLabels at hx ⊢
      dsimp only at hx ⊢
      rw [hlabels, Function.update_of_ne hxv]
      exact List.mem_cons_of_mem _ hx

/-- What holds while the affected vertices are seeded one after the other: those already seen
have at most the distance over any unaffected neighbour, and a reached one is in the heap. -/
structure Seeding (g : G) (arcs : ArcSet) (start S : Set VertexId) (base : VertexId → ℕ)
    (seen : List VertexId) (state : Levels × List Item) : Prop
    extends Repairing (vertexCount g) S base state where
  waiting : ∀ x ∈ S, x ∉ seen → heapLabels state x = unreachable
  justified : Justified start (unitArc arcs) unreachable (heapLabels state)
  boundary : ∀ v ∈ seen, ∀ p, (p, v) ∈ arcs → p ∉ S → heapLabels state v ≤ base p + 1
  queued : ∀ x ∈ S, heapLabels state x < unreachable → InHeap state x

/-- Seeding one affected vertex. -/
theorem Seeding.seedLevel (hserves : Serves g arcs) (htransposes : Transposes g arcs)
    (hflags : Flags (vertexCount g) affected S) {base : VertexId → ℕ} {seen : List VertexId}
    {state : Levels × List Item} (h : Seeding g arcs start S base seen state) {v : VertexId}
    (hv : v.val < vertexCount g) (hmem : v ∈ S) (hnew : v ∉ seen) (hstart : v ∉ start) :
    Seeding g arcs start S base (seen ++ [v]) (seedLevel g affected state v) := by
  obtain ⟨levels, heap⟩ := state
  have hrepairing : Repairing (vertexCount g) S base (levels, heap) := h.toRepairing
  have hleveled : Leveled (vertexCount g) levels := h.leveled
  have hwait : levels.labels v = unreachable := h.waiting v hmem hnew
  obtain ⟨hreach, hcap, hbest⟩ :=
    bestBoundaryDistance_spec hserves htransposes hflags hleveled v
  unfold VeloGraphX.seedLevel
  dsimp only
  generalize bestBoundaryDistance g affected levels.dist v = best at hreach hcap hbest ⊢
  have hbase : ∀ p, p ∉ S → levels.labels p = base p := h.outside
  split
  · rename_i hfinite
    obtain ⟨p, harc, hp, hpfinite, heq⟩ := hreach hfinite
    have hlt : best < levels.labels v := hwait ▸ lt_of_le_of_ne hcap hfinite
    obtain ⟨hpush, hlabels, hkeep, hself⟩ := hrepairing.push hv hmem hlt
    have hother : ∀ x, x ≠ v → heapLabels (levels.lower v best, toLex (best, v) :: heap) x =
        levels.labels x := fun x hx => by
      unfold heapLabels
      rw [hlabels, Function.update_of_ne hx]
    have hat : heapLabels (levels.lower v best, toLex (best, v) :: heap) v = best := by
      unfold heapLabels
      rw [hlabels, Function.update_self]
    refine ⟨hpush, fun x hx hseen => ?_, ?_, fun x hx q hq hqS => ?_, fun x hx hlow => ?_⟩
    · rw [List.mem_append, List.mem_singleton, not_or] at hseen
      rw [hother x hseen.2]
      exact h.waiting x hx hseen.1
    · refine ⟨hpush.leveled.le, fun x hx => ?_, fun x hx => ?_⟩
      · rw [hother x (ne_of_mem_of_not_mem hx hstart)]
        exact h.justified.source x hx
      · by_cases hxv : x = v
        · rw [hxv, hat, heq]
          obtain ⟨c, hc, hwalk⟩ := h.justified.walk p hpfinite
          exact ⟨c + 1, Nat.succ_le_succ hc, .snoc hwalk ⟨rfl, harc⟩⟩
        · rw [hother x hxv] at hx ⊢
          exact h.justified.walk x hx
    · by_cases hxv : x = v
      · subst hxv
        rw [hat, ← hbase q hqS]
        exact hbest q hq hqS
      · rw [hother x hxv]
        exact h.boundary x ((List.mem_append.mp hx).resolve_right (by simpa using hxv)) q hq hqS
    · by_cases hxv : x = v
      · rw [hxv]
        exact hself
      · rw [hother x hxv] at hlow
        exact hkeep x (h.queued x hx hlow)
  · rename_i hfar
    have hbest' := hbest
    rw [not_not.mp hfar] at hbest'
    refine ⟨h.toRepairing, fun x hx hseen => ?_, h.justified, fun x hx q hq hqS => ?_, h.queued⟩
    · exact h.waiting x hx fun hmem' => hseen (List.mem_append_left _ hmem')
    · rcases List.mem_append.mp hx with hx | hx
      · exact h.boundary x hx q hq hqS
      · rw [List.mem_singleton.mp hx] at hq ⊢
        exact (hleveled.le v).trans (hbase q hqS ▸ hbest' q hq hqS)

/-- Seeding all affected vertices. -/
theorem Seeding.foldl (hserves : Serves g arcs) (htransposes : Transposes g arcs)
    (hflags : Flags (vertexCount g) affected S) {base : VertexId → ℕ} {list seen : List VertexId}
    (hlist : ∀ v ∈ list, v.val < vertexCount g ∧ v ∈ S ∧ v ∉ seen ∧ v ∉ start)
    (hnodup : list.Nodup) {state : Levels × List Item}
    (h : Seeding g arcs start S base seen state) :
    Seeding g arcs start S base (seen ++ list) (list.foldl (VeloGraphX.seedLevel g affected) state) := by
  induction list generalizing seen state with
  | nil =>
    rw [List.append_nil]
    exact h
  | cons v rest ih =>
    obtain ⟨hv, hmem, hnew, hstart⟩ := hlist v List.mem_cons_self
    obtain ⟨hhead, hrest⟩ := List.nodup_cons.mp hnodup
    have hnext := h.seedLevel hserves htransposes hflags hv hmem hnew hstart
    have hlist' : ∀ x ∈ rest, x.val < vertexCount g ∧ x ∈ S ∧ x ∉ seen ++ [v] ∧ x ∉ start := by
      intro x hx
      obtain ⟨hxlt, hxmem, hxnew, hxstart⟩ := hlist x (List.mem_cons_of_mem _ hx)
      refine ⟨hxlt, hxmem, fun hor => ?_, hxstart⟩
      rcases List.mem_append.mp hor with hseen | hxv
      · exact hxnew hseen
      · rw [List.mem_singleton.mp hxv] at hx
        exact hhead hx
    have := ih hlist' hrest hnext
    rwa [List.append_assoc, List.singleton_append] at this

/-- What stays true while the arcs of a popped vertex are scanned. -/
structure Popped (n : ℕ) (S : Set VertexId) (base : VertexId → ℕ) (u : VertexId) (du : ℕ)
    (state : Levels × List Item) : Prop extends Repairing n S base state where
  source : heapLabels state u = du

/-- The callback of the heap loop relaxes an arc to an affected vertex. -/
theorem repairArc_spec {n : ℕ} (hflags : Flags n affected S) {base : VertexId → ℕ} {u v : VertexId}
    {du : ℕ} (hdu : du < unreachable) {state : Levels × List Item}
    (h : Popped n S base u du state) (hv : v.val < n) (hmem : v ∈ S) :
    Popped n S base u du (repairArc affected du state v) ∧
      Relaxes heapLabels InHeap state (repairArc affected du state v) u 1 v := by
  obtain ⟨levels, heap⟩ := state
  have hleveled : Leveled n levels := h.leveled
  have hu : levels.labels u = du := h.source
  have hflag := (hflags.mem_iff v hv).mpr hmem
  have hlen := hflags.length_le
  unfold repairArc
  dsimp only
  have hskip : ¬ (decide (affected.length ≤ v.val) || decide (affected.getD v 0 = 0)) = true := by
    simp only [Bool.or_eq_true, decide_eq_true_eq, not_or, not_le]
    exact ⟨hv.trans_le hlen, hflag⟩
  rw [if_neg hskip, hleveled.getD_eq hv, addU32_one hdu]
  split
  · rename_i hlt
    obtain ⟨hpush, hlabels, hkeep, hself⟩ := h.toRepairing.push hv hmem hlt
    have hrelax : (levels.lower v (du + 1)).labels = relax levels.labels u 1 v := by
      rw [hlabels, relax, hu, min_eq_right hlt.le]
    refine ⟨⟨hpush, ?_⟩, hrelax, hkeep, fun _ => hself⟩
    exact (congrFun hrelax u).trans ((relax_source _ _ _ _).trans hu)
  · rename_i hnot
    refine ⟨h, relaxes_refl ?_⟩
    rw [h.source]
    exact not_lt.mp hnot

/-- Relaxing pays for a new heap entry by a lower distance. -/
theorem repairArc_measure (du : ℕ) (state : Levels × List Item) (v : VertexId) :
    2 * (repairArc affected du state v).1.dist.sum + (repairArc affected du state v).2.length ≤
      2 * state.1.dist.sum + state.2.length := by
  obtain ⟨levels, heap⟩ := state
  unfold repairArc
  dsimp only
  split
  · exact le_rfl
  · split
    · rename_i hlt
      have hv : v.val < levels.dist.length := by
        by_contra hout
        rw [List.getD_eq_default _ _ (not_lt.mp hout)] at hlt
        exact Nat.not_lt_zero _ hlt
      have hsum := sum_set hv (addU32 du 1)
      simp only [Levels.lower, List.length_cons]
      omega
    · exact le_rfl

/-- One turn of the heap loop, with a live entry or without. -/
theorem repairTurn_pop (g : G) {levels : Levels} {heap rest : List Item} {du : ℕ} {u : VertexId}
    (hpop : popMin heap = some (toLex (du, u), rest)) :
    repairTurn g affected (levels, heap) =
      if levels.dist.length ≤ u || du ≠ levels.dist.getD u 0 then (levels, rest)
      else (forEachNeighbor g u).foldl (repairArc affected du) (levels, rest) := by
  unfold repairTurn
  simp only [hpop]
  rfl

/-- Every turn of the heap loop on a heap that is not empty makes progress. -/
theorem repairTurn_measure (g : G) {levels : Levels} {heap rest : List Item} {du : ℕ}
    {u : VertexId} (hpop : popMin heap = some (toLex (du, u), rest)) :
    2 * (repairTurn g affected (levels, heap)).1.dist.sum +
        (repairTurn g affected (levels, heap)).2.length < 2 * levels.dist.sum + heap.length := by
  have hfold : ∀ (du : ℕ) (targets : List VertexId) (state : Levels × List Item),
      2 * (targets.foldl (repairArc affected du) state).1.dist.sum +
          (targets.foldl (repairArc affected du) state).2.length ≤
        2 * state.1.dist.sum + state.2.length := by
    intro du targets
    induction targets with
    | nil => exact fun _ => le_rfl
    | cons v rest ih => exact fun state => (ih _).trans (repairArc_measure du state v)
  have hlength := length_popMin hpop
  rw [repairTurn_pop g hpop]
  split
  · dsimp only
    omega
  · have := hfold du (forEachNeighbor g u) (levels, rest)
    dsimp only at this
    omega

/-- Only affected targets matter to the callback of the heap loop. -/
theorem foldl_repairArc (du : ℕ) (targets : List VertexId) (state : Levels × List Item) :
    targets.foldl (repairArc affected du) state =
      (targets.filter fun v : VertexId => affected.getD v 0 ≠ 0).foldl (repairArc affected du) state := by
  rw [List.foldl_filter]
  congr 1
  funext state v
  split
  · rfl
  · rename_i hzero
    have hzero : affected.getD v 0 = 0 := by simpa using hzero
    exact if_pos ((Bool.or_eq_true _ _).mpr (Or.inr (decide_eq_true hzero)))

/-- The arcs into affected vertices. -/
def intoAffected (arcs : ArcSet) (S : Set VertexId) (u : VertexId) (w : ℕ) (v : VertexId) : Prop :=
  unitArc arcs u w v ∧ v ∈ S

/-- A stale entry may be dropped from the heap. -/
theorem relaxed_of_stale (hserves : Serves g arcs) {levels : Levels} {heap rest : List Item}
    (hleveled : Leveled (vertexCount g) levels)
    (hrel : Relaxed (intoAffected arcs S) (fun x _ => InHeap (levels, heap) x) levels.labels)
    {du : ℕ} {u : VertexId} (hpop : popMin heap = some (toLex (du, u), rest))
    (hstale : levels.dist.length ≤ u ∨ du ≠ levels.dist.getD u 0) :
    Relaxed (intoAffected arcs S) (fun x _ => InHeap (levels, rest) x) levels.labels := by
  intro x w v harc
  rcases hrel x w v harc with hheap | hle
  · by_cases hx : toLex (levels.labels x, x) = toLex (du, u)
    · -- the current entry of `x` is stale, so `x` is not a vertex
      obtain ⟨rfl, rfl⟩ := Prod.mk.inj (toLex_inj.mp hx)
      have hout : levels.dist.length ≤ x.val := by
        by_contra hlt
        exact hstale.elim hlt fun hne => hne (label_eq_getD unreachable (not_le.mp hlt) 0)
      exact absurd (hserves.simple.within x v harc.1.2).1
        (not_lt.mpr (hleveled.length_eq ▸ hout))
    · exact Or.inl (mem_popMin_of_ne hpop hheap hx)
  · exact Or.inr hle

/-- The targets the callback of the heap loop looks at. -/
theorem mem_affectedTargets (hserves : Serves g arcs) (hflags : Flags (vertexCount g) affected S)
    {u v : VertexId} :
    v ∈ (forEachNeighbor g u).filter (fun v : VertexId => affected.getD v 0 ≠ 0) ↔
      (u, v) ∈ arcs ∧ v ∈ S := by
  rw [List.mem_filter, hserves.mem_neighbor, decide_eq_true_eq]
  exact and_congr_right fun harc => hflags.mem_iff v (hserves.simple.within u v harc).2

/-- One turn of the heap loop keeps every unrelaxed arc into an affected vertex in the heap. -/
theorem repairTurn_spec (hserves : Serves g arcs) (hflags : Flags (vertexCount g) affected S)
    {base : VertexId → ℕ} {levels : Levels} {heap : List Item}
    (h : Repairing (vertexCount g) S base (levels, heap))
    (hjust : Justified start (unitArc arcs) unreachable levels.labels)
    (hrel : Relaxed (intoAffected arcs S) (fun x _ => InHeap (levels, heap) x) levels.labels)
    {du : ℕ} {u : VertexId} {rest : List Item} (hpop : popMin heap = some (toLex (du, u), rest)) :
    Repairing (vertexCount g) S base (repairTurn g affected (levels, heap)) ∧
      Justified start (unitArc arcs) unreachable
        (heapLabels (repairTurn g affected (levels, heap))) ∧
      Relaxed (intoAffected arcs S) (fun x _ => InHeap (repairTurn g affected (levels, heap)) x)
        (heapLabels (repairTurn g affected (levels, heap))) := by
  have hrest : Repairing (vertexCount g) S base (levels, rest) :=
    ⟨h.leveled, h.outside, fun item hitem => h.finite item (mem_of_mem_popMin hpop hitem)⟩
  rw [repairTurn_pop g hpop]
  split
  · rename_i hskip
    simp only [Bool.or_eq_true, decide_eq_true_eq] at hskip
    exact ⟨hrest, hjust, relaxed_of_stale hserves h.leveled hrel hpop hskip⟩
  · rename_i hlive
    simp only [Bool.or_eq_true, decide_eq_true_eq, not_or, not_le, not_not] at hlive
    have hu : levels.labels u = du :=
      (label_eq_getD unreachable hlive.1 0).trans hlive.2.symm
    have hdu : du < unreachable := h.finite _ (popMin_eq_some hpop).1
    have hpending : Relaxed (intoAffected arcs S)
        (fun x _ => InHeap (levels, rest) x ∨ x = u) (heapLabels (levels, rest)) := by
      refine hrel.mono fun x _ hx => ?_
      by_cases hxu : x = u
      · exact Or.inr hxu
      · refine Or.inl (mem_popMin_of_ne hpop hx fun heq => hxu ?_)
        exact (Prod.mk.inj (toLex_inj.mp heq)).2
    have hwithin : ∀ v, (u, v) ∈ arcs → v.val < vertexCount g := fun v harc =>
      (hserves.simple.within u v harc).2
    rw [foldl_repairArc]
    obtain ⟨hpopped, hjust', hrel'⟩ := scan heapLabels InHeap
      (Popped (vertexCount g) S base u du) (repairArc affected du) u (fun _ => 1) id
      (fun s hs v hv => by
        obtain ⟨harc, hmem⟩ := (mem_affectedTargets hserves hflags).mp hv
        exact repairArc_spec hflags hdu hs (hwithin v harc) hmem)
      (fun v hv => ⟨rfl, ((mem_affectedTargets hserves hflags).mp hv).1⟩)
      (fun w v hneed => ⟨v, (mem_affectedTargets hserves hflags).mpr ⟨hneed.1.2, hneed.2⟩, rfl⟩)
      (fun v _ w hneed => hneed.1.1) (levels, rest) ⟨hrest, hu⟩ hjust hpending
    exact ⟨hpopped.toRepairing, hjust', hrel'⟩

/-- The heap loop ends with every arc into an affected vertex relaxed. -/
theorem repairHeap_spec (hserves : Serves g arcs) (hflags : Flags (vertexCount g) affected S)
    {base : VertexId → ℕ} {state : Levels × List Item}
    (h : Repairing (vertexCount g) S base state)
    (hjust : Justified start (unitArc arcs) unreachable (heapLabels state))
    (hrel : Relaxed (intoAffected arcs S) (fun x _ => InHeap state x) (heapLabels state)) :
    Returns (fun fuel => whileLoop (fun state => !state.2.isEmpty)
      (fun _ state => some (repairTurn g affected state)) fuel state) fun state =>
        Repairing (vertexCount g) S base state ∧
          Justified start (unitArc arcs) unreachable (heapLabels state) ∧
          Relaxed (intoAffected arcs S) (fun _ _ => False) (heapLabels state) := by
  refine (returns_while
    (fun m state => m = 2 * state.1.dist.sum + state.2.length ∧
      Repairing (vertexCount g) S base state ∧
      Justified start (unitArc arcs) unreachable (heapLabels state) ∧
      Relaxed (intoAffected arcs S) (fun x _ => InHeap state x) (heapLabels state))
    (fun m state hinv hgo => Returns.pure ?_) ⟨rfl, h, hjust, hrel⟩).mono ?_
  · obtain ⟨levels, heap⟩ := state
    obtain ⟨rfl, h, hjust, hrel⟩ := hinv
    cases hpop : popMin heap with
    | none =>
      rw [popMin_eq_none.mp hpop] at hgo
      exact absurd hgo (by simp)
    | some popped =>
      obtain ⟨item, rest⟩ := popped
      obtain ⟨du, u⟩ := ofLex item
      exact ⟨_, repairTurn_measure g hpop, rfl, repairTurn_spec hserves hflags h hjust hrel hpop⟩
  · rintro ⟨levels, heap⟩ ⟨⟨m, -, h, hjust, hrel⟩, hexit⟩
    have hnil : heap = [] := by simpa using hexit
    subst hnil
    exact ⟨h, hjust, hrel.mono fun x _ hx => List.not_mem_nil hx⟩

/-- The queue after the heap loop holds every affected vertex that came closer than before. -/
theorem mem_closer {affectedVertices : List VertexId} {dist : List ℕ} {levels : Levels} {n : ℕ}
    (hleveled : Leveled n levels) {x : VertexId} (hx : x ∈ affectedVertices) (hlt : x.val < n)
    (hcloser : levels.labels x < label unreachable dist x) (hcap : label unreachable dist x ≤ unreachable) :
    x ∈ ((List.range affectedVertices.length).filter fun i =>
      let v := affectedVertices.getD i 0
      let oldAffectedDist := affectedVertices.map fun v : VertexId =>
        if v < dist.length then dist.getD v 0 else unreachable
      let oldDist := if i < oldAffectedDist.length then oldAffectedDist.getD i 0 else unreachable
      v < levels.dist.length && levels.dist.getD v 0 ≠ unreachable &&
        levels.dist.getD v 0 < oldDist).map fun i => affectedVertices.getD i 0 := by
  obtain ⟨i, hi, rfl⟩ := List.getElem_of_mem hx
  refine List.mem_map.mpr ⟨i, List.mem_filter.mpr ⟨List.mem_range.mpr hi, ?_⟩,
    List.getD_eq_getElem _ _ hi⟩
  have hold : (affectedVertices.map fun v : VertexId =>
      if v.val < dist.length then dist.getD v 0 else unreachable).getD i 0 =
        label unreachable dist affectedVertices[i] := by
    rw [List.getD_eq_getElem _ _ (by rwa [List.length_map]), List.getElem_map]
    split
    · exact (label_eq_getD unreachable ‹_› 0).symm
    · exact (label_of_le (not_lt.mp ‹_›)).symm
  dsimp only
  rw [hold, List.getD_eq_getElem _ _ hi, List.length_map, if_pos hi, hleveled.getD_eq hlt,
    hleveled.length_eq]
  simp only [Bool.and_eq_true, decide_eq_true_eq]
  exact ⟨⟨hlt, by omega⟩, hcloser⟩

/-- Before the first affected vertex is seeded, the affected vertices have no distances. -/
theorem seeding_reset {affectedVertices : List VertexId}
    (hvalid : ∀ v ∈ affectedVertices, v.val < vertexCount g) {levels : Levels}
    (hleveled : Leveled (vertexCount g) levels)
    (hjust : Justified start (unitArc arcs) unreachable fun x =>
      if x ∈ affectedVertices then unreachable else levels.labels x) :
    Seeding g arcs start {x | x ∈ affectedVertices} levels.labels []
      (affectedVertices.foldl resetLevel levels, []) := by
  obtain ⟨hreset, hlabels⟩ := foldl_resetLevel_spec hvalid hleveled
  refine ⟨⟨hreset, fun x hx => (hlabels x).trans (if_neg hx), ?_⟩, fun x hx _ => ?_, ?_, ?_, ?_⟩
  · exact fun item hitem => absurd hitem List.not_mem_nil
  · exact (hlabels x).trans (if_pos hx)
  · have hfun : heapLabels (affectedVertices.foldl resetLevel levels, []) = fun x =>
        if x ∈ affectedVertices then unreachable else levels.labels x := funext hlabels
    rw [hfun]
    exact hjust
  · exact fun v hv => absurd hv List.not_mem_nil
  · exact fun x hx hlt => absurd ((hlabels x).trans (if_pos hx)) hlt.ne

/-- When all affected vertices are seeded, an unrelaxed arc into one of them waits in the heap. -/
theorem Seeding.relaxed_intoAffected {affectedVertices : List VertexId} {base : VertexId → ℕ}
    {state : Levels × List Item}
    (h : Seeding g arcs start {x | x ∈ affectedVertices} base affectedVertices state) :
    Relaxed (intoAffected arcs {x | x ∈ affectedVertices}) (fun x _ => InHeap state x)
      (heapLabels state) := by
  intro u w v harc
  by_cases hu : u ∈ affectedVertices
  · rcases (h.leveled.le u).lt_or_eq with hlt | hfar
    · exact Or.inl (h.queued u hu hlt)
    · have hcap : heapLabels state v ≤ unreachable := h.leveled.le v
      have hfar : heapLabels state u = unreachable := hfar
      exact Or.inr (by omega)
  · have hboundary := h.boundary v harc.2 u harc.1.2 hu
    rw [← h.outside u hu] at hboundary
    exact Or.inr (harc.1.1 ▸ hboundary)

/-- `repair_affected` ends with every arc relaxed that was relaxed before the affected vertices
lost their distances. -/
theorem repairAffected_spec (hserves : Serves g arcs) (htransposes : Transposes g arcs)
    {affectedVertices : List VertexId}
    (hflags : Flags (vertexCount g) affected {x | x ∈ affectedVertices})
    (hnodup : affectedVertices.Nodup)
    (hvalid : ∀ v ∈ affectedVertices, v.val < vertexCount g ∧ v ∉ start) {levels : Levels}
    (hleveled : Leveled (vertexCount g) levels)
    (hjust : Justified start (unitArc arcs) unreachable fun x =>
      if x ∈ affectedVertices then unreachable else levels.labels x)
    {need : VertexId → ℕ → VertexId → Prop} (hneed : ∀ u w v, need u w v → unitArc arcs u w v)
    (hold : Relaxed need (fun _ _ => False) levels.labels) :
    Returns (fun fuel => repairAffected g affected fuel levels affectedVertices
      (affectedVertices.map fun v : VertexId =>
        if v < levels.dist.length then levels.dist.getD v 0 else unreachable)) fun levels =>
      Leveled (vertexCount g) levels ∧ Justified start (unitArc arcs) unreachable levels.labels ∧
        Relaxed need (fun _ _ => False) levels.labels := by
  have hseeding := seeding_reset (fun v hv => (hvalid v hv).1) hleveled hjust
  have hseeded := hseeding.foldl hserves htransposes hflags
    (fun v hv => ⟨(hvalid v hv).1, hv, List.not_mem_nil, (hvalid v hv).2⟩) hnodup
  rw [List.nil_append] at hseeded
  unfold repairAffected
  dsimp only
  generalize affectedVertices.foldl (VeloGraphX.seedLevel g affected)
    (affectedVertices.foldl resetLevel levels, []) = state at hseeded ⊢
  refine (repairHeap_spec hserves hflags hseeded.toRepairing hseeded.justified
    hseeded.relaxed_intoAffected).bind ?_
  rintro ⟨repaired, heap⟩ ⟨hrepairing, hjust', hrel⟩
  refine propagateDecreases_spec hserves hneed hrepairing.leveled hjust' fun u w v hmust => ?_
  have hunit := hneed u w v hmust
  by_cases hv : v ∈ affectedVertices
  · exact Or.inr ((hrel u w v ⟨hunit, hv⟩).resolve_left id)
  · have hbefore := (hold u w v hmust).resolve_left id
    have hkeep : repaired.labels v = levels.labels v := hrepairing.outside v hv
    by_cases hcloser : repaired.labels u < levels.labels u
    · have hu : u ∈ affectedVertices := by
        by_contra hu
        exact hcloser.ne (hrepairing.outside u hu)
      exact Or.inl (mem_closer hrepairing.leveled hu (hvalid u hu).1 hcloser (hleveled.le u))
    · refine Or.inr ?_
      dsimp only
      omega

end Heap

end VeloGraphX
