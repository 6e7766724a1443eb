import Mathlib

/-!
# Core numbers by peeling

The core number of a vertex is the largest minimum degree of a subgraph it lies in. Taking away
a vertex of least remaining degree, again and again, and labelling it with the largest degree
met so far gives every vertex its core number: the remaining vertices form a subgraph of the
degree just met, and a denser subgraph loses its first vertex only when the degree met is at
least its own.
-/

namespace Peeling

variable {V : Type*} {G G' : SimpleGraph V} {R S : Set V} {c d k : ℕ} {core : V → ℕ} {u v : V}

/-- Every vertex of a subgraph has at least `k` neighbours in it. -/
def MinDegree (H : G.Subgraph) (k : ℕ) : Prop := ∀ u ∈ H.verts, k ≤ (H.neighborSet u).ncard

/-- The vertex lies in a subgraph of minimum degree at least `k`. -/
def InCore (G : SimpleGraph V) (k : ℕ) (v : V) : Prop :=
  ∃ H : G.Subgraph, v ∈ H.verts ∧ MinDegree H k

/-- The largest `k` for which the vertex lies in a subgraph of minimum degree at least `k`. -/
def IsCoreNumber (G : SimpleGraph V) (v : V) (k : ℕ) : Prop := IsGreatest {k | InCore G k v} k

/-- The neighbours of a vertex among some vertices. -/
noncomputable def degreeIn (G : SimpleGraph V) (S : Set V) (v : V) : ℕ := {w | w ∈ S ∧ G.Adj v w}.ncard

/-- Every vertex lies in a subgraph of minimum degree zero. -/
theorem inCore_zero (G : SimpleGraph V) (v : V) : InCore G 0 v :=
  ⟨⊤, trivial, fun _ _ => Nat.zero_le _⟩

/-- A vertex without neighbours has core number zero. -/
theorem isCoreNumber_of_isolated (h : ∀ w, ¬ G.Adj v w) : IsCoreNumber G v 0 := by
  refine ⟨inCore_zero G v, fun k hk => ?_⟩
  obtain ⟨H, hv, hdegree⟩ := hk
  have hnone : H.neighborSet v = ∅ :=
    Set.eq_empty_of_forall_notMem fun w hw => h w (H.adj_sub hw)
  have hle := hdegree v hv
  rwa [hnone, Set.ncard_empty] at hle

/-- The vertices of a set that each have `k` neighbours in it. -/
theorem inCore_of_degreeIn (h : ∀ v ∈ S, k ≤ degreeIn G S v) (hv : v ∈ S) : InCore G k v := by
  refine ⟨(⊤ : G.Subgraph).induce S, hv, fun u hu => (h u hu).trans_eq ?_⟩
  refine congrArg Set.ncard (Set.ext fun w => ⟨fun hw => ⟨hu, hw.1, hw.2⟩, fun hw => ?_⟩)
  exact ⟨hw.2.1, hw.2.2⟩

/-- Membership in a core depends only on the edges in a set without edges to the outside. -/
theorem InCore.of_agree {C : Set V} (hclosed : ∀ u ∈ C, ∀ w, G.Adj u w → w ∈ C)
    (hagree : ∀ u ∈ C, ∀ w, G.Adj u w → G'.Adj u w) (hv : v ∈ C) (h : InCore G k v) :
    InCore G' k v := by
  obtain ⟨H, hmem, hdegree⟩ := h
  have hstays : ∀ {x y}, H.Adj x y → x ∈ C → y ∈ C := fun hxy hx =>
    hclosed _ hx _ (H.adj_sub hxy)
  let H' : G'.Subgraph :=
    { verts := H.verts ∩ C
      Adj := fun x y => H.Adj x y ∧ x ∈ C ∧ y ∈ C
      adj_sub := fun hxy => hagree _ hxy.2.1 _ (H.adj_sub hxy.1)
      edge_vert := fun hxy => ⟨H.edge_vert hxy.1, hxy.2.1⟩
      symm := ⟨fun _ _ hxy => ⟨hxy.1.symm, hxy.2.2, hxy.2.1⟩⟩ }
  refine ⟨H', ⟨hmem, hv⟩, fun u hu => (hdegree u hu.1).trans_eq ?_⟩
  refine congrArg Set.ncard (Set.ext fun w => ⟨fun hw => ?_, fun hw => hw.1⟩)
  exact ⟨hw, hu.2, hstays hw hu.2⟩

/-- So does the core number. -/
theorem IsCoreNumber.of_agree {C : Set V} (hclosed : ∀ u ∈ C, ∀ w, G.Adj u w → w ∈ C)
    (hagree : ∀ u ∈ C, ∀ w, G.Adj u w ↔ G'.Adj u w) (hv : v ∈ C) (h : IsCoreNumber G v k) :
    IsCoreNumber G' v k := by
  refine ⟨h.1.of_agree hclosed (fun u hu w => (hagree u hu w).mp) hv, fun j hj => h.2 ?_⟩
  exact hj.of_agree (fun u hu w hadj => hclosed u hu w ((hagree u hu w).mpr hadj))
    (fun u hu w => (hagree u hu w).mpr) hv

/-- The state of a peeling of the region `R`: the vertices in `S` remain, `c` is the largest
degree met, and the vertices that are gone have their core numbers. -/
structure Peeled (G : SimpleGraph V) (R S : Set V) (c : ℕ) (core : V → ℕ) : Prop where
  subset : S ⊆ R
  removed : ∀ v ∈ R, v ∉ S → IsCoreNumber G v (core v)
  remaining : ∀ v ∈ S, InCore G c v
  dense : ∀ k (H : G.Subgraph), c < k → MinDegree H k → H.verts ∩ R ⊆ S

/-- At first the whole region remains. -/
theorem peeled_start (G : SimpleGraph V) (R : Set V) (core : V → ℕ) : Peeled G R R 0 core :=
  ⟨subset_rfl, fun _ hv hnot => absurd hv hnot, fun v _ => inCore_zero G v,
    fun _ _ _ _ => Set.inter_subset_right⟩

/-- Labels outside the region do not matter. -/
theorem Peeled.congr {core' : V → ℕ} (h : Peeled G R S c core)
    (hcore : ∀ v ∈ R, v ∉ S → core' v = core v) : Peeled G R S c core' :=
  ⟨h.subset, fun v hv hnot => (hcore v hv hnot).symm ▸ h.removed v hv hnot, h.remaining, h.dense⟩

/-- Taking away a vertex of least remaining degree. -/
theorem Peeled.step [Finite V] [DecidableEq V] (h : Peeled G R S c core)
    (hclosed : ∀ u ∈ R, ∀ w, G.Adj u w → w ∈ R) (hu : u ∈ S)
    (hleast : ∀ v ∈ S, degreeIn G S u ≤ degreeIn G S v) :
    Peeled G R (S \ {u}) (max c (degreeIn G S u))
      (Function.update core u (max c (degreeIn G S u))) := by
  have hin : ∀ v ∈ S, InCore G (max c (degreeIn G S u)) v := fun v hv => by
    rcases max_choice c (degreeIn G S u) with hc | hd
    · exact hc.symm ▸ h.remaining v hv
    · exact hd.symm ▸ inCore_of_degreeIn hleast hv
  -- a denser subgraph with the vertex would have its neighbours among the remaining ones
  have hout : ∀ k (H : G.Subgraph), max c (degreeIn G S u) < k → MinDegree H k → u ∉ H.verts := by
    intro k H hk hdegree hmem
    have hsub : H.neighborSet u ⊆ {w | w ∈ S ∧ G.Adj u w} := fun w hw =>
      ⟨h.dense k H ((le_max_left _ _).trans_lt hk) hdegree
        ⟨hw.snd_mem, hclosed u (h.subset hu) w (H.adj_sub hw)⟩, H.adj_sub hw⟩
    have hle := (hdegree u hmem).trans (Set.ncard_le_ncard hsub (Set.toFinite _))
    exact absurd hk (not_lt.mpr (hle.trans (le_max_right _ _)))
  refine ⟨Set.sdiff_subset.trans h.subset, fun v hv hnot => ?_, fun v hv => hin v hv.1,
    fun k H hk hdegree v hv => ⟨?_, ?_⟩⟩
  · by_cases hvu : v = u
    · rw [hvu, Function.update_self]
      refine ⟨hin u hu, fun k hk => ?_⟩
      obtain ⟨H, hmem, hdegree⟩ := hk
      by_contra hlt
      exact hout k H (not_le.mp hlt) hdegree hmem
    · rw [Function.update_of_ne hvu]
      exact h.removed v hv fun hmem => hnot ⟨hmem, hvu⟩
  · exact h.dense k H ((le_max_left _ _).trans_lt hk) hdegree hv
  · rintro rfl
    exact hout k H hk hdegree hv.1

/-- When nothing remains, the whole region has its core numbers. -/
theorem Peeled.done (h : Peeled G R S c core) (hnone : ∀ v, v ∉ S) (hv : v ∈ R) :
    IsCoreNumber G v (core v) := h.removed v hv (hnone v)

/-- Taking a vertex away lowers the degrees of its neighbours by one. -/
theorem degreeIn_diff [Finite V] (hu : u ∈ S) (hadj : G.Adj u v) :
    degreeIn G (S \ {u}) v = degreeIn G S v - 1 := by
  have hset : {w | w ∈ S \ {u} ∧ G.Adj v w} = {w | w ∈ S ∧ G.Adj v w} \ {u} :=
    Set.ext fun w => ⟨fun hw => ⟨⟨hw.1.1, hw.2⟩, hw.1.2⟩, fun hw => ⟨⟨hw.1.1, hw.2⟩, hw.1.2⟩⟩
  rw [degreeIn, hset]
  exact Set.ncard_sdiff_singleton_of_mem ⟨hu, hadj.symm⟩

/-- The other degrees stay. -/
theorem degreeIn_diff_of_not_adj (hadj : ¬ G.Adj u v) :
    degreeIn G (S \ {u}) v = degreeIn G S v := by
  refine congrArg Set.ncard (Set.ext fun w => ⟨fun hw => ⟨hw.1.1, hw.2⟩, fun hw =>
    ⟨⟨hw.1, fun heq => hadj ?_⟩, hw.2⟩⟩)
  exact (heq ▸ hw.2).symm

end Peeling
