import Mathlib
import VeloGraphX.Lib.FuelLoop
import VeloGraphX.Access.GraphAccess
import VeloGraphX.Storage.CsrGraph

/-!
# Reading a graph

PageRank needs no more than the rows of both directions, so it runs on the static graph as well.
`Views` says that they are the rows of one set of arcs. Its loops over the vertices count in 32 bits:
they visit the vertices in ascending order, and do not end when there are `2 ^ 32` of them.
-/

namespace VeloGraphX

open FuelLoop SortedList ArcSet

/-- The double-precision operations of the ranking algorithms. -/
class RankArith (D : Type) extends DoubleArith D, Add D where
  /-- `std::abs`. -/
  abs : D → D

/-- Exact rational arithmetic. -/
instance : RankArith ℚ where
  abs q := |q|

/-- `std::max` of doubles. -/
def RankArith.max {D : Type} [RankArith D] (a b : D) : D := if DoubleArith.lt a b then b else a

/-- The access functions of a graph that is only read. -/
class ReadableGraph (G : Type) where
  vertexCount : G → ℕ
  forEachNeighbor : G → VertexId → List VertexId
  forEachInNeighbor : G → VertexId → List VertexId

/-- A graph that engines update can be read. -/
instance {G : Type} [GraphAccess G] : ReadableGraph G where
  vertexCount := GraphAccess.vertexCount
  forEachNeighbor := GraphAccess.forEachNeighbor
  forEachInNeighbor := GraphAccess.forEachInNeighbor

/-- The static graph; a row that throws has no callback calls. -/
instance : ReadableGraph CsrGraph where
  vertexCount g := g.vertexCount
  forEachNeighbor g u := (g.neighbors u).toOption.getD []
  forEachInNeighbor g v := (g.inNeighbors v).toOption.getD []

namespace ReadableGraph

variable {G : Type} [ReadableGraph G]

/-- `neighbor_count`; a graph's own `degree` answers the same. -/
def neighborCount (g : G) (u : VertexId) : ℕ :=
  (forEachNeighbor g u).foldl (fun count _ => count + 1) 0

/-- Counting the callback calls. -/
theorem neighborCount_eq (g : G) (u : VertexId) : neighborCount g u = (forEachNeighbor g u).length := by
  have hcount : ∀ (row : List VertexId) (count : ℕ),
      row.foldl (fun count _ => count + 1) count = count + row.length := by
    intro row
    induction row with
    | nil => intro count; rfl
    | cons v rest ih =>
      intro count
      rw [List.foldl_cons, ih, List.length_cons]
      omega
  rw [neighborCount, hcount, Nat.zero_add]

/-- The rows of the vertices are those of a set of arcs, in both directions. -/
structure Views (g : G) (arcs : ArcSet) : Prop where
  within : Within (vertexCount g) arcs
  nodup : ∀ u : VertexId, u.val < vertexCount g → (forEachNeighbor g u).Nodup
  mem_neighbor : ∀ u : VertexId, u.val < vertexCount g → ∀ v, v ∈ forEachNeighbor g u ↔ (u, v) ∈ arcs
  nodup_in : ∀ v : VertexId, v.val < vertexCount g → (forEachInNeighbor g v).Nodup
  mem_inNeighbor : ∀ v : VertexId, v.val < vertexCount g →
    ∀ u, u ∈ forEachInNeighbor g v ↔ (u, v) ∈ arcs

end ReadableGraph

open ReadableGraph

/-- A graph that serves arcs, with transposed in-rows, is one to read. -/
theorem GraphAccess.Serves.views {G : Type} [GraphAccess G] {g : G} {arcs : ArcSet}
    (h : GraphAccess.Serves g arcs) (htransposes : GraphAccess.Transposes g arcs) : Views g arcs :=
  ⟨h.simple.within, fun u _ => h.nodup u, fun u _ => h.mem_neighbor u,
    fun v _ => htransposes.nodup v, fun v _ u => htransposes.mem_inNeighbor u v⟩

/-- So is a static graph. -/
theorem CsrGraph.Holds.views {g : CsrGraph} {arcs : ArcSet}
    (h : g.Holds arcs) : Views g arcs := by
  have hout : ∀ u : VertexId, u.val < g.vertexCount → ∃ row, forEachNeighbor g u = row ∧
      row.Nodup ∧ ∀ v, v ∈ row ↔ (u, v) ∈ arcs := by
    intro u hu
    obtain ⟨row, hrow, hascending, hmem⟩ := h.neighbors u hu
    exact ⟨row, by rw [show forEachNeighbor g u = (g.neighbors u).toOption.getD [] from rfl, hrow]; rfl,
      hascending.imp ne_of_lt, hmem⟩
  have hin : ∀ v : VertexId, v.val < g.vertexCount → ∃ row, forEachInNeighbor g v = row ∧
      row.Nodup ∧ ∀ u, u ∈ row ↔ (u, v) ∈ arcs := by
    intro v hv
    obtain ⟨row, hrow, hascending, hmem⟩ := h.inNeighbors v hv
    exact ⟨row, by rw [show forEachInNeighbor g v = (g.inNeighbors v).toOption.getD [] from rfl, hrow]; rfl,
      hascending.imp ne_of_lt, hmem⟩
  refine ⟨h.simple.within, fun u hu => ?_, fun u hu => ?_, fun v hv => ?_, fun v hv => ?_⟩
  · obtain ⟨row, hrow, hnodup, -⟩ := hout u hu
    exact hrow ▸ hnodup
  · obtain ⟨row, hrow, -, hmem⟩ := hout u hu
    exact hrow ▸ hmem
  · obtain ⟨row, hrow, hnodup, -⟩ := hin v hv
    exact hrow ▸ hnodup
  · obtain ⟨row, hrow, -, hmem⟩ := hin v hv
    exact hrow ▸ hmem

/-- The ids below a count, in ascending order. -/
def idsBelow (n : ℕ) : List VertexId := (List.range n).map (Fin.ofNat (2 ^ 32))

/-- `for (VertexId v = 0; v < n; ++v)`. -/
def vertexLoop {σ : Type} (n : ℕ) (body : VertexId → σ → σ) (fuel : ℕ) (s : σ) : Option σ :=
  countLoop n (fun _ v s => some (body v s)) fuel (0 : VertexId) s

section VertexLoop

variable {σ : Type} {n : ℕ}

/-- One more id. -/
theorem idsBelow_succ (v : VertexId) : idsBelow (v.val + 1) = idsBelow v.val ++ [v] := by
  rw [idsBelow, List.range_succ, List.map_append, List.map_singleton]
  congr 2
  exact Fin.ext (Nat.mod_eq_of_lt v.isLt)

/-- The ids below a count that 32 bits can hold. -/
theorem mem_idsBelow {v : VertexId} : v ∈ idsBelow n ↔ v.val < n := by
  rw [idsBelow, List.mem_map]
  constructor
  · rintro ⟨k, hk, rfl⟩
    rw [List.mem_range] at hk
    exact (Nat.mod_le k _).trans_lt hk
  · intro hv
    exact ⟨v.val, List.mem_range.mpr hv, Fin.ext (Nat.mod_eq_of_lt v.isLt)⟩

/-- No id comes twice. -/
theorem nodup_idsBelow (hn : n ≤ 2 ^ 32) : (idsBelow n).Nodup := by
  refine List.Nodup.map_on (fun i hi j hj heq => ?_) List.nodup_range
  rw [List.mem_range] at hi hj
  have hval := congrArg Fin.val heq
  change i % 2 ^ 32 = j % 2 ^ 32 at hval
  rwa [Nat.mod_eq_of_lt (hi.trans_le hn), Nat.mod_eq_of_lt (hj.trans_le hn)] at hval

/-- With fewer than `2 ^ 32` vertices the loop folds over the ids. -/
theorem returns_vertexLoop (hn : n < 2 ^ 32) (body : VertexId → σ → σ) (s : σ) :
    Returns (fun fuel => vertexLoop n body fuel s) fun s' =>
      s' = (idsBelow n).foldl (fun s v => body v s) s := by
  refine returns_countLoop hn (fun k s' => s' = (idsBelow k).foldl (fun s v => body v s) s)
    (fun v s' _ hs' => Returns.pure ?_) (Nat.zero_le n) rfl
  rw [idsBelow_succ, List.foldl_append, ← hs']
  rfl

/-- With `2 ^ 32` vertices the loop does not end. -/
theorem diverges_vertexLoop (hn : 2 ^ 32 ≤ n) (body : VertexId → σ → σ) (s : σ) :
    Diverges fun fuel => vertexLoop n body fuel s :=
  diverges_countLoop hn _ 0 s

/-- A loop that ends has folded over the ids, and 32 bits can hold their number. -/
theorem vertexLoop_eq {body : VertexId → σ → σ} {fuel : ℕ} {s s' : σ}
    (hrun : vertexLoop n body fuel s = some s') :
    n < 2 ^ 32 ∧ s' = (idsBelow n).foldl (fun s v => body v s) s := by
  have hn : n < 2 ^ 32 := by
    by_contra hn
    exact absurd ((diverges_vertexLoop (not_lt.mp hn) body s fuel).symm.trans hrun) nofun
  obtain ⟨last, hlast, rfl⟩ := Option.map_eq_some_iff.mp hrun
  have hkept := whileLoop_keeps (fun state : VertexId × σ => state.1.val ≤ n ∧
    state.2 = (idsBelow state.1.val).foldl (fun s v => body v s) s) (fun state hstate hcond => ?_)
    ⟨Nat.zero_le n, rfl⟩ hlast
  · obtain ⟨⟨hle, hfold⟩, hexit⟩ := hkept
    have heq : last.1.val = n := le_antisymm hle (not_lt.mp (of_decide_eq_false hexit))
    exact ⟨hn, heq ▸ hfold⟩
  · rintro turns next hnext
    obtain rfl := Option.some.inj hnext
    have hlt : state.1.val < n := of_decide_eq_true hcond
    have hval : (state.1 + 1).val = state.1.val + 1 := Fin.val_add_one_of_lt' (by omega)
    dsimp only
    rw [hval, idsBelow_succ, List.foldl_append, ← hstate.2]
    exact ⟨hlt, rfl⟩

end VertexLoop

end VeloGraphX
