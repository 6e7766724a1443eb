import Mathlib
import VeloGraphX.Model.ArcSet

/-!
# The abstract weighted graph

A weighted graph gives every ordered pair of vertices a weight or none. A batch acts on each
pair separately: the last operation on it decides, an insertion by its weight and a removal
by leaving none.
-/

namespace VeloGraphX

open LastWrite ArcSet

/-- The weight of every arc that is there. -/
abbrev Weights := VertexId → VertexId → Option ℕ

/-- The operation without its weight. -/
def WeightedEdgeUpdate.edge (op : WeightedEdgeUpdate) : EdgeUpdate :=
  ⟨op.src, op.dst, op.add, op.timestamp⟩

namespace Weights

/-- What an operation asks of the weight of one arc, if anything. -/
def weightOn (directed : Bool) (u v : VertexId) (op : WeightedEdgeUpdate) : Option (Option ℕ) :=
  (writeOn directed u v op.edge).map fun add => if add then some op.weight else none

/-- The effect of one operation. -/
def applyOp (directed : Bool) (weights : Weights) (op : WeightedEdgeUpdate) : Weights :=
  fun u v => (weightOn directed u v op).getD (weights u v)

/-- The effect of a batch. -/
def applyAll (directed : Bool) (weights : Weights) (updates : List WeightedEdgeUpdate) : Weights :=
  fun u v => lastWrite (weightOn directed u v) updates (weights u v)

/-- The arcs with their weights, as a relation. -/
def arc (weights : Weights) (u : VertexId) (w : ℕ) (v : VertexId) : Prop := weights u v = some w

/-- The arcs that are there. -/
def arcs (weights : Weights) : ArcSet := {a | (weights a.1 a.2).isSome}

variable {directed : Bool} {weights : Weights} {op : WeightedEdgeUpdate} {u v : VertexId} {n : ℕ}

/-- An operation on an arc asks for its weight, or for none. -/
theorem weightOn_eq_some {x : Option ℕ} (h : weightOn directed u v op = some x) :
    writeOn directed u v op.edge = some op.add ∧ x = if op.add then some op.weight else none := by
  obtain ⟨b, hb, hx⟩ := Option.map_eq_some_iff.mp h
  have hadd : op.add = b := by
    unfold writeOn at hb
    split at hb
    · exact Option.some.inj hb
    · exact absurd hb (by simp)
  subst hadd
  exact ⟨hb, hx.symm⟩

/-- What an operation asks of an arc it addresses. -/
theorem weightOn_of_addressed (hloop : op.src ≠ op.dst)
    (h : op.src = u ∧ op.dst = v ∨ directed = false ∧ op.dst = u ∧ op.src = v) :
    weightOn directed u v op = some (if op.add then some op.weight else none) := by
  unfold weightOn writeOn
  exact congrArg _ (if_pos ⟨hloop, h⟩)

/-- An operation asks nothing of an arc it does not address. -/
theorem weightOn_of_not_addressed (h : ¬ (op.src ≠ op.dst ∧
    (op.src = u ∧ op.dst = v ∨ directed = false ∧ op.dst = u ∧ op.src = v))) :
    weightOn directed u v op = none := by
  unfold weightOn writeOn
  exact congrArg _ (if_neg h)

/-- In an undirected graph an operation asks the same of both arcs of an edge. -/
theorem weightOn_symm (u v : VertexId) (op : WeightedEdgeUpdate) :
    weightOn false u v op = weightOn false v u op := by
  unfold weightOn
  rw [writeOn_symm]

/-- The first operation of a batch acts before the others. -/
theorem applyAll_cons (directed : Bool) (weights : Weights) (op : WeightedEdgeUpdate)
    (rest : List WeightedEdgeUpdate) :
    applyAll directed weights (op :: rest) = applyAll directed (applyOp directed weights op) rest :=
  funext fun _ => funext fun _ => lastWrite_cons _ op rest _

/-- What every weighted store keeps: arcs lie between vertices, in both directions or none
when undirected. -/
structure Simple (directed : Bool) (n : ℕ) (weights : Weights) : Prop where
  within : ∀ u w v, weights.arc u w v → u.val < n ∧ v.val < n
  symmetric : directed = false → ∀ u v, weights u v = weights v u

/-- The weighted graph without arcs. -/
theorem simple_none (directed : Bool) (n : ℕ) : Simple directed n fun _ _ => none :=
  ⟨fun u w v h => absurd h (by simp [arc]), fun _ _ _ => rfl⟩

/-- More vertices do no harm. -/
theorem Simple.mono (h : Simple directed n weights) {m : ℕ} (hle : n ≤ m) :
    Simple directed m weights :=
  ⟨fun u w v harc => ⟨(h.within u w v harc).1.trans_le hle, (h.within u w v harc).2.trans_le hle⟩,
    h.symmetric⟩

/-- One operation keeps the discipline. -/
theorem Simple.applyOp (h : Simple directed n weights) (op : WeightedEdgeUpdate) :
    Simple directed (growBy n op.edge) (applyOp directed weights op) := by
  refine ⟨fun u w v harc => ?_, fun hdirected u v => ?_⟩
  · unfold arc Weights.applyOp at harc
    cases hop : weightOn directed u v op with
    | some x => exact lt_of_writeOn (weightOn_eq_some hop).1 n
    | none =>
      rw [hop, Option.getD_none] at harc
      have hlt := h.within u w v harc
      have hle := le_growBy n op.edge
      omega
  · subst hdirected
    unfold Weights.applyOp
    rw [weightOn_symm, h.symmetric rfl u v]

end Weights

end VeloGraphX
