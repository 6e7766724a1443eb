import Mathlib
import VeloGraphX.Types

/-!
# Keys of logical edges

The engines identify an edge by one 64-bit key made of its endpoints; in an undirected graph
the smaller endpoint comes first, so that both directions have the same key.
-/

namespace VeloGraphX

/-- `edge_key`. -/
def edgeKey (u v : VertexId) (directed : Bool) : ℕ :=
  let (u, v) := if !directed && v < u then (v, u) else (u, v)
  (u.val <<< 32) ||| v.val

/-- Two ids can be read back from the word that packs them. -/
theorem packed_inj {a b u v : VertexId} :
    (a.val <<< 32) ||| b.val = (u.val <<< 32) ||| v.val ↔ a = u ∧ b = v := by
  rw [← Nat.shiftLeft_add_eq_or_of_lt b.isLt, ← Nat.shiftLeft_add_eq_or_of_lt v.isLt,
    Nat.shiftLeft_eq, Nat.shiftLeft_eq]
  have hb := b.isLt
  have hv := v.isLt
  simp only [Fin.ext_iff]
  omega

/-- Arcs have the same key when they are the same, or opposite in an undirected graph. -/
theorem edgeKey_eq_iff {a b u v : VertexId} {directed : Bool} :
    edgeKey a b directed = edgeKey u v directed ↔
      a = u ∧ b = v ∨ directed = false ∧ b = u ∧ a = v := by
  unfold edgeKey
  cases directed with
  | true => simpa using packed_inj
  | false =>
    simp only [Bool.not_false, Bool.true_and, decide_eq_true_eq, true_and]
    by_cases hab : b < a <;> by_cases huv : v < u <;>
      simp only [hab, huv, if_true, if_false, packed_inj] <;>
      simp only [Fin.lt_def, Fin.ext_iff] at * <;> omega

end VeloGraphX
