import Mathlib

/-!
# Vertex ids, edge updates and double-precision arithmetic

Vertex ids are 32-bit, so every id a caller can pass is a value of `VertexId`. The storage
layer takes a few decisions by comparing double-precision ratios; `DoubleArith` names the
operations it uses, and results that are stated for every `DoubleArith` hold whatever
rounding the hardware performs.
-/

namespace VeloGraphX

/-- `std::uint32_t` vertex identifiers. -/
abbrev VertexId := Fin (2 ^ 32)

/-- There is a vertex id. -/
instance neZero_vertexId : NeZero (2 ^ 32) := ⟨by norm_num⟩

/-- Tests for equal vertex ids are lawful. -/
instance lawfulBEq_vertexId : LawfulBEq VertexId := inferInstance

/-- There are no more ids below a bound than the bound says. -/
theorem card_vertices_le (n : ℕ) : (Finset.univ.filter fun v : VertexId => v.val < n).card ≤ n := by
  have hcard := Finset.card_le_card_of_injOn (s := Finset.univ.filter fun v : VertexId => v.val < n)
    (t := Finset.range n) Fin.val (fun v hv => by simpa using hv) fun u _ v _ heq => Fin.ext heq
  rwa [Finset.card_range] at hcard

/-- Addition of `std::uint64_t` values. -/
def addU64 (a b : ℕ) : ℕ := (a + b) % 2 ^ 64

/-- Subtraction of `std::uint64_t` values. -/
def subU64 (a b : ℕ) : ℕ := (a + 2 ^ 64 - b) % 2 ^ 64

/-- Multiplication of `std::uint64_t` values. -/
def mulU64 (a b : ℕ) : ℕ := (a * b) % 2 ^ 64

/-- Addition of `std::uint32_t` values. -/
def addU32 (a b : ℕ) : ℕ := (a + b) % 2 ^ 32

/-- One requested edge insertion (`add`) or removal. -/
structure EdgeUpdate where
  src : VertexId := 0
  dst : VertexId := 0
  add : Bool := true
  timestamp : UInt64 := 0
deriving DecidableEq, Repr

/-- Edge updates to be applied in order. -/
structure UpdateBatch where
  updates : List EdgeUpdate := []
deriving DecidableEq, Repr

/-- Append an insertion. -/
def UpdateBatch.add (batch : UpdateBatch) (u v : VertexId) (ts : UInt64 := 0) : UpdateBatch :=
  ⟨batch.updates ++ [⟨u, v, true, ts⟩]⟩

/-- Append a removal. -/
def UpdateBatch.remove (batch : UpdateBatch) (u v : VertexId) (ts : UInt64 := 0) : UpdateBatch :=
  ⟨batch.updates ++ [⟨u, v, false, ts⟩]⟩

/-- No updates at all. -/
def UpdateBatch.empty (batch : UpdateBatch) : Bool := batch.updates.isEmpty

/-- One requested edge insertion or removal with a weight, a `std::uint64_t`. -/
structure WeightedEdgeUpdate where
  src : VertexId := 0
  dst : VertexId := 0
  weight : ℕ := 1
  add : Bool := true
  timestamp : UInt64 := 0
deriving DecidableEq, Repr

/-- Weighted edge updates to be applied in order. -/
structure WeightedUpdateBatch where
  updates : List WeightedEdgeUpdate := []
deriving DecidableEq, Repr

/-- No updates at all. -/
def WeightedUpdateBatch.empty (batch : WeightedUpdateBatch) : Bool := batch.updates.isEmpty

/-- Exceptions the library throws, with their messages. -/
inductive Exception
  | invalidArgument (what : String)
  | outOfRange (what : String)
  | runtimeError (what : String)
  | lengthError (what : String)
  | overflowError (what : String)
deriving DecidableEq, Repr

/-- The double-precision operations used by the storage and repair heuristics. -/
class DoubleArith (D : Type) extends Sub D, Mul D, Div D, OfScientific D where
  /-- `static_cast<double>` of an unsigned integer. -/
  ofNat : ℕ → D
  /-- `static_cast<std::size_t>` of a double. -/
  toNat : D → ℕ
  /-- The comparison `a < b`. -/
  lt : D → D → Bool
  /-- The comparison `a <= b`. -/
  le : D → D → Bool

/-- Exact rational arithmetic, for evaluating the model on concrete inputs. -/
instance : DoubleArith ℚ where
  ofNat n := n
  toNat q := q.floor.toNat
  lt a b := decide (a < b)
  le a b := decide (a ≤ b)

end VeloGraphX
