import Mathlib
import VeloGraphX.Io.BinaryGraph

/-!
# Truncated graph files

A prefix of a saved file is read like a whole one until the stream fails. The reader notices that
only when it compares the magic number or reads a pair of ids, so a file that is cut off inside
its header passes as long as the magic number is there and no arc count has arrived.
-/

namespace VeloGraphX

open ByteStream

/-- What tells the reader that only the first `k` bytes of a file with `m` arcs are there: a
damaged magic number, or an arc count that is not zero as far as it has arrived. -/
def TruncationSeen (order : ByteOrder) (m k : ℕ) : Prop :=
  k < 8 ∧ arrived order 8 k kMagic ≠ kMagic ∨ 16 < k ∧ arrived order 8 (min 8 (k - 16)) m ≠ 0

/-- It can be computed. -/
instance decidable_truncationSeen (order : ByteOrder) (m k : ℕ) :
    Decidable (TruncationSeen order m k) :=
  inferInstanceAs (Decidable (_ ∨ _))

/-- Whether reading throws. -/
def Throws {α : Type*} (result : Except Exception α) : Prop := ∃ exception, result = .error exception

variable {D : Type} [DoubleArith D] {order : ByteOrder}

/-- Post-processing throws when its input does. -/
theorem throws_map {α β : Type*} {result : Except Exception α} {f : α → β} :
    Throws (result.map f) ↔ Throws result := by
  cases result with
  | error exception => exact iff_of_true ⟨exception, rfl⟩ ⟨exception, rfl⟩
  | ok a => exact iff_of_false (fun ⟨_, h⟩ => nomatch h) fun ⟨_, h⟩ => nomatch h

/-- The reading loop throws on a short stream exactly when it expects an arc. -/
theorem throws_readEdges (directed : Bool) {m : ℕ} {s : InputStream}
    (h : s.failed = true ∨ s.bytes.length < 8 * m) :
    Throws (readEdges order directed m s {}) ↔ m ≠ 0 := by
  constructor
  · rintro ⟨exception, hthrows⟩ rfl
    exact nomatch hthrows
  · intro hm
    refine ⟨_, readEdges_truncated directed ?_ {}⟩
    exact h.imp_left fun hfailed => ⟨Nat.pos_of_ne_zero hm, hfailed⟩

/-- What the header of a cut-off file looks like to the reader. -/
theorem loadBinary_take (n m k : ℕ) (rest : List UInt8) (directed : Bool)
    (hn : n < 256 ^ 8) (hm : m < 256 ^ 8) (hcut : k < 24 + rest.length)
    (hrest : rest.length = 8 * m) :
    Throws (loadBinary order (some ((headerBytes order n m ++ rest).take k)) directed :
      Except Exception (DynamicGraph D)) ↔ TruncationSeen order m k := by
  have hmagic : kMagic < 256 ^ 8 := by decide
  unfold loadBinary headerBytes TruncationSeen
  dsimp only
  rw [List.append_assoc, List.append_assoc, InputStream.read_take hmagic]
  rcases Nat.lt_or_ge k 8 with hk | hk
  · rw [if_neg (not_le.mpr hk)]
    dsimp only
    rw [InputStream.read_failed]
    dsimp only
    rw [InputStream.read_failed]
    dsimp only
    rw [or_iff_left (fun h => absurd h.1 (by omega)), and_iff_right hk]
    split
    · rename_i hbad
      exact iff_of_true ⟨_, rfl⟩ hbad
    · rename_i hgood
      refine iff_of_false (fun hthrows => ?_) hgood
      exact (throws_readEdges directed (Or.inl rfl)).mp (throws_map.mp hthrows) rfl
  · rw [if_pos hk, or_iff_right fun h => absurd h.1 (not_lt.mpr hk)]
    dsimp only
    rw [if_neg (not_not.mpr rfl), throws_map, InputStream.read_take hn]
    rcases Nat.lt_or_ge k 16 with hk' | hk'
    · rw [if_neg (by omega)]
      dsimp only
      rw [InputStream.read_failed]
      dsimp only
      rw [throws_readEdges directed (Or.inl rfl)]
      exact iff_of_false (not_not.mpr rfl) fun h => absurd h.1 (by omega)
    · rw [if_pos (by omega)]
      dsimp only
      rw [InputStream.read_take hm, Nat.sub_sub]
      rcases Nat.lt_or_ge k 24 with hk'' | hk''
      · rw [if_neg (by omega)]
        dsimp only
        rw [throws_readEdges directed (Or.inl rfl), Nat.min_eq_right (by omega)]
        refine ⟨fun h => ⟨?_, h⟩, And.right⟩
        by_contra hle
        rw [show k - (8 + 8) = 0 by omega, arrived_zero order hm] at h
        exact h rfl
      · rw [if_pos (by omega)]
        dsimp only
        have hshort : (rest.take (k - (8 + 8) - 8)).length < 8 * m := by
          rw [List.length_take]
          omega
        rw [throws_readEdges directed (Or.inr hshort), Nat.min_eq_left (by omega),
          arrived_all order hm, and_iff_right (by omega)]

/-- In every reachable state, reading a strict prefix of what saving wrote throws exactly when the
truncation shows in the magic number or in the arc count. -/
theorem truncated_load_throws_iff (order : ByteOrder) (vertices : ℕ) (directed : Bool)
    (calls : List (Call D)) (directed' : Bool) (fuel : ℕ) (bytes : List UInt8) (k : ℕ) :
    let g := Call.run (DynamicGraph.create vertices directed) calls
    saveBinary order g fuel = some bytes → k < bytes.length →
      (Throws (loadBinary order (some (bytes.take k)) directed' : Except Exception (DynamicGraph D)) ↔
        TruncationSeen order g.edgeCountDirected k) := by
  dsimp only
  intro hsave hcut
  obtain ⟨h, -⟩ := (@DynamicGraph.refines_create D vertices directed).1.run calls
  generalize Call.run (DynamicGraph.create vertices directed) calls = g at h hsave ⊢
  obtain ⟨rfl, hcount⟩ := saveBinary_eq hsave
  obtain ⟨hn, hm⟩ := h.header_fits hcount
  have hrest : (arcBytes order (fileArcs g g.vertexCount)).length = 8 * g.edgeCountDirected := by
    rw [length_arcBytes, h.length_fileArcs hcount.le]
  rw [fileBytes, List.length_append, length_headerBytes] at hcut
  exact loadBinary_take _ _ k _ directed' hn hm hcut hrest

/-- The file of a graph with one arc, cut off inside the arc, inside the magic number and right
after it. -/
theorem truncated_load_throws_arc :
    ∃ bytes, saveBinary .little (Call.run (DynamicGraph.create 0 true : DynamicGraph ℚ)
        [.addEdge 0 1]) 10 = some bytes ∧ bytes.length = 32 ∧
      Throws (loadBinary .little (some (bytes.take 28)) true : Except Exception (DynamicGraph ℚ)) ∧
      Throws (loadBinary .little (some (bytes.take 4)) true : Except Exception (DynamicGraph ℚ)) ∧
      ¬ Throws (loadBinary .little (some (bytes.take 8)) true :
        Except Exception (DynamicGraph ℚ)) := by
  have heval : (saveBinary .little (Call.run (DynamicGraph.create 0 true : DynamicGraph ℚ)
      [.addEdge 0 1]) 10).map List.length = some 32 := by decide +kernel
  obtain ⟨bytes, hsave, hlength⟩ := Option.map_eq_some_iff.mp heval
  have hcount : (Call.run (DynamicGraph.create 0 true : DynamicGraph ℚ)
      [.addEdge 0 1]).edgeCountDirected = 1 := by decide +kernel
  have hthrows : ∀ k < 32, Throws (loadBinary .little (some (bytes.take k)) true :
      Except Exception (DynamicGraph ℚ)) ↔ TruncationSeen .little 1 k := fun k hk =>
    hcount ▸ truncated_load_throws_iff .little 0 true [.addEdge 0 1] true 10 bytes k hsave
      (hlength.symm ▸ hk)
  refine ⟨bytes, hsave, hlength, ?_, ?_, ?_⟩
  · exact (hthrows 28 (by decide)).mpr (by decide +kernel)
  · exact (hthrows 4 (by decide)).mpr (by decide +kernel)
  · exact fun h => absurd ((hthrows 8 (by decide)).mp h) (by decide +kernel)

/-- A file that is cut off right after the magic number is read as the graph without vertices. -/
theorem not_truncated_load_throws :
    ¬ ∀ (vertices : ℕ) (directed : Bool) (calls : List (Call ℚ)) (fuel : ℕ) (bytes : List UInt8)
      (k : ℕ), saveBinary .little (Call.run (DynamicGraph.create vertices directed) calls) fuel =
        some bytes → k < bytes.length →
      Throws (loadBinary .little (some (bytes.take k)) directed :
        Except Exception (DynamicGraph ℚ)) := by
  intro hthrows
  have h := hthrows 0 true [] 1 (headerBytes .little 0 0) 8 rfl (by decide)
  have hseen := (@loadBinary_take ℚ _ .little 0 0 8 [] true (by decide) (by decide) (by decide)
    rfl).mp (by rwa [List.append_nil])
  rcases hseen with ⟨hmagic, -⟩ | ⟨hcount, -⟩
  · exact absurd hmagic (by decide)
  · exact absurd hcount (by decide)

end VeloGraphX
