import Mathlib
import VeloGraphX.Types
import VeloGraphX.Lib.PointUpdate
import VeloGraphX.Lib.Slice
import VeloGraphX.Lib.SortedList

/-!
# Packed delta slices in a shared arena

Each vertex owns the metadata of one slice of a shared entry arena. A slice lists, in
ascending order of destination, the arcs whose presence differs from the compact row. The
operations move cells inside the arena, relocate a slice that outgrows its capacity and
repack the live slices; what they mean is stated through `row` and `overrideFor` only.
-/

namespace VeloGraphX

open Slice SortedList

/-- The desired presence of one arc, relative to the compact row. -/
structure Entry where
  dst : VertexId := 0
  present : Bool := true
deriving DecidableEq, Repr, Inhabited

/-- `kNoOffset`: the offset of a vertex that owns no cells. -/
def kNoOffset : ℕ := 2 ^ 64 - 1

/-- The slice metadata of one vertex. -/
structure Row where
  offset : ℕ := kNoOffset
  count : ℕ := 0
  capacity : ℕ := 0
deriving DecidableEq, Repr

/-- `PackedDeltaStore`: slice metadata, the arena and the three live counters. -/
structure PackedDeltaStore where
  rows : List Row := []
  arena : List Entry := []
  liveEntries : ℕ := 0
  presentEntries : ℕ := 0
  absentEntries : ℕ := 0
deriving DecidableEq, Repr

namespace PackedDeltaStore

variable (s : PackedDeltaStore)

/-- The metadata stored for an index. -/
def rowMeta (i : ℕ) : Row := s.rows.getD i {}

/-- Give every vertex below `vertices` its metadata. -/
def resizeVertices (vertices : ℕ) : PackedDeltaStore :=
  if s.rows.length < vertices then
    { s with rows := s.rows ++ List.replicate (vertices - s.rows.length) {} }
  else s

/-- Drop every entry, keeping the vertices. -/
def clear : PackedDeltaStore := ⟨s.rows.map fun _ => {}, [], 0, 0, 0⟩

/-- The live slice of a vertex. -/
def row (u : VertexId) : List Entry :=
  if s.rows.length ≤ u then []
  else if (s.rowMeta u).count = 0 then []
  else slice s.arena (s.rowMeta u).offset (s.rowMeta u).count

/-- The entry for an arc, found by binary search. -/
def findEntry (u v : VertexId) : Option Entry :=
  (s.row u)[lowerBound Entry.dst (s.row u) v]?.filter fun e => decide (e.dst = v)

/-- The overlay's answer for an arc, if it has one. -/
def overrideFor (u v : VertexId) : Option Bool := (s.findEntry u v).map Entry.present

/-- Move a slice that is too small to the end of the arena, at least doubling it. -/
def ensureCapacity (u : VertexId) (required : ℕ) : PackedDeltaStore :=
  let m := s.rowMeta u
  if required ≤ m.capacity then s
  else
    let newCapacity := max required (max 1 (m.capacity * 2))
    let newOffset := s.arena.length
    { s with
      -- `resize` followed by `copy_n` of the live cells to the front of the new room
      arena := s.arena ++ slice s.arena m.offset m.count ++
        List.replicate (newCapacity - m.count) default
      rows := s.rows.set u ⟨newOffset, m.count, newCapacity⟩ }

/-- Close the gap left by the entry at `pos`: the removal shared by `erase` and `setIfChanged`. -/
def removeAt (u : VertexId) (pos : ℕ) (oldPresent : Bool) : PackedDeltaStore :=
  let m := s.rowMeta u
  { rows := s.rows.set u { m with count := m.count - 1 }
    arena := shiftDown s.arena m.offset pos m.count
    liveEntries := s.liveEntries - 1
    presentEntries := if oldPresent then s.presentEntries - 1 else s.presentEntries
    absentEntries := if oldPresent then s.absentEntries else s.absentEntries - 1 }

/-- Turn an entry over in place: shared by `upsert` and `setIfChanged`. -/
def flipAt (u : VertexId) (pos : ℕ) (old : Entry) (present : Bool) : PackedDeltaStore :=
  { s with
    arena := s.arena.set ((s.rowMeta u).offset + pos) { old with present := present }
    presentEntries := if old.present then s.presentEntries - 1 else s.presentEntries + 1
    absentEntries := if old.present then s.absentEntries + 1 else s.absentEntries - 1 }

/-- Open a gap at `pos` and write a new entry: shared by `upsert` and `setIfChanged`. -/
def insertAt (u v : VertexId) (pos : ℕ) (present : Bool) : PackedDeltaStore :=
  let s := s.ensureCapacity u ((s.rowMeta u).count + 1)
  let m := s.rowMeta u
  { rows := s.rows.set u { m with count := m.count + 1 }
    arena := (shiftUp s.arena m.offset pos m.count).set (m.offset + pos) ⟨v, present⟩
    liveEntries := s.liveEntries + 1
    presentEntries := if present then s.presentEntries + 1 else s.presentEntries
    absentEntries := if present then s.absentEntries else s.absentEntries + 1 }

/-- Insert an entry or overwrite the one that is there. -/
def upsert (u v : VertexId) (present : Bool) : PackedDeltaStore :=
  let pos := lowerBound Entry.dst (s.row u) v
  match s.findEntry u v with
  | some old => if old.present = present then s else s.flipAt u pos old present
  | none => s.insertAt u v pos present

/-- Remove an entry if it is there. -/
def erase (u v : VertexId) : PackedDeltaStore :=
  if s.rows.length ≤ u then s
  else if (s.rowMeta u).count = 0 then s
  else
    match s.findEntry u v with
    | none => s
    | some old => s.removeAt u (lowerBound Entry.dst (s.row u) v) old.present

/-- Record the desired presence of an arc against its presence in the compact row. -/
def set (u v : VertexId) (desiredPresent basePresent : Bool) : PackedDeltaStore :=
  let s := s.resizeVertices (u + 1)
  if desiredPresent = basePresent then s.erase u v else s.upsert u v desiredPresent

/-- As `set`, but report whether the arc's effective presence changed. -/
def setIfChanged (u v : VertexId) (desiredPresent basePresent : Bool) :
    Bool × PackedDeltaStore :=
  let s := s.resizeVertices (u + 1)
  let pos := lowerBound Entry.dst (s.row u) v
  let found := s.findEntry u v
  let current := match found with
    | some e => e.present
    | none => basePresent
  if current = desiredPresent then (false, s)
  else if desiredPresent = basePresent then
    match found with
    | none => (false, s)
    | some old => (true, s.removeAt u pos old.present)
  else
    match found with
    | some old => (true, s.flipAt u pos old desiredPresent)
    | none => (true, s.insertAt u v pos desiredPresent)

/-- `size()`. -/
def size : ℕ := s.liveEntries

/-- `additions()`. -/
def additions : ℕ := s.presentEntries

/-- `deletions()`. -/
def deletions : ℕ := s.absentEntries

/-- `empty()`. -/
def empty : Bool := s.liveEntries = 0

/-- Take one slice out of the counters and forget its cells. -/
def clearRow (i : ℕ) : PackedDeltaStore :=
  let m := s.rowMeta i
  if m.count = 0 then s
  else
    let entries := slice s.arena m.offset m.count
    { s with
      rows := s.rows.set i {}
      liveEntries := s.liveEntries - m.count
      presentEntries := entries.foldl
        (fun n e => if e.present then n - 1 else n) s.presentEntries
      absentEntries := entries.foldl
        (fun n e => if e.present then n else n - 1) s.absentEntries }

/-- Drop the entries of the vertices in `[first, last)`. -/
def clearRange (first last : ℕ) : PackedDeltaStore :=
  let last := min last s.rows.length
  (List.range' first (last - first)).foldl clearRow s

/-- Copy the live slices of `rows` one behind the other onto `packed`. -/
def packRows (arena : List Entry) : List Row → List Entry → List Row × List Entry
  | [], packed => ([], packed)
  | m :: rest, packed =>
    if m.count = 0 then
      let out := packRows arena rest packed
      ({} :: out.1, out.2)
    else
      let out := packRows arena rest (packed ++ slice arena m.offset m.count)
      (⟨packed.length, m.count, m.count⟩ :: out.1, out.2)

/-- Rebuild the arena from the live slices alone. -/
def repack : PackedDeltaStore :=
  if s.liveEntries = 0 then { s with arena := [], rows := s.rows.map fun _ => {} }
  else
    let out := packRows s.arena s.rows []
    { s with rows := out.1, arena := out.2 }

/-- The share of the arena that no live slice occupies. -/
def fragmentationRatio (D : Type) [DoubleArith D] : D :=
  if s.arena.isEmpty then 0.0
  else 1.0 - DoubleArith.ofNat s.liveEntries / DoubleArith.ofNat s.arena.length

end PackedDeltaStore

end VeloGraphX
