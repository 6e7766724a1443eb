import Mathlib
import VeloGraphX.Storage.DynamicGraphCalls
import VeloGraphX.Storage.StoreAgreement

/-!
# The temporal graph

Every non-empty batch is applied to a live graph and recorded with the version it produced.
Snapshots and windows replay parts of the record on a fresh graph. Since a replay does not
depend on how its operations are cut into batches, replays are compared by their operations.
-/

namespace VeloGraphX

open ArcSet LastWrite

/-- A recorded batch. -/
structure VersionedUpdateBatch where
  version : UInt64
  minTimestamp : UInt64
  maxTimestamp : UInt64
  batch : UpdateBatch

/-- `TemporalGraph`. -/
structure TemporalGraph (D : Type) where
  initialVertices : ℕ := 0
  directed : Bool := false
  graph : DynamicGraph D
  history : List VersionedUpdateBatch := []

namespace TemporalGraph

variable {D : Type}

/-- The constructor. -/
def create (vertices : ℕ) (directed : Bool) : TemporalGraph D :=
  { initialVertices := vertices, directed := directed, graph := .create vertices directed }

variable [DoubleArith D] (g : TemporalGraph D)

/-- `apply`. -/
def apply (batch : UpdateBatch) : TemporalGraph D :=
  match batch.updates with
  | [] => g
  | first :: _ =>
    let minTs := batch.updates.foldl (fun ts update => min ts update.timestamp) first.timestamp
    let maxTs := batch.updates.foldl (fun ts update => max ts update.timestamp) first.timestamp
    let graph := g.graph.apply batch
    { g with graph := graph, history := g.history ++ [⟨graph.version, minTs, maxTs, batch⟩] }

/-- Replay what a filter keeps of each recorded batch; batches of which nothing is kept are not
applied. -/
def replay (keep : EdgeUpdate → Bool) : DynamicGraph D :=
  g.history.foldl (fun snapshot entry =>
    let filtered : UpdateBatch := ⟨entry.batch.updates.filter keep⟩
    if filtered.empty then snapshot else snapshot.apply filtered)
    (.create g.initialVertices g.directed)

/-- `snapshot_version`. -/
def snapshotVersion (version : UInt64) : Except Exception (DynamicGraph D) :=
  if version > g.graph.version then .error (.outOfRange "requested version is in the future")
  else
    .ok ((g.history.takeWhile fun entry => !decide (entry.version > version)).foldl
      (fun snapshot entry => snapshot.apply entry.batch) (.create g.initialVertices g.directed))

/-- `snapshot_time`. -/
def snapshotTime (timestamp : UInt64) : DynamicGraph D :=
  g.replay fun update => update.timestamp ≤ timestamp

/-- `changes_between_versions`. -/
def changesBetweenVersions (fromExclusive toInclusive : UInt64) : Except Exception (List EdgeUpdate) :=
  if fromExclusive > toInclusive || toInclusive > g.graph.version then
    .error (.outOfRange "invalid version range")
  else
    .ok (((g.history.takeWhile fun entry =>
        entry.version ≤ fromExclusive || !decide (entry.version > toInclusive)).filter fun entry =>
      !decide (entry.version ≤ fromExclusive)).flatMap (·.batch.updates))

/-- `sliding_window`. -/
def slidingWindow (endTimestamp windowWidth : UInt64) : DynamicGraph D :=
  let start := if endTimestamp > windowWidth then endTimestamp - windowWidth else 0
  g.replay fun update => update.timestamp > start && update.timestamp ≤ endTimestamp

/-- A temporal graph after a sequence of calls. -/
def run (vertices : ℕ) (directed : Bool) (batches : List UpdateBatch) : TemporalGraph D :=
  batches.foldl apply (create vertices directed)

end TemporalGraph

/-- Entries that carry consecutive versions after the given number. -/
def Numbered : ℕ → List VersionedUpdateBatch → Prop
  | _, [] => True
  | n, entry :: rest => entry.version.toNat = n + 1 ∧ Numbered (n + 1) rest

/-- A further entry gets the next number. -/
theorem Numbered.append_singleton {n : ℕ} {entries : List VersionedUpdateBatch}
    (h : Numbered n entries) {entry : VersionedUpdateBatch}
    (hentry : entry.version.toNat = n + entries.length + 1) : Numbered n (entries ++ [entry]) := by
  induction entries generalizing n with
  | nil => exact ⟨hentry, trivial⟩
  | cons first rest ih =>
    refine ⟨h.1, ih h.2 ?_⟩
    rw [hentry, List.length_cons]
    omega

/-- Reading numbered entries up to a version takes as many as the version says. -/
theorem Numbered.takeWhile {n : ℕ} {entries : List VersionedUpdateBatch} (h : Numbered n entries)
    {version : UInt64} (hversion : n ≤ version.toNat) :
    (entries.takeWhile fun entry => !decide (entry.version > version)) =
      entries.take (version.toNat - n) := by
  induction entries generalizing n with
  | nil => rw [List.takeWhile_nil, List.take_nil]
  | cons entry rest ih =>
    rcases Nat.eq_or_lt_of_le hversion with heq | hlt
    · have hlater : entry.version > version := by
        rw [gt_iff_lt, UInt64.lt_iff_toNat_lt, h.1]
        omega
      rw [List.takeWhile_cons_of_neg (by simp [hlater]), heq, Nat.sub_self, List.take_zero]
    · have hreached : ¬ entry.version > version := by
        rw [gt_iff_lt, UInt64.lt_iff_toNat_lt, h.1]
        omega
      rw [List.takeWhile_cons_of_pos (by simp [hreached]), ih h.2 hlt,
        show version.toNat - n = version.toNat - (n + 1) + 1 by omega, List.take_succ_cons]

/-- Skipping numbered entries up to a version drops as many as the version says. -/
theorem Numbered.filter {n : ℕ} {entries : List VersionedUpdateBatch} (h : Numbered n entries)
    (version : UInt64) :
    (entries.filter fun entry => !decide (entry.version ≤ version)) =
      entries.drop (version.toNat - n) := by
  induction entries generalizing n with
  | nil => rw [List.filter_nil, List.drop_nil]
  | cons entry rest ih =>
    rcases Nat.lt_or_ge n version.toNat with hlt | hle
    · have hskipped : entry.version ≤ version := by
        rw [UInt64.le_iff_toNat_le, h.1]
        omega
      rw [List.filter_cons_of_neg (by simp [hskipped]), ih h.2,
        show version.toNat - n = version.toNat - (n + 1) + 1 by omega, List.drop_succ_cons]
    · have hkept : ¬ entry.version ≤ version := by
        rw [UInt64.le_iff_toNat_le, h.1]
        omega
      rw [List.filter_cons_of_pos (by simp [hkept]), ih h.2,
        show version.toNat - (n + 1) = 0 by omega, show version.toNat - n = 0 by omega,
        List.drop_zero, List.drop_zero]

/-- A part of numbered entries is numbered. -/
theorem Numbered.take {n : ℕ} {entries : List VersionedUpdateBatch} (h : Numbered n entries)
    (m : ℕ) : Numbered n (entries.take m) := by
  induction entries generalizing n m with
  | nil => rwa [List.take_nil]
  | cons entry rest ih =>
    cases m with
    | zero => trivial
    | succ m => exact ⟨h.1, ih h.2 m⟩

namespace TemporalGraph

variable {D : Type} [DoubleArith D]

/-- The batches that leave a record. -/
def recorded (batches : List UpdateBatch) : List UpdateBatch :=
  batches.filter fun batch => !batch.empty

/-- A batch is recorded unless it is empty. -/
theorem recorded_cons (batch : UpdateBatch) (rest : List UpdateBatch) :
    recorded (batch :: rest) = if batch.empty then recorded rest else batch :: recorded rest := by
  unfold recorded
  cases hempty : batch.empty with
  | true => rw [List.filter_cons_of_neg (by simp [hempty]), if_pos rfl]
  | false => rw [List.filter_cons_of_pos (by simp [hempty]), if_neg Bool.false_ne_true]

/-- Runs are recorded one after the other. -/
theorem recorded_append (batches rest : List UpdateBatch) :
    recorded (batches ++ rest) = recorded batches ++ recorded rest := List.filter_append ..

/-- What the calls of a run leave behind: the record holds their non-empty batches, and the live
graph is what these batches make of a fresh graph. -/
structure Recorded (vertices : ℕ) (directed : Bool) (batches : List UpdateBatch)
    (g : TemporalGraph D) : Prop where
  initialVertices : g.initialVertices = vertices
  directed_eq : g.directed = directed
  history_eq : g.history.map (·.batch) = recorded batches
  graph_eq : g.graph = (recorded batches).foldl (fun graph batch => graph.apply batch)
    (.create vertices directed)
  numbered : (recorded batches).length < 2 ^ 64 → Numbered 0 g.history

end TemporalGraph

namespace DynamicGraph

variable {D : Type} {g g' : DynamicGraph D} {arcs : ArcSet}

/-- Batches applied one after the other do what all of their operations do in one batch. -/
theorem Refines.foldl_apply [DoubleArith D] (h : Refines g arcs) (batches : List UpdateBatch) :
    let g' := batches.foldl (fun graph batch => graph.apply batch) g
    Refines g' (applyAll g.directed arcs (batches.flatMap (·.updates))) ∧
      g'.vertexCount = growAll g.vertexCount (batches.flatMap (·.updates)) ∧
      g'.directed = g.directed ∧
      g'.version = g.version + UInt64.ofNat (TemporalGraph.recorded batches).length := by
  induction batches generalizing g arcs with
  | nil => exact ⟨h, rfl, rfl, (UInt64.add_zero _).symm⟩
  | cons batch rest ih =>
    obtain ⟨hbatch, hcount, hdirected, hversion⟩ := h.apply batch
    obtain ⟨hrest, hcount', hdirected', hversion'⟩ := ih hbatch
    rw [hdirected] at hrest hdirected'
    rw [hcount] at hcount'
    rw [hversion] at hversion'
    refine ⟨?_, ?_, hdirected', ?_⟩
    · rw [List.flatMap_cons, applyAll, List.foldl_append]
      exact hrest
    · rw [List.flatMap_cons, growAll, List.foldl_append]
      exact hcount'
    · rw [List.foldl_cons, hversion', TemporalGraph.recorded_cons]
      split
      · rfl
      · rw [List.length_cons, UInt64.ofNat_add, UInt64.add_assoc, UInt64.add_comm 1]
        rfl

end DynamicGraph

namespace TemporalGraph

variable {D : Type} [DoubleArith D] {vertices : ℕ} {directed : Bool} {batches : List UpdateBatch}
  {g : TemporalGraph D}

/-- The version counts the recorded batches. -/
theorem Recorded.version_eq (h : Recorded vertices directed batches g) :
    g.graph.version = UInt64.ofNat (recorded batches).length := by
  obtain ⟨-, -, -, hversion⟩ :=
    (@DynamicGraph.refines_create D vertices directed).1.foldl_apply (recorded batches)
  rw [h.graph_eq, hversion]
  have hrecorded : recorded (recorded batches) = recorded batches := by
    rw [recorded, recorded, List.filter_filter]
    simp only [Bool.and_self]
  rw [hrecorded]
  exact UInt64.zero_add _

/-- One call keeps the record. -/
theorem Recorded.apply (h : Recorded vertices directed batches g) (batch : UpdateBatch) :
    Recorded vertices directed (batches ++ [batch]) (g.apply batch) := by
  unfold TemporalGraph.apply
  split
  · rename_i hupdates
    have hempty : batch.empty = true := by rw [UpdateBatch.empty, hupdates]; rfl
    have hrecorded : recorded (batches ++ [batch]) = recorded batches := by
      rw [recorded_append, recorded_cons, if_pos hempty]
      exact List.append_nil _
    refine ⟨h.initialVertices, h.directed_eq, ?_, ?_, ?_⟩ <;> rw [hrecorded]
    · exact h.history_eq
    · exact h.graph_eq
    · exact h.numbered
  · rename_i first rest hupdates
    have hempty : batch.empty = false := by rw [UpdateBatch.empty, hupdates]; rfl
    have hrecorded : recorded (batches ++ [batch]) = recorded batches ++ [batch] := by
      rw [recorded_append, recorded_cons, hempty]
      rfl
    obtain ⟨hcreated, -⟩ := @DynamicGraph.refines_create D vertices directed
    obtain ⟨hrefines, -⟩ := hcreated.foldl_apply (recorded batches)
    rw [← h.graph_eq] at hrefines
    obtain ⟨-, -, -, hversion⟩ := hrefines.apply batch
    rw [hempty, if_neg Bool.false_ne_true, h.version_eq] at hversion
    have hlength : g.history.length = (recorded batches).length := by
      rw [← h.history_eq, List.length_map]
    refine ⟨h.initialVertices, h.directed_eq, ?_, ?_, fun hfits => ?_⟩
    · rw [hrecorded, List.map_append, h.history_eq]
      rfl
    · rw [hrecorded, List.foldl_append, ← h.graph_eq]
      rfl
    · rw [hrecorded, List.length_append, List.length_singleton] at hfits
      refine (h.numbered (by omega)).append_singleton ?_
      change (g.graph.apply batch).version.toNat = _
      rw [hversion, hlength, ← UInt64.ofNat_one, ← UInt64.ofNat_add,
        UInt64.toNat_ofNat_of_lt' hfits, Nat.zero_add]

/-- Every run keeps the record. -/
theorem recorded_run (vertices : ℕ) (directed : Bool) (batches : List UpdateBatch) :
    Recorded vertices directed batches (run vertices directed batches : TemporalGraph D) := by
  have hfold : ∀ (rest done : List UpdateBatch) (g : TemporalGraph D),
      Recorded vertices directed done g →
        Recorded vertices directed (done ++ rest) (rest.foldl TemporalGraph.apply g) := by
    intro rest
    induction rest with
    | nil =>
      intro done g h
      rwa [List.append_nil]
    | cons batch rest ih =>
      intro done g h
      have hrest := ih (done ++ [batch]) (g.apply batch) (h.apply batch)
      rwa [List.append_assoc] at hrest
  exact hfold batches [] _ ⟨rfl, rfl, rfl, rfl, fun _ => trivial⟩

/-- A run passes through every number of recorded batches. -/
theorem exists_prefix (batches : List UpdateBatch) {n : ℕ} (hn : n ≤ (recorded batches).length) :
    ∃ earlier, earlier <+: batches ∧ (recorded earlier).length = n := by
  induction batches generalizing n with
  | nil => exact ⟨[], List.prefix_rfl, (Nat.le_zero.mp hn).symm⟩
  | cons batch rest ih =>
    rw [recorded_cons] at hn
    rcases Nat.eq_zero_or_pos n with rfl | hpos
    · exact ⟨[], List.nil_prefix, rfl⟩
    · cases hempty : batch.empty with
      | true =>
        rw [hempty, if_pos rfl] at hn
        obtain ⟨earlier, hprefix, hlength⟩ := ih hn
        refine ⟨batch :: earlier, List.cons_prefix_cons.mpr ⟨rfl, hprefix⟩, ?_⟩
        rw [recorded_cons, hempty, if_pos rfl, hlength]
      | false =>
        rw [hempty, if_neg Bool.false_ne_true, List.length_cons] at hn
        obtain ⟨earlier, hprefix, hlength⟩ := ih (show n - 1 ≤ _ by omega)
        refine ⟨batch :: earlier, List.cons_prefix_cons.mpr ⟨rfl, hprefix⟩, ?_⟩
        rw [recorded_cons, hempty, if_neg Bool.false_ne_true, List.length_cons, hlength]
        omega

/-- Replaying a numbered record up to a version replays that many of the recorded batches. -/
theorem Recorded.snapshotVersion (h : Recorded vertices directed batches g)
    (hfits : (recorded batches).length < 2 ^ 64) {version : UInt64}
    (hversion : version ≤ g.graph.version) :
    g.snapshotVersion version = .ok (((recorded batches).take version.toNat).foldl
      (fun graph batch => graph.apply batch) (.create vertices directed)) := by
  unfold TemporalGraph.snapshotVersion
  rw [if_neg (UInt64.not_lt.mpr hversion), (h.numbered hfits).takeWhile (Nat.zero_le _),
    h.initialVertices, h.directed_eq, ← h.history_eq, ← List.map_take, List.foldl_map, Nat.sub_zero]

/-- The changes between two versions are the operations of the batches recorded between them. -/
theorem Recorded.changesBetweenVersions (h : Recorded vertices directed batches g)
    (hfits : (recorded batches).length < 2 ^ 64) {older newer : UInt64} (hle : older ≤ newer)
    (hnewer : newer ≤ g.graph.version) :
    g.changesBetweenVersions older newer = .ok
      ((((recorded batches).take newer.toNat).drop older.toNat).flatMap (·.updates)) := by
  have hread : (g.history.takeWhile fun entry => entry.version ≤ older ||
      !decide (entry.version > newer)) = g.history.take newer.toNat := by
    rw [← Nat.sub_zero newer.toNat, ← (h.numbered hfits).takeWhile (Nat.zero_le _)]
    refine congrArg (List.takeWhile · g.history) (funext fun entry => ?_)
    by_cases hskip : entry.version ≤ older
    · have hread : ¬ entry.version > newer := UInt64.not_lt.mpr (UInt64.le_trans hskip hle)
      simp [hskip, hread]
    · simp [hskip]
  unfold TemporalGraph.changesBetweenVersions
  have hrange : (decide (older > newer) || decide (newer > g.graph.version)) = false := by
    simp only [Bool.or_eq_false_iff, decide_eq_false_iff_not]
    exact ⟨UInt64.not_lt.mpr hle, UInt64.not_lt.mpr hnewer⟩
  rw [hrange, if_neg Bool.false_ne_true, hread, ((h.numbered hfits).take _).filter, Nat.sub_zero,
    ← h.history_eq, ← List.map_take, ← List.map_drop, List.flatMap_map]

/-- Snapshots of a version are the graph right after the batch of that version, and the changes
between two versions lead from one snapshot to the other as a single batch. -/
theorem versions_replay (vertices : ℕ) (directed : Bool) (batches : List UpdateBatch)
    (hfits : (recorded batches).length < 2 ^ 64) :
    let g : TemporalGraph D := run vertices directed batches
    (∀ version, version ≤ g.graph.version →
      (∃ earlier, earlier <+: batches ∧ (recorded earlier).length = version.toNat) ∧
      ∀ earlier, earlier <+: batches → (recorded earlier).length = version.toNat →
        let live := (run vertices directed earlier : TemporalGraph D).graph
        live.version = version ∧ g.snapshotVersion version = .ok live) ∧
      ∀ older newer, older ≤ newer → newer ≤ g.graph.version →
        ∃ before after changes, g.snapshotVersion older = .ok before ∧
          g.snapshotVersion newer = .ok after ∧
          g.changesBetweenVersions older newer = .ok changes ∧
          (before.apply ⟨changes⟩).vertexCount = after.vertexCount ∧
          ∀ u, (before.apply ⟨changes⟩).neighbors u = after.neighbors u := by
  have h : Recorded vertices directed batches (run vertices directed batches : TemporalGraph D) :=
    recorded_run vertices directed batches
  dsimp only
  generalize (run vertices directed batches : TemporalGraph D) = g at h ⊢
  refine ⟨fun version hversion => ⟨?_, fun earlier hprefix hlength => ?_⟩,
    fun older newer hle hnewer => ?_⟩
  · refine exists_prefix batches ?_
    rw [h.version_eq, UInt64.le_iff_toNat_le, UInt64.toNat_ofNat_of_lt' hfits] at hversion
    exact hversion
  · have hlive := @recorded_run D _ vertices directed earlier
    obtain ⟨later, rfl⟩ := hprefix
    refine ⟨?_, ?_⟩
    · rw [hlive.version_eq, hlength, UInt64.ofNat_toNat]
    · rw [h.snapshotVersion hfits hversion, recorded_append, ← hlength, List.take_left',
        hlive.graph_eq]
      rfl
  · have holder := UInt64.le_trans hle hnewer
    refine ⟨_, _, _, h.snapshotVersion hfits holder, h.snapshotVersion hfits hnewer,
      h.changesBetweenVersions hfits hle hnewer, ?_⟩
    generalize hreached : (recorded batches).take newer.toNat = reached
    have hstart : (recorded batches).take older.toNat = reached.take older.toNat := by
      rw [← hreached, List.take_take, Nat.min_eq_left (UInt64.le_iff_toNat_le.mp hle)]
    obtain ⟨hcreated, -⟩ := @DynamicGraph.refines_create D vertices directed
    obtain ⟨hbefore, hcount, hdirected, -⟩ := hcreated.foldl_apply (reached.take older.toNat)
    have hsplit := @List.foldl_append _ _ (fun (g : DynamicGraph D) batch => g.apply batch)
      (.create vertices directed) (reached.take older.toNat) (reached.drop older.toNat)
    rw [List.take_append_drop] at hsplit
    rw [hstart, hsplit]
    generalize (reached.take older.toNat).foldl (fun graph batch => graph.apply batch)
      (.create vertices directed : DynamicGraph D) = before at hbefore
    obtain ⟨hmerged, hmergedCount, -⟩ :=
      hbefore.apply ⟨(reached.drop older.toNat).flatMap (·.updates)⟩
    obtain ⟨hcut, hcutCount, -⟩ := hbefore.foldl_apply (reached.drop older.toNat)
    exact ⟨hmergedCount.trans hcutCount.symm, hmerged.neighbors_eq hcut.toRepresents⟩

/-- The case of two insertions around an empty batch: the second is the whole change. -/
theorem versions_replay_insert :
    let batches : List UpdateBatch := [⟨[⟨0, 1, true, 0⟩]⟩, {}, ⟨[⟨1, 2, true, 0⟩]⟩]
    let g : TemporalGraph ℚ := run 0 true batches
    ∃ before after, g.snapshotVersion 1 = .ok before ∧ g.snapshotVersion 2 = .ok after ∧
      g.changesBetweenVersions 1 2 = .ok [⟨1, 2, true, 0⟩] ∧ before.neighbors 1 = [] ∧
      (before.apply ⟨[⟨1, 2, true, 0⟩]⟩).neighbors 1 = after.neighbors 1 := by
  intro batches g
  have hversion : g.graph.version = 2 := (@recorded_run ℚ _ 0 true batches).version_eq
  have hbetween : (g.changesBetweenVersions 1 2).toOption = some [⟨1, 2, true, 0⟩] := by
    decide +kernel
  have hearlier : ((g.snapshotVersion 1).map (·.neighbors 1)).toOption = some [] := by
    decide +kernel
  obtain ⟨before, after, changes, hbefore, hafter, hchanges, -, hrows⟩ :=
    (@versions_replay ℚ _ 0 true batches (by decide)).2 1 2 (by decide) (by rw [hversion]; decide)
  rw [hchanges] at hbetween
  obtain rfl : changes = _ := Option.some.inj hbetween
  rw [hbefore] at hearlier
  exact ⟨before, after, hbefore, hafter, hchanges, Option.some.inj hearlier, hrows 1⟩

end TemporalGraph

end VeloGraphX
