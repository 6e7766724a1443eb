import Mathlib
import VeloGraphX.Types
import VeloGraphX.Lib.LastWrite

/-!
# The abstract graph

What every store is meant to represent: a set of arcs between numbered vertices. A batch
acts on it operation by operation, self-loops are ignored, and an operation on an undirected
graph sets both arcs of its edge. The state of one arc after a batch is what the last
operation on it asks for.
-/

namespace VeloGraphX

open LastWrite

/-- A set of arcs. -/
abbrev ArcSet := Set (VertexId × VertexId)

namespace ArcSet

/-- Insert or delete one arc. -/
def setArc (arcs : ArcSet) (arc : VertexId × VertexId) (present : Bool) : ArcSet :=
  {a | if a = arc then present = true else a ∈ arcs}

/-- The effect of one operation. -/
def applyOp (directed : Bool) (arcs : ArcSet) (op : EdgeUpdate) : ArcSet :=
  if op.src = op.dst then arcs
  else
    let arcs := setArc arcs (op.src, op.dst) op.add
    if directed then arcs else setArc arcs (op.dst, op.src) op.add

/-- The effect of a batch. -/
def applyAll (directed : Bool) (arcs : ArcSet) (updates : List EdgeUpdate) : ArcSet :=
  updates.foldl (applyOp directed) arcs

/-- What an operation asks of one arc, if anything. -/
def writeOn (directed : Bool) (u v : VertexId) (op : EdgeUpdate) : Option Bool :=
  if op.src ≠ op.dst ∧
      (op.src = u ∧ op.dst = v ∨ directed = false ∧ op.dst = u ∧ op.src = v) then
    some op.add
  else none

/-- What the operations of a batch ask of one arc, in order. -/
def requests (directed : Bool) (updates : List EdgeUpdate) (u v : VertexId) : List Bool :=
  updates.filterMap (writeOn directed u v)

/-- The vertices after a batch: every id of a simple edge becomes a vertex. -/
def growBy (n : ℕ) (op : EdgeUpdate) : ℕ :=
  if op.src = op.dst then n else max n (max op.src.val op.dst.val + 1)

/-- The vertex count after a batch. -/
def growAll (n : ℕ) (updates : List EdgeUpdate) : ℕ := updates.foldl growBy n

/-- Arcs with the simple-graph discipline of an undirected store. -/
def Undirected (arcs : ArcSet) : Prop := ∀ u v, (u, v) ∈ arcs → (v, u) ∈ arcs

/-- No arc from a vertex to itself. -/
def Loopless (arcs : ArcSet) : Prop := ∀ u, (u, u) ∉ arcs

/-- Every endpoint is a vertex. -/
def Within (n : ℕ) (arcs : ArcSet) : Prop := ∀ u v, (u, v) ∈ arcs → u.val < n ∧ v.val < n

variable {directed : Bool} {arcs : ArcSet} {op : EdgeUpdate} {u v : VertexId} {n : ℕ}

/-- Membership after setting one arc. -/
theorem mem_setArc {arc : VertexId × VertexId} {present : Bool} {a : VertexId × VertexId} :
    a ∈ setArc arcs arc present ↔ if a = arc then present = true else a ∈ arcs := Iff.rfl

open Classical in
/-- The presence of one arc. -/
noncomputable def present (arcs : ArcSet) (u v : VertexId) : Bool := decide ((u, v) ∈ arcs)

/-- Presence is membership. -/
@[simp] theorem present_eq_true : present arcs u v = true ↔ (u, v) ∈ arcs := by
  simp only [present, decide_eq_true_eq]

/-- Presence after setting one arc. -/
theorem present_setArc (arcs : ArcSet) (a : VertexId × VertexId) (b : Bool) (u v : VertexId) :
    present (setArc arcs a b) u v = if (u, v) = a then b else present arcs u v := by
  rw [Bool.eq_iff_iff, present_eq_true, mem_setArc]
  split
  · rfl
  · rw [present_eq_true]

/-- One operation sets an arc to what it asks for, or leaves it alone. -/
theorem present_applyOp (directed : Bool) (arcs : ArcSet) (op : EdgeUpdate) (u v : VertexId) :
    present (applyOp directed arcs op) u v = (writeOn directed u v op).getD (present arcs u v) := by
  rw [Bool.eq_iff_iff, present_eq_true]
  unfold applyOp writeOn
  by_cases hloop : op.src = op.dst
  · rw [if_pos hloop, if_neg fun h => h.1 hloop, Option.getD_none, present_eq_true]
  · rw [if_neg hloop]
    cases directed <;>
      simp only [mem_setArc, Prod.mk.injEq, Bool.false_eq_true, if_false, if_true]
    · by_cases hback : u = op.dst ∧ v = op.src
      · rw [if_pos hback, if_pos ⟨hloop, Or.inr ⟨trivial, hback.1.symm, hback.2.symm⟩⟩,
          Option.getD_some]
      · rw [if_neg hback]
        by_cases hforth : u = op.src ∧ v = op.dst
        · rw [if_pos hforth, if_pos ⟨hloop, Or.inl ⟨hforth.1.symm, hforth.2.symm⟩⟩,
            Option.getD_some]
        · rw [if_neg hforth, if_neg, Option.getD_none, present_eq_true]
          intro h
          rcases h.2 with ⟨hu, hv⟩ | ⟨-, hu, hv⟩
          · exact hforth ⟨hu.symm, hv.symm⟩
          · exact hback ⟨hu.symm, hv.symm⟩
    · by_cases hforth : u = op.src ∧ v = op.dst
      · rw [if_pos hforth, if_pos ⟨hloop, Or.inl ⟨hforth.1.symm, hforth.2.symm⟩⟩,
          Option.getD_some]
      · rw [if_neg hforth, if_neg, Option.getD_none, present_eq_true]
        intro h
        rcases h.2 with ⟨hu, hv⟩ | ⟨hdirected, -, -⟩
        · exact hforth ⟨hu.symm, hv.symm⟩
        · exact Bool.noConfusion hdirected

/-- The last operation on an arc decides whether it is there after a batch. -/
theorem present_applyAll (directed : Bool) (arcs : ArcSet) (updates : List EdgeUpdate)
    (u v : VertexId) :
    present (applyAll directed arcs updates) u v =
      lastWrite (writeOn directed u v) updates (present arcs u v) :=
  get_foldl (fun arcs => present arcs u v) (fun arcs op => present_applyOp directed arcs op u v) updates arcs

/-- An arc that a batch inserts or deletes is written by some operation. -/
theorem exists_writeOn {updates : List EdgeUpdate}
    (hne : present (applyAll directed arcs updates) u v ≠ present arcs u v) :
    ∃ op ∈ updates, (writeOn directed u v op).isSome := by
  rw [present_applyAll] at hne
  by_contra hnone
  refine hne (lastWrite_of_forall_none (fun op hop => ?_) _)
  exact Option.not_isSome_iff_eq_none.mp fun hsome => hnone ⟨op, hop, hsome⟩

/-- In an undirected graph an operation asks something of both arcs between its ends. -/
theorem writeOn_undirected {b : Bool} : writeOn false u v op = some b ↔
    op.add = b ∧ op.src ≠ op.dst ∧ (op.src = u ∧ op.dst = v ∨ op.dst = u ∧ op.src = v) := by
  unfold writeOn
  split
  · rename_i haddressed
    simpa [haddressed.1] using fun _ => haddressed.2
  · rename_i hnot
    simp only [true_and] at hnot
    exact iff_of_false (by simp) fun hand => hnot hand.2

/-- A batch of insertions only adds the arcs that some operation writes. -/
theorem mem_applyAll_of_insertions {updates : List EdgeUpdate}
    (h : ∀ op ∈ updates, op.add = true) : (u, v) ∈ applyAll directed arcs updates ↔
      (u, v) ∈ arcs ∨ ∃ op ∈ updates, writeOn directed u v op = some true := by
  have hwrite : ∀ op ∈ updates, ∀ b, writeOn directed u v op = some b → b = true := by
    intro op hop b hb
    unfold writeOn at hb
    split at hb
    · exact (Option.some.inj hb).symm.trans (h op hop)
    · exact absurd hb (by simp)
  rw [← present_eq_true, present_applyAll]
  rcases lastWrite_eq_or (writeOn directed u v) updates (present arcs u v) with
    ⟨hnone, hkeep⟩ | ⟨op, hop, hlast⟩
  · rw [hkeep, present_eq_true]
    refine ⟨Or.inl, fun hor => hor.resolve_right fun ⟨op, hop, hsome⟩ => ?_⟩
    rw [hnone op hop] at hsome
    exact absurd hsome (by simp)
  · have htrue := hwrite op hop _ hlast
    rw [htrue] at hlast ⊢
    exact iff_of_true rfl (Or.inr ⟨op, hop, hlast⟩)

/-- In an undirected graph an operation asks the same of both arcs of an edge. -/
theorem writeOn_symm (u v : VertexId) (op : EdgeUpdate) :
    writeOn false u v op = writeOn false v u op := by
  unfold writeOn
  refine if_congr (and_congr_right fun _ => ?_) rfl rfl
  tauto

/-- Nothing is ever asked of a self-loop. -/
theorem writeOn_self (directed : Bool) (u : VertexId) (op : EdgeUpdate) :
    writeOn directed u u op = none := by
  unfold writeOn
  rw [if_neg]
  intro h
  rcases h.2 with ⟨hsrc, hdst⟩ | ⟨-, hdst, hsrc⟩
  · exact h.1 (hsrc.trans hdst.symm)
  · exact h.1 (hsrc.trans hdst.symm)

/-- An operation that asks something of an arc makes its endpoints vertices. -/
theorem lt_of_writeOn {b : Bool} (h : writeOn directed u v op = some b) (n : ℕ) :
    u.val < growBy n op ∧ v.val < growBy n op := by
  unfold writeOn at h
  split at h
  · rename_i hop
    unfold growBy
    rw [if_neg hop.1]
    rcases hop.2 with ⟨rfl, rfl⟩ | ⟨-, rfl, rfl⟩ <;> omega
  · exact absurd h (by simp)

/-- One operation keeps an undirected graph undirected. -/
theorem Undirected.applyOp (h : Undirected arcs) (op : EdgeUpdate) :
    Undirected (applyOp false arcs op) := by
  intro u v hmem
  rw [← present_eq_true, present_applyOp] at hmem ⊢
  rw [writeOn_symm v u]
  cases hop : writeOn false u v op with
  | some b => rwa [hop] at hmem
  | none =>
    rw [hop, Option.getD_none, present_eq_true] at hmem
    rw [Option.getD_none, present_eq_true]
    exact h u v hmem

/-- One operation creates no self-loop. -/
theorem Loopless.applyOp (h : Loopless arcs) (directed : Bool) (op : EdgeUpdate) :
    Loopless (applyOp directed arcs op) := by
  intro u hmem
  rw [← present_eq_true, present_applyOp, writeOn_self, Option.getD_none, present_eq_true] at hmem
  exact h u hmem

/-- Vertices never disappear. -/
theorem le_growBy (n : ℕ) (op : EdgeUpdate) : n ≤ growBy n op := by
  unfold growBy
  split
  · exact le_rfl
  · exact le_max_left _ _

/-- Vertices never disappear in a batch. -/
theorem le_growAll (n : ℕ) (updates : List EdgeUpdate) : n ≤ growAll n updates := by
  induction updates generalizing n with
  | nil => exact le_rfl
  | cons op rest ih => exact (le_growBy n op).trans (ih _)

/-- Ids need at most `2 ^ 32` vertices. -/
theorem growAll_le (h : n ≤ 2 ^ 32) (updates : List EdgeUpdate) : growAll n updates ≤ 2 ^ 32 := by
  induction updates generalizing n with
  | nil => exact h
  | cons op rest ih =>
    refine ih ?_
    unfold growBy
    split
    · exact h
    · omega

/-- A bound on the vertices is a bound on the ends of the operations. -/
theorem growAll_le_iff {k : ℕ} {updates : List EdgeUpdate} : growAll n updates ≤ k ↔
    n ≤ k ∧ ∀ op ∈ updates, op.src ≠ op.dst → op.src.val < k ∧ op.dst.val < k := by
  induction updates generalizing n with
  | nil => exact ⟨fun h => ⟨h, fun op hop => absurd hop List.not_mem_nil⟩, fun h => h.1⟩
  | cons op rest ih =>
    have hstep : growAll n (op :: rest) = growAll (growBy n op) rest := rfl
    rw [hstep, ih, List.forall_mem_cons]
    unfold growBy
    by_cases hloop : op.src = op.dst
    · simp [hloop]
    · rw [if_neg hloop]
      simp only [ne_eq, hloop, not_false_eq_true, forall_const, max_le_iff, max_lt_iff,
        Nat.succ_le_iff]
      tauto

/-- A batch that asks something of an arc makes its endpoints vertices. -/
theorem lt_growAll_of_mem_requests {updates : List EdgeUpdate} {b : Bool}
    (h : b ∈ requests directed updates u v) (n : ℕ) :
    u.val < growAll n updates ∧ v.val < growAll n updates := by
  induction updates generalizing n with
  | nil => exact absurd h List.not_mem_nil
  | cons op rest ih =>
    obtain ⟨op', hop', hwrite⟩ := List.mem_filterMap.mp h
    rcases List.mem_cons.mp hop' with rfl | hrest
    · have hlt := lt_of_writeOn hwrite n
      have hle := le_growAll (growBy n op') rest
      exact ⟨hlt.1.trans_le hle, hlt.2.trans_le hle⟩
    · exact ih (List.mem_filterMap.mpr ⟨op', hrest, hwrite⟩) _

/-- A batch that writes every arc another one writes makes all the vertices the other one does. -/
theorem growAll_le_of_writes {updates updates' : List EdgeUpdate}
    (h : ∀ u v, (∃ op ∈ updates, (writeOn directed u v op).isSome) →
      ∃ op ∈ updates', (writeOn directed u v op).isSome) :
    growAll n updates ≤ growAll n updates' := by
  refine growAll_le_iff.mpr ⟨le_growAll n updates', fun op hop hloop => ?_⟩
  have hwrite : writeOn directed op.src op.dst op = some op.add :=
    if_pos ⟨hloop, Or.inl ⟨rfl, rfl⟩⟩
  obtain ⟨op', hop', hsome⟩ := h op.src op.dst ⟨op, hop, by rw [hwrite]; rfl⟩
  obtain ⟨b, hb⟩ := Option.isSome_iff_exists.mp hsome
  exact lt_growAll_of_mem_requests (List.mem_filterMap.mpr ⟨op', hop', hb⟩) n

/-- Batches that write the same arcs make the same vertices. -/
theorem growAll_congr {updates updates' : List EdgeUpdate}
    (h : ∀ u v, (∃ op ∈ updates, (writeOn directed u v op).isSome) ↔
      ∃ op ∈ updates', (writeOn directed u v op).isSome) (n : ℕ) :
    growAll n updates = growAll n updates' :=
  le_antisymm (growAll_le_of_writes fun u v => (h u v).mp)
    (growAll_le_of_writes fun u v => (h u v).mpr)

/-- One operation makes the endpoints it needs. -/
theorem Within.applyOp (h : Within n arcs) (directed : Bool) (op : EdgeUpdate) :
    Within (growBy n op) (applyOp directed arcs op) := by
  intro u v hmem
  rw [← present_eq_true, present_applyOp] at hmem
  cases hop : writeOn directed u v op with
  | some b => exact lt_of_writeOn hop n
  | none =>
    rw [hop, Option.getD_none, present_eq_true] at hmem
    have := le_growBy n op
    have := h u v hmem
    omega

/-- A batch keeps an undirected graph undirected. -/
theorem Undirected.applyAll (h : Undirected arcs) (updates : List EdgeUpdate) :
    Undirected (applyAll false arcs updates) := by
  induction updates generalizing arcs with
  | nil => exact h
  | cons op rest ih => exact ih (h.applyOp op)

/-- A batch creates no self-loop. -/
theorem Loopless.applyAll (h : Loopless arcs) (directed : Bool) (updates : List EdgeUpdate) :
    Loopless (applyAll directed arcs updates) := by
  induction updates generalizing arcs with
  | nil => exact h
  | cons op rest ih => exact ih (h.applyOp directed op)

/-- A batch makes the endpoints it needs. -/
theorem Within.applyAll (h : Within n arcs) (directed : Bool) (updates : List EdgeUpdate) :
    Within (growAll n updates) (applyAll directed arcs updates) := by
  induction updates generalizing n arcs with
  | nil => exact h
  | cons op rest ih => exact ih (h.applyOp directed op)

/-- The simple-graph discipline all stores keep. -/
structure Simple (directed : Bool) (n : ℕ) (arcs : ArcSet) : Prop where
  within : Within n arcs
  loopless : Loopless arcs
  undirected : directed = false → Undirected arcs

/-- The graph without arcs. -/
theorem simple_empty (directed : Bool) (n : ℕ) : Simple directed n ∅ :=
  ⟨fun _ _ h => absurd h (Set.notMem_empty _), fun _ h => absurd h (Set.notMem_empty _),
    fun _ _ _ h => absurd h (Set.notMem_empty _)⟩

/-- More vertices do no harm. -/
theorem Simple.mono (h : Simple directed n arcs) {m : ℕ} (hle : n ≤ m) :
    Simple directed m arcs :=
  ⟨fun u v hmem => ⟨(h.within u v hmem).1.trans_le hle, (h.within u v hmem).2.trans_le hle⟩,
    h.loopless, h.undirected⟩

/-- One operation keeps the discipline. -/
theorem Simple.applyOp (h : Simple directed n arcs) (op : EdgeUpdate) :
    Simple directed (growBy n op) (applyOp directed arcs op) := by
  refine ⟨h.within.applyOp directed op, h.loopless.applyOp directed op, fun hdirected => ?_⟩
  subst hdirected
  exact (h.undirected rfl).applyOp op

/-- A batch keeps the discipline. -/
theorem Simple.applyAll (h : Simple directed n arcs) (updates : List EdgeUpdate) :
    Simple directed (growAll n updates) (applyAll directed arcs updates) := by
  induction updates generalizing n arcs with
  | nil => exact h
  | cons op rest ih => exact ih (h.applyOp op)

/-- The insertions of an edge list. -/
def insertions (edges : List (VertexId × VertexId)) : List EdgeUpdate :=
  edges.map fun e => ⟨e.1, e.2, true, 0⟩

/-- The arcs of an edge list: simple edges only, both directions when undirected. -/
def ofEdges (directed : Bool) (edges : List (VertexId × VertexId)) : ArcSet :=
  {a | a.1 ≠ a.2 ∧ (a ∈ edges ∨ directed = false ∧ (a.2, a.1) ∈ edges)}

/-- Inserting the edges of a list one by one into an empty graph gives the list's arcs. -/
theorem applyAll_insertions (directed : Bool) (edges : List (VertexId × VertexId)) :
    applyAll directed ∅ (insertions edges) = ofEdges directed edges := by
  have hwrite : ∀ u v, ∀ op ∈ insertions edges, writeOn directed u v op = none ∨
      writeOn directed u v op = some true := fun u v op hop => by
    obtain ⟨e, -, rfl⟩ := List.mem_map.mp hop
    unfold writeOn
    split
    · exact Or.inr rfl
    · exact Or.inl rfl
  have hmem : ∀ u v, (∃ op ∈ insertions edges, writeOn directed u v op = some true) ↔
      (u, v) ∈ ofEdges directed edges := fun u v => by
    simp only [insertions, List.mem_map, writeOn, ofEdges, Set.mem_ofPred_eq]
    refine ⟨fun ⟨op, ⟨e, he, heq⟩, hop⟩ => ?_, fun ⟨hne, hor⟩ => ?_⟩
    · subst heq
      split at hop
      · rename_i haddr
        rcases haddr with ⟨hne, ⟨rfl, rfl⟩ | ⟨hdirected, rfl, rfl⟩⟩
        · exact ⟨hne, Or.inl he⟩
        · exact ⟨Ne.symm hne, Or.inr ⟨hdirected, he⟩⟩
      · exact absurd hop (by simp)
    · rcases hor with he | ⟨hdirected, he⟩
      · exact ⟨_, ⟨_, he, rfl⟩, if_pos ⟨hne, Or.inl ⟨rfl, rfl⟩⟩⟩
      · exact ⟨_, ⟨_, he, rfl⟩, if_pos ⟨Ne.symm hne, Or.inr ⟨hdirected, rfl, rfl⟩⟩⟩
  refine Set.ext fun ⟨u, v⟩ => ?_
  rw [← present_eq_true, present_applyAll, ← hmem]
  rcases lastWrite_eq_or (writeOn directed u v) (insertions edges) (present ∅ u v) with
    ⟨hnone, hkeep⟩ | ⟨op, hop, hlast⟩
  · rw [hkeep, present_eq_true]
    refine ⟨fun h => absurd h (Set.notMem_empty _), fun ⟨op, hop, hsome⟩ => ?_⟩
    rw [hnone op hop] at hsome
    exact absurd hsome (by simp)
  · rcases hwrite u v op hop with hnone | htrue
    · rw [hnone] at hlast
      exact absurd hlast (by simp)
    · rw [htrue] at hlast
      rw [← Option.some.inj hlast]
      exact iff_of_true rfl ⟨op, hop, htrue⟩

/-- The arcs of an edge list keep the discipline. -/
theorem simple_ofEdges (directed : Bool) (n : ℕ) (edges : List (VertexId × VertexId)) :
    Simple directed (growAll n (insertions edges)) (ofEdges directed edges) := by
  rw [← applyAll_insertions]
  exact (simple_empty directed n).applyAll _

end ArcSet

end VeloGraphX
