import Mathlib
import VeloGraphX.Lib.FuelLoop
import VeloGraphX.Runtime.ParallelFor

/-!
# The chunks of one `parallel_for`

The loop that submits the chunks adds the grain to its start without looking for an overflow. A sum
that wraps around makes the chunk empty and puts the next start below it, where indices have been
submitted before or do not belong to the range.
-/

namespace VeloGraphX

open FuelLoop

namespace ParallelCall

/-- The grain that `parallel_for` uses on a pool of some size. -/
def usedGrain (call : ParallelCall) (size grain : ℕ) : ℕ :=
  if grain = 0 then WorkStealingPool.adaptiveGrain (call.stop - call.start) size else grain

/-- One turn of the loop: the next start, and the chunks submitted so far. -/
def submitChunk (call : ParallelCall) (grain : ℕ) (state : ℕ × List Task) : ℕ × List Task :=
  (addU64 state.1 grain, state.2 ++ [call.chunk state.2.length state.1 grain])

/-- The loop of `parallel_for`, which asks again before every chunk. -/
def submitLoop (call : ParallelCall) (grain fuel : ℕ) (state : ℕ × List Task) :
    Option (ℕ × List Task) :=
  whileLoop (fun state => decide (state.1 < call.stop))
    (fun _ state => some (call.submitChunk grain state)) fuel state

/-- The chunks that `parallel_for` submits. -/
def submittedChunks (call : ParallelCall) (size grain fuel : ℕ) : Option (List Task) :=
  if call.stop ≤ call.start then some []
  else (call.submitLoop (call.usedGrain size grain) fuel (call.start, [])).map Prod.snd

/-- The indices that some chunks call `fn` for, one after the other. -/
def calledIndices (chunks : List Task) : List ℕ :=
  chunks.flatMap fun task => task.invocations.map Prod.fst

/-- Chunks that call `fn` once for each index of the range, and for no other index. -/
structure CallsOnce (call : ParallelCall) (chunks : List Task) : Prop where
  calls : ∀ task ∈ chunks, ∀ invocation ∈ task.invocations, invocation.2 = call.fn invocation.1
  once : ∀ i, (calledIndices chunks).count i = if call.start ≤ i ∧ i < call.stop then 1 else 0

variable {call : ParallelCall} {grain size first : ℕ} {chunks : List Task}

/-- The adapted grain is a positive 64-bit number. -/
theorem adaptiveGrain_bounds (work threads : ℕ) :
    0 < WorkStealingPool.adaptiveGrain work threads ∧
      WorkStealingPool.adaptiveGrain work threads < 2 ^ 64 := by
  have hatLeastOne : ∀ quotient < 2 ^ 64, 0 < (if quotient = 0 then 1 else quotient) ∧
      (if quotient = 0 then 1 else quotient) < 2 ^ 64 := fun quotient hquotient => by
    split <;> omega
  refine hatLeastOne _ ((Nat.div_le_self _ _).trans_lt ?_)
  exact Nat.mod_lt _ (by norm_num)

/-- So is the grain that is used. -/
theorem usedGrain_bounds (call : ParallelCall) (size : ℕ) (hgrain : grain < 2 ^ 64) :
    0 < call.usedGrain size grain ∧ call.usedGrain size grain < 2 ^ 64 := by
  rw [usedGrain]
  split
  · exact adaptiveGrain_bounds _ _
  · exact ⟨Nat.pos_of_ne_zero ‹_›, hgrain⟩

/-- The indices of a chunk. -/
theorem calledIndices_chunk (id : ℕ) : calledIndices [call.chunk id first grain] =
    List.range' first (call.chunkLast first grain - first) := by
  simp [calledIndices, chunk, Function.comp_def]

/-- The chunks of a turn come behind the chunks before. -/
theorem calledIndices_append (chunks later : List Task) :
    calledIndices (chunks ++ later) = calledIndices chunks ++ calledIndices later :=
  List.flatMap_append

section Fits

/-- The chunks so far start with the range and cover it without gaps. -/
structure Contiguous (call : ParallelCall) (grain : ℕ) (state : ℕ × List Task) : Prop where
  aligned : ∃ k, state.1 = call.start + k * grain
  reached : state.1 < call.stop + grain
  calls : ∀ task ∈ state.2, ∀ invocation ∈ task.invocations, invocation.2 = call.fn invocation.1
  covered : calledIndices state.2 =
    List.range' call.start (min state.1 call.stop - call.start)

/-- Before the first turn. -/
theorem contiguous_start (hrange : call.start < call.stop) : Contiguous call grain (call.start, []) :=
  ⟨⟨0, by rw [Nat.zero_mul]; rfl⟩, by dsimp only; omega, nofun, by
    rw [min_eq_left hrange.le, Nat.sub_self]
    rfl⟩

/-- A start that is still inside the range has another whole grain in front of it. -/
theorem next_le_roundUp {k : ℕ} (hgrain : 0 < grain) (hlt : call.start + k * grain < call.stop) :
    call.start + k * grain + grain ≤
      call.start + (call.stop - call.start + grain - 1) / grain * grain := by
  have hsteps : k + 1 ≤ (call.stop - call.start + grain - 1) / grain := by
    rw [Nat.le_div_iff_mul_le hgrain, Nat.succ_mul]
    omega
  have hmul := Nat.mul_le_mul_right grain hsteps
  rw [Nat.succ_mul] at hmul
  omega

/-- A turn whose sum does not wrap around. -/
theorem Contiguous.submitChunk {state : ℕ × List Task} (h : Contiguous call grain state)
    (hlt : state.1 < call.stop) (hfits : state.1 + grain < 2 ^ 64) :
    Contiguous call grain (call.submitChunk grain state) := by
  obtain ⟨k, hk⟩ := h.aligned
  have hnext : addU64 state.1 grain = state.1 + grain := Nat.mod_eq_of_lt hfits
  refine ⟨⟨k + 1, ?_⟩, ?_, fun task htask => ?_, ?_⟩
  · rw [ParallelCall.submitChunk, hnext, hk, Nat.succ_mul]
    omega
  · rw [ParallelCall.submitChunk, hnext]
    dsimp only
    omega
  · rcases List.mem_append.mp htask with hold | hnew
    · exact h.calls task hold
    · intro invocation hmem
      rw [List.mem_singleton.mp hnew, chunk, List.mem_map] at hmem
      obtain ⟨i, -, rfl⟩ := hmem
      rfl
  · have hstart : call.start ≤ state.1 := hk ▸ Nat.le_add_right _ _
    rw [ParallelCall.submitChunk, hnext]
    dsimp only
    rw [calledIndices_append, h.covered, calledIndices_chunk, call.chunkLast_eq hfits,
      min_eq_left hlt.le]
    have hjoin := @List.range'_append_1 call.start (state.1 - call.start)
      (min (state.1 + grain) call.stop - state.1)
    rw [show call.start + (state.1 - call.start) = state.1 by omega] at hjoin
    rw [hjoin]
    congr 1
    omega

/-- Where the last sum can be held in 64 bits, the loop ends and its chunks cover the range. -/
theorem submittedChunks_returns (hgrain : 0 < call.usedGrain size grain)
    (hfits : call.stop ≤ call.start ∨ call.start + (call.stop - call.start +
      call.usedGrain size grain - 1) / call.usedGrain size grain * call.usedGrain size grain <
        2 ^ 64) :
    Returns (call.submittedChunks size grain) (CallsOnce call) := by
  unfold submittedChunks
  by_cases hrange : call.stop ≤ call.start
  · simp only [if_pos hrange]
    refine Returns.pure ⟨nofun, fun i => ?_⟩
    rw [if_neg (by omega)]
    rfl
  · simp only [if_neg hrange]
    have hbound := hfits.resolve_left hrange
    generalize call.usedGrain size grain = grain at hgrain hbound
    refine Returns.map ((returns_while (fun m state => Contiguous call grain state ∧
      m = call.stop - state.1) (fun m state hinv hcond => ?_)
      ⟨contiguous_start (not_le.mp hrange), rfl⟩).mono fun state hstate => ?_)
    · obtain ⟨hinv, rfl⟩ := hinv
      have hlt : state.1 < call.stop := of_decide_eq_true hcond
      obtain ⟨k, hk⟩ := hinv.aligned
      have hnext := @next_le_roundUp call grain k hgrain (hk ▸ hlt)
      have hnowrap : state.1 + grain < 2 ^ 64 := by
        rw [hk]
        omega
      refine Returns.pure ⟨_, ?_, hinv.submitChunk hlt hnowrap, rfl⟩
      rw [ParallelCall.submitChunk, addU64, Nat.mod_eq_of_lt hnowrap]
      dsimp only
      omega
    · obtain ⟨⟨-, hinv, -⟩, hexit⟩ := hstate
      have hend : call.stop ≤ state.1 := not_lt.mp (of_decide_eq_false hexit)
      refine ⟨hinv.calls, fun i => ?_⟩
      rw [hinv.covered, min_eq_right hend, List.Nodup.count List.nodup_range']
      simp only [List.mem_range'_1]
      refine if_congr ?_ rfl rfl
      omega

end Fits

section Wraps

/-- Some index is called twice, or is called and does not belong to the range. -/
def Spoiled (call : ParallelCall) (chunks : List Task) : Prop :=
  ∃ i, (if call.start ≤ i ∧ i < call.stop then 1 else 0) < (calledIndices chunks).count i

/-- More chunks do not repair it. -/
theorem Spoiled.append (h : Spoiled call chunks) (later : List Task) :
    Spoiled call (chunks ++ later) := by
  obtain ⟨i, hi⟩ := h
  refine ⟨i, hi.trans_le ?_⟩
  rw [calledIndices_append, List.count_append]
  exact Nat.le_add_right _ _

/-- After a sum has wrapped around: the start lies below indices that have all been called, or
something is spoiled already. -/
def Fallen (call : ParallelCall) (state : ℕ × List Task) : Prop :=
  Spoiled call state.2 ∨ ∃ reached, state.1 < reached ∧ reached < call.stop ∧
    ∀ i, call.start ≤ i → i < reached → 1 ≤ (calledIndices state.2).count i

/-- A turn whose sum wraps around submits no index and falls back. -/
theorem chunk_of_wraps {id : ℕ} (hlt : first < call.stop) (hgrain : grain < 2 ^ 64)
    (hstop : call.stop < 2 ^ 64) (hwraps : 2 ^ 64 ≤ first + grain) :
    addU64 first grain < first ∧ calledIndices [call.chunk id first grain] = [] := by
  have hnext : addU64 first grain = first + grain - 2 ^ 64 := by
    rw [addU64, Nat.mod_eq_sub_mod hwraps, Nat.mod_eq_of_lt (by omega)]
  refine ⟨by omega, ?_⟩
  rw [calledIndices_chunk, chunkLast, if_pos (by omega), Nat.sub_eq_zero_of_le (by omega)]
  rfl

/-- A turn below indices that have been called falls further or calls one that spoils. -/
theorem Fallen.submitChunk {state : ℕ × List Task} (h : Fallen call state)
    (hpos : 0 < grain) (hgrain : grain < 2 ^ 64) (hstop : call.stop < 2 ^ 64) :
    Fallen call (call.submitChunk grain state) := by
  rcases h with hspoiled | ⟨reached, hlt, hreached, hcalled⟩
  · exact Or.inl (hspoiled.append _)
  · by_cases hfits : state.1 + grain < 2 ^ 64
    · refine Or.inl ⟨state.1, ?_⟩
      have hmem : 1 ≤ (calledIndices [call.chunk state.2.length state.1 grain]).count state.1 := by
        rw [calledIndices_chunk, call.chunkLast_eq hfits]
        refine List.one_le_count_iff.mpr (List.mem_range'_1.mpr ⟨le_rfl, ?_⟩)
        omega
      rw [ParallelCall.submitChunk, calledIndices_append, List.count_append]
      split
      · have hbefore := hcalled state.1 (by omega) hlt
        omega
      · omega
    · obtain ⟨hfall, hempty⟩ := @chunk_of_wraps call grain state.1 state.2.length (by omega) hgrain
        hstop (not_lt.mp hfits)
      refine Or.inr ⟨reached, hfall.trans hlt, hreached, fun i hstart hi => ?_⟩
      rw [ParallelCall.submitChunk, calledIndices_append, hempty, List.append_nil]
      exact hcalled i hstart hi

/-- A turn whose sum can be held does not end the range, where the last sum wraps around. -/
theorem Contiguous.submitChunk_lt {state : ℕ × List Task} (h : Contiguous call grain state)
    (hpos : 0 < grain) (hstop : call.stop < 2 ^ 64)
    (hwraps : 2 ^ 64 ≤ call.start + (call.stop - call.start + grain - 1) / grain * grain)
    (hfits : state.1 + grain < 2 ^ 64) : (call.submitChunk grain state).1 < call.stop := by
  obtain ⟨k, hk⟩ := h.aligned
  rw [ParallelCall.submitChunk, addU64, Nat.mod_eq_of_lt hfits]
  dsimp only
  by_contra hend
  -- the range would end with this turn, before the last sum
  have hsteps : (call.stop - call.start + grain - 1) / grain < k + 2 := by
    rw [Nat.div_lt_iff_lt_mul hpos, Nat.add_mul]
    omega
  have hmul := Nat.mul_le_mul_right grain (Nat.le_of_lt_succ hsteps)
  rw [Nat.succ_mul] at hmul
  omega

/-- The turn whose sum wraps around falls below what has been called. -/
theorem Contiguous.fallen {state : ℕ × List Task} (h : Contiguous call grain state)
    (hlt : state.1 < call.stop) (hgrain : grain < 2 ^ 64) (hstop : call.stop < 2 ^ 64)
    (hwraps : 2 ^ 64 ≤ state.1 + grain) : Fallen call (call.submitChunk grain state) := by
  obtain ⟨hfall, hempty⟩ := @chunk_of_wraps call grain state.1 state.2.length hlt hgrain hstop hwraps
  refine Or.inr ⟨state.1, hfall, hlt, fun i hstart hi => ?_⟩
  rw [ParallelCall.submitChunk, calledIndices_append, hempty, List.append_nil, h.covered,
    min_eq_left hlt.le]
  refine List.one_le_count_iff.mpr (List.mem_range'_1.mpr ⟨hstart, ?_⟩)
  omega

/-- Where the last sum wraps around, the loop does not end or its chunks are spoiled. -/
theorem spoiled_of_wraps (hrange : call.start < call.stop) (hpos : 0 < grain)
    (hgrain : grain < 2 ^ 64) (hstop : call.stop < 2 ^ 64)
    (hwraps : 2 ^ 64 ≤ call.start + (call.stop - call.start + grain - 1) / grain * grain)
    {fuel : ℕ} {state : ℕ × List Task}
    (hrun : call.submitLoop grain fuel (call.start, []) = some state) : Spoiled call state.2 := by
  have hstep : ∀ state, ((Contiguous call grain state ∧ state.1 < call.stop) ∨ Fallen call state) →
      decide (state.1 < call.stop) = true → ∀ (_ : ℕ) next,
      some (call.submitChunk grain state) = some next →
      (Contiguous call grain next ∧ next.1 < call.stop) ∨ Fallen call next := by
    intro state hinv _ _ next hnext
    obtain rfl := Option.some.inj hnext
    rcases hinv with ⟨hinv, hlt⟩ | hfallen
    · by_cases hfits : state.1 + grain < 2 ^ 64
      · exact Or.inl ⟨hinv.submitChunk hlt hfits, hinv.submitChunk_lt hpos hstop hwraps hfits⟩
      · exact Or.inr (hinv.fallen hlt hgrain hstop (not_lt.mp hfits))
    · exact Or.inr (hfallen.submitChunk hpos hgrain hstop)
  obtain ⟨hinv, hexit⟩ := whileLoop_keeps (fun state =>
    (Contiguous call grain state ∧ state.1 < call.stop) ∨ Fallen call state) hstep
    (Or.inl ⟨contiguous_start hrange, hrange⟩) hrun
  have hend : ¬ state.1 < call.stop := of_decide_eq_false hexit
  rcases hinv with ⟨-, hlt⟩ | hspoiled | ⟨reached, hlt, hreached, -⟩
  · exact absurd hlt hend
  · exact hspoiled
  · exact absurd (hlt.trans hreached) hend

end Wraps

/-- The loop of `parallel_for` ends and its chunks call `fn` once for each index of the range and
for no other, exactly where the range is empty or the start of the loop past the range can be held
in 64 bits. -/
theorem calls_once_iff (id : ℕ) (start stop grain : UInt64) (fn : ℕ → Option ExceptionPtr)
    (size : ℕ) :
    let call : ParallelCall := ⟨id, start.toNat, stop.toNat, fn⟩
    let used := call.usedGrain size grain.toNat
    Returns (call.submittedChunks size grain.toNat) (CallsOnce call) ↔
      stop ≤ start ∨
        start.toNat + (stop.toNat - start.toNat + used - 1) / used * used < 2 ^ 64 := by
  intro call used
  obtain ⟨hpos, hgrain⟩ := usedGrain_bounds call size grain.toNat_lt
  rw [UInt64.le_iff_toNat_le]
  constructor
  · rintro ⟨chunks, hchunks, bound, hrun⟩
    by_contra hnot
    rw [not_or, not_le, not_lt] at hnot
    have hchunksRun := hrun bound le_rfl
    rw [submittedChunks, if_neg (not_le.mpr hnot.1), Option.map_eq_some_iff] at hchunksRun
    obtain ⟨state, hstate, rfl⟩ := hchunksRun
    obtain ⟨i, hi⟩ := spoiled_of_wraps hnot.1 hpos hgrain stop.toNat_lt hnot.2 hstate
    exact absurd (hchunks.once i) hi.ne'
  · exact fun hfits => submittedChunks_returns hpos hfits

/-- The largest grain puts the second start of the range of the index 1 at 0. -/
theorem not_calls_once :
    ¬ ∀ (id : ℕ) (start stop grain : UInt64) (fn : ℕ → Option ExceptionPtr) (size : ℕ),
      Returns (ParallelCall.submittedChunks ⟨id, start.toNat, stop.toNat, fn⟩ size grain.toNat)
        (CallsOnce ⟨id, start.toNat, stop.toNat, fn⟩) := by
  intro h
  obtain ⟨chunks, hchunks, bound, hrun⟩ := h 0 1 2 0xFFFFFFFFFFFFFFFF (fun _ => none) 4
  have hchunksRun := hrun bound le_rfl
  rw [submittedChunks, if_neg (by decide), Option.map_eq_some_iff] at hchunksRun
  obtain ⟨state, hstate, rfl⟩ := hchunksRun
  obtain ⟨i, hi⟩ := spoiled_of_wraps (by decide) (by decide) (by decide) (by decide) (by decide)
    hstate
  exact absurd (hchunks.once i) hi.ne'

end ParallelCall

end VeloGraphX
