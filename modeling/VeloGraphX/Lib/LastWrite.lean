import Mathlib

/-!
# The last write wins

A sequence of operations is observed through one location. An operation either writes a
value there or leaves it alone, so what the location holds at the end is the last value
written, or what it held before. A sequence can therefore be reduced to the last operation
for each key without changing what any location of one key ends up with.
-/

namespace LastWrite

variable {σ ο β : Type*}

/-- The value of a location after a sequence of operations. -/
def lastWrite (write : ο → Option β) (ops : List ο) (initial : β) : β :=
  (ops.filterMap write).getLast?.getD initial

/-- Without operations the location keeps its value. -/
@[simp] theorem lastWrite_nil (write : ο → Option β) (initial : β) :
    lastWrite write [] initial = initial := rfl

/-- The first operation determines the value that the others start from. -/
theorem lastWrite_cons (write : ο → Option β) (op : ο) (rest : List ο) (initial : β) :
    lastWrite write (op :: rest) initial =
      lastWrite write rest ((write op).getD initial) := by
  unfold lastWrite
  cases hop : write op with
  | none => rw [List.filterMap_cons_none hop, Option.getD_none]
  | some b =>
    rw [List.filterMap_cons_some hop, List.getLast?_cons, Option.getD_some, Option.getD_some]

/-- A location nobody writes keeps its value. -/
theorem lastWrite_of_forall_none {write : ο → Option β} {ops : List ο}
    (h : ∀ op ∈ ops, write op = none) (initial : β) : lastWrite write ops initial = initial := by
  rw [lastWrite, List.filterMap_eq_nil_iff.mpr h]
  rfl

/-- A step function whose effect on a location is a write determines the location's value. -/
theorem get_foldl {step : σ → ο → σ} (get : σ → β) {write : ο → Option β}
    (h : ∀ s op, get (step s op) = (write op).getD (get s)) (ops : List ο) (s : σ) :
    get (ops.foldl step s) = lastWrite write ops (get s) := by
  induction ops generalizing s with
  | nil => rfl
  | cons op rest ih => rw [List.foldl_cons, ih, lastWrite_cons, h]

/-- The value held at the end was there from the beginning or was written by some operation. -/
theorem lastWrite_eq_or (write : ο → Option β) (ops : List ο) (initial : β) :
    ((∀ op ∈ ops, write op = none) ∧ lastWrite write ops initial = initial) ∨
      ∃ op ∈ ops, write op = some (lastWrite write ops initial) := by
  induction ops generalizing initial with
  | nil => exact Or.inl ⟨fun op hop => absurd hop List.not_mem_nil, rfl⟩
  | cons op rest ih =>
    rw [lastWrite_cons]
    rcases ih ((write op).getD initial) with ⟨hnone, hkeep⟩ | ⟨other, hmem, hother⟩
    · rw [hkeep]
      cases hop : write op with
      | none =>
        refine Or.inl ⟨fun other hmem => ?_, rfl⟩
        rcases List.mem_cons.mp hmem with rfl | hmem
        · exact hop
        · exact hnone other hmem
      | some b => exact Or.inr ⟨op, List.mem_cons_self, hop⟩
    · exact Or.inr ⟨other, List.mem_cons_of_mem _ hmem, hother⟩

section KeepLast

variable {κ : Type*} [DecidableEq κ] (entry : ο → Option (κ × ο))

/-- Look at one more operation, from the newest to the oldest: keep it unless a newer one with
the same key was kept. `entry` gives the key and the form in which the operation is kept. -/
def keepStep (op : ο) (state : List κ × List ο) : List κ × List ο :=
  match entry op with
  | none => state
  | some (key, kept) => if key ∈ state.1 then state else (key :: state.1, kept :: state.2)

/-- The last operation for each key, in order; operations without a key are dropped. -/
def keepLast (ops : List ο) : List ο := (ops.foldr (keepStep entry) ([], [])).2

/-- A location that exactly the operations with one key write, in either form. -/
structure Locates (write : ο → Option β) (key : κ) : Prop where
  none_of_none : ∀ op, entry op = none → write op = none
  kept_eq : ∀ op k kept, entry op = some (k, kept) → write kept = write op
  isSome_iff : ∀ op k kept, entry op = some (k, kept) → ((write op).isSome ↔ k = key)

variable {entry}

/-- The keys seen are those of the operations looked at. -/
theorem mem_seen {ops : List ο} {key : κ} :
    key ∈ (ops.foldr (keepStep entry) ([], [])).1 ↔ ∃ op ∈ ops, ∃ kept, entry op = some (key, kept) := by
  induction ops with
  | nil => simp
  | cons op rest ih =>
    rw [List.foldr_cons, keepStep]
    cases hentry : entry op with
    | none => simp [ih, hentry]
    | some found =>
      have hhead : (∃ kept, some found = some (key, kept)) ↔ key = found.1 := by
        refine ⟨fun ⟨kept, heq⟩ => ?_, fun heq => ⟨found.2, heq ▸ rfl⟩⟩
        rw [Option.some.inj heq]
      simp only [List.mem_cons, exists_eq_or_imp, hentry, hhead]
      split
      · rename_i hseen
        rw [ih]
        refine ⟨Or.inr, fun hor => hor.elim (fun heq => ih.mp ?_) id⟩
        rwa [heq]
      · rw [List.mem_cons, ih]

/-- What is kept is the kept form of some operation. -/
theorem exists_of_mem_keepLast {ops : List ο} {kept : ο} (h : kept ∈ keepLast entry ops) :
    ∃ op ∈ ops, ∃ key, entry op = some (key, kept) := by
  unfold keepLast at h
  induction ops with
  | nil => exact absurd h List.not_mem_nil
  | cons op rest ih =>
    rw [List.foldr_cons, keepStep] at h
    have hrest : kept ∈ (rest.foldr (keepStep entry) ([], [])).2 →
        ∃ op' ∈ op :: rest, ∃ key, entry op' = some (key, kept) := fun hmem => by
      obtain ⟨op', hop', hkey⟩ := ih hmem
      exact ⟨op', List.mem_cons_of_mem _ hop', hkey⟩
    cases hentry : entry op with
    | none =>
      rw [hentry] at h
      exact hrest h
    | some found =>
      rw [hentry] at h
      dsimp only at h
      split at h
      · exact hrest h
      · rcases List.mem_cons.mp h with rfl | hmem
        · exact ⟨op, List.mem_cons_self, found.1, hentry⟩
        · exact hrest hmem

/-- One more operation at the front is kept unless its key has been seen. -/
theorem keepLast_cons (op : ο) (rest : List ο) : keepLast entry (op :: rest) =
    match entry op with
    | none => keepLast entry rest
    | some (key, kept) =>
      if key ∈ (rest.foldr (keepStep entry) ([], [])).1 then keepLast entry rest
      else kept :: keepLast entry rest := by
  unfold keepLast
  rw [List.foldr_cons, keepStep]
  cases entry op with
  | none => rfl
  | some found =>
    dsimp only
    split <;> rfl

/-- The kept operations have distinct keys. -/
theorem nodup_map_keepLast {keyOf : ο → κ}
    (hkey : ∀ op k kept, entry op = some (k, kept) → keyOf kept = k) (ops : List ο) :
    ((keepLast entry ops).map keyOf).Nodup := by
  induction ops with
  | nil => exact List.nodup_nil
  | cons op rest ih =>
    rw [keepLast_cons]
    cases hentry : entry op with
    | none => exact ih
    | some found =>
      dsimp only
      split
      · exact ih
      · rename_i hfresh
        refine List.nodup_cons.mpr ⟨fun hmem => hfresh ?_, ih⟩
        obtain ⟨kept, hkept, heq⟩ := List.mem_map.mp hmem
        obtain ⟨newer, hnewer, k, hk⟩ := exists_of_mem_keepLast hkept
        have hsame : k = found.1 :=
          ((hkey _ _ _ hk).symm.trans heq).trans (hkey _ _ _ hentry)
        exact mem_seen.mpr ⟨newer, hnewer, kept, hsame ▸ hk⟩

/-- No more operations are kept than there are. -/
theorem length_keepLast_le (ops : List ο) : (keepLast entry ops).length ≤ ops.length := by
  induction ops with
  | nil => exact le_rfl
  | cons op rest ih =>
    rw [keepLast_cons, List.length_cons]
    cases entry op with
    | none => exact Nat.le_succ_of_le ih
    | some found =>
      dsimp only
      split
      · exact Nat.le_succ_of_le ih
      · exact Nat.succ_le_succ ih

variable {write : ο → Option β} {key : κ}

/-- A kept operation writes what its location ends up with. -/
theorem Locates.lastWrite_eq (h : Locates entry write key) {ops : List ο} {kept : ο}
    (hkept : kept ∈ keepLast entry ops) {b : β} (hwrite : write kept = some b) (initial : β) :
    lastWrite write ops initial = b := by
  unfold keepLast at hkept
  induction ops generalizing initial with
  | nil => exact absurd hkept List.not_mem_nil
  | cons op rest ih =>
    rw [lastWrite_cons]
    rw [List.foldr_cons, keepStep] at hkept
    cases hentry : entry op with
    | none =>
      rw [hentry] at hkept
      exact ih hkept _
    | some found =>
      rw [hentry] at hkept
      dsimp only at hkept
      split at hkept
      · exact ih hkept _
      · rename_i hseen
        rcases List.mem_cons.mp hkept with rfl | hmem
        · -- no newer operation has this key, so none writes this location
          rw [h.kept_eq op found.1 found.2 hentry] at hwrite
          have hkey := (h.isSome_iff op found.1 found.2 hentry).mp (hwrite ▸ rfl)
          have hnone : ∀ op' ∈ rest, write op' = none := fun op' hop' => by
            cases hentry' : entry op' with
            | none => exact h.none_of_none op' hentry'
            | some found' =>
              refine Option.not_isSome_iff_eq_none.mp fun hsome => hseen ?_
              have hkey' := (h.isSome_iff op' found'.1 found'.2 hentry').mp hsome
              rw [hkey, ← hkey']
              exact mem_seen.mpr ⟨op', hop', found'.2, hentry'⟩
          rw [lastWrite_of_forall_none hnone, hwrite, Option.getD_some]
        · exact ih hmem _

/-- Some kept operation writes a location that any operation writes. -/
theorem Locates.exists_kept (h : Locates entry write key) {ops : List ο}
    (hwrite : ∃ op ∈ ops, (write op).isSome) : ∃ kept ∈ keepLast entry ops, (write kept).isSome := by
  unfold keepLast
  induction ops with
  | nil => exact absurd hwrite (by simp)
  | cons op rest ih =>
    rw [List.foldr_cons, keepStep]
    cases hentry : entry op with
    | none =>
      refine ih ?_
      obtain ⟨op', hop', hsome⟩ := hwrite
      rcases List.mem_cons.mp hop' with rfl | hrest
      · rw [h.none_of_none _ hentry] at hsome
        exact absurd hsome (by simp)
      · exact ⟨op', hrest, hsome⟩
    | some found =>
      dsimp only
      have hiff := h.isSome_iff op found.1 found.2 hentry
      split
      · rename_i hseen
        obtain ⟨newer, hnewer, kept, hkept⟩ := mem_seen.mp hseen
        refine ih ?_
        obtain ⟨op', hop', hsome⟩ := hwrite
        rcases List.mem_cons.mp hop' with rfl | hrest
        · exact ⟨newer, hnewer, (h.isSome_iff newer _ _ hkept).mpr (hiff.mp hsome)⟩
        · exact ⟨op', hrest, hsome⟩
      · obtain ⟨op', hop', hsome⟩ := hwrite
        rcases List.mem_cons.mp hop' with rfl | hrest
        · refine ⟨found.2, List.mem_cons_self, ?_⟩
          rwa [h.kept_eq _ _ _ hentry]
        · obtain ⟨kept, hkept, hsome'⟩ := ih ⟨op', hrest, hsome⟩
          exact ⟨kept, List.mem_cons_of_mem _ hkept, hsome'⟩

/-- The kept operations write the locations that the operations do. -/
theorem Locates.exists_write_iff (h : Locates entry write key) {ops : List ο} :
    (∃ kept ∈ keepLast entry ops, (write kept).isSome) ↔ ∃ op ∈ ops, (write op).isSome := by
  refine ⟨fun ⟨kept, hkept, hsome⟩ => ?_, h.exists_kept⟩
  obtain ⟨op, hop, k, hentry⟩ := exists_of_mem_keepLast hkept
  exact ⟨op, hop, by rwa [← h.kept_eq op k kept hentry]⟩

/-- Dropping the operations that are overridden changes no location. -/
theorem Locates.lastWrite_keepLast (h : Locates entry write key) (ops : List ο) (initial : β) :
    lastWrite write (keepLast entry ops) initial = lastWrite write ops initial := by
  rcases lastWrite_eq_or write (keepLast entry ops) initial with
    ⟨hnone, hkeep⟩ | ⟨kept, hkept, hwrite⟩
  · -- nothing kept writes the location, so nothing does
    have hunwritten : ∀ op ∈ ops, write op = none := fun op hop => by
      refine Option.not_isSome_iff_eq_none.mp fun hsome => ?_
      obtain ⟨kept, hkept, hsome'⟩ := h.exists_kept ⟨op, hop, hsome⟩
      rw [hnone kept hkept] at hsome'
      exact absurd hsome' (by simp)
    rw [hkeep, lastWrite_of_forall_none hunwritten]
  · exact (h.lastWrite_eq hkept hwrite initial).symm

end KeepLast

end LastWrite
