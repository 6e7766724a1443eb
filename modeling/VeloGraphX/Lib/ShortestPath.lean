import Mathlib

/-!
# Capped shortest-path labels and label correction

Walks from a set of start vertices over weighted arcs, labels that are exact up to a cap,
and the invariants of label-correcting algorithms: every label below the cap bounds the
length of a walk, and every arc is relaxed unless it is excepted. When no arc is excepted
any more the labels are exact, in whatever order the arcs were relaxed.
-/

namespace ShortestPath

variable {V : Type*} {start : Set V} {arc arc' : V → ℕ → V → Prop} {cap : ℕ} {d : V → ℕ}

/-- `Walk start arc v c`: a walk of length `c` leads from a start vertex to `v`. -/
inductive Walk (start : Set V) (arc : V → ℕ → V → Prop) : V → ℕ → Prop
  | nil {v : V} : v ∈ start → Walk start arc v 0
  | snoc {u v : V} {c w : ℕ} : Walk start arc u c → arc u w v → Walk start arc v (c + w)

/-- More arcs allow more walks. -/
theorem Walk.mono {v : V} {c : ℕ} (h : Walk start arc v c)
    (hle : ∀ u w v, arc u w v → arc' u w v) : Walk start arc' v c := by
  induction h with
  | nil hv => exact .nil hv
  | snoc _ harc ih => exact .snoc ih (hle _ _ _ harc)

/-- Where a walk leads somewhere, there is a start vertex. -/
theorem Walk.start_nonempty {v : V} {c : ℕ} (h : Walk start arc v c) : start.Nonempty := by
  induction h with
  | nil hv => exact ⟨_, hv⟩
  | snoc _ _ ih => exact ih

/-- Labels that are the shortest walk lengths, cut off at the cap. -/
structure Exact (start : Set V) (arc : V → ℕ → V → Prop) (cap : ℕ) (d : V → ℕ) : Prop where
  le_cap : ∀ v, d v ≤ cap
  le_walk : ∀ v c, Walk start arc v c → d v ≤ c
  walk : ∀ v, d v < cap → Walk start arc v (d v)

/-- Exact labels are unique. -/
theorem Exact.unique {d' : V → ℕ} (h : Exact start arc cap d) (h' : Exact start arc cap d') :
    d = d' := by
  funext v
  apply le_antisymm
  · rcases (h'.le_cap v).lt_or_eq with hlt | heq
    · exact h.le_walk v _ (h'.walk v hlt)
    · exact heq ▸ h.le_cap v
  · rcases (h.le_cap v).lt_or_eq with hlt | heq
    · exact h'.le_walk v _ (h.walk v hlt)
    · exact heq ▸ h'.le_cap v

/-- An exact label is the least walk length, cut off at the cap. -/
theorem Exact.eq_min (h : Exact start arc cap d) {v : V} {c : ℕ}
    (hc : IsLeast {c | Walk start arc v c} c) : d v = min c cap := by
  apply le_antisymm
  · exact le_min (h.le_walk v c hc.1) (h.le_cap v)
  · rcases (h.le_cap v).lt_or_eq with hlt | heq
    · exact (min_le_left _ _).trans (hc.2 (h.walk v hlt))
    · exact heq ▸ min_le_right _ _

/-- Without a walk an exact label is the cap. -/
theorem Exact.eq_cap (h : Exact start arc cap d) {v : V} (hv : ∀ c, ¬ Walk start arc v c) :
    d v = cap :=
  ((h.le_cap v).lt_or_eq).resolve_left fun hlt => hv _ (h.walk v hlt)

/-- Two exact labellings with different caps agree where walks are shorter than both caps. -/
theorem Exact.agree {cap' : ℕ} {d' : V → ℕ} (h : Exact start arc cap d)
    (h' : Exact start arc cap' d') {v : V}
    (hbound : ∀ c, Walk start arc v c → d v < cap ∧ d' v < cap') :
    (d v = cap ↔ d' v = cap') ∧ (d v ≠ cap → d v = d' v) := by
  by_cases hwalk : ∃ c, Walk start arc v c
  · obtain ⟨c, hc⟩ := hwalk
    obtain ⟨hlt, hlt'⟩ := hbound c hc
    refine ⟨iff_of_false hlt.ne hlt'.ne, fun _ => le_antisymm ?_ ?_⟩
    · exact h.le_walk v _ (h'.walk v hlt')
    · exact h'.le_walk v _ (h.walk v hlt)
  · have hnone := fun c hc => hwalk ⟨c, hc⟩
    exact ⟨iff_of_true (h.eq_cap hnone) (h'.eq_cap hnone), fun hne => absurd (h.eq_cap hnone) hne⟩

/-- Some walk is shortest. -/
theorem exists_isLeast {v : V} {c : ℕ} (h : Walk start arc v c) :
    ∃ c₀, IsLeast {c | Walk start arc v c} c₀ := by
  classical
  exact ⟨Nat.find ⟨c, h⟩, Nat.find_spec ⟨c, h⟩, fun _ hc => Nat.find_min' ⟨c, h⟩ hc⟩

section Unit

variable (hunit : ∀ u w v, arc u w v → w = 1)

include hunit in
/-- With unit weights a vertex at distance `c` has, for every smaller number, a vertex at
that distance. -/
theorem exists_level {v : V} {c : ℕ} (hc : IsLeast {c | Walk start arc v c} c) {k : ℕ}
    (hk : k ≤ c) : ∃ u, IsLeast {c | Walk start arc u c} k := by
  induction c generalizing v with
  | zero => exact ⟨v, (Nat.le_zero.mp hk) ▸ hc⟩
  | succ c ih =>
    rcases hk.lt_or_eq with hlt | rfl
    · obtain ⟨u, hu⟩ : ∃ u, IsLeast {c | Walk start arc u c} c := by
        have hwalk := hc.1
        generalize hn : c + 1 = n at hwalk
        cases hwalk with
        | nil _ => omega
        | @snoc u _ c' w hu harc =>
          have hw := hunit u w v harc
          obtain rfl : c' = c := by omega
          refine ⟨u, hu, fun k hk => ?_⟩
          have hle : c' + 1 ≤ k + w := hc.2 (Walk.snoc hk harc)
          omega
      exact ih hu (Nat.lt_succ_iff.mp hlt)
    · exact ⟨v, hc⟩

include hunit in
/-- With unit weights a shortest walk is shorter than the number of vertices that walks reach. -/
theorem lt_card_of_isLeast {S : Finset V} (hS : ∀ v c, Walk start arc v c → v ∈ S) {v : V}
    {c : ℕ} (hc : IsLeast {c | Walk start arc v c} c) : c < S.card := by
  have : Nonempty V := ⟨v⟩
  choose! at_ hat using fun k (hk : k ≤ c) => exists_level hunit hc hk
  have hcard := Finset.card_le_card_of_injOn (s := Finset.range (c + 1)) (t := S) at_
    (fun k hk => hS _ _ (hat k (Nat.lt_succ_iff.mp (Finset.mem_range.mp hk))).1)
    (fun k hk l hl heq => by
      have hk' := hat k (Nat.lt_succ_iff.mp (by simpa using hk))
      have hl' := hat l (Nat.lt_succ_iff.mp (by simpa using hl))
      exact (heq ▸ hk').unique hl')
  rw [Finset.card_range] at hcard
  omega

include hunit in
/-- Unit-weight labels below a cap that is large enough are smaller than the vertex number. -/
theorem Exact.lt_card (h : Exact start arc cap d) {S : Finset V}
    (hS : ∀ v c, Walk start arc v c → v ∈ S) {v : V} {c : ℕ} (hv : Walk start arc v c) :
    d v < S.card := by
  obtain ⟨c₀, hc₀⟩ := exists_isLeast hv
  exact (h.le_walk v c₀ hc₀.1).trans_lt (lt_card_of_isLeast hunit hS hc₀)

end Unit

/-- Labels every one of which is justified: start vertices have label zero, and a label below
the cap bounds the length of a walk. -/
structure Justified (start : Set V) (arc : V → ℕ → V → Prop) (cap : ℕ) (d : V → ℕ) : Prop where
  le_cap : ∀ v, d v ≤ cap
  source : ∀ v ∈ start, d v = 0
  walk : ∀ v, d v < cap → ∃ c ≤ d v, Walk start arc v c

/-- Labels are justified when every finite one is zero at a start vertex or is reached over an
arc from a smaller one. -/
theorem justified_of_parents (hle : ∀ v, d v ≤ cap) (hsource : ∀ v ∈ start, d v = 0)
    (hparent : ∀ v, d v < cap → v ∈ start ∨ ∃ u w, arc u w v ∧ d u < d v ∧ d u + w ≤ d v) :
    Justified start arc cap d := by
  refine ⟨hle, hsource, fun v hv => ?_⟩
  induction hlabel : d v using Nat.strong_induction_on generalizing v with
  | _ label ih =>
    rcases hparent v hv with hstart | ⟨u, w, harc, hless, hsum⟩
    · exact ⟨0, Nat.zero_le _, .nil hstart⟩
    · obtain ⟨c, hc, hwalk⟩ := ih (d u) (hlabel ▸ hless) u (hless.trans hv) rfl
      exact ⟨c + w, by omega, .snoc hwalk harc⟩

/-- Every arc is relaxed unless it is excepted. -/
def Relaxed (arc : V → ℕ → V → Prop) (except : V → V → Prop) (d : V → ℕ) : Prop :=
  ∀ u w v, arc u w v → except u v ∨ d v ≤ d u + w

/-- Justified labels all of whose arcs are relaxed are exact. -/
theorem Justified.exact (h : Justified start arc cap d)
    (hrelaxed : Relaxed arc (fun _ _ => False) d) : Exact start arc cap d := by
  have hle : ∀ v c, Walk start arc v c → d v ≤ c := by
    intro v c hwalk
    induction hwalk with
    | nil hv => exact (h.source _ hv).le
    | snoc _ harc ih =>
      have := (hrelaxed _ _ _ harc).resolve_left id
      omega
  refine ⟨h.le_cap, hle, fun v hlt => ?_⟩
  obtain ⟨c, hc, hwalk⟩ := h.walk v hlt
  rwa [(hle v c hwalk).antisymm hc]

/-- Exact labels relax every arc. -/
theorem Exact.relaxed (h : Exact start arc cap d) {u v : V} {w : ℕ} (harc : arc u w v) :
    d v ≤ d u + w := by
  rcases (h.le_cap u).lt_or_eq with hlt | heq
  · exact h.le_walk v _ (.snoc (h.walk u hlt) harc)
  · have := h.le_cap v
    omega

/-- A label below the cap is the least walk length. -/
theorem Exact.isLeast (h : Exact start arc cap d) {v : V} (hv : d v < cap) :
    IsLeast {c | Walk start arc v c} (d v) := ⟨h.walk v hv, h.le_walk v⟩

/-- When arcs are removed, all walks that are left are longer than the label exactly when none of
its length is left. -/
theorem Exact.lt_walk_iff (h : Exact start arc cap d) (hleft : ∀ u w v, arc' u w v → arc u w v)
    {v : V} : (∀ c, Walk start arc' v c → d v < c) ↔ ¬ Walk start arc' v (d v) := by
  refine ⟨fun hlonger hwalk => lt_irrefl _ (hlonger _ hwalk), fun hnone c hwalk => ?_⟩
  refine lt_of_le_of_ne (h.le_walk v c (hwalk.mono hleft)) fun heq => hnone ?_
  rwa [heq]

/-- When arcs are removed, a vertex away from the start keeps a walk of its label's length exactly
when one of its shortest parents does, and the arc from it is left. -/
theorem Exact.walk_left_iff (h : Exact start arc cap d) (hleft : ∀ u w v, arc' u w v → arc u w v)
    {v : V} (hv : v ∉ start) : Walk start arc' v (d v) ↔
      ∃ u w, arc' u w v ∧ d u + w = d v ∧ Walk start arc' u (d u) := by
  constructor
  · intro hwalk
    generalize hlabel : d v = label at hwalk
    cases hwalk with
    | nil hstart => exact absurd hstart hv
    | @snoc u _ c w hfirst hlast =>
      have hle := h.le_walk u c (hfirst.mono hleft)
      have hrelaxed := h.relaxed (hleft u w v hlast)
      obtain rfl : d u = c := by omega
      exact ⟨u, w, hlast, rfl, hfirst⟩
  · rintro ⟨u, w, harc, hsum, hwalk⟩
    exact hsum ▸ .snoc hwalk harc

/-- Fewer exceptions are a stronger statement. -/
theorem Relaxed.mono {except except' : V → V → Prop} (h : Relaxed arc except d)
    (hle : ∀ u v, except u v → except' u v) : Relaxed arc except' d :=
  fun u w v harc => (h u w v harc).imp_left (hle u v)

section Relaxation

variable [DecidableEq V]

/-- Relax one arc. -/
def relax (d : V → ℕ) (u : V) (w : ℕ) (v : V) : V → ℕ :=
  Function.update d v (min (d v) (d u + w))

/-- Relaxing lowers labels only. -/
theorem relax_le (d : V → ℕ) (u : V) (w : ℕ) (v x : V) : relax d u w v x ≤ d x := by
  unfold relax
  by_cases hx : x = v
  · subst hx
    rw [Function.update_self]
    exact min_le_left _ _
  · rw [Function.update_of_ne hx]

/-- Only the target of the arc can get a new label. -/
theorem relax_of_ne (d : V → ℕ) (u : V) (w : ℕ) {v x : V} (h : x ≠ v) :
    relax d u w v x = d x := Function.update_of_ne h _ _

/-- The source of the arc keeps its label, even on a self-loop. -/
theorem relax_source (d : V → ℕ) (u : V) (w : ℕ) (v : V) : relax d u w v u = d u := by
  unfold relax
  by_cases hu : u = v
  · subst hu
    rw [Function.update_self]
    omega
  · rw [Function.update_of_ne hu]

/-- The target's label after relaxing. -/
theorem relax_target (d : V → ℕ) (u : V) (w : ℕ) (v : V) :
    relax d u w v v = min (d v) (d u + w) := Function.update_self _ _ _

/-- A relaxed arc is not relaxed any further. -/
theorem relax_eq_self {u v : V} {w : ℕ} (h : d v ≤ d u + w) : relax d u w v = d := by
  rw [relax, min_eq_left h, Function.update_eq_self]

/-- Relaxing keeps labels justified. -/
theorem Justified.relax (h : Justified start arc cap d) {u v : V} {w : ℕ} (harc : arc u w v) :
    Justified start arc cap (relax d u w v) := by
  rcases (h.le_cap u).lt_or_eq with hu | hu
  · refine ⟨fun x => (relax_le d u w v x).trans (h.le_cap x), fun x hx => ?_, fun x hx => ?_⟩
    · exact Nat.le_zero.mp ((relax_le d u w v x).trans (h.source x hx).le)
    · by_cases hxv : x = v
      · subst hxv
        rw [relax_target] at hx ⊢
        rcases min_choice (d x) (d u + w) with hmin | hmin
        · rw [hmin] at hx ⊢
          exact h.walk x hx
        · obtain ⟨c, hc, hwalk⟩ := h.walk u hu
          rw [hmin]
          exact ⟨c + w, Nat.add_le_add_right hc w, .snoc hwalk harc⟩
      · rw [relax_of_ne d u w hxv] at hx ⊢
        exact h.walk x hx
  · have hle := h.le_cap v
    rw [relax_eq_self (by omega)]
    exact h

/-- After relaxing an arc only arcs out of a lowered target are newly excepted. -/
theorem Relaxed.relax {except except' : V → V → Prop} (h : Relaxed arc except d) {u v : V}
    {w : ℕ} (hkeep : ∀ x w' y, arc x w' y → except x y → (x = u ∧ y = v ∧ w' = w) ∨ except' x y)
    (hnew : d u + w < d v → ∀ y, except' v y) : Relaxed arc except' (relax d u w v) := by
  intro x w' y harc
  by_cases hlow : x = v ∧ d u + w < d v
  · obtain ⟨rfl, hlt⟩ := hlow
    exact Or.inl (hnew hlt y)
  · have hx : ShortestPath.relax d u w v x = d x := by
      by_cases hxv : x = v
      · subst hxv
        rw [relax_target]
        exact min_eq_left (not_lt.mp fun hlt => hlow ⟨rfl, hlt⟩)
      · exact relax_of_ne d u w hxv
    rw [hx]
    rcases h x w' y harc with hexcept | hrel
    · rcases hkeep x w' y harc hexcept with ⟨rfl, rfl, rfl⟩ | hexcept'
      · rw [relax_target]
        exact Or.inr (min_le_right _ _)
      · exact Or.inl hexcept'
    · exact Or.inr ((relax_le d u w v y).trans hrel)

variable {σ : Type*}

/-- A program step that relaxes one arc and makes a lowered target pending. -/
structure Relaxes (label : σ → V → ℕ) (pending : σ → V → Prop) (s s' : σ) (u : V) (w : ℕ)
    (v : V) : Prop where
  label_eq : label s' = relax (label s) u w v
  keep : ∀ x, pending s x → pending s' x
  mark : label s u + w < label s v → pending s' v

/-- Relaxing a list of arcs one by one leaves exceptions only at pending vertices. The arcs
that must be relaxed may be others than those that justify the labels. -/
theorem relaxAll {β : Type*} (label : σ → V → ℕ) (pending : σ → V → Prop) (inv : σ → Prop)
    (step : σ → β → σ) (source : β → V) (weight : β → ℕ) (target : β → V) {list : List β}
    {need : V → ℕ → V → Prop}
    (hstep : ∀ s, inv s → ∀ b ∈ list, inv (step s b) ∧
      Relaxes label pending s (step s b) (source b) (weight b) (target b))
    (harc : ∀ b ∈ list, arc (source b) (weight b) (target b))
    (hunique : ∀ b ∈ list, ∀ w, need (source b) w (target b) → w = weight b)
    (s : σ) (hinv : inv s) (hjust : Justified start arc cap (label s))
    (hrel : Relaxed need (fun x y => pending s x ∨ ∃ b ∈ list, source b = x ∧ target b = y)
      (label s)) :
    inv (list.foldl step s) ∧ Justified start arc cap (label (list.foldl step s)) ∧
      Relaxed need (fun x _ => pending (list.foldl step s) x) (label (list.foldl step s)) := by
  induction list generalizing s with
  | nil => exact ⟨hinv, hjust, hrel.mono fun x y hor => hor.resolve_right (by simp)⟩
  | cons b rest ih =>
    obtain ⟨hinv', hrelaxes⟩ := hstep s hinv b List.mem_cons_self
    have hmem : ∀ {c}, c ∈ rest → c ∈ b :: rest := List.mem_cons_of_mem b
    rw [List.foldl_cons]
    refine ih (fun s hs c hc => hstep s hs c (hmem hc)) (fun c hc => harc c (hmem hc))
      (fun c hc => hunique c (hmem hc)) _ hinv' ?_ ?_
    · rw [hrelaxes.label_eq]
      exact hjust.relax (harc b List.mem_cons_self)
    · rw [hrelaxes.label_eq]
      refine hrel.relax (fun x w y hxy hexcept => ?_) fun hlt y => Or.inl (hrelaxes.mark hlt)
      rcases hexcept with hpending | ⟨c, hc, rfl, rfl⟩
      · exact Or.inr (Or.inl (hrelaxes.keep x hpending))
      · rcases List.mem_cons.mp hc with rfl | hc
        · exact Or.inl ⟨rfl, rfl, hunique c List.mem_cons_self w hxy⟩
        · exact Or.inr (Or.inr ⟨c, hc, rfl, rfl⟩)

/-- Scanning arcs out of a vertex, among them all that must be relaxed. -/
theorem scan {β : Type*} (label : σ → V → ℕ) (pending : σ → V → Prop) (inv : σ → Prop)
    (step : σ → β → σ) (u : V) (weight : β → ℕ) (target : β → V) {out : List β}
    {need : V → ℕ → V → Prop}
    (hstep : ∀ s, inv s → ∀ b ∈ out,
      inv (step s b) ∧ Relaxes label pending s (step s b) u (weight b) (target b))
    (hout : ∀ b ∈ out, arc u (weight b) (target b))
    (hneed : ∀ w v, need u w v → ∃ b ∈ out, target b = v)
    (hunique : ∀ b ∈ out, ∀ w, need u w (target b) → w = weight b)
    (s : σ) (hinv : inv s) (hjust : Justified start arc cap (label s))
    (hrel : Relaxed need (fun x _ => pending s x ∨ x = u) (label s)) :
    inv (out.foldl step s) ∧ Justified start arc cap (label (out.foldl step s)) ∧
      Relaxed need (fun x _ => pending (out.foldl step s) x) (label (out.foldl step s)) := by
  refine relaxAll label pending inv step (fun _ => u) weight target hstep hout hunique s hinv
    hjust fun x w y hxy => (hrel x w y hxy).imp_left fun hor => hor.imp_right fun hx => ?_
  obtain ⟨b, hb, htarget⟩ := hneed w y (hx ▸ hxy)
  exact ⟨b, hb, hx.symm, htarget⟩

end Relaxation

end ShortestPath
