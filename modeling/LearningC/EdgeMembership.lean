import LearningC.LockTable

/-!
# What `verify_edge` decides

The walk of `verify_edge` starts at the vertex itself, which is no entry of its list, and
compares `th_id` only, whereas vertices have a type as well.
-/

namespace LearningC

namespace TaskGraph

/-- The list of the vertex with the key of `u` has an entry with the key of `v`. -/
def HasEdge (tg : TaskGraph) (u v : Pair) : Prop := ∃ cnt ∈ tg.adj u.key, cnt.key = v.key

instance (tg : TaskGraph) (u v : Pair) : Decidable (tg.HasEdge u v) :=
  inferInstanceAs (Decidable (∃ cnt ∈ tg.adj u.key, cnt.key = v.key))

/-- Neither `u` itself nor an entry of its list is mistaken for a missing edge to `v`. -/
def Told (tg : TaskGraph) (u v : Pair) : Prop :=
  tg.HasEdge u v ∨ u.thId ≠ v.thId ∧ ∀ cnt ∈ tg.adj u.key, cnt.thId ≠ v.thId

section
variable {tg : TaskGraph} {u v : Pair}

theorem HasEdge.vertex (h : tg.HasEdge u v) : u.key ∈ tg.keys := by
  obtain ⟨cnt, hcnt, -⟩ := h
  by_contra hu
  rw [adj_of_notMem hu] at hcnt
  cases hcnt

theorem HasEdge.thId (h : tg.HasEdge u v) : ∃ cnt ∈ tg.adj u.key, cnt.thId = v.thId := by
  obtain ⟨cnt, hcnt, hkey⟩ := h
  exact ⟨cnt, hcnt, congrArg Prod.snd hkey⟩

theorem HasEdge.verifyEdge (h : tg.HasEdge u v) : tg.verifyEdge u v = true :=
  (verifyEdge_eq tg u v).mpr ⟨h.vertex, Or.inr h.thId⟩

theorem not_told (hno : ¬ tg.HasEdge u v) :
    ¬ tg.Told u v ↔ u.thId = v.thId ∨ ∃ cnt ∈ tg.adj u.key, cnt.thId = v.thId := by
  unfold Told
  simp only [hno, false_or, not_and_or, not_not, not_forall, ne_eq, exists_prop]

/-- **Edge membership.** `verify_edge` tells whether the edge is there exactly when `u` is no
vertex, or nothing is mistaken for the edge. -/
theorem verifyEdge_iff_told : (tg.verifyEdge u v = true ↔ tg.HasEdge u v) ↔ u.key ∉ tg.keys ∨ tg.Told u v := by
  by_cases hedge : tg.HasEdge u v
  · exact iff_of_true (iff_of_true hedge.verifyEdge hedge) (Or.inr (Or.inl hedge))
  · rw [iff_false_right hedge, verifyEdge_eq, ← not_told hedge, not_and_or, not_not]

/-! ## The edge of lock_before -/

theorem hasEdge_waitEdge (t w : Nat) :
    (tg.waitEdge t w).HasEdge (processPair t) (processPair w) ↔ tg.Told (processPair t) (processPair w) := by
  unfold HasEdge
  rw [adj_waitEdge]
  by_cases hnew : t ≠ w ∧ ∀ cnt ∈ tg.adj (processPair t).key, cnt.thId ≠ w
  · rw [if_pos ⟨rfl, hnew⟩]
    exact iff_of_true ⟨processPair w, List.mem_append_right _ (List.mem_singleton_self _), rfl⟩ (Or.inr hnew)
  · rw [if_neg fun h => hnew h.2]
    exact ⟨Or.inl, fun h => h.resolve_right hnew⟩

theorem hasEdge_modifyLock (idx : Nat) (f : Pair → Pair) : (tg.modifyLock idx f).HasEdge u v ↔ tg.HasEdge u v := Iff.rfl

theorem lockBefore_hasEdge {t l : Nat} {slot : Pair} (h : tg.entry l = some slot) :
    ∃ tg', lockBefore t l tg = some tg' ∧
      (tg'.HasEdge (processPair t) (processPair slot.thId) ↔ tg.Told (processPair t) (processPair slot.thId)) := by
  obtain ⟨idx, -, hlock⟩ := lockBefore_some (t := t) h
  exact ⟨_, hlock, (hasEdge_modifyLock _ _).trans (hasEdge_waitEdge t slot.thId)⟩

end

/-- **`verify_edge` and `lock_before`**: when the one decides membership, and when the other
leaves its edge in the graph. -/
theorem edgeMembership_iff_told (tg : TaskGraph) :
    (∀ u v, (tg.verifyEdge u v = true ↔ tg.HasEdge u v) ↔ u.key ∉ tg.keys ∨ tg.Told u v) ∧
      ∀ t l slot, tg.entry l = some slot → ∃ tg', lockBefore t l tg = some tg' ∧
        (tg'.HasEdge (processPair t) (processPair slot.thId) ↔ tg.Told (processPair t) (processPair slot.thId)) :=
  ⟨fun _ _ => verifyEdge_iff_told, fun _ _ _ h => lockBefore_hasEdge h⟩

/-- A single thread without edges. -/
def loneGraph : TaskGraph := processGraph [1] []

theorem verifyEdge_self : ¬ ∀ tg, Built tg → ∀ u v, tg.verifyEdge u v = true ↔ tg.HasEdge u v := by
  intro h
  have hiff := h loneGraph ⟨_, _, rfl, rfl⟩ (processPair 1) (processPair 1)
  exact absurd (hiff.mp (by decide)) (by decide)

end TaskGraph

end LearningC
