import LearningC.DfsCalls

/-!
# The verdict does not depend on the order of vertices and edges

`check_dead_lock` leaves `deadlock = 0` exactly when the edges from every vertex form
trees. Two graphs with the same keys and the same successors, in whatever order,
agree on that.
-/

namespace LearningC

open MarkSearch Fuel

namespace TaskGraph

/-- The same vertex keys and, under every key, the same successors up to order. -/
structure SameGraph (g₁ g₂ : TaskGraph) : Prop where
  keys : ∀ a, a ∈ g₁.keys ↔ a ∈ g₂.keys
  succs : ∀ ver₁ ∈ g₁.vertexList, ∀ ver₂ ∈ g₂.vertexList, ver₁.key = ver₂.key →
    (ver₁.next.map Pair.key).Perm (ver₂.next.map Pair.key)

theorem SameGraph.symm {g₁ g₂ : TaskGraph} (h : SameGraph g₁ g₂) : SameGraph g₂ g₁ :=
  ⟨fun a => (h.keys a).symm, fun ver₂ h₂ ver₁ h₁ e => (h.succs ver₁ h₁ ver₂ h₂ e.symm).symm⟩

theorem SameGraph.closed {g₁ g₂ : TaskGraph} (h : SameGraph g₁ g₂) (hc : g₁.Closed) : g₂.Closed := by
  intro ver₂ hv₂ pair hp
  obtain ⟨ver₁, hv₁, e⟩ := List.mem_map.mp ((h.keys ver₂.key).mpr (List.mem_map_of_mem hv₂))
  obtain ⟨q, hq, eq⟩ := List.mem_map.mp (((h.succs ver₁ hv₁ ver₂ hv₂ e).mem_iff).mpr (List.mem_map_of_mem hp))
  rw [← h.keys, ← eq]
  exact hc ver₁ hv₁ q hq

def Match (g₁ g₂ : TaskGraph) (x y : Nat) : Prop :=
  ∃ pair, g₁.searchVertex pair = some x ∧ g₂.searchVertex pair = some y

section
variable {g₁ g₂ : TaskGraph}

theorem Match.functional {x y z : Nat} (hy : Match g₁ g₂ x y) (hz : Match g₁ g₂ x z) : y = z := by
  obtain ⟨p, hp₁, hp₂⟩ := hy
  obtain ⟨q, hq₁, hq₂⟩ := hz
  rw [searchVertex_congr g₂ (searchVertex_inj hp₁ hq₁), hq₂] at hp₂
  exact (Option.some.inj hp₂).symm

theorem Match.injective {x y z : Nat} (hx : Match g₁ g₂ x z) (hy : Match g₁ g₂ y z) : x = y := by
  obtain ⟨p, hp₁, hp₂⟩ := hx
  obtain ⟨q, hq₁, hq₂⟩ := hy
  rw [searchVertex_congr g₁ (searchVertex_inj hp₂ hq₂), hq₁] at hp₁
  exact (Option.some.inj hp₁).symm

theorem count_succ (g : TaskGraph) {i w : Nat} {ver : Vertex} {pair : Pair} (hv : g.vertexList[i]? = some ver)
    (hs : g.searchVertex pair = some w) : (g.succ i).count w = (ver.next.map Pair.key).count pair.key := by
  have hsucc : g.succ i = ver.next.filterMap g.searchVertex := by
    unfold succ; rw [hv]; rfl
  rw [hsucc]
  induction ver.next with
  | nil => rfl
  | cons q l ih =>
    rw [List.map_cons, List.count_cons, ← ih, List.filterMap_cons]
    by_cases e : q.key = pair.key
    · simp [searchVertex_congr g e, hs, e]
    · cases hq : g.searchVertex q with
      | none => simp [e]
      | some j =>
        have : j ≠ w := fun hj => e (searchVertex_inj hq (hj ▸ hs))
        simp [e, this]

theorem SameGraph.step (h : SameGraph g₁ g₂) (hc : g₁.Closed) {x y : Nat} {ver₁ ver₂ : Vertex}
    (h₁ : g₁.vertexList[x]? = some ver₁) (h₂ : g₂.vertexList[y]? = some ver₂) (e : ver₁.key = ver₂.key) :
    ∀ w ∈ g₁.succ x, ∃ w', Match g₁ g₂ w w' ∧ w' ∈ g₂.succ y ∧ (g₁.succ x).count w = (g₂.succ y).count w' := by
  intro w hw
  obtain ⟨ver, hv, pair, hp, hs⟩ := mem_succ.mp hw
  rw [h₁] at hv
  cases hv
  have hm₁ := List.mem_of_getElem? h₁
  have hperm := h.succs ver₁ hm₁ ver₂ (List.mem_of_getElem? h₂) e
  obtain ⟨w', hw'⟩ := searchVertex_of_mem ((h.keys pair.key).mp (hc ver₁ hm₁ pair hp))
  obtain ⟨q, hq, eq⟩ := List.mem_map.mp (hperm.mem_iff.mp (List.mem_map_of_mem hp))
  refine ⟨w', ⟨pair, hs, hw'⟩, mem_succ.mpr ⟨ver₂, h₂, q, hq, ?_⟩, ?_⟩
  · rw [searchVertex_congr g₂ eq, hw']
  · rw [count_succ g₁ h₁ hs, count_succ g₂ h₂ hw', hperm.count_eq]

theorem SameGraph.match_step (h : SameGraph g₁ g₂) (hc : g₁.Closed) : ∀ x y, Match g₁ g₂ x y → ∀ w ∈ g₁.succ x,
    ∃ w', Match g₁ g₂ w w' ∧ w' ∈ g₂.succ y ∧ (g₁.succ x).count w = (g₂.succ y).count w' := by
  rintro x y ⟨p, hx, hy⟩
  obtain ⟨ver₁, h₁, e₁⟩ := searchVertex_spec hx
  obtain ⟨ver₂, h₂, e₂⟩ := searchVertex_spec hy
  exact h.step hc h₁ h₂ (e₁.trans e₂.symm)

def AllTrees (g : TaskGraph) : Prop := ∀ i < g.vertexNum, ∀ s ∈ g.succ i, Tree g.succ i s

theorem SameGraph.allTrees (h : SameGraph g₁ g₂) (hc : g₁.Closed) (ht : g₂.AllTrees) : g₁.AllTrees := by
  intro i hi s hs
  have h₁ : g₁.vertexList[i]? = some g₁.vertexList[i] := List.getElem?_eq_getElem hi
  have hm₁ := List.mem_of_getElem? h₁
  -- the vertex of the other graph under the key of `i`
  obtain ⟨i', hi'⟩ : ∃ i', g₂.searchVertex g₁.vertexList[i].pair = some i' :=
    searchVertex_of_mem ((h.keys _).mp (List.mem_map_of_mem hm₁))
  obtain ⟨ver₂, h₂, e⟩ := searchVertex_spec hi'
  obtain ⟨s', hss', hs', -⟩ := h.step hc h₁ h₂ e.symm s hs
  refine Tree.transport (Match g₁ g₂) (h.match_step hc) (fun _ _ _ => Match.injective)
    (fun _ _ _ => Match.functional) hss' ?_ (ht i' (searchVertex_lt hi') s' hs')
  rintro z ⟨p, hp₁, hp₂⟩
  obtain ⟨ver, hv, ep⟩ := searchVertex_spec hp₁
  rw [h₁] at hv
  cases hv
  rw [searchVertex_congr g₂ (p := p) (q := g₁.vertexList[i].pair) ep.symm, hi'] at hp₂
  exact (Option.some.inj hp₂).symm

theorem Verdict.deadlock_cases {G tg tg' : TaskGraph} (h : Verdict G tg tg') : tg'.deadlock = 0 ∨ tg'.deadlock = 1 := by
  cases h with
  | quiet _ hd _ => exact Or.inl hd
  | found _ _ _ _ hd _ => exact Or.inr hd

theorem Verdict.deadlock_zero {G tg tg' : TaskGraph} (h : Verdict G tg tg') : tg'.deadlock = 0 ↔ G.AllTrees := by
  cases h with
  | quiet hall hd _ =>
    have ht : G.AllTrees := fun i hi => (hall i hi).quiet_iff.mp rfl
    simp [hd, ht]
  | found hi _ hR hne hd _ =>
    have ht : ¬ G.AllTrees := fun ht => hne (hR.quiet_iff.mpr (ht _ hi))
    simp [hd, ht]

theorem checkDeadLock_order (h : SameGraph g₁ g₂) (hc : g₁.Closed) (hn₁ : g₁.vertexNum ≤ MAX)
    (hn₂ : g₂.vertexNum ≤ MAX) :
    ∃ tg₁ tg₂, Ends (fun fuel => g₁.checkDeadLock fuel) tg₁ ∧ Ends (fun fuel => g₂.checkDeadLock fuel) tg₂ ∧
      tg₁.deadlock = tg₂.deadlock := by
  obtain ⟨tg₁, he₁, hv₁, -⟩ := check_ends hc hn₁ g₁ rfl
  obtain ⟨tg₂, he₂, hv₂, -⟩ := check_ends (h.closed hc) hn₂ g₂ rfl
  refine ⟨tg₁, tg₂, he₁, he₂, ?_⟩
  have hiff : tg₁.deadlock = 0 ↔ tg₂.deadlock = 0 := by
    rw [hv₁.deadlock_zero, hv₂.deadlock_zero]
    exact ⟨h.symm.allTrees (h.closed hc), h.allTrees hc⟩
  rcases hv₁.deadlock_cases with h₁ | h₁ <;> rcases hv₂.deadlock_cases with h₂ | h₂ <;> omega

end

/-- The graph of `main` with its vertices and edges added in the opposite order. -/
def reversedMainGraph : TaskGraph :=
  processGraph [5, 4, 3, 2, 1] [(5, 1), (3, 1), (4, 5), (3, 4), (2, 3), (1, 2)]

theorem sameGraph_reversedMainGraph : SameGraph mainGraph reversedMainGraph := by
  constructor
  · have hperm : mainGraph.keys.Perm reversedMainGraph.keys := by decide
    exact fun a => hperm.mem_iff
  · decide

theorem checkDeadLock_order_main :
    ∃ tg₁ tg₂, Ends (fun fuel => mainGraph.checkDeadLock fuel) tg₁ ∧
      Ends (fun fuel => reversedMainGraph.checkDeadLock fuel) tg₂ ∧ tg₁.deadlock = tg₂.deadlock :=
  checkDeadLock_order sameGraph_reversedMainGraph (by unfold Closed; decide) (by decide) (by decide)

end TaskGraph

end LearningC
