import LearningC.LockRuns

/-!
# Edges of threads that do not wait

`lock_after` computes the edge to remove from the slot as it is then. The edge is left
in the graph when the slot names another thread than it did in `lock_before`.
-/

namespace LearningC

open TaskGraph Runs

namespace Sys

/-- A thread that acquires no mutex has an empty list in `vertex_list`. -/
def NoStaleEdges (s : Sys) : Prop :=
  ∃ tg, s.tg = some tg ∧ ∀ t, (∀ l, ¬ s.Acquiring t l) →
    ∀ ver ∈ tg.vertexList, ver.key = (processPair t).key → ver.next = []

/-- In `lock_after` the edges of the thread lead to the thread in the slot of its mutex,
and `unlock_after` finds its mutex. -/
def EdgeFound (s : Sys) : Event → Prop
  | .lockAfter t l => ∀ tg, s.tg = some tg → ∀ cnt ∈ tg.adj (processPair t).key,
      ∃ slot, tg.entry l = some slot ∧ cnt.thId = slot.thId
  | .unlockAfter _ l => ∃ tg slot, s.tg = some tg ∧ tg.entry l = some slot
  | _ => True

def OneOut (tg : TaskGraph) : Prop :=
  ∀ t, tg.adj (processPair t).key = [] ∨ ∃ v, tg.adj (processPair t).key = [processPair v]

/-- A thread has at most one edge, to a thread. -/
def OneEdge (s : Sys) : Prop :=
  ∀ tg, s.tg = some tg → ∀ t, tg.adj (processPair t).key = [] ∨ ∃ v, tg.adj (processPair t).key = [processPair v]

section
variable {ms : Finset Nat} {s s' : Sys} {e : Event} {t l : Nat} {tg tg' : TaskGraph}

theorem noStaleEdges_adj (hok : Ok ms s) (htg : s.tg = some tg) :
    NoStaleEdges s ↔ ∀ t, (∀ l, ¬ s.Acquiring t l) → tg.adj (processPair t).key = [] := by
  have hd := (hok.graph tg htg).distinct
  constructor
  · intro h t hfree
    obtain ⟨tg', htg', hex⟩ := h
    rw [htg] at htg'
    cases htg'
    by_cases hk : (processPair t).key ∈ tg.keys
    · obtain ⟨ver, hv, e⟩ := List.mem_map.mp hk
      rw [← e, adj_of_mem hd hv]
      exact hex t hfree ver hv e
    · exact adj_of_notMem hk
  · intro h
    refine ⟨tg, htg, fun t hfree ver hv e => ?_⟩
    rw [← adj_of_mem hd hv, e]
    exact h t hfree

theorem noStaleEdges_of_same (hok : Ok ms s) (hok' : Ok ms s') (htg : s.tg = some tg) (htg' : s'.tg = some tg')
    (hv : tg'.vertexList = tg.vertexList) (hacq : ∀ t l, s.Acquiring t l → s'.Acquiring t l)
    (hex : NoStaleEdges s) : NoStaleEdges s' := by
  rw [noStaleEdges_adj hok htg] at hex
  rw [noStaleEdges_adj hok' htg']
  intro t hfree
  rw [adj_congr hv]
  exact hex t fun l hl => hfree l (hacq t l hl)

/-- What is left of at most one edge when the edge to `x` is removed. -/
theorem eraseP_one {adj : List Pair} {x : Nat} (h : adj = [] ∨ ∃ v, adj = [processPair v]) :
    (adj.eraseP fun cnt => cnt.thId == x) = if ∀ cnt ∈ adj, cnt.thId = x then [] else adj := by
  rcases h with rfl | ⟨v, rfl⟩
  · rfl
  · by_cases hx : (processPair v).thId = x
    · simp [hx]
    · simp [hx]

section
variable (hok : Ok ms s) (hex : NoStaleEdges s) (htg : s.tg = some tg)
include hok hex htg

theorem noStaleEdges_lockBefore (hl : l ≠ 0) (he : s.Enabled (.lockBefore t l))
    (hok' : Ok ms (s.next (.lockBefore t l))) : NoStaleEdges (s.next (.lockBefore t l)) := by
  have hacq : ∀ u m, s.Acquiring u m → (s.next (.lockBefore t l)).Acquiring u m :=
    fun u m h => (acquiring_lockBefore he u m).mpr (Or.inl h)
  rcases hok.lockBefore_cases htg (t := t) hl with ⟨-, htg'⟩ | ⟨slot, tg', -, htg', hv, -⟩
  · exact noStaleEdges_of_same hok hok' htg htg' rfl hacq hex
  · rw [noStaleEdges_adj hok htg] at hex
    rw [noStaleEdges_adj hok' htg']
    intro u hfree
    have hut : u ≠ t := fun e => hfree l ((acquiring_lockBefore he u l).mpr (Or.inr ⟨e, rfl⟩))
    rw [adj_congr hv, adj_waitEdge, if_neg fun h => hut (processPair_key.mp h.1)]
    exact hex u fun m hm => hfree m (hacq u m hm)

theorem noStaleEdges_lockAfter (hone : OneEdge s) (hms : l ∈ ms) (hl : l ≠ 0) (he : s.Enabled (.lockAfter t l))
    (hok' : Ok ms (s.next (.lockAfter t l))) :
    NoStaleEdges (s.next (.lockAfter t l)) ↔ EdgeFound s (.lockAfter t l) := by
  have hw := hok.graph tg htg
  rw [noStaleEdges_adj hok htg] at hex
  have hfree : ∀ m, ¬ (s.next (.lockAfter t l)).Acquiring t m :=
    fun m hm => ((acquiring_lockAfter he t m).mp hm).2 rfl
  have hother : ∀ u ≠ t, (∀ m, ¬ (s.next (.lockAfter t l)).Acquiring u m) → tg.adj (processPair u).key = [] := by
    intro u hu hfree
    exact hex u fun m hm => hfree m ((acquiring_lockAfter he u m).mpr ⟨hm, hu⟩)
  rcases hok.lockAfter_cases htg (t := t) hms hl with
    ⟨slot, tg', hnone, -, htg', hv, -⟩ | ⟨slot, tg', hslot, htg', hv, -⟩
  · rw [noStaleEdges_adj hok' htg']
    constructor
    · intro h tg₁ htg₁ cnt hc
      rw [htg] at htg₁
      cases htg₁
      rw [← adj_congr hv, h t hfree] at hc
      cases hc
    · intro h u hu
      rw [adj_congr hv]
      by_cases e : u = t
      · subst e
        apply List.eq_nil_iff_forall_not_mem.mpr
        intro cnt hc
        obtain ⟨slot, hslot, -⟩ := h tg htg cnt hc
        rw [hnone] at hslot
        cases hslot
      · exact hother u e hu
  · rw [noStaleEdges_adj hok' htg']
    constructor
    · intro h tg₁ htg₁ cnt hc
      rw [htg] at htg₁
      cases htg₁
      have hadj := h t hfree
      rw [adj_congr hv, adj_dropEdge hw, eraseP_one (hone tg htg t)] at hadj
      refine ⟨slot, hslot, ?_⟩
      split at hadj
      · next hall => exact hall cnt hc
      · rw [hadj] at hc
        cases hc
    · intro h u hu
      rw [adj_congr hv]
      by_cases e : u = t
      · subst e
        rw [adj_dropEdge hw, eraseP_one (hone tg htg u), if_pos fun cnt hc => ?_]
        obtain ⟨b, hb, hx⟩ := h tg htg cnt hc
        rw [hslot] at hb
        cases hb
        exact hx
      · rw [adj_dropEdge_of_ne tg t slot.thId fun h => e (processPair_key.mp h)]
        exact hother u e hu

theorem noStaleEdges_unlockAfter (he : s.Enabled (.unlockAfter t l)) (hok' : Ok ms (s.next (.unlockAfter t l))) :
    NoStaleEdges (s.next (.unlockAfter t l)) ↔ EdgeFound s (.unlockAfter t l) := by
  rcases hok.unlockAfter_cases htg (t := t) (l := l) with ⟨hnone, htg'⟩ | ⟨slot, tg', hslot, htg', hv, -⟩
  · apply iff_of_false
    · intro h
      obtain ⟨tg₁, htg₁, -⟩ := h
      rw [htg'] at htg₁
      cases htg₁
    · intro h
      obtain ⟨tg₁, slot, htg₁, hb⟩ := h
      rw [htg] at htg₁
      cases htg₁
      rw [hnone] at hb
      cases hb
  · apply iff_of_true
    · exact noStaleEdges_of_same hok hok' htg htg' hv (fun u m => (acquiring_unlockAfter he u m).mpr) hex
    · exact ⟨tg, slot, htg, hslot⟩

end

theorem noStaleEdges_step (h0 : 0 ∉ ms) (hok : Ok ms s) (hex : NoStaleEdges s) (hone : OneEdge s)
    (hl : e.lock ∈ ms) (hs : s.step e = some s') : NoStaleEdges s' ↔ EdgeFound s e := by
  have hok' := hok.step h0 hl hs
  obtain ⟨he, rfl⟩ := step_next hs
  have htg : ∃ tg, s.tg = some tg := hex.imp fun _ h => h.1
  obtain ⟨tg, htg⟩ := htg
  have hne : e.lock ≠ 0 := fun e0 => h0 (e0 ▸ hl)
  cases e with
  | lockBefore t l => exact iff_of_true (noStaleEdges_lockBefore hok hex htg hne he hok') trivial
  | grant t l =>
    apply iff_of_true _ trivial
    exact noStaleEdges_of_same hok hok' htg htg rfl (fun u m => (acquiring_grant he u m).mpr) hex
  | lockAfter t l => exact noStaleEdges_lockAfter hok hex htg hone hl hne he hok'
  | unlock t l =>
    apply iff_of_true _ trivial
    exact noStaleEdges_of_same hok hok' htg htg rfl (fun u m => (acquiring_unlock he u m).mpr) hex
  | unlockAfter t l => exact noStaleEdges_unlockAfter hok hex htg he hok'

theorem OneOut.of_vertices (h : OneOut tg) (hv : tg'.vertexList = tg.vertexList) : OneOut tg' := by
  intro u
  rw [adj_congr hv]
  exact h u

/-- The new edge is the first one of its thread. -/
theorem OneOut.waitEdge (h : OneOut tg) (hempty : tg.adj (processPair t).key = []) (v : Nat) :
    OneOut (tg.waitEdge t v) := by
  intro u
  rw [adj_waitEdge]
  split
  · next hadd =>
    rw [hadd.1, hempty]
    exact Or.inr ⟨v, rfl⟩
  · exact h u

theorem OneOut.dropEdge (h : OneOut tg) (hw : ThreadGraph tg) (t v : Nat) : OneOut (tg.dropEdge t v) := by
  intro u
  by_cases e : u = t
  · subst e
    rw [adj_dropEdge hw, eraseP_one (h u)]
    split
    · exact Or.inl rfl
    · exact h u
  · rw [adj_dropEdge_of_ne tg t v fun h => e (processPair_key.mp h)]
    exact h u

theorem OneEdge.step (hok : Ok ms s) (hex : NoStaleEdges s) (hone : OneEdge s) (hs : s.step e = some s') :
    OneEdge s' := by
  obtain ⟨he, rfl⟩ := step_next hs
  obtain ⟨tg, htg, -⟩ := id hex
  have hout : OneOut tg := hone tg htg
  intro tg₁ htg₁
  cases e with
  | lockBefore t l =>
    rw [noStaleEdges_adj hok htg] at hex
    obtain ⟨tg', htg', heq⟩ := Option.bind_eq_some_iff.mp htg₁
    cases htg.symm.trans htg'
    have hp : s.phase t = .idle := he
    rcases lockBefore_vertices heq with rfl | ⟨v, hv⟩
    · exact hout
    · exact (hout.waitEdge (hex t fun m hm => by simp [Acquiring, hp] at hm) v).of_vertices hv
  | lockAfter t l =>
    obtain ⟨tg', htg', heq⟩ := Option.bind_eq_some_iff.mp htg₁
    cases htg.symm.trans htg'
    rcases lockAfter_vertices heq with hv | ⟨v, hv⟩
    · exact hout.of_vertices hv
    · exact (hout.dropEdge (hok.graph tg htg) t v).of_vertices hv
  | grant t l => exact hone tg₁ htg₁
  | unlock t l => exact hone tg₁ htg₁
  | unlockAfter t l =>
    obtain ⟨tg', htg', heq⟩ := Option.bind_eq_some_iff.mp htg₁
    cases htg.symm.trans htg'
    exact hout.of_vertices (unlockAfter_vertices heq)

end

theorem noStaleEdges_init (N : Nat) : NoStaleEdges (init N) := by
  refine ⟨_, rfl, fun t _ ver hv => ?_⟩
  cases hv

theorem oneEdge_init (N : Nat) : OneEdge (init N) := by
  intro tg htg t
  cases htg
  exact Or.inl rfl

/-- **Stale edges.** In every state of a run only threads that wait have edges exactly
when every `lock_after` finds the edge of its `lock_before`, and `vertex_list` has not
overflowed exactly when every edge found room. -/
theorem noStaleEdges_iff_edgeFound {N : Nat} {es : List Event} (h : Fits N es) :
    (Always step NoStaleEdges (init N) es ↔ Along step (fun s e _ => EdgeFound s e) (init N) es) ∧
      (Always step WithinMax (init N) es ↔ Along step (fun s e _ => HasRoom s e) (init N) es) := by
  refine ⟨?_, withinMax_iff_hasRoom h⟩
  apply always_iff_of_step (I := fun s => NoStaleEdges s ∧ OneEdge s) h (noStaleEdges_init N)
    ⟨noStaleEdges_init N, oneEdge_init N⟩
  intro ms s e s' h0 hok hI hl hs
  exact ⟨noStaleEdges_step h0 hok hI.1 hI.2 hl hs, fun hK => ⟨hK, hI.2.step hok hI.1 hs⟩⟩

/-- Threads `2` and `3` wait for the mutex of thread `1` and get it one after the other. -/
def handOverRun : List Event :=
  [.lockBefore 1 10, .grant 1 10, .lockAfter 1 10, .lockBefore 2 10, .lockBefore 3 10,
    .unlock 1 10, .unlockAfter 1 10, .grant 2 10, .lockAfter 2 10,
    .unlock 2 10, .unlockAfter 2 10, .grant 3 10, .lockAfter 3 10]

theorem edgeFound_waiterRun : Along step (fun s e _ => EdgeFound s e) (init 1) waiterRun := by
  apply Runs.along_cons rfl trivial
  apply Runs.along_cons rfl trivial
  apply Runs.along_cons rfl
  · intro tg htg cnt hc
    cases htg
    cases hc
  apply Runs.along_cons rfl trivial
  apply Runs.along_cons rfl trivial
  apply Runs.along_cons rfl ⟨_, _, rfl, rfl⟩
  apply Runs.along_cons rfl trivial
  apply Runs.along_cons rfl
  · intro tg htg cnt hc
    cases htg
    rw [List.mem_singleton.mp hc]
    exact ⟨_, rfl, rfl⟩
  trivial

theorem noStaleEdges_iff_edgeFound_handOver : Fits 1 handOverRun ∧ Fits 1 waiterRun ∧
    (Always step NoStaleEdges (init 1) handOverRun ↔
      Along step (fun s e _ => EdgeFound s e) (init 1) handOverRun) ∧
    Always step NoStaleEdges (init 1) waiterRun :=
  ⟨by decide, by decide, (noStaleEdges_iff_edgeFound (by decide)).1,
    (noStaleEdges_iff_edgeFound (by decide)).1.mpr edgeFound_waiterRun⟩

theorem handOver_leaves_edge : ¬ ∀ N es, Fits N es → Always step NoStaleEdges (init N) es := by
  intro h
  obtain ⟨tg, htg, hex⟩ := (h 1 handOverRun (by decide)).last _ _ _ rfl
  cases htg
  have hnil := hex 3 (fun l hl => ?_) { pair := processPair 3, next := [processPair 1] } (by decide) rfl
  · cases hnil
  · rcases hl with hl | hl
    · cases (show Phase.idle = .waiting l from hl)
    · cases (show Phase.idle = .granted l from hl)

end Sys

end LearningC
