import LearningC.DfsCalls

/-!
# What `check_dead_lock` says about the graph

A directed cycle is always reported. A report without a cycle comes from two edges
that enter one vertex: `visited` is not taken back when `DFS` returns.
-/

namespace LearningC

open MarkSearch Fuel

namespace TaskGraph

/-! ## Cycles on keys and cycles on positions -/

section
variable {tg : TaskGraph}

theorem keys_inj (h : tg.keys.Nodup) {i j : Nat} {a : Key} (hi : tg.keys[i]? = some a)
    (hj : tg.keys[j]? = some a) : i = j := by
  have hlt := (List.getElem?_eq_some_iff.mp hi).1
  exact (List.getElem?_inj hlt h).mp (hi.trans hj.symm)

theorem transGen_keys {i j : Nat} (h : Relation.TransGen (Adj tg.succ) i j) :
    ∃ a b, tg.keys[i]? = some a ∧ tg.keys[j]? = some b ∧ Relation.TransGen tg.Edge a b := by
  induction h with
  | single hij =>
    obtain ⟨a, b, ha, hb, hab⟩ := edge_of_succ hij
    exact ⟨a, b, ha, hb, .single hab⟩
  | tail _ hjk ih =>
    obtain ⟨a, b, ha, hb, hab⟩ := ih
    obtain ⟨b', c, hb', hc, hbc⟩ := edge_of_succ hjk
    rw [hb] at hb'
    cases hb'
    exact ⟨a, c, ha, hc, hab.tail hbc⟩

theorem transGen_index (h : WellFormed tg) {a b : Key} (hab : Relation.TransGen tg.Edge a b) :
    ∃ i j, tg.keys[i]? = some a ∧ tg.keys[j]? = some b ∧ Relation.TransGen (Adj tg.succ) i j := by
  induction hab with
  | single hab =>
    obtain ⟨i, j, hi, hj, hij⟩ := succ_of_edge h.vertexClosed hab
    exact ⟨i, j, hi, hj, .single hij⟩
  | tail _ hbc ih =>
    obtain ⟨i, j, hi, hj, hij⟩ := ih
    obtain ⟨j', k, hj', hk, hjk⟩ := succ_of_edge h.vertexClosed hbc
    rw [keys_inj h.distinct hj' hj] at hjk
    exact ⟨i, k, hi, hk, hij.tail hjk⟩

theorem hasCycle_of_index {i : Nat} (h : Relation.TransGen (Adj tg.succ) i i) : tg.HasCycle := by
  obtain ⟨a, b, ha, hb, hab⟩ := transGen_keys h
  rw [ha] at hb
  cases hb
  exact ⟨a, hab⟩

theorem index_of_hasCycle (h : WellFormed tg) (hc : tg.HasCycle) :
    ∃ i < tg.vertexNum, Relation.TransGen (Adj tg.succ) i i := by
  obtain ⟨a, ha⟩ := hc
  obtain ⟨i, j, hi, hj, hij⟩ := transGen_index h ha
  rw [keys_inj h.distinct hj hi] at hij
  refine ⟨i, ?_, hij⟩
  have := (List.getElem?_eq_some_iff.mp hi).1
  rwa [keys, List.length_map] at this

end

/-! ## A cycle is reported -/

theorem check_cycle {tg : TaskGraph} (hw : WellFormed tg) (hn : tg.vertexNum ≤ MAX) (hc : tg.HasCycle) :
    ∃ tg', Ends (fun fuel => tg.checkDeadLock fuel) tg' ∧ tg'.deadlock = 1 := by
  obtain ⟨tg', he, hv, -⟩ := check_ends hw.vertexClosed hn tg rfl
  refine ⟨tg', he, ?_⟩
  cases hv with
  | found _ _ _ _ hd _ => exact hd
  | quiet hall _ _ =>
    obtain ⟨i, hi, hii⟩ := index_of_hasCycle hw hc
    exact absurd rfl (Scan.reports_of_reaches (hall i hi) ⟨i, .refl, hii⟩)

theorem checkDeadLock_complete {tg : TaskGraph} (hb : Built tg) (hn : tg.vertexNum ≤ MAX) (hc : tg.HasCycle) :
    ∃ tg', Ends (fun fuel => tg.checkDeadLock fuel) tg' ∧ tg'.deadlock = 1 :=
  check_cycle hb.wellFormed hn hc

theorem built_processGraph (ids : List Nat) (es : List (Nat × Nat)) : Built (processGraph ids es) := ⟨_, _, rfl, rfl⟩

theorem checkDeadLock_complete_main :
    ∃ tg', Ends (fun fuel => mainGraph.checkDeadLock fuel) tg' ∧ tg'.deadlock = 1 := by
  refine checkDeadLock_complete (built_processGraph _ _) (by decide) ⟨(.process, 1), ?_⟩
  have h₁₂ : mainGraph.Edge (.process, 1) (.process, 2) := by decide
  have h₂₃ : mainGraph.Edge (.process, 2) (.process, 3) := by decide
  have h₃₁ : mainGraph.Edge (.process, 3) (.process, 1) := by decide
  exact .tail (.tail (.single h₁₂) h₂₃) h₃₁

/-! ## A report without a cycle -/

/-- A path whose last vertex already occurs earlier on it. -/
def ClosesOnPath (path : List Int) : Prop := ∃ q v, path = q ++ [v] ∧ v ∈ q

theorem closesOnPath_shown (c : Call Nat) : ClosesOnPath (shown c) ↔ c.2 ∈ c.1 := by
  unfold ClosesOnPath shown Call.stack
  rw [List.map_append, List.map_singleton]
  constructor
  · rintro ⟨q, v, e, hv⟩
    obtain ⟨rfl, hs⟩ := List.append_inj' e rfl
    rw [← List.singleton_inj.mp hs] at hv
    obtain ⟨w, hw, e⟩ := List.mem_map.mp hv
    rwa [← Int.ofNat.inj e]
  · intro h
    exact ⟨_, _, rfl, List.mem_map_of_mem h⟩

/-- No false alarm in a run of `check_dead_lock` that leaves `tg'`: a verdict of deadlock
comes with a cycle, and every path printed closes on itself. -/
def NoFalseAlarm (tg tg' : TaskGraph) : Prop :=
  (tg'.deadlock = 1 → tg.HasCycle) ∧
    ∀ rs, tg'.printed = tg.printed ++ rs → ∀ path ∈ rs, ClosesOnPath path

/-- Wherever two edges enter one vertex in a search from vertex `i`, an earlier vertex
reaches a cycle and stops the check before it comes to `i`. -/
def ForksShielded (tg : TaskGraph) : Prop :=
  ∀ i < tg.vertexNum, (∃ j < i, ReachesCycle tg.succ j) ∨ ∀ s ∈ tg.succ i, ∀ w, ¬ Fork tg.succ i s w

section
variable {tg : TaskGraph}

theorem quiet_no_fork {i : Nat} (h : Quiet tg i) : ∀ s ∈ tg.succ i, ∀ w, ¬ Fork tg.succ i s w :=
  (Scan.good_iff h).mp (by simp)

theorem noFalseAlarm_quiet {tg' : TaskGraph} (hd : tg'.deadlock = 0) (hpr : tg'.printed = tg.printed) :
    NoFalseAlarm tg tg' := by
  constructor
  · intro h; omega
  · intro rs h
    have : rs = [] := by simpa [hpr] using h
    simp [this]

theorem noFalseAlarm_found {tg' : TaskGraph} {i : Nat} {R : List (Call Nat)} (hR : Scan tg.succ i (tg.succ i) R)
    (hne : R ≠ []) (hpr : tg'.printed = tg.printed ++ R.map shown) :
    NoFalseAlarm tg tg' ↔ ∀ s ∈ tg.succ i, ∀ w, ¬ Fork tg.succ i s w := by
  rw [← hR.good_iff]
  constructor
  · intro h r hr
    exact (closesOnPath_shown r).mp (h.2 _ hpr _ (List.mem_map_of_mem hr))
  · intro hgood
    constructor
    · intro _
      obtain ⟨r, hr⟩ := List.exists_mem_of_ne_nil R hne
      obtain ⟨v, -, hv⟩ := hR.cycle_of_good (fun s hs => hs) hr (hgood r hr)
      exact hasCycle_of_index hv
    · intro rs h path hp
      rw [hpr, List.append_cancel_left_eq] at h
      rw [← h] at hp
      obtain ⟨r, hr, rfl⟩ := List.mem_map.mp hp
      exact (closesOnPath_shown r).mpr (hgood r hr)

theorem forksShielded_found {i : Nat} {R : List (Call Nat)} (hi : i < tg.vertexNum) (hq : ∀ j < i, Quiet tg j)
    (hR : Scan tg.succ i (tg.succ i) R) (hne : R ≠ []) :
    ForksShielded tg ↔ ∀ s ∈ tg.succ i, ∀ w, ¬ Fork tg.succ i s w := by
  constructor
  · intro h
    rcases h i hi with ⟨j, hj, hc⟩ | h
    · exact absurd rfl ((hq j hj).reports_of_reaches hc)
    · exact h
  · intro h j _
    rcases Nat.lt_trichotomy j i with hj | rfl | hj
    · exact Or.inr (quiet_no_fork (hq j hj))
    · exact Or.inr h
    · obtain ⟨r, hr⟩ := List.exists_mem_of_ne_nil R hne
      exact Or.inl ⟨i, hj, hR.cycle_of_good (fun s hs => hs) hr (hR.good_iff.mpr h r hr)⟩

theorem noFalseAlarm_iff_of_verdict {tg' : TaskGraph} (hv : Verdict tg tg tg') :
    NoFalseAlarm tg tg' ↔ ForksShielded tg := by
  cases hv with
  | quiet hall hd hpr =>
    exact ⟨fun _ i hi => Or.inr (quiet_no_fork (hall i hi)), fun _ => noFalseAlarm_quiet hd hpr⟩
  | found hi hq hR hne _ hpr => rw [noFalseAlarm_found hR hne hpr, forksShielded_found hi hq hR hne]

theorem checkDeadLock_noFalseAlarm_iff (hb : Built tg) (hn : tg.vertexNum ≤ MAX) :
    (∃ tg', Ends (fun fuel => tg.checkDeadLock fuel) tg' ∧ NoFalseAlarm tg tg') ↔ ForksShielded tg := by
  obtain ⟨tg₁, he, hv, -⟩ := check_ends hb.wellFormed.vertexClosed hn tg rfl
  rw [← noFalseAlarm_iff_of_verdict hv]
  constructor
  · rintro ⟨tg', he', h⟩
    rwa [he.unique he']
  · exact fun h => ⟨tg₁, he, h⟩

end

theorem checkDeadLock_noFalseAlarm_main :
    (∃ tg', Ends (fun fuel => mainGraph.checkDeadLock fuel) tg' ∧ NoFalseAlarm mainGraph tg') ↔
      ForksShielded mainGraph :=
  checkDeadLock_noFalseAlarm_iff (built_processGraph _ _) (by decide)

/-- Five threads and five edges without a cycle: `1` waits for `2`, and `2` for `5`
over `3` and over `4`. -/
def diamondGraph : TaskGraph := processGraph [] [(1, 2), (2, 3), (2, 4), (3, 5), (4, 5)]

theorem diamondGraph_acyclic : ¬ diamondGraph.HasCycle := by
  rintro ⟨a, ha⟩
  have hlt : ∀ ver ∈ diamondGraph.vertexList, ∀ pair ∈ ver.next, ver.pair.thId < pair.thId := by decide
  have key : ∀ b, Relation.TransGen diamondGraph.Edge a b → a.2 < b.2 := by
    intro b hab
    induction hab with
    | single h =>
      obtain ⟨ver, hv, rfl, pair, hp, rfl⟩ := h
      exact hlt ver hv pair hp
    | tail _ h ih =>
      obtain ⟨ver, hv, rfl, pair, hp, rfl⟩ := h
      exact ih.trans (hlt ver hv pair hp)
  exact lt_irrefl _ (key a ha)

theorem checkDeadLock_false_alarm : Built diamondGraph ∧ diamondGraph.vertexNum ≤ MAX ∧ ¬ diamondGraph.HasCycle ∧
    ∃ tg', Ends (fun fuel => diamondGraph.checkDeadLock fuel) tg' ∧ tg'.deadlock = 1 ∧
      tg'.printed = [[0, 1, 3, 4]] ∧ ¬ NoFalseAlarm diamondGraph tg' := by
  refine ⟨built_processGraph _ _, by decide, diamondGraph_acyclic, ?_⟩
  have h : (diamondGraph.checkDeadLock 5).map (fun tg => (tg.deadlock, tg.printed)) = some (1, [[0, 1, 3, 4]]) := by
    decide
  obtain ⟨tg', he, h⟩ := Option.map_eq_some_iff.mp h
  obtain ⟨hd, hpr⟩ := Prod.mk.inj h
  exact ⟨tg', (checkDeadLock_mono _).ends he, hd, hpr, fun hno => diamondGraph_acyclic (hno.1 hd)⟩

end TaskGraph

end LearningC
