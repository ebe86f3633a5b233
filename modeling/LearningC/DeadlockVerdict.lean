import LearningC.MissedDeadlocks
import LearningC.StaleEdges

/-!
# The verdict on threads that lock

While the hooks record every wait and find every edge, the edges are those of the threads
that wait, and no thread has two. The search is then one walk, so `check_dead_lock` says
what is the case, and the threads that it prints wait for each other in a ring. Only
between a release and the next `lock_after` does an edge lead to a former holder.
-/

namespace LearningC

open MarkSearch Fuel TaskGraph Runs

namespace TaskGraph

/-- The threads that `print_deadlock` prints for a path. -/
def threadIds (tg : TaskGraph) (path : List Int) : List (Option Nat) :=
  path.map fun i => tg.vertexList[i.toNat]?.map fun ver => ver.pair.thId

def threadAt (tg : TaskGraph) (i : Nat) : Nat := (tg.vertexList[i]?.map fun ver => ver.pair.thId).getD 0

/-! ## One edge from each vertex -/

section
variable {tg : TaskGraph} (hw : WellFormed tg) (hn : tg.vertexNum ≤ MAX)
include hw hn

/-- **The check on walks.** Where every vertex has at most one edge, the verdict is right, and
what is printed are walks that come back to themselves. -/
theorem check_exact (hone : ∀ i, (tg.succ i).length ≤ 1) :
    ∃ tg', Ends (fun fuel => tg.checkDeadLock fuel) tg' ∧ (tg'.deadlock = 1 ↔ tg.HasCycle) ∧
      ∃ R : List (Call Nat), tg'.printed = tg.printed ++ R.map shown ∧
        ∀ r ∈ R, r.2 ∈ r.1 ∧ r.stack.IsChain (Adj tg.succ) ∧ ∀ i ∈ r.stack, i < tg.vertexNum := by
  obtain ⟨tg', hends, hv, -⟩ := check_ends hw.vertexClosed hn tg rfl
  refine ⟨tg', hends, ?_⟩
  cases hv with
  | quiet hall hd hpr =>
    refine ⟨?_, [], by simpa using hpr, by simp⟩
    rw [hd]
    refine iff_of_false (by omega) fun hc => ?_
    obtain ⟨i, hi, hii⟩ := index_of_hasCycle hw hc
    exact absurd rfl (Scan.reports_of_reaches (hall i hi) ⟨i, .refl, hii⟩)
  | @found i R hi _ hR hne hd hpr =>
    have hgood : ∀ r ∈ R, r.2 ∈ r.1 := hR.good_iff.mpr fun s _ w => not_fork_of_one hone i s w
    have hcycle : tg.HasCycle := by
      obtain ⟨r, hr⟩ := List.exists_mem_of_ne_nil R hne
      obtain ⟨v, -, hv⟩ := hR.cycle_of_good (fun s hs => hs) hr (hgood r hr)
      exact hasCycle_of_index hv
    refine ⟨iff_of_true hd hcycle, R, hpr, fun r hr => ?_⟩
    obtain ⟨hchain, hhead⟩ := hR.report_walk (fun s hs => hs) r hr
    refine ⟨hgood r hr, hchain, hchain.induction (· < tg.vertexNum) _ (fun _ _ hij _ => succ_lt hij) fun h => ?_⟩
    cases (List.head?_eq_some_head h).symm.trans hhead
    exact hi

end

end TaskGraph

namespace Sys

/-- No thread is between the real mutex and `lock_after`, and no mutex that a thread waits
for is free. -/
def Settled (s : Sys) : Prop := ∀ t l, s.phase t ≠ .granted l ∧ (s.phase t = .waiting l → s.owner l ≠ none)

/-- `check_dead_lock` ends with the verdict `1` exactly when threads are deadlocked, and each
line that it prints is a chain of waiting threads that comes back to one of them. -/
def VerdictExact (s : Sys) : Prop :=
  ∃ tg tg', s.tg = some tg ∧ Ends (fun fuel => tg.checkDeadLock fuel) tg' ∧ (tg'.deadlock = 1 ↔ s.Deadlocked) ∧
    ∀ paths, tg'.printed = tg.printed ++ paths → ∀ path ∈ paths,
      ∃ q t, tg.threadIds path = (q ++ [t]).map some ∧ t ∈ q ∧ (q ++ [t]).IsChain s.WaitsOn

def AllThreads (s : Sys) : Prop := ∀ tg, s.tg = some tg → ∀ a ∈ tg.keys, ∃ t, a = (processPair t).key

/-- What recorded waits and found edges keep. -/
structure Faithful (s : Sys) : Prop where
  recorded : Recorded s
  noStaleEdges : NoStaleEdges s
  oneEdge : OneEdge s
  allThreads : AllThreads s

section
variable {ms : Finset Nat} {s s' : Sys} {e : Event} {tg : TaskGraph}

theorem AllThreads.step (h : AllThreads s) (hs : s.step e = some s') : AllThreads s' := by
  obtain ⟨-, rfl⟩ := step_next hs
  have hdrop : ∀ {tg tg' : TaskGraph}, s.tg = some tg → (tg'.vertexList = tg.vertexList ∨
      ∃ t v, tg'.vertexList = (tg.dropEdge t v).vertexList) → ∀ a ∈ tg'.keys, ∃ t, a = (processPair t).key := by
    intro tg tg' htg hv a ha
    rcases hv with hv | ⟨t, v, hv⟩
    · rw [keys_congr hv] at ha
      exact h tg htg a ha
    · rw [keys_congr hv, keys_dropEdge] at ha
      exact h tg htg a ha
  cases e with
  | lockBefore t l =>
    intro tg' htg' a ha
    obtain ⟨tg, htg, heq⟩ := Option.bind_eq_some_iff.mp htg'
    rcases lockBefore_vertices heq with rfl | ⟨v, hv⟩
    · exact h _ htg a ha
    · rw [keys_congr hv, mem_keys_waitEdge] at ha
      rcases ha with ha | rfl | rfl
      · exact h tg htg a ha
      · exact ⟨t, rfl⟩
      · exact ⟨v, rfl⟩
  | grant t l => exact h
  | lockAfter t l =>
    intro tg' htg'
    obtain ⟨tg, htg, heq⟩ := Option.bind_eq_some_iff.mp htg'
    exact hdrop htg ((lockAfter_vertices heq).imp id fun ⟨v, hv⟩ => ⟨t, v, hv⟩)
  | unlock t l => exact h
  | unlockAfter t l =>
    intro tg' htg'
    obtain ⟨tg, htg, heq⟩ := Option.bind_eq_some_iff.mp htg'
    exact hdrop htg (Or.inl (unlockAfter_vertices heq))

theorem Faithful.step (h0 : 0 ∉ ms) (hok : Ok ms s) (h : Faithful s) (hl : e.lock ∈ ms) (hs : s.step e = some s')
    (hwait : WaitRecorded s e) (hfound : EdgeFound s e) : Faithful s' where
  recorded := recorded_step h0 hok h.recorded hl hs hwait
  noStaleEdges := (noStaleEdges_step h0 hok h.noStaleEdges h.oneEdge hl hs).mpr hfound
  oneEdge := h.oneEdge.step hok h.noStaleEdges hs
  allThreads := h.allThreads.step hs

theorem faithful_init (N : Nat) : Faithful (init N) := by
  refine ⟨recorded_init N, noStaleEdges_init N, oneEdge_init N, fun tg htg a ha => ?_⟩
  cases htg
  cases ha

/-! ## The graph in a settled state -/

section
variable (hok : Ok ms s) (h : Faithful s) (htg : s.tg = some tg)
include hok h htg

theorem Faithful.adj_waiting (hset : Settled s) {t : Nat} (hne : tg.adj (processPair t).key ≠ []) :
    ∃ h, s.WaitsOn t h := by
  have hacq : ∃ l, s.Acquiring t l := by
    by_contra hfree
    push Not at hfree
    exact hne ((noStaleEdges_adj hok htg).mp h.noStaleEdges t hfree)
  obtain ⟨l, hl | hl⟩ := hacq
  · obtain ⟨u, hu⟩ := Option.ne_none_iff_exists'.mp ((hset t l).2 hl)
    exact ⟨u, l, hl, hu⟩
  · exact absurd hl (hset t l).1

omit hok in
theorem Faithful.edge_of_waits (hset : Settled s) {t u : Nat} (hwait : s.WaitsOn t u) :
    tg.Edge (processPair t).key (processPair u).key := by
  obtain ⟨l, hp, ho⟩ := hwait
  obtain ⟨tg₁, htg₁, -, hedge⟩ := h.recorded
  cases htg.symm.trans htg₁
  exact hedge t l u hp ⟨ho, (hset u l).1⟩

/-- **The wait-for graph.** In a settled state the edges of the graph are the waits. -/
theorem Faithful.edge_iff_waits (hset : Settled s) {t : Nat} {b : Key} :
    tg.Edge (processPair t).key b ↔ ∃ u, b = (processPair u).key ∧ s.WaitsOn t u := by
  have hd := (hok.graph tg htg).distinct
  constructor
  · intro hab
    obtain ⟨cnt, hc, rfl⟩ := (edge_iff hd _ _).mp hab
    obtain ⟨u, hu⟩ := h.adj_waiting hok htg hset (List.ne_nil_of_mem hc)
    refine ⟨u, ?_, hu⟩
    -- the one edge of `t` is the one recorded for its wait
    obtain ⟨cnt', hc', hk⟩ := (edge_iff hd _ _).mp (h.edge_of_waits htg hset hu)
    rcases h.oneEdge tg htg t with hnil | ⟨v, hv⟩
    · rw [hnil] at hc
      cases hc
    · rw [hv, List.mem_singleton] at hc hc'
      rw [hc, ← hc', hk]
  · rintro ⟨u, rfl, hu⟩
    exact h.edge_of_waits htg hset hu

theorem Faithful.transGen_iff (hset : Settled s) {t : Nat} {b : Key} :
    Relation.TransGen tg.Edge (processPair t).key b ↔ ∃ u, b = (processPair u).key ∧ Relation.TransGen s.WaitsOn t u := by
  constructor
  · intro hab
    induction hab with
    | single hab =>
      obtain ⟨u, rfl, hu⟩ := (h.edge_iff_waits hok htg hset).mp hab
      exact ⟨u, rfl, .single hu⟩
    | tail _ hbc ih =>
      obtain ⟨u, rfl, hu⟩ := ih
      obtain ⟨v, rfl, hv⟩ := (h.edge_iff_waits hok htg hset).mp hbc
      exact ⟨v, rfl, hu.tail hv⟩
  · rintro ⟨u, rfl, hu⟩
    exact Relation.TransGen.lift (fun t => (processPair t).key) (fun _ _ => h.edge_of_waits htg hset) _ _ hu

theorem Faithful.cycle_iff (hset : Settled s) : tg.HasCycle ↔ s.Deadlocked := by
  constructor
  · rintro ⟨a, ha⟩
    obtain ⟨b, ⟨ver, hver, rfl, -⟩, -⟩ := Relation.TransGen.head'_iff.mp ha
    obtain ⟨t, ht⟩ := h.allThreads tg htg ver.key (List.mem_map_of_mem hver)
    rw [ht] at ha
    obtain ⟨u, hu, hwaits⟩ := (h.transGen_iff hok htg hset).mp ha
    rw [← processPair_key.mp hu] at hwaits
    exact ⟨t, hwaits⟩
  · rintro ⟨t, ht⟩
    exact ⟨_, (h.transGen_iff hok htg hset).mpr ⟨t, rfl, ht⟩⟩

theorem Faithful.succ_one (i : Nat) : (tg.succ i).length ≤ 1 := by
  unfold succ
  cases hv : tg.vertexList[i]? with
  | none => exact Nat.zero_le 1
  | some ver =>
    have hm := List.mem_of_getElem? hv
    obtain ⟨t, ht⟩ := h.allThreads tg htg ver.key (List.mem_map_of_mem hm)
    have hlen : ver.next.length ≤ 1 := by
      rw [← adj_of_mem (hok.graph tg htg).distinct hm, ht]
      rcases h.oneEdge tg htg t with e | ⟨v, e⟩
      · rw [e]
        exact Nat.zero_le 1
      · rw [e]
        exact Nat.le_refl 1
    exact Nat.le_trans (List.length_filterMap_le _ _) hlen

omit hok in
theorem Faithful.thread_at {i : Nat} (hi : i < tg.vertexNum) :
    tg.keys[i]? = some (processPair (tg.threadAt i)).key ∧ tg.threadIds [(i : Int)] = [some (tg.threadAt i)] := by
  have hv : tg.vertexList[i]? = some tg.vertexList[i] := List.getElem?_eq_getElem hi
  obtain ⟨t, ht⟩ := h.allThreads tg htg _ (List.mem_map_of_mem (List.mem_of_getElem? hv))
  have hid : tg.threadAt i = t := by
    unfold threadAt
    rw [hv]
    exact congrArg Prod.snd ht
  constructor
  · rw [keys_of_vertex hv, ht, hid]
  · unfold threadIds threadAt
    rw [List.map_singleton, Int.toNat_natCast, hv]
    rfl

theorem Faithful.waits_of_succ (hset : Settled s) {i j : Nat} (hij : j ∈ tg.succ i) (hi : i < tg.vertexNum) :
    s.WaitsOn (tg.threadAt i) (tg.threadAt j) := by
  obtain ⟨a, b, ha, hb, hab⟩ := edge_of_succ hij
  cases ha.symm.trans (h.thread_at htg hi).1
  cases hb.symm.trans (h.thread_at htg (succ_lt hij)).1
  obtain ⟨v, hv, hwait⟩ := (h.edge_iff_waits hok htg hset).mp hab
  rwa [processPair_key.mp hv]

omit hok in
theorem Faithful.threadIds_shown : ∀ l : List Nat, (∀ i ∈ l, i < tg.vertexNum) →
    tg.threadIds (l.map Int.ofNat) = (l.map tg.threadAt).map some
  | [], _ => rfl
  | i :: l, hlt => by
    have hrest := Faithful.threadIds_shown l fun j hj => hlt j (List.mem_cons_of_mem i hj)
    exact congrArg₂ List.cons (List.singleton_inj.mp (h.thread_at htg (hlt i List.mem_cons_self)).2) hrest

end

theorem Faithful.verdictExact (hok : Ok ms s) (h : Faithful s) (hset : Settled s) : VerdictExact s := by
  obtain ⟨tg, htg, hnum, -⟩ := id h.recorded
  have hw := (hok.graph tg htg).toWellFormed
  obtain ⟨tg', hends, hverdict, R, hprinted, hR⟩ := check_exact hw hnum (h.succ_one hok htg)
  refine ⟨tg, tg', htg, hends, hverdict.trans (h.cycle_iff hok htg hset), fun paths hpaths path hpath => ?_⟩
  rw [hprinted, List.append_cancel_left_eq] at hpaths
  rw [← hpaths] at hpath
  obtain ⟨r, hr, rfl⟩ := List.mem_map.mp hpath
  obtain ⟨hback, hchain, hlt⟩ := hR r hr
  refine ⟨r.1.map tg.threadAt, tg.threadAt r.2, ?_, List.mem_map_of_mem hback, ?_⟩
  · rw [← List.map_singleton (f := tg.threadAt), ← List.map_append]
    exact h.threadIds_shown htg r.stack hlt
  · rw [← List.map_singleton (f := tg.threadAt), ← List.map_append, List.isChain_map]
    exact hchain.imp_of_mem_imp fun i j hi _ hij => h.waits_of_succ hok htg hset hij (hlt i hi)

end

/-! ## Runs -/

/-- **The verdict.** In a run whose waits are all recorded and whose edges are all found,
`check_dead_lock` is right in every settled state, and prints threads that wait in a ring. -/
theorem verdictExact_of_recorded {N : Nat} {es : List Event} (h : Fits N es)
    (hwait : Along step (fun s e _ => WaitRecorded s e) (init N) es)
    (hfound : Along step (fun s e _ => EdgeFound s e) (init N) es) :
    Always step (fun s => Settled s → VerdictExact s) (init N) es := by
  apply always_of_step (I := Faithful) (L := fun s e => WaitRecorded s e ∧ EdgeFound s e) h (faithful_init N)
  · intro ms s hok hf hset
    exact hf.verdictExact hok hset
  · intro ms s e s' h0 hok hf hl hs hcond
    exact hf.step h0 hok hl hs hcond.1 hcond.2
  · exact (along_and es _).mpr ⟨hwait, hfound⟩

section
variable {s : Sys} {t l : Nat}

theorem edgeFound_none (h : ∀ tg, s.tg = some tg → tg.adj (processPair t).key = []) : EdgeFound s (.lockAfter t l) := by
  intro tg htg cnt hc
  rw [h tg htg] at hc
  cases hc

end

theorem edgeFound_crossedRun : Along step (fun s e _ => EdgeFound s e) (init 2) crossedRun := by
  apply along_cons trivial
  apply along_cons trivial
  apply along_cons (edgeFound_none fun tg htg => by
    cases htg
    rfl)
  apply along_cons trivial
  apply along_cons trivial
  apply along_cons trivial
  apply along_cons (edgeFound_none fun tg htg => by
    cases htg
    rfl)
  apply along_cons trivial
  apply along_cons trivial
  trivial

theorem settled_crossedRun {s : Sys} (h : run step (init 2) crossedRun = some s) : s.Settled := by
  cases h
  intro t l
  simp only [next, init, Function.update_apply]
  grind

theorem verdictExact_of_recorded_crossed :
    ∃ s, run step (init 2) crossedRun = some s ∧ s.Settled ∧ s.Deadlocked ∧ VerdictExact s := by
  refine ⟨_, rfl, settled_crossedRun rfl, ⟨1, .tail (.single ⟨20, rfl, rfl⟩) ⟨10, rfl, rfl⟩⟩, ?_⟩
  exact (verdictExact_of_recorded (N := 2) (by decide) waitRecorded_crossedRun
    edgeFound_crossedRun).last _ _ _ rfl (settled_crossedRun rfl)

/-- Thread `1` has given mutex `10` back, and nobody has it yet: the edge of `2` still leads
to `1`, which comes to wait for mutex `20` of `2`. -/
def givenBackRun : List Event :=
  [.lockBefore 1 10, .grant 1 10, .lockAfter 1 10, .lockBefore 3 10,
    .lockBefore 2 20, .grant 2 20, .lockAfter 2 20, .lockBefore 2 10, .unlock 1 10, .unlockAfter 1 10, .lockBefore 1 20]

theorem not_deadlocked_givenBack {s : Sys} (h : run step (init 2) givenBackRun = some s) : ¬ s.Deadlocked := by
  have hwaits : ∀ t u, s.WaitsOn t u → t = 1 ∧ u = 2 := by
    cases h
    rintro t u ⟨l, hp, ho⟩
    simp only [next, init, Function.update_apply] at hp ho
    grind
  rintro ⟨t, ht⟩
  obtain ⟨u, htu, hut⟩ := Relation.TransGen.head'_iff.mp ht
  obtain ⟨rfl, rfl⟩ := hwaits t u htu
  rcases Relation.ReflTransGen.cases_head hut with e | ⟨v, hv, -⟩
  · cases e
  · cases (hwaits 2 v hv).1

/-- Outside settled states the verdict can be wrong. -/
theorem givenBack_alarm : ∃ s, run step (init 2) givenBackRun = some s ∧ ¬ s.Deadlocked ∧ ¬ VerdictExact s := by
  refine ⟨_, rfl, ?_, fun ⟨tg, tg', htg, hends, hverdict, _⟩ => ?_⟩
  · exact not_deadlocked_givenBack rfl
  · have halarm : (tg.checkDeadLock 5).map (fun tg => tg.deadlock) = some 1 := by
      cases htg
      rfl
    obtain ⟨tg₀, h₀, hd₀⟩ := Option.map_eq_some_iff.mp halarm
    rw [hends.unique ((checkDeadLock_mono tg).ends h₀)] at hverdict
    exact not_deadlocked_givenBack rfl (hverdict.mp hd₀)

/-! ## Mutexes in ascending order -/

/-- A thread locks only mutexes above all that it owns. -/
def Ascends (s : Sys) : Event → Prop
  | .lockBefore t l => ∀ m, s.owner m = some t → m < l
  | _ => True

def Ascending (s : Sys) : Prop := ∀ t l m, s.phase t = .waiting l → s.owner m = some t → m < l

section
variable {s s' : Sys} {e : Event}

theorem Ascending.step (h : Ascending s) (hs : s.step e = some s') (hasc : Ascends s e) : Ascending s' := by
  obtain ⟨he, rfl⟩ := step_next hs
  have hquiet : (∀ l, e.target ≠ .waiting l) → (∀ u m, (s.next e).owner m = some u → u ≠ e.thread → s.owner m = some u) →
      Ascending (s.next e) := by
    intro htarget howner u l m hu hm
    obtain ⟨hne, hu'⟩ := phase_of_next (htarget l) hu
    exact h u l m hu' (howner u m hm hne)
  cases e with
  | lockBefore t l =>
    intro u k m hu hm
    by_cases hkl : l = k
    · subst hkl
      by_cases hut : u = t
      · subst hut
        exact hasc m hm
      · rw [phase_next, Event.thread, Function.update_of_ne hut] at hu
        exact h u l m hu hm
    · exact h u k m (phase_of_next (by simpa [Event.target] using hkl) hu).2 hm
  | grant t l =>
    refine hquiet (by simp [Event.target]) fun u m hm hne => ?_
    by_cases hml : m = l
    · subst hml
      simp only [next, Function.update_self, Option.some.injEq] at hm
      exact absurd hm.symm hne
    · simpa [next, hml] using hm
  | lockAfter t l => exact hquiet (by simp [Event.target]) fun u m hm _ => hm
  | unlock t l =>
    refine hquiet (by simp [Event.target]) fun u m hm _ => ?_
    by_cases hml : m = l
    · simp [next, hml] at hm
    · simpa [next, hml] using hm
  | unlockAfter t l => exact hquiet (by simp [Event.target]) fun u m hm _ => hm

/-- Along a chain of waits the mutexes go up. -/
theorem Ascending.chain (h : Ascending s) {a b k l : Nat} (hab : Relation.TransGen s.WaitsOn a b)
    (ha : s.phase a = .waiting k) (hb : s.phase b = .waiting l) : k < l := by
  induction hab generalizing l with
  | single hw =>
    obtain ⟨m, hp, ho⟩ := hw
    cases hp.symm.trans ha
    exact h _ l k hb ho
  | tail _ hw ih =>
    obtain ⟨m, hp, ho⟩ := hw
    exact (ih hp).trans (h _ l m hb ho)

theorem Ascending.not_deadlocked (h : Ascending s) : ¬ s.Deadlocked := by
  intro ⟨t, ht⟩
  obtain ⟨u, ⟨l, hp, -⟩, -⟩ := Relation.TransGen.head'_iff.mp ht
  exact Nat.lt_irrefl l (h.chain ht hp hp)

end

theorem ascending_init (N : Nat) : Ascending (init N) := by
  intro t l m hp
  cases hp

/-- **Ascending order.** Threads that lock in ascending order never come to a deadlock, and
where the hooks record them `check_dead_lock` never reports one in a settled state. -/
theorem quiet_of_ascends {N : Nat} {es : List Event} (hasc : Along step (fun s e _ => Ascends s e) (init N) es) :
    Always step (fun s => ¬ s.Deadlocked) (init N) es ∧
    (Fits N es → Along step (fun s e _ => WaitRecorded s e ∧ EdgeFound s e) (init N) es →
      Always step (fun s => Settled s → ∃ tg tg', s.tg = some tg ∧ Ends (fun fuel => tg.checkDeadLock fuel) tg' ∧
        tg'.deadlock ≠ 1) (init N) es) := by
  refine ⟨?_, fun h hcond => ?_⟩
  · exact always_of_along (I := Ascending) (U := fun _ => True) (fun _ _ _ hI _ hs ha => hI.step hs ha)
      (fun _ hI => hI.not_deadlocked) (fun _ _ => trivial) (ascending_init N) hasc
  · apply always_of_step (I := fun s => Faithful s ∧ Ascending s)
      (L := fun s e => (WaitRecorded s e ∧ EdgeFound s e) ∧ Ascends s e) h ⟨faithful_init N, ascending_init N⟩
    · intro ms s hok hI hset
      obtain ⟨tg, tg', htg, hends, hverdict, -⟩ := hI.1.verdictExact hok hset
      exact ⟨tg, tg', htg, hends, fun hd => hI.2.not_deadlocked (hverdict.mp hd)⟩
    · intro ms s e s' h0 hok hI hl hs hL
      exact ⟨hI.1.step h0 hok hl hs hL.1.1 hL.1.2, hI.2.step hs hL.2⟩
    · exact (along_and es _).mpr ⟨hcond, hasc⟩

/-- Thread `2` waits for the mutex of thread `1`. -/
def waitRun : List Event := [.lockBefore 1 10, .grant 1 10, .lockAfter 1 10, .lockBefore 2 10]

theorem ascends_waitRun : Along step (fun s e _ => Ascends s e) (init 1) waitRun := by
  apply along_cons fun m hm => by cases hm
  apply along_cons trivial
  apply along_cons trivial
  apply along_cons fun m hm => by
    simp only [next, init, Function.update_apply] at hm
    grind
  trivial

theorem recorded_waitRun : Along step (fun s e _ => WaitRecorded s e ∧ EdgeFound s e) (init 1) waitRun := by
  apply along_cons ⟨waitRecorded_first rfl fun tg htg => by
    cases htg
    rfl, trivial⟩
  apply along_cons ⟨trivial, trivial⟩
  apply along_cons ⟨waitRecorded_nobody fun u hu => by
    simp only [next, init, Function.update_apply] at hu
    split_ifs at hu, edgeFound_none fun tg htg => by
    cases htg
    rfl⟩
  apply along_cons ⟨waitRecorded_held rfl (by decide) fun tg htg => by
    cases htg
    exact ⟨_, rfl, rfl, by unfold Room; decide⟩, trivial⟩
  trivial

theorem quiet_of_ascends_waitRun : ∃ s, run step (init 1) waitRun = some s ∧ s.WaitsOn 2 1 ∧
    ∃ tg tg', s.tg = some tg ∧ Ends (fun fuel => tg.checkDeadLock fuel) tg' ∧ tg'.deadlock ≠ 1 := by
  have hquiet := (quiet_of_ascends ascends_waitRun).2 (by decide) recorded_waitRun
  refine ⟨_, rfl, ⟨10, rfl, rfl⟩, hquiet.last _ _ _ rfl ?_⟩
  intro t l
  simp only [next, init, Function.update_apply]
  grind

end Sys

end LearningC
