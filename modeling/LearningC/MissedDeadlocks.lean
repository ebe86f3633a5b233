import LearningC.CheckVerdict
import LearningC.LockRuns

/-!
# Deadlocks of the threads and the cycle check

As long as every wait for a held mutex has its edge, a cycle of waiting threads is a
directed cycle of the graph, and `check_dead_lock` reports it. The edge of a wait is
missing when the mutex had no slot, when the thread waits for itself, and when the
mutex has been handed to another thread since.
-/

namespace LearningC

open TaskGraph Runs Fuel

namespace Sys

/-- `t` has finished `lock_before` on a mutex that `t'` really holds. -/
def WaitsOn (s : Sys) (t t' : Nat) : Prop := ∃ l, s.phase t = .waiting l ∧ s.owner l = some t'

def Deadlocked (s : Sys) : Prop := ∃ t, Relation.TransGen s.WaitsOn t t

def DeadlockFound (s : Sys) : Prop :=
  s.Deadlocked → ∃ tg tg', s.tg = some tg ∧ Ends (fun fuel => tg.checkDeadLock fuel) tg' ∧ tg'.deadlock = 1

/-- A thread waits for a held mutex only when the slot of the mutex names the holder,
which is another thread; whoever waits when a mutex is handed over has an edge to its
next holder; `unlock_after` finds its mutex. -/
def WaitRecorded (s : Sys) : Event → Prop
  | .lockBefore t l => ∀ tg, s.tg = some tg →
      (∀ h, s.Holds h l → h ≠ t ∧ ∃ slot, tg.entry l = some slot ∧ slot.thId = h) ∧
      ∀ slot, tg.entry l = some slot → Room tg t slot.thId
  | .lockAfter t l => ∀ tg, s.tg = some tg → ∀ u, s.phase u = .waiting l →
      tg.Edge (processPair u).key (processPair t).key
  | .unlockAfter _ l => ∃ tg slot, s.tg = some tg ∧ tg.entry l = some slot
  | _ => True

def Recorded (s : Sys) : Prop :=
  ∃ tg, s.tg = some tg ∧ tg.vertexNum ≤ MAX ∧
    ∀ t l h, s.phase t = .waiting l → s.Holds h l → tg.Edge (processPair t).key (processPair h).key

section
variable {ms : Finset Nat} {s s' : Sys} {e : Event} {t l : Nat} {tg tg' : TaskGraph}

theorem edge_congr (h : tg'.vertexList = tg.vertexList) {a b : Key} (hab : tg.Edge a b) : tg'.Edge a b := by
  unfold Edge
  rw [h]
  exact hab

section
variable (hok : Ok ms s) (htg : s.tg = some tg) (hnum : tg.vertexNum ≤ MAX)
  (hedge : ∀ t l h, s.phase t = .waiting l → s.Holds h l → tg.Edge (processPair t).key (processPair h).key)
include hok htg hnum hedge

theorem recorded_lockBefore (he : s.Enabled (.lockBefore t l)) (hne : l ≠ 0)
    (hcond : WaitRecorded s (.lockBefore t l)) : Recorded (s.next (.lockBefore t l)) := by
  have hw := hok.graph tg htg
  obtain ⟨hholder, hroom⟩ := hcond tg htg
  have hphase : ∀ u m, (s.next (.lockBefore t l)).phase u = .waiting m →
      (u = t ∧ m = l) ∨ s.phase u = .waiting m := by
    intro u m hu
    by_cases e : l = m
    · subst e
      by_cases e' : u = t
      · exact Or.inl ⟨e', rfl⟩
      · rw [phase_next] at hu
        exact Or.inr (by simpa [Event.thread, e'] using hu)
    · exact Or.inr (phase_of_next (by simpa [Event.target] using e) hu).2
  rcases hok.lockBefore_cases htg (t := t) (l := l) hne with ⟨hnone, htg'⟩ | ⟨slot, tg', hslot, htg', hv, -⟩
  · refine ⟨tg, htg', hnum, fun u m h hu hh => ?_⟩
    rw [holds_lockBefore he] at hh
    rcases hphase u m hu with ⟨rfl, rfl⟩ | hu
    · obtain ⟨-, slot, hslot, -⟩ := hholder h hh
      rw [hnone] at hslot
      cases hslot
    · exact hedge u m h hu hh
  · refine ⟨tg', htg', ?_, fun u m h hu hh => edge_congr hv ?_⟩
    · rw [vertexNum_congr hv]
      exact (vertexNum_waitEdge_le hw).mpr (hroom slot hslot)
    · rw [holds_lockBefore he] at hh
      rcases hphase u m hu with ⟨rfl, rfl⟩ | hu
      · obtain ⟨hhu, b, hb, rfl⟩ := hholder h hh
        rw [hslot] at hb
        cases hb
        exact edge_waitEdge hw (Ne.symm hhu)
      · exact edge_waitEdge_of_edge hw t slot.thId (hedge u m h hu hh)

theorem recorded_lockAfter (he : s.Enabled (.lockAfter t l)) (hl : l ∈ ms) (hne : l ≠ 0)
    (hcond : WaitRecorded s (.lockAfter t l)) : Recorded (s.next (.lockAfter t l)) := by
  have hw := hok.graph tg htg
  have hown : s.owner l = some t := hok.owns t l he
  have hwaits : ∀ u m h, (s.next (.lockAfter t l)).phase u = .waiting m → (s.next (.lockAfter t l)).Holds h m →
      u ≠ t ∧ tg.Edge (processPair u).key (processPair h).key := by
    intro u m h hu hh
    obtain ⟨hut, hu'⟩ := phase_of_next (by simp [Event.target]) hu
    rcases (holds_lockAfter hown he h m).mp hh with hh | ⟨rfl, rfl⟩
    · exact ⟨hut, hedge u m h hu' hh⟩
    · exact ⟨hut, hcond tg htg u hu'⟩
  rcases hok.lockAfter_cases htg (t := t) (l := l) hl hne with
    ⟨slot, tg', -, -, htg', hv, -⟩ | ⟨slot, tg', -, htg', hv, -⟩
  · refine ⟨tg', htg', ?_, fun u m h hu hh => edge_congr hv (hwaits u m h hu hh).2⟩
    rw [vertexNum_congr hv]
    exact hnum
  · refine ⟨tg', htg', ?_, fun u m h hu hh => edge_congr hv ?_⟩
    · rw [vertexNum_congr hv, vertexNum_dropEdge]
      exact hnum
    · obtain ⟨hut, hab⟩ := hwaits u m h hu hh
      exact edge_dropEdge_of_ne hw t slot.thId (fun h => hut (processPair_key.mp h)) hab

theorem recorded_unlockAfter (he : s.Enabled (.unlockAfter t l)) (hcond : WaitRecorded s (.unlockAfter t l)) :
    Recorded (s.next (.unlockAfter t l)) := by
  rcases hok.unlockAfter_cases htg (t := t) (l := l) with ⟨hnone, -⟩ | ⟨slot, tg', -, htg', hv, -⟩
  · obtain ⟨tg₁, slot, htg₁, hslot⟩ := hcond
    cases htg.symm.trans htg₁
    cases hnone.symm.trans hslot
  · refine ⟨tg', htg', ?_, fun u m h hu hh => edge_congr hv ?_⟩
    · rw [vertexNum_congr hv]
      exact hnum
    · rw [holds_unlockAfter he] at hh
      exact hedge u m h (phase_of_next (by simp [Event.target]) hu).2 hh

end

theorem recorded_step (h0 : 0 ∉ ms) (hok : Ok ms s) (hrec : Recorded s) (hl : e.lock ∈ ms)
    (hs : s.step e = some s') (hcond : WaitRecorded s e) : Recorded s' := by
  obtain ⟨he, rfl⟩ := step_next hs
  obtain ⟨tg, htg, hnum, hedge⟩ := hrec
  have hne : e.lock ≠ 0 := fun e0 => h0 (e0 ▸ hl)
  cases e with
  | lockBefore t l => exact recorded_lockBefore hok htg hnum hedge he hne hcond
  | grant t l =>
    refine ⟨tg, htg, hnum, fun u m h hu hh => ?_⟩
    rw [holds_grant he] at hh
    exact hedge u m h (phase_of_next (by simp [Event.target]) hu).2 hh
  | lockAfter t l => exact recorded_lockAfter hok htg hnum hedge he hl hne hcond
  | unlock t l =>
    refine ⟨tg, htg, hnum, fun u m h hu hh => ?_⟩
    rw [holds_unlock he] at hh
    exact hedge u m h (phase_of_next (by simp [Event.target]) hu).2 hh.1
  | unlockAfter t l => exact recorded_unlockAfter hok htg hnum hedge he hcond

/-- Along a chain of waits every thread but the last one waits, so it holds what the
one before it waits for. -/
theorem transGen_edge (hedge : ∀ t l h, s.phase t = .waiting l → s.Holds h l →
      tg.Edge (processPair t).key (processPair h).key) {a b m : Nat} (hab : Relation.TransGen s.WaitsOn a b)
    (hb : s.phase b = .waiting m) : Relation.TransGen tg.Edge (processPair a).key (processPair b).key := by
  induction hab generalizing m with
  | single h =>
    obtain ⟨l, hp, ho⟩ := h
    exact .single (hedge a l _ hp ⟨ho, by rw [hb]; simp⟩)
  | tail _ h ih =>
    obtain ⟨l, hp, ho⟩ := h
    exact (ih hp).tail (hedge _ l _ hp ⟨ho, by rw [hb]; simp⟩)

theorem Recorded.deadlockFound (hok : Ok ms s) (hrec : Recorded s) : DeadlockFound s := by
  intro h
  obtain ⟨tg, htg, hnum, hedge⟩ := hrec
  obtain ⟨t, ht⟩ := h
  obtain ⟨u, ⟨l, hp, -⟩, -⟩ := Relation.TransGen.head'_iff.mp ht
  have hcycle : tg.HasCycle := ⟨(processPair t).key, transGen_edge hedge ht hp⟩
  obtain ⟨tg', hends, hd⟩ := check_cycle (hok.graph tg htg).toWellFormed hnum hcycle
  exact ⟨tg, tg', htg, hends, hd⟩

end

theorem recorded_init (N : Nat) : Recorded (init N) := by
  refine ⟨_, rfl, Nat.zero_le _, fun t l h hp => ?_⟩
  cases hp

/-- **Deadlocks.** In a run whose waits are all recorded, `check_dead_lock` finds every
deadlock of the threads. -/
theorem deadlockFound_of_waitRecorded {N : Nat} {es : List Event} (h : Fits N es)
    (hrec : Along step (fun s e _ => WaitRecorded s e) (init N) es) : Always step DeadlockFound (init N) es :=
  always_of_step h (recorded_init N) (fun _ _ hok hrec => hrec.deadlockFound hok)
    (fun _ _ _ _ h0 hok hrec hl hs hcond => recorded_step h0 hok hrec hl hs hcond) hrec

/-- Thread `3` waits for mutex `10`, so the slot of `10` does not count as empty when
thread `2` records mutex `20`; then `1` and `2` wait for each other. -/
def crossedRun : List Event :=
  [.lockBefore 1 10, .grant 1 10, .lockAfter 1 10, .lockBefore 3 10,
    .lockBefore 2 20, .grant 2 20, .lockAfter 2 20, .lockBefore 2 10, .lockBefore 1 20]

section
variable {s : Sys} {t l : Nat}

theorem along_cons {K : Sys → Event → Sys → Prop} {e : Event} {es : List Event} (hk : K s e (s.next e))
    (h : Along step K (s.next e) es) : Along step K s (e :: es) := by
  intro s' hs
  obtain ⟨-, rfl⟩ := step_next hs
  exact ⟨hk, h⟩

theorem waitRecorded_nobody (h : ∀ u, s.phase u ≠ .waiting l) : WaitRecorded s (.lockAfter t l) :=
  fun _ _ u hu => absurd hu (h u)

theorem waitRecorded_first (ho : s.owner l = none) (he : ∀ tg, s.tg = some tg → tg.entry l = none) :
    WaitRecorded s (.lockBefore t l) := by
  intro tg htg
  constructor
  · intro h hh
    cases ho.symm.trans hh.1
  · intro slot hslot
    cases (he tg htg).symm.trans hslot

theorem waitRecorded_held {h : Nat} (ho : s.owner l = some h) (hne : h ≠ t)
    (he : ∀ tg, s.tg = some tg → ∃ slot, tg.entry l = some slot ∧ slot.thId = h ∧ Room tg t h) :
    WaitRecorded s (.lockBefore t l) := by
  intro tg htg
  obtain ⟨slot, hslot, e, hroom⟩ := he tg htg
  constructor
  · intro h' hh
    cases ho.symm.trans hh.1
    exact ⟨hne, slot, hslot, e⟩
  · intro slot' hslot'
    cases hslot.symm.trans hslot'
    rwa [e]

end

theorem waitRecorded_crossedRun : Along step (fun s e _ => WaitRecorded s e) (init 2) crossedRun := by
  apply along_cons (waitRecorded_first rfl fun tg htg => by
    cases htg
    rfl)
  apply along_cons trivial
  apply along_cons (waitRecorded_nobody fun u hu => by
    simp only [next, init, Function.update_apply] at hu
    split_ifs at hu)
  apply along_cons (waitRecorded_held rfl (by decide) fun tg htg => by
    cases htg
    exact ⟨_, rfl, rfl, by unfold Room; decide⟩)
  apply along_cons (waitRecorded_first rfl fun tg htg => by
    cases htg
    rfl)
  apply along_cons trivial
  apply along_cons (waitRecorded_nobody fun u hu => by
    simp only [next, init, Function.update_apply] at hu
    split_ifs at hu
    cases hu)
  apply along_cons (waitRecorded_held rfl (by decide) fun tg htg => by
    cases htg
    exact ⟨_, rfl, rfl, by unfold Room; decide⟩)
  apply along_cons (waitRecorded_held rfl (by decide) fun tg htg => by
    cases htg
    exact ⟨_, rfl, rfl, by unfold Room; decide⟩)
  trivial

theorem deadlockFound_of_waitRecorded_crossed :
    (∃ s, run step (init 2) crossedRun = some s ∧ s.Deadlocked) ∧ Always step DeadlockFound (init 2) crossedRun :=
  ⟨⟨_, rfl, 1, .tail (.single ⟨20, rfl, rfl⟩) ⟨10, rfl, rfl⟩⟩,
    deadlockFound_of_waitRecorded (by decide) waitRecorded_crossedRun⟩

/-- The two threads of `deadlock_test.cpp`, with one slot for each mutex. -/
def deadlockTestRun : List Event :=
  [.lockBefore 1 10, .grant 1 10, .lockAfter 1 10, .lockBefore 2 20, .grant 2 20, .lockAfter 2 20,
    .lockBefore 1 20, .lockBefore 2 10]

theorem deadlockTest_missed : ¬ ∀ N es, Fits N es → Always step DeadlockFound (init N) es := by
  intro h
  have hfound := (h 2 deadlockTestRun (by decide)).last _ _ _ rfl
  obtain ⟨tg, tg', htg, hends, hd⟩ := hfound ⟨1, .tail (.single ⟨20, rfl, rfl⟩) ⟨10, rfl, rfl⟩⟩
  have hmiss : (tg.checkDeadLock 5).map (fun tg => tg.deadlock) = some 0 := by
    cases htg
    rfl
  obtain ⟨tg₀, h₀, hd₀⟩ := Option.map_eq_some_iff.mp hmiss
  rw [hends.unique ((checkDeadLock_mono tg).ends h₀), hd₀] at hd
  cases hd

end Sys

end LearningC
