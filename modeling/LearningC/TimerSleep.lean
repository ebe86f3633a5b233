import LearningC.TimerRuns

/-!
# Workers in `sleep_for`

A worker in `sleep_for` cannot be notified. The pool sleeps past no event as long as
every event, when it is enqueued and whenever a worker goes to sleep, has a worker that
is not asleep beyond it.
-/

namespace LearningC

open Runs CondVar

namespace TimerPool

variable {β : Type} {Q : TimeQueue β} {n : Nat}

/-- An event is due and all workers are in `sleep_for` beyond the present. -/
def Overslept (s : TimerPool Q n) : Prop :=
  (∃ event ∈ Q.elems s.timeQ, event.time < s.clock) ∧
    ∀ w, ∃ wakeAt, s.workers w = .busy (.sleeping wakeAt) ∧ s.clock < wakeAt

/-- The worker is not in `sleep_for` beyond the first moment at which the event is due. -/
def Available (s : TimerPool Q n) (event : TimeEvent β) (w : Fin n) : Prop :=
  ∀ wakeAt, s.workers w = .busy (.sleeping wakeAt) → wakeAt ≤ max (event.time + 1) s.clock

/-- A new event finds an available worker, and a worker that goes to sleep leaves one for
every event, another worker or itself. -/
def Staffed (s : TimerPool Q n) : TimerStep β n → Prop
  | .enqueue _ event => ∃ w, s.Available event w
  | .sleepFor w => ∀ now inspected adjustment version time load,
      s.workers w = .busy (.late now inspected adjustment version (some time) (some load)) →
      ∀ event ∈ Q.elems s.timeQ, (∃ u ≠ w, s.Available event u) ∨
        s.clock + ((time + load) - now) ≤ max (event.time + 1) s.clock
  | _ => True

def Covered (s : TimerPool Q n) : Prop := ∀ event ∈ Q.elems s.timeQ, ∃ w, s.Available event w

/-- An event that all workers will sleep past. -/
def Doomed (s : TimerPool Q n) : Prop :=
  ∃ event ∈ Q.elems s.timeQ, ∀ w, ∃ wakeAt, s.workers w = .busy (.sleeping wakeAt) ∧
    max (event.time + 1) s.clock < wakeAt

section
variable {s s' : TimerPool Q n} {e : TimerStep β n} {w u : Fin n} {event : TimeEvent β}

theorem mem_of_next (h : Locked s) (he : s.Enabled e) (hm : event ∈ Q.elems (s.next e).timeQ) :
    event ∈ Q.elems s.timeQ ∨ ∃ c, e = .enqueue c event := by
  cases e with
  | enqueue c new =>
    have hm' : event ∈ Q.elems (Q.push new s.timeQ) := hm
    rw [Q.elems_push, Multiset.mem_cons] at hm'
    rcases hm' with rfl | hm'
    · exact Or.inr ⟨c, rfl⟩
    · exact Or.inl hm'
  | check w =>
    rw [(frame_check s w).1] at hm
    exact Or.inl hm
  | inspect w =>
    rw [(frame_inspect s w).1] at hm
    exact Or.inl hm
  | take w =>
    obtain ⟨top, adjustment, hw⟩ := he
    rw [take_next hw] at hm
    rw [Q.elems_pop _ _ (h.due hw).1]
    exact Or.inl (Multiset.mem_cons_of_mem hm)
  | _ => exact Or.inl hm

theorem Available.next (ha : s.Available event u) (h : Locked s) (he : s.Enabled e)
    (hne : e ≠ .sleepFor u) : (s.next e).Available event u := by
  intro wakeAt hw
  rcases moved_or_stayed h he (by simp) (by simp) hw with hm | ⟨-, hw⟩
  · cases hm
    exact absurd rfl hne
  · have hle := ha wakeAt hw
    have hclock := clock_next s e
    omega

theorem Covered.next (hc : Covered s) (h : Locked s) (he : s.Enabled e) (hk : Staffed s e) :
    Covered (s.next e) := by
  intro event hm
  rcases mem_of_next h he hm with hm | ⟨c, rfl⟩
  · by_cases hsleep : ∃ w, e = .sleepFor w
    · obtain ⟨w, rfl⟩ := hsleep
      obtain ⟨now, inspected, adjustment, version, time, load, hw⟩ := id he
      rcases hk now inspected adjustment version time load hw event hm with ⟨u, hu, ha⟩ | hle
      · refine ⟨u, ha.next h he fun e => hu ?_⟩
        cases e
        rfl
      · refine ⟨w, fun wakeAt hw' => ?_⟩
        rw [sleepFor_next hw, workers_setWorker, Function.update_self] at hw'
        cases hw'
        have hclock := clock_next s (.sleepFor w)
        omega
    · obtain ⟨u, ha⟩ := hc event hm
      exact ⟨u, ha.next h he fun e => hsleep ⟨u, e⟩⟩
  · obtain ⟨u, ha⟩ := hk
    refine ⟨u, ha.next h he fun e => ?_⟩
    cases e

theorem Covered.not_overslept (hc : Covered s) : ¬ Overslept s := by
  rintro ⟨⟨event, hm, hdue⟩, hall⟩
  obtain ⟨w, ha⟩ := hc event hm
  obtain ⟨wakeAt, hw, hlate⟩ := hall w
  have hle := ha wakeAt hw
  omega

end

/-- **Due events.** In a run in which every event keeps an available worker, no due event
is slept past by the whole pool. -/
theorem not_overslept_of_staffed [DecidableEq β] {es : List (TimerStep β n)}
    (h : Along step (fun s e _ => Staffed s e) (init Q n) es) :
    Always step (fun s => ¬ Overslept s) (init Q n) es := by
  have h0 : Covered (init Q n) := by
    intro event hm
    have hm' : event ∈ Q.elems Q.empty := hm
    rw [Q.elems_empty] at hm'
    exact absurd hm' (Multiset.notMem_zero event)
  refine always_of_along (I := fun s => Locked s ∧ Covered s) (U := fun _ => True) (fun s e s' hI _ hs hk => ?_)
    (fun s hI => hI.2.not_overslept) (fun _ _ => trivial) ⟨locked_init, h0⟩ h
  obtain ⟨he, rfl⟩ := step_next hs
  exact ⟨hI.1.next he, hI.2.next hI.1 he hk⟩

/-! ## The condition is exact -/

section
variable {s : TimerPool Q n} {e : TimerStep β n} {event : TimeEvent β} {w : Fin n}

theorem sleeping_of_not_available (h : ¬ s.Available event w) :
    ∃ wakeAt, s.workers w = .busy (.sleeping wakeAt) ∧ max (event.time + 1) s.clock < wakeAt := by
  unfold Available at h
  push Not at h
  exact h

theorem doomed_of_not_staffed (hk : ¬ Staffed s e) : Doomed (s.next e) := by
  cases e with
  | enqueue c event =>
    refine ⟨event, ?_, fun w => sleeping_of_not_available fun ha => hk ⟨w, ha⟩⟩
    show event ∈ Q.elems (Q.push event s.timeQ)
    rw [Q.elems_push]
    exact Multiset.mem_cons_self event _
  | sleepFor w =>
    unfold Staffed at hk
    push Not at hk
    obtain ⟨now, inspected, adjustment, version, time, load, hw, event, hm, hothers, hlate⟩ := hk
    refine ⟨event, hm, fun u => ?_⟩
    by_cases hu : u = w
    · rw [hu, sleepFor_next hw]
      exact ⟨_, Function.update_self .., hlate⟩
    · obtain ⟨wakeAt, hs, hlt⟩ := sleeping_of_not_available (hothers u hu)
      exact ⟨wakeAt, (Function.update_of_ne hu _ _).trans hs, hlt⟩
  | _ => exact absurd trivial hk

theorem no_worker_of_sleeping (he : s.Enabled e)
    (hall : ∀ w, ∃ wakeAt, s.workers w = .busy (.sleeping wakeAt) ∧ s.clock < wakeAt) : e.worker = none := by
  have habsurd : ∀ {w} {p : Place (TimerPhase β)}, s.workers w = p → (∀ wakeAt, p ≠ .busy (.sleeping wakeAt)) → False := by
    intro w p hp hne
    obtain ⟨wakeAt, hw, -⟩ := hall w
    exact hne wakeAt (hp.symm.trans hw)
  cases e with
  | check w => exact (habsurd he.1 (by simp)).elim
  | sleep w => exact (habsurd he (by simp)).elim
  | wake w => exact (habsurd he (by simp)).elim
  | inspect w =>
    obtain ⟨now, hw⟩ := he
    exact (habsurd hw (by simp)).elim
  | take w =>
    obtain ⟨event, adjustment, hw⟩ := he
    exact (habsurd hw (by simp)).elim
  | finish w =>
    obtain ⟨event, hw⟩ := he
    exact (habsurd hw (by simp)).elim
  | unlock w =>
    obtain ⟨now, event, adjustment, hw⟩ := he
    exact (habsurd hw (by simp)).elim
  | readTime w time =>
    obtain ⟨now, event, adjustment, version, load, hw, -⟩ := he
    exact (habsurd hw (by simp)).elim
  | loadAdjustment w =>
    obtain ⟨now, event, adjustment, version, time, hw⟩ := he
    exact (habsurd hw (by simp)).elim
  | sleepFor w =>
    obtain ⟨now, event, adjustment, version, time, load, hw⟩ := he
    exact (habsurd hw (by simp)).elim
  | awake w =>
    obtain ⟨wakeAt, hw, hle⟩ := he
    obtain ⟨wakeAt', hw', hlt⟩ := hall w
    cases hw.symm.trans hw'
    omega
  | _ => rfl

theorem mem_next (hw : e.worker = none) (hm : event ∈ Q.elems s.timeQ) : event ∈ Q.elems (s.next e).timeQ := by
  cases e with
  | enqueue c new =>
    show event ∈ Q.elems (Q.push new s.timeQ)
    rw [Q.elems_push]
    exact Multiset.mem_cons_of_mem hm
  | notifyOne c w => exact hm
  | adjustTiming adjustment => exact hm
  | destroy => exact hm
  | notifyDestroy => exact hm
  | join => exact hm
  | tick => exact hm
  | _ => cases hw

theorem clock_next_le (hw : e.worker = none) : (s.next e).clock ≤ s.clock + 1 := by
  cases e with
  | tick => exact Int.le_refl _
  | enqueue c event => exact Int.le_add_one (Int.le_refl _)
  | notifyOne c w => exact Int.le_add_one (Int.le_refl _)
  | adjustTiming adjustment => exact Int.le_add_one (Int.le_refl _)
  | destroy => exact Int.le_add_one (Int.le_refl _)
  | notifyDestroy => exact Int.le_add_one (Int.le_refl _)
  | join => exact Int.le_add_one (Int.le_refl _)
  | _ => cases hw

/-- Until the event is due, nothing but the clock moves for a doomed event. -/
theorem Doomed.next (hd : Doomed s) (hs : ¬ Overslept s) (he : s.Enabled e) : Doomed (s.next e) := by
  obtain ⟨event, hm, hall⟩ := hd
  have hasleep : ∀ w, ∃ wakeAt, s.workers w = .busy (.sleeping wakeAt) ∧ s.clock < wakeAt := by
    intro w
    obtain ⟨wakeAt, hw, hlate⟩ := hall w
    exact ⟨wakeAt, hw, by omega⟩
  have hclock : s.clock ≤ event.time := by
    by_contra hlt
    exact hs ⟨⟨event, hm, by omega⟩, hasleep⟩
  have hnone := no_worker_of_sleeping he hasleep
  refine ⟨event, mem_next hnone hm, fun w => ?_⟩
  obtain ⟨wakeAt, hw, hlate⟩ := hall w
  have hstay := workers_next he (u := w) (by rw [hnone]; simp)
  have hle := clock_next_le (s := s) hnone
  exact ⟨wakeAt, (hstay.eq_iff (by simp) (by simp)).mpr hw, by omega⟩

variable [DecidableEq β]

theorem step_tick (s : TimerPool Q n) : step s .tick = some (s.next .tick) := if_pos trivial

theorem Doomed.ticks : ∀ (m : Nat) (s : TimerPool Q n) (event : TimeEvent β), event ∈ Q.elems s.timeQ →
    (∀ w, ∃ wakeAt, s.workers w = .busy (.sleeping wakeAt) ∧ max (event.time + 1) s.clock < wakeAt) →
    event.time + 1 ≤ s.clock + m → ¬ Always step (fun s => ¬ Overslept s) s (List.replicate m .tick)
  | 0, s, event, hm, hall, hle => by
    intro ha
    refine ha.1 ⟨⟨event, hm, by omega⟩, fun w => ?_⟩
    obtain ⟨wakeAt, hw, hlate⟩ := hall w
    exact ⟨wakeAt, hw, by omega⟩
  | m + 1, s, event, hm, hall, hle => by
    intro ha
    by_cases hdue : event.time < s.clock
    · refine ha.1 ⟨⟨event, hm, hdue⟩, fun w => ?_⟩
      obtain ⟨wakeAt, hw, hlate⟩ := hall w
      exact ⟨wakeAt, hw, by omega⟩
    · have hnext : (s.next .tick).clock = s.clock + 1 := rfl
      refine Doomed.ticks m (s.next .tick) event hm (fun w => ?_) (by omega) (ha.2 _ (step_tick s))
      obtain ⟨wakeAt, hw, hlate⟩ := hall w
      exact ⟨wakeAt, hw, by omega⟩

theorem Doomed.not_always : ∀ (es : List (TimerStep β n)) (s s' : TimerPool Q n), Doomed s →
    run step s es = some s' → ∃ m, ¬ Always step (fun s => ¬ Overslept s) s (es ++ List.replicate m .tick)
  | [], s, _, ⟨event, hm, hall⟩, _ => by
    refine ⟨(event.time + 1 - s.clock).toNat, Doomed.ticks _ s event hm hall ?_⟩
    omega
  | e :: es, s, s', hd, hr => by
    obtain ⟨s₁, hs, hr⟩ := Option.bind_eq_some_iff.mp hr
    by_cases hov : Overslept s
    · exact ⟨0, fun ha => ha.1 hov⟩
    · obtain ⟨he, rfl⟩ := step_next hs
      obtain ⟨m, hm⟩ := Doomed.not_always es _ s' (hd.next hov he) hr
      exact ⟨m, fun ha => hm (ha.2 _ hs)⟩

/-- A run that breaks the condition sleeps past an event, at the latest when the clock
runs on after it. -/
theorem staffed_of_always : ∀ (es : List (TimerStep β n)) (s s' : TimerPool Q n), Locked s → Covered s →
    run step s es = some s' →
    (∀ m, Always step (fun s => ¬ Overslept s) s (es ++ List.replicate m .tick)) →
    Along step (fun s e _ => Staffed s e) s es
  | [], _, _, _, _, _, _ => trivial
  | e :: es, s, s', hl, hc, hr, ha => by
    obtain ⟨s₁, hs, hr⟩ := Option.bind_eq_some_iff.mp hr
    obtain ⟨he, rfl⟩ := step_next hs
    by_cases hk : Staffed s e
    · exact along_cons hs hk
        (staffed_of_always es _ s' (hl.next he) (hc.next hl he hk) hr fun m => (ha m).2 _ hs)
    · obtain ⟨m, hm⟩ := Doomed.not_always es _ s' (doomed_of_not_staffed hk) hr
      exact absurd ((ha m).2 _ hs) hm

end

/-- Worker `w` sleeps until its event, finds it due and runs it. -/
def punctualRun (w : Fin n) : List (TimerStep Nat n) :=
  [.enqueue 0 ⟨2, 7⟩, .notifyOne 0 none, .check w, .inspect w, .unlock w, .readTime w 2, .loadAdjustment w, .sleepFor w,
    .tick, .tick, .tick, .awake w, .check w, .inspect w, .take w, .finish w]

theorem not_overslept_of_staffed_punctual :
    (∃ s, run step (init (timeQueue Nat) 1) (punctualRun 0) = some s ∧ s.started = [⟨2, 7⟩]) ∧
      Always step (fun s => ¬ Overslept s) (init (timeQueue Nat) 1) (punctualRun 0) := by
  refine ⟨⟨_, rfl, rfl⟩, not_overslept_of_staffed ?_⟩
  refine along_cons rfl ⟨0, fun wakeAt hw => by cases hw⟩ ?_
  iterate 6 refine along_cons rfl trivial ?_
  refine along_cons rfl (fun now inspected adjustment version time load hw event hm => ?_) ?_
  · cases hw
    obtain rfl := Multiset.mem_singleton.mp hm
    exact Or.inr (by decide)
  · iterate 8 refine along_cons rfl trivial ?_
    trivial

/-- Calls of `enqueue`, workers and the clock, and nothing else. -/
def Plain : TimerStep β n → Prop
  | .adjustTiming _ | .destroy | .notifyDestroy | .join => False
  | _ => True

/-- Worker `w` sleeps for the far event when the near one comes. -/
def farRun (w : Fin n) : List (TimerStep Nat n) :=
  [.enqueue 0 ⟨100, 7⟩, .notifyOne 0 none, .check w, .inspect w, .unlock w, .readTime w 100, .loadAdjustment w,
    .sleepFor w, .enqueue 0 ⟨5, 8⟩, .notifyOne 0 none, .tick, .tick, .tick, .tick, .tick, .tick]

theorem far_oversleeps : ¬ ∀ n, 1 ≤ n → ∀ es : List (TimerStep Nat n), (∀ e ∈ es, Plain e) →
    Always step (fun s => ¬ Overslept s) (init (timeQueue Nat) n) es := by
  intro h
  have hplain : ∀ e ∈ farRun (0 : Fin 1), Plain e := by
    unfold farRun
    simp [Plain]
  refine (h 1 (by decide) (farRun 0) hplain).last _ _ _ rfl ⟨⟨⟨5, 8⟩, ?_, by decide⟩, fun w => ⟨100, ?_, by decide⟩⟩
  · show (⟨5, 8⟩ : TimeEvent Nat) ∈ (([⟨5, 8⟩, ⟨100, 7⟩] : List (TimeEvent Nat)) : Multiset (TimeEvent Nat))
    simp
  · rw [Subsingleton.elim w 0]
    rfl

end TimerPool

end LearningC
