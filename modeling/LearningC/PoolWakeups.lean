import LearningC.PoolQueue

/-!
# Wakeups of the thread pool

A worker sleeps only after it has found the queue empty and the flag unset under `mtx`,
and whatever changes that sends a notification afterwards. So the pool never rests with
work to do while no notification is on its way.
-/

namespace LearningC

open Runs CondVar

namespace ThreadPool

variable {n : Nat} {τ : Type}

/-- Nobody has a notification to issue, somebody sleeps, nobody else is left, and yet the
predicate holds. -/
def LostWakeup (s : ThreadPool n τ) : Prop :=
  (∀ c, s.calls c = .idle) ∧ s.dtor ≠ .notify ∧ (∃ w, s.threads w = .asleep) ∧
    (∀ w, s.threads w = .gone ∨ s.threads w = .asleep) ∧ s.pred = true

/-- Only a worker that holds `mtx` is about to sleep, and nothing has changed since it looked. -/
def BlockedOnFalse (s : ThreadPool n τ) : Prop :=
  ∀ w, s.threads w = .block → s.mtx = some w ∧ s.taskQueue = [] ∧ s.stopFlag = false

structure Wakeful (s : ThreadPool n τ) : Prop where
  blocked : BlockedOnFalse s
  queue : Attended (s.taskQueue ≠ []) (∃ c, s.calls c = .notifyOne) (∃ w, (s.threads w).Awake) s.threads
  stop : Attended (s.stopFlag = true) ((∃ c, s.calls c = .notifyAll) ∨ s.dtor = .notify) False s.threads

section
variable {s s' : ThreadPool n τ} {e : PoolEvent n τ} {w u : Fin n} {c : Nat}

theorem BlockedOnFalse.free (h : BlockedOnFalse s) (hm : s.mtx = none) : ∀ w, s.threads w ≠ .block := by
  intro w hw
  rw [(h w hw).1] at hm
  cases hm

theorem BlockedOnFalse.next (h : BlockedOnFalse s) (he : s.Enabled e) : BlockedOnFalse (s.next e) := by
  have hkeep : ∀ u, (s.next e).threads u = .block → s.threads u = .block ∨ e.worker = some u := by
    intro u hb
    by_cases hu : e.worker = some u
    · exact Or.inr hu
    · exact Or.inl (((threads_next he hu).eq_iff (by simp) (by simp)).mp hb)
  intro u hb
  cases e with
  | addTask c task => exact absurd hb (h.free he.2 u)
  | setStop c flag => exact absurd hb (h.free he.2 u)
  | destroy => exact absurd hb (h.free he.2 u)
  | check w =>
    rcases checkQueue_cases s w with ⟨hq, hf, hn⟩ | ⟨-, -, hn⟩ | ⟨task, queue, -, hn⟩
    · rcases hkeep u hb with hb | hu
      · exact absurd hb (h.free he.2 u)
      · cases hu
        rw [hn]
        exact ⟨rfl, hq, hf⟩
    · rw [hn] at hb
      exact absurd (place_of_update (by simp) hb).2 (h.free he.2 u)
    · rw [hn] at hb
      exact absurd (place_of_update (by simp) hb).2 (h.free he.2 u)
  | sleep w =>
    obtain ⟨hne, hb⟩ := place_of_update (by simp) hb
    have hw := (h w he).1
    rw [(h u hb).1] at hw
    exact absurd (Option.some.inj hw) hne
  | wake w => exact h u (place_of_update (by simp) hb).2
  | finish w => exact h u (place_of_update (by simp) hb).2
  | notifyOne c w => exact h u ((hkeep u hb).resolve_right (by simp [PoolEvent.worker]))
  | notifyAll c => exact h u ((hkeep u hb).resolve_right (by simp [PoolEvent.worker]))
  | notifyDestroy => exact h u ((hkeep u hb).resolve_right (by simp [PoolEvent.worker]))
  | join => exact h u hb

/-! ## Who falls asleep, who looks, and who notifies -/

theorem asleep_of_next (he : s.Enabled e) (ha : (s.next e).threads u = .asleep) :
    s.threads u = .asleep ∨ e = .sleep u := by
  by_cases hu : e.worker = some u
  · cases e with
    | check w =>
      rcases checkQueue_cases s w with ⟨-, -, hn⟩ | ⟨-, -, hn⟩ | ⟨task, queue, -, hn⟩
      all_goals
        rw [hn] at ha
        exact Or.inl (place_of_update (by simp) ha).2
    | sleep w =>
      cases hu
      exact Or.inr rfl
    | wake w => exact Or.inl (place_of_update (by simp) ha).2
    | finish w => exact Or.inl (place_of_update (by simp) ha).2
    | _ => cases hu
  · exact Or.inl ((threads_next he hu).asleep ha)

theorem awake_next (he : s.Enabled e) (ha : (s.threads u).Awake) :
    ((s.next e).threads u).Awake ∨ (s.next e).taskQueue = [] := by
  by_cases hu : e.worker = some u
  · have hset : ∀ {p : Place τ}, p.Awake → (Function.update s.threads u p u).Awake := by
      intro p hp
      rwa [Function.update_self]
    cases e with
    | check w =>
      cases hu
      rcases checkQueue_cases s u with ⟨hq, -, hn⟩ | ⟨hq, -, hn⟩ | ⟨task, queue, -, hn⟩
      · rw [hn]
        exact Or.inr hq
      · rw [hn]
        exact Or.inr hq
      · rw [hn]
        exact Or.inl (hset trivial)
    | sleep w =>
      cases hu
      rw [show s.threads u = .block from he] at ha
      exact ha.elim
    | wake w =>
      cases hu
      exact Or.inl (hset trivial)
    | finish w =>
      cases hu
      exact Or.inl (hset trivial)
    | _ => cases hu
  · exact Or.inl ((threads_next he hu).awake ha)

theorem calls_next (he : s.Enabled e) {p : PoolCall} (hp : p ≠ .idle) (hc : s.calls c = p) :
    (s.next e).calls c = p ∨ (e = .notifyAll c ∧ p = .notifyAll) ∨ ∃ w, e = .notifyOne c w ∧ p = .notifyOne := by
  have hset : ∀ {c'} {p' : PoolCall}, c ≠ c' → (s.setCall c' p').calls c = p :=
    fun hne => (Function.update_of_ne hne _ _).trans hc
  cases e with
  | addTask c' task =>
    refine Or.inl (hset fun e => ?_)
    rw [e, he.1] at hc
    exact hp hc.symm
  | setStop c' flag =>
    refine Or.inl (hset fun e => ?_)
    rw [e, he.1] at hc
    exact hp hc.symm
  | notifyOne c' w =>
    by_cases e : c = c'
    · subst e
      have hone : s.calls c = .notifyOne := by
        cases w with
        | none => exact he.1
        | some w => exact he.1
      exact Or.inr (Or.inr ⟨w, rfl, hc.symm.trans hone⟩)
    · exact Or.inl (hset e)
  | notifyAll c' =>
    by_cases e : c = c'
    · subst e
      exact Or.inr (Or.inl ⟨rfl, hc.symm.trans he⟩)
    · exact Or.inl (hset e)
  | join => exact Or.inl hc
  | check w => exact Or.inl ((frame_check s w).1 ▸ hc)
  | finish w => exact Or.inl hc
  | destroy => exact Or.inl hc
  | notifyDestroy => exact Or.inl hc
  | sleep w => exact Or.inl hc
  | wake w => exact Or.inl hc

theorem stopFlag_of_next (he : s.Enabled e) (hf : (s.next e).stopFlag = true) :
    s.stopFlag = true ∨ (∃ c, (s.next e).calls c = .notifyAll) ∨ (s.next e).dtor = .notify := by
  cases e with
  | setStop c flag => exact Or.inr (Or.inl ⟨c, Function.update_self ..⟩)
  | destroy => exact Or.inr (Or.inr rfl)
  | join => exact Or.inl hf
  | check w => exact Or.inl ((frame_check s w).2.2.1 ▸ hf)
  | finish w => exact Or.inl hf
  | addTask c task => exact Or.inl hf
  | notifyOne c w => exact Or.inl hf
  | notifyAll c => exact Or.inl hf
  | notifyDestroy => exact Or.inl hf
  | sleep w => exact Or.inl hf
  | wake w => exact Or.inl hf

theorem dtor_next (he : s.Enabled e) (hd : s.dtor = .notify) : (s.next e).dtor = .notify ∨ e = .notifyDestroy := by
  cases e with
  | notifyDestroy => exact Or.inr rfl
  | destroy => exact Or.inl rfl
  | join =>
    obtain ⟨w, hj, -⟩ := he
    rw [hd] at hj
    cases hj
  | check w => exact Or.inl ((frame_check s w).2.1 ▸ hd)
  | finish w => exact Or.inl hd
  | addTask c task => exact Or.inl hd
  | setStop c flag => exact Or.inl hd
  | notifyOne c w => exact Or.inl hd
  | notifyAll c => exact Or.inl hd
  | sleep w => exact Or.inl hd
  | wake w => exact Or.inl hd

/-! ## Runs -/

theorem notifyOne_looks {w : Option (Fin n)} (he : s.Enabled (.notifyOne c w)) :
    (∀ u, (s.next (.notifyOne c w)).threads u ≠ .asleep) ∨ ∃ u, ((s.next (.notifyOne c w)).threads u).Awake := by
  cases w with
  | none => exact Or.inl he.2
  | some w =>
    refine Or.inr ⟨w, ?_⟩
    show (Function.update s.threads w .check w).Awake
    rw [Function.update_self]
    trivial

theorem Wakeful.step [DecidableEq τ] (h : Wakeful s) (hs : s.step e = some s') : Wakeful s' := by
  obtain ⟨he, rfl⟩ := step_next hs
  refine ⟨h.blocked.next he, ?_, ?_⟩
  · refine h.queue.step (fun u hu => ?_) (fun hq => ?_) ?_ ?_
    · rcases asleep_of_next he hu with hu | rfl
      · exact Or.inl hu
      · exact Or.inr (Or.inl fun hq => hq (h.blocked u he).2.1)
    · rcases queue_of_next hq with hq | ⟨c, task, rfl⟩
      · exact Or.inl hq
      · exact Or.inr ⟨c, Function.update_self ..⟩
    · rintro ⟨c, hc⟩
      rcases calls_next he (by simp) hc with hc | ⟨-, hp⟩ | ⟨w, rfl, -⟩
      · exact Or.inl ⟨c, hc⟩
      · cases hp
      · exact Or.inr (notifyOne_looks he)
    · rintro ⟨u, hu⟩
      rcases awake_next he hu with hu | hq
      · exact Or.inl ⟨u, hu⟩
      · exact Or.inr fun hq' => hq' hq
  · refine h.stop.step (fun u hu => ?_) (stopFlag_of_next he) ?_ fun hf => hf.elim
    · rcases asleep_of_next he hu with hu | rfl
      · exact Or.inl hu
      · refine Or.inr (Or.inl fun hf => ?_)
        have hf' := (h.blocked u he).2.2
        rw [show s.stopFlag = true from hf] at hf'
        cases hf'
    · rintro (⟨c, hc⟩ | hd)
      · rcases calls_next he (by simp) hc with hc | ⟨rfl, -⟩ | ⟨w, -, hp⟩
        · exact Or.inl (Or.inl ⟨c, hc⟩)
        · exact Or.inr (Or.inl fun u => wakeAll_ne_asleep)
        · cases hp
      · rcases dtor_next he hd with hd | rfl
        · exact Or.inl (Or.inr hd)
        · exact Or.inr (Or.inl fun u => wakeAll_ne_asleep)

theorem wakeful_init : Wakeful (init n τ) := by
  refine ⟨fun w hw => ?_, fun _ => Or.inr (Or.inl fun w => ?_), fun _ => Or.inr (Or.inl fun w => ?_)⟩
  · cases hw
  · simp [init]
  · simp [init]

theorem Wakeful.not_lostWakeup (h : Wakeful s) : ¬ LostWakeup s := by
  rintro ⟨hidle, hd, ⟨w, hw⟩, hrest, hp⟩
  unfold pred at hp
  have hcases : s.taskQueue ≠ [] ∨ s.stopFlag = true := by simpa using hp
  rcases hcases with hq | hf
  · rcases h.queue hq with ⟨c, hc⟩ | hs | ⟨u, hu⟩
    · rw [hidle c] at hc
      cases hc
    · exact hs w hw
    · rcases hrest u with e | e
      · rw [e] at hu
        exact hu
      · rw [e] at hu
        exact hu
  · rcases h.stop hf with (⟨c, hc⟩ | hd') | hs | hfalse
    · rw [hidle c] at hc
      cases hc
    · exact hd hd'
    · exact hs w hw
    · exact hfalse

end

/-- **Wakeups.** No run of the pool comes to rest over a queue with tasks or a set flag. -/
theorem no_lostWakeup [DecidableEq τ] (es : List (PoolEvent n τ)) :
    Always step (fun s => ¬ LostWakeup s) (init n τ) es :=
  always_of_invariant (fun _ _ _ h hs => h.step hs) (fun _ h => h.not_lostWakeup) wakeful_init es

end ThreadPool

end LearningC
