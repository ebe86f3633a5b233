import LearningC.TimerRuns

/-!
# The end of the timer pool

The destructor sets `stop` and notifies without `mtx`. A worker that has found the
predicate false and is not asleep yet misses the notification; without such a worker the
destructor wakes everybody.
-/

namespace LearningC

open Runs CondVar

namespace TimerPool

variable {β : Type} {Q : TimeQueue β} {n : Nat}

/-- The destructor has notified, and a worker sleeps over the empty queue. -/
def Hang (s : TimerPool Q n) : Prop :=
  (∃ k, s.dtor = .join k) ∧ Q.elems s.timeQ = 0 ∧ ∃ w, s.workers w = .asleep

/-- All calls of `enqueue` have returned when the destructor starts, and none comes after. -/
def EnqueuedBefore (s : TimerPool Q n) : TimerStep β n → Prop
  | .destroy => ∀ c, s.notifying c = false
  | .enqueue _ _ => s.dtor = .idle
  | _ => True

/-- When the destructor notifies, no worker is between its look at the predicate and its sleep. -/
def NobodyBlocks (s : TimerPool Q n) : TimerStep β n → Prop
  | .notifyDestroy => ∀ w, s.workers w ≠ .block
  | _ => True

structure Stopping (s : TimerPool Q n) : Prop where
  locked : Locked s
  stopped : s.stop = true ↔ s.dtor ≠ .idle
  attended : Attended (s.stop = true) (s.dtor = .notify) False s.workers
  settled : ∀ k, s.dtor = .join k → ∀ w, s.workers w ≠ .block

section
variable {s s' : TimerPool Q n} {e : TimerStep β n} {w u : Fin n}

theorem asleep_of_next (h : Locked s) (he : s.Enabled e) (ha : (s.next e).workers u = .asleep) :
    s.workers u = .asleep ∨ e = .sleep u := by
  rcases moved_or_stirred h he u with hm | ⟨-, hs⟩
  · rw [ha] at hm
    cases hm
    exact Or.inr rfl
  · exact Or.inl (hs.asleep ha)

theorem block_of_next (h : Locked s) (he : s.Enabled e) (hb : (s.next e).workers u = .block) :
    s.workers u = .block ∨ e = .check u ∧ s.stop = false := by
  rcases moved_or_stayed h he (by simp) (by simp) hb with hm | ⟨-, hw⟩
  · cases hm with
    | block _ hs => exact Or.inr ⟨rfl, hs⟩
  · exact Or.inl hw

theorem stopped_next (he : s.Enabled e) (h : s.stop = true ↔ s.dtor ≠ .idle) :
    (s.next e).stop = true ↔ (s.next e).dtor ≠ .idle := by
  cases e with
  | destroy => simp [next]
  | notifyDestroy =>
    have hd : s.dtor = .notify := he
    have hs : s.stop = true := h.mpr (by rw [hd]; simp)
    simp [next, hs]
  | join =>
    obtain ⟨w, hd, -⟩ := he
    have hs : s.stop = true := h.mpr (by rw [hd]; simp)
    simp [next, hs, hd, Teardown.joinNext]
  | check w => rwa [(frame_check s w).2.1, (frame_check s w).2.2.2.1]
  | inspect w => rwa [(frame_inspect s w).2.1, (frame_inspect s w).2.2.2.1]
  | take w => rwa [(frame_take s w).1, (frame_take s w).2.2.1]
  | _ => exact h

theorem dtor_next (he : s.Enabled e) : (s.next e).dtor = s.dtor ∨ e = .destroy ∧ (s.next e).dtor = .notify ∨
    e = .notifyDestroy ∧ (s.next e).dtor = .join 0 ∨ ∃ k, s.dtor = .join k ∧ (s.next e).dtor = .join (k + 1) := by
  cases e with
  | destroy => exact Or.inr (Or.inl ⟨rfl, rfl⟩)
  | notifyDestroy => exact Or.inr (Or.inr (Or.inl ⟨rfl, rfl⟩))
  | join =>
    obtain ⟨w, hd, -⟩ := he
    exact Or.inr (Or.inr (Or.inr ⟨w, hd, by simp [next, hd, Teardown.joinNext]⟩))
  | check w => exact Or.inl (frame_check s w).2.2.2.1
  | inspect w => exact Or.inl (frame_inspect s w).2.2.2.1
  | take w => exact Or.inl (frame_take s w).2.2.1
  | _ => exact Or.inl rfl

theorem attended_next (h : Stopping s) (he : s.Enabled e) :
    Attended ((s.next e).stop = true) ((s.next e).dtor = .notify) False (s.next e).workers := by
  have hstop := stopped_next he h.stopped
  refine h.attended.step (fun u hu => ?_) (fun hs => ?_) (fun hd => ?_) fun hf => hf.elim
  · rcases asleep_of_next h.locked he hu with hu | rfl
    · exact Or.inl hu
    · refine Or.inr ?_
      have hb : s.workers u = .block := he
      cases hd : s.dtor with
      | idle => exact Or.inl fun hs => h.stopped.mp hs hd
      | notify => exact Or.inr hd
      | join k => exact absurd hb (h.settled k hd u)
  · rcases dtor_next he with hd | ⟨-, hd⟩ | ⟨rfl, -⟩ | ⟨k, hd, -⟩
    · exact Or.inl (h.stopped.mpr (hd ▸ hstop.mp hs))
    · exact Or.inr hd
    · exact Or.inl hs
    · exact Or.inl (h.stopped.mpr (by rw [hd]; simp))
  · rcases dtor_next he with hd' | ⟨-, hd'⟩ | ⟨rfl, -⟩ | ⟨k, hd', -⟩
    · exact Or.inl (hd'.trans hd)
    · exact Or.inl hd'
    · exact Or.inr (Or.inl fun u => wakeAll_ne_asleep)
    · cases hd.symm.trans hd'

theorem settled_next (h : Stopping s) (he : s.Enabled e) (hn : NobodyBlocks s e) :
    ∀ k, (s.next e).dtor = .join k → ∀ w, (s.next e).workers w ≠ .block := by
  intro k hk u hb
  have hjoined : ∀ j, s.dtor = .join j → False := by
    intro j hj
    rcases block_of_next h.locked he hb with hb | ⟨-, hs⟩
    · exact h.settled j hj u hb
    · have hstop := h.stopped.mpr (by rw [hj]; simp)
      rw [hs] at hstop
      cases hstop
  rcases dtor_next he with hd | ⟨-, hd⟩ | ⟨rfl, -⟩ | ⟨j, hd, -⟩
  · exact hjoined k (hd.symm.trans hk)
  · cases hd.symm.trans hk
  · exact hn u (((wakeAll_stirs _ _).eq_iff (by simp) (by simp)).mp hb)
  · exact hjoined j hd

/-- A worker that blocks when the destructor notifies sleeps right after it. -/
theorem hang_of_block [DecidableEq β] (h : Locked s) (hd : s.dtor = .notify) (hb : s.workers w = .block) :
    ∃ s', run step s [.notifyDestroy, .sleep w] = some s' ∧ Hang s' := by
  have hw : (s.next .notifyDestroy).workers w = .block := ((wakeAll_stirs _ _).eq_iff (by simp) (by simp)).mpr hb
  refine ⟨(s.next .notifyDestroy).next (.sleep w), ?_, ⟨0, rfl⟩, h.block hb, w, Function.update_self ..⟩
  have h₁ : step s .notifyDestroy = some (s.next .notifyDestroy) := if_pos hd
  have h₂ : step (s.next .notifyDestroy) (.sleep w) = some ((s.next .notifyDestroy).next (.sleep w)) := if_pos hw
  simp only [run, h₁, h₂, Option.bind_some]

theorem stopping_init : Stopping (init Q n) := by
  refine ⟨locked_init, by simp [init], fun hs => ?_, fun k hk => ?_⟩
  · cases hs
  · cases hk

theorem Stopping.not_hang (h : Stopping s) : ¬ Hang s := by
  rintro ⟨⟨k, hk⟩, -, w, hw⟩
  have hs : s.stop = true := h.stopped.mpr (by rw [hk]; simp)
  rcases h.attended hs with hd | hnone | hf
  · cases hk.symm.trans hd
  · exact hnone w hw
  · exact hf

end

/-- **Shutdown.** In a run in which no worker is about to sleep when the destructor
notifies, no worker sleeps on after it. -/
theorem no_hang_of_nobodyBlocks [DecidableEq β] {es : List (TimerStep β n)}
    (h : Along step (fun s e _ => NobodyBlocks s e) (init Q n) es) : Always step (fun s => ¬ Hang s) (init Q n) es := by
  refine always_of_along (I := Stopping) (U := fun _ => True) (fun s e s' hI _ hs hn => ?_) (fun s h => h.not_hang)
    (fun _ _ => trivial) stopping_init h
  obtain ⟨he, rfl⟩ := step_next hs
  exact ⟨hI.locked.next he, stopped_next he hI.stopped, attended_next hI he, settled_next hI he hn⟩

/-- Worker `w` sleeps before the destructor begins. -/
def promptRun (w : Fin n) : List (TimerStep Nat n) :=
  [.check w, .sleep w, .destroy, .notifyDestroy, .check w, .join]

theorem no_hang_of_nobodyBlocks_prompt :
    (∃ s, run step (init (timeQueue Nat) 1) (promptRun 0) = some s ∧ s.dtor = .join 1) ∧
      Always step (fun s => ¬ Hang s) (init (timeQueue Nat) 1) (promptRun 0) := by
  refine ⟨⟨_, rfl, rfl⟩, no_hang_of_nobodyBlocks ?_⟩
  refine along_cons rfl trivial (along_cons rfl trivial (along_cons rfl trivial (along_cons rfl ?_
    (along_cons rfl trivial (along_cons rfl trivial trivial)))))
  intro w hb
  rw [Subsingleton.elim w 0] at hb
  cases hb

/-- The destructor runs between `w`'s look at the predicate and its sleep. -/
def missedRun (w : Fin n) : List (TimerStep Nat n) := [.check w, .destroy, .notifyDestroy, .sleep w]

theorem missed_hangs : ¬ ∀ n, ∀ es : List (TimerStep Nat n),
    Along step (fun s e _ => EnqueuedBefore s e) (init (timeQueue Nat) n) es →
      Always step (fun s => ¬ Hang s) (init (timeQueue Nat) n) es := by
  intro h
  have hcalm : Along step (fun s e _ => EnqueuedBefore s e) (init (timeQueue Nat) 1) (missedRun 0) :=
    along_cons rfl trivial (along_cons rfl (fun _ => rfl) (along_cons rfl trivial (along_cons rfl trivial trivial)))
  exact (h 1 (missedRun 0) hcalm).last _ _ _ rfl ⟨⟨0, rfl⟩, rfl, 0, rfl⟩

end TimerPool

end LearningC
