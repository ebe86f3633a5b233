import LearningC.Runs
import LearningC.ThreadPool

/-!
# The queue of the thread pool

Whatever the order of the steps, the tasks that workers have taken and the tasks still
queued are the accepted tasks in their order, and a worker returns only when the queue
is empty and the flag set.
-/

namespace LearningC

open Runs CondVar

namespace ThreadPool

variable {n : Nat} {τ : Type}

/-- Tasks leave the queue in the order in which they came, and never from an empty queue. -/
structure InOrder (s : ThreadPool n τ) : Prop where
  order : s.taken ++ s.taskQueue = s.accepted
  underflow : s.underflow = false

/-- A worker that returns in the step from `s` to `s'` does so on an empty queue and a set flag. -/
def ReturnsWhenStopped (s s' : ThreadPool n τ) : Prop :=
  ∀ w, s.threads w ≠ .gone → s'.threads w = .gone → s.taskQueue = [] ∧ s.stopFlag = true

/-! ## What a step does -/

section
variable {s s' : ThreadPool n τ} {e : PoolEvent n τ} {w u : Fin n}

theorem step_next [DecidableEq τ] (h : s.step e = some s') : s.Enabled e ∧ s' = s.next e :=
  Runs.guarded_some h

theorem threads_next (he : s.Enabled e) (hu : e.worker ≠ some u) : Stirred (s.threads u) ((s.next e).threads u) := by
  have hset : ∀ {w : Fin n} (p : Place τ), some w ≠ some u → Stirred (s.threads u) (Function.update s.threads w p u) := by
    intro w p hw
    have hne : u ≠ w := fun e => hw (congrArg some e.symm)
    exact Or.inl (Function.update_of_ne hne _ _)
  cases e with
  | addTask c task => exact Stirred.refl _
  | setStop c flag => exact Stirred.refl _
  | notifyOne c w =>
    apply wakeOne_stirs
    rintro j rfl
    exact he.2
  | notifyAll c => exact wakeAll_stirs _ _
  | destroy => exact Stirred.refl _
  | notifyDestroy => exact wakeAll_stirs _ _
  | join => exact Stirred.refl _
  | check w =>
    rcases checkQueue_cases s w with ⟨-, -, hn⟩ | ⟨-, -, hn⟩ | ⟨task, queue, -, hn⟩
    all_goals
      rw [hn]
      exact hset _ hu
  | sleep w => exact hset _ hu
  | wake w => exact hset _ hu
  | finish w => exact hset _ hu

theorem gone_of_next (he : s.Enabled e) (hg : (s.next e).threads u = .gone) :
    s.threads u = .gone ∨ s.taskQueue = [] ∧ s.stopFlag = true := by
  by_cases hu : e.worker = some u
  · cases e with
    | check w =>
      cases hu
      rcases checkQueue_cases s u with ⟨-, -, hn⟩ | ⟨hq, hf, -⟩ | ⟨task, queue, -, hn⟩
      · rw [hn] at hg
        exact Or.inl (place_of_update (by simp) hg).2
      · exact Or.inr ⟨hq, hf⟩
      · rw [hn] at hg
        exact Or.inl (place_of_update (by simp) hg).2
    | sleep w => exact Or.inl (place_of_update (by simp) hg).2
    | wake w => exact Or.inl (place_of_update (by simp) hg).2
    | finish w => exact Or.inl (place_of_update (by simp) hg).2
    | _ => cases hu
  · exact Or.inl (((threads_next he hu).eq_iff (by simp) (by simp)).mp hg)

theorem queue_of_next (hq : (s.next e).taskQueue ≠ []) : s.taskQueue ≠ [] ∨ ∃ c task, e = .addTask c task := by
  cases e with
  | addTask c task => exact Or.inr ⟨c, task, rfl⟩
  | check w =>
    rcases checkQueue_cases s w with ⟨-, -, hn⟩ | ⟨-, -, hn⟩ | ⟨task, queue, hq', -⟩
    · rw [hn] at hq
      exact Or.inl hq
    · rw [hn] at hq
      exact Or.inl hq
    · rw [hq']
      exact Or.inl (by simp)
  | setStop c flag => exact Or.inl hq
  | notifyOne c w => exact Or.inl hq
  | notifyAll c => exact Or.inl hq
  | destroy => exact Or.inl hq
  | notifyDestroy => exact Or.inl hq
  | join => exact Or.inl hq
  | sleep w => exact Or.inl hq
  | wake w => exact Or.inl hq
  | finish w => exact Or.inl hq

/-! ## Runs -/

theorem returnsWhenStopped_step [DecidableEq τ] (hs : s.step e = some s') : ReturnsWhenStopped s s' := by
  obtain ⟨he, rfl⟩ := step_next hs
  intro u hu hg
  rcases gone_of_next he hg with h | ⟨hq, hf⟩
  · exact absurd h hu
  · exact ⟨hq, hf⟩

theorem InOrder.step [DecidableEq τ] (h : InOrder s) (hs : s.step e = some s') : InOrder s' := by
  obtain ⟨he, rfl⟩ := step_next hs
  cases e with
  | addTask c task =>
    refine ⟨?_, h.underflow⟩
    show s.taken ++ (s.taskQueue ++ [task]) = s.accepted ++ [task]
    rw [← List.append_assoc, h.order]
  | join => exact ⟨h.order, h.underflow⟩
  | check w =>
    rcases checkQueue_cases s w with ⟨-, -, hn⟩ | ⟨-, -, hn⟩ | ⟨task, queue, hq, hn⟩
    · rw [hn]
      exact ⟨h.order, h.underflow⟩
    · rw [hn]
      exact ⟨h.order, h.underflow⟩
    · rw [hn]
      refine ⟨?_, h.underflow⟩
      have horder := h.order
      rw [hq] at horder
      show s.taken ++ [task] ++ queue = s.accepted
      rwa [List.append_assoc]
  | finish w => exact ⟨h.order, h.underflow⟩
  | setStop c flag => exact ⟨h.order, h.underflow⟩
  | notifyOne c w => exact ⟨h.order, h.underflow⟩
  | notifyAll c => exact ⟨h.order, h.underflow⟩
  | destroy => exact ⟨h.order, h.underflow⟩
  | notifyDestroy => exact ⟨h.order, h.underflow⟩
  | sleep w => exact ⟨h.order, h.underflow⟩
  | wake w => exact ⟨h.order, h.underflow⟩

end

/-- **The queue.** In every run the taken tasks and the queue are the accepted tasks in
order, and workers return only when the pool is stopped and its queue empty. -/
theorem inOrder_always [DecidableEq τ] (es : List (PoolEvent n τ)) :
    Always step InOrder (init n τ) es ∧ Along step (fun s _ s' => ReturnsWhenStopped s s') (init n τ) es := by
  have h0 : InOrder (init n τ) := ⟨rfl, rfl⟩
  constructor
  · exact always_of_invariant (fun _ _ _ h hs => h.step hs) (fun _ h => h) h0 es
  · refine along_of_invariant (I := InOrder) (fun _ _ _ h hs => ?_) es _ h0
    exact ⟨returnsWhenStopped_step hs, h.step hs⟩

end ThreadPool

end LearningC
