import LearningC.Custody
import LearningC.PoolQueue
import Mathlib.Data.Fintype.Basic
import Mathlib.Tactic.Abel

/-!
# Accepted tasks and the end of the pool

A worker returns only on an empty queue, so a task is left behind only when it is pushed
after the last worker has returned: `addTask` does not look at `stopFlag`.
-/

namespace LearningC

open Runs CondVar Custody

namespace ThreadPool

variable {n : Nat} {τ : Type}

def Joined (s : ThreadPool n τ) : Prop := s.dtor = .join n

def Drained (s : ThreadPool n τ) : Prop := s.taskQueue = [] ∧ s.finished.Perm s.accepted

/-- All calls have returned when the destructor starts, and none comes after. -/
def DestroyedLast (s : ThreadPool n τ) : PoolEvent n τ → Prop
  | .destroy => ∀ c, s.calls c = .idle
  | .addTask _ _ | .setStop _ _ => s.dtor = .idle
  | _ => True

/-- A task is pushed while some worker has not returned. -/
def WorkerLeft (s : ThreadPool n τ) : PoolEvent n τ → Prop
  | .addTask _ _ => ∃ w, s.threads w ≠ .gone
  | _ => True

def running (s : ThreadPool n τ) : Multiset τ := held Finset.univ fun w => one (s.threads w).task

/-- What holds while no push comes too late. -/
structure Serving (s : ThreadPool n τ) : Prop where
  inOrder : InOrder s
  executed : (s.finished : Multiset τ) + s.running = s.taken
  joined : ∀ k, s.dtor = .join k → ∀ w : Fin n, w < k → s.threads w = .gone
  served : s.taskQueue ≠ [] → ∃ w, s.threads w ≠ .gone

def Stranded (s : ThreadPool n τ) : Prop := s.taskQueue ≠ [] ∧ ∀ w, s.threads w = .gone

section
variable {s s' : ThreadPool n τ} {e : PoolEvent n τ} {w u : Fin n}

theorem gone_next (he : s.Enabled e) (hg : s.threads u = .gone) : (s.next e).threads u = .gone := by
  have hu : e.worker ≠ some u := by
    intro hu
    cases e with
    | check w =>
      cases hu
      rw [he.1] at hg
      cases hg
    | sleep w =>
      cases hu
      cases hg.symm.trans he
    | wake w =>
      cases hu
      cases hg.symm.trans he
    | finish w =>
      cases hu
      obtain ⟨task, ht⟩ := he
      cases hg.symm.trans ht
    | _ => cases hu
  exact ((threads_next he hu).eq_iff (by simp) (by simp)).mpr hg

/-! ## Tasks in the hands of workers -/

theorem running_stirred (he : s.Enabled e) (hw : e.worker = none) : (s.next e).running = s.running := by
  apply held_congr
  intro u _
  rw [(threads_next he (u := u) (by rw [hw]; simp)).task]

theorem running_setThread (s : ThreadPool n τ) (w : Fin n) (p : Place τ) :
    one (s.threads w).task + (s.setThread w p).running = one p.task + s.running := by
  unfold running
  rw [threads_setThread]
  exact held_update (fun p => one p.task) s.threads p (Finset.mem_univ w)

theorem running_move {p : Place τ} (hw : (s.threads w).task = none) (hp : p.task = none) :
    (s.setThread w p).running = s.running := by
  have h := running_setThread s w p
  rw [hw, hp] at h
  exact add_left_cancel h

theorem executed_next (he : s.Enabled e) (h : (s.finished : Multiset τ) + s.running = s.taken) :
    ((s.next e).finished : Multiset τ) + (s.next e).running = (s.next e).taken := by
  have hsame : ∀ {s' : ThreadPool n τ}, s'.running = s.running → s'.finished = s.finished → s'.taken = s.taken →
      (s'.finished : Multiset τ) + s'.running = s'.taken := by
    intro s' hr hf ht
    rw [hr, hf, ht]
    exact h
  cases e with
  | notifyOne c w => exact hsame (running_stirred he rfl) rfl rfl
  | notifyAll c => exact hsame (running_stirred he rfl) rfl rfl
  | notifyDestroy => exact hsame (running_stirred he rfl) rfl rfl
  | check w =>
    have hw : (s.threads w).task = none := by
      rw [he.1]
      rfl
    rcases checkQueue_cases s w with ⟨-, -, hn⟩ | ⟨-, -, hn⟩ | ⟨task, queue, -, hn⟩
    · rw [hn]
      exact hsame (running_move hw rfl) rfl rfl
    · rw [hn]
      exact hsame (running_move hw rfl) rfl rfl
    · have hrun := running_setThread s w (.busy task)
      rw [hw] at hrun
      rw [hn]
      show (s.finished : Multiset τ) + (s.setThread w (.busy task)).running = ↑(s.taken ++ [task])
      rw [(zero_add _).symm.trans hrun, ← Multiset.coe_add, ← h, add_left_comm, add_comm]
      rfl
  | sleep w =>
    have hw : s.threads w = .block := he
    exact hsame (running_move (by rw [hw]; rfl) rfl) rfl rfl
  | wake w =>
    have hw : s.threads w = .asleep := he
    exact hsame (running_move (by rw [hw]; rfl) rfl) rfl rfl
  | finish w =>
    obtain ⟨task, ht⟩ := he
    have hrun := running_setThread s w .check
    rw [ht] at hrun
    show ((s.finished ++ (s.threads w).task.toList : List τ) : Multiset τ) + (s.setThread w .check).running = s.taken
    rw [ht, ← Multiset.coe_add, add_assoc, ← h]
    exact congrArg _ (hrun.trans (zero_add _))
  | addTask c task => exact h
  | setStop c flag => exact h
  | destroy => exact h
  | join => exact h

theorem running_gone (h : ∀ w, s.threads w = .gone) : s.running = 0 := by
  unfold running held
  apply Finset.sum_eq_zero
  intro w _
  rw [h w]
  rfl

/-! ## Steps -/

theorem joined_next (he : s.Enabled e) (h : ∀ k, s.dtor = .join k → ∀ w : Fin n, w < k → s.threads w = .gone) :
    ∀ k, (s.next e).dtor = .join k → ∀ w : Fin n, w < k → (s.next e).threads w = .gone := by
  intro k hk u hu
  cases e with
  | destroy => cases hk
  | notifyDestroy =>
    cases hk
    exact absurd hu (Nat.not_lt_zero _)
  | join =>
    obtain ⟨w, hd, hg⟩ := he
    have hk' : k = w + 1 := by
      unfold next at hk
      simp only [hd] at hk
      exact (Teardown.join.inj hk).symm
    by_cases e : (u : Nat) = w
    · rw [Fin.ext e]
      exact hg
    · exact h w hd u (by omega)
  | check w =>
    rw [(frame_check s w).2.1] at hk
    exact gone_next he (h k hk u hu)
  | addTask c task => exact gone_next he (h k hk u hu)
  | setStop c flag => exact gone_next he (h k hk u hu)
  | notifyOne c w => exact gone_next he (h k hk u hu)
  | notifyAll c => exact gone_next he (h k hk u hu)
  | sleep w => exact gone_next he (h k hk u hu)
  | wake w => exact gone_next he (h k hk u hu)
  | finish w => exact gone_next he (h k hk u hu)

theorem served_next (he : s.Enabled e) (h : s.taskQueue ≠ [] → ∃ w, s.threads w ≠ .gone) (hw : WorkerLeft s e)
    (hq : (s.next e).taskQueue ≠ []) : ∃ w, (s.next e).threads w ≠ .gone := by
  rcases queue_of_next hq with hq' | ⟨c, task, rfl⟩
  · obtain ⟨w, hw⟩ := h hq'
    refine ⟨w, fun hg => ?_⟩
    rcases gone_of_next he hg with hg | ⟨hempty, -⟩
    · exact hw hg
    · exact hq' hempty
  · exact hw

theorem Serving.next [DecidableEq τ] (h : Serving s) (hs : s.step e = some s') (hw : WorkerLeft s e) :
    Serving s' := by
  obtain ⟨he, rfl⟩ := step_next hs
  exact ⟨h.inOrder.step hs, executed_next he h.executed, joined_next he h.joined, served_next he h.served hw⟩

theorem Stranded.next (h : Stranded s) (he : s.Enabled e) : Stranded (s.next e) := by
  refine ⟨?_, fun w => gone_next he (h.2 w)⟩
  cases e with
  | addTask c task => exact List.append_ne_nil_of_right_ne_nil _ (by simp)
  | check w =>
    have hc := h.2 w
    rw [he.1] at hc
    cases hc
  | setStop c flag => exact h.1
  | notifyOne c w => exact h.1
  | notifyAll c => exact h.1
  | destroy => exact h.1
  | notifyDestroy => exact h.1
  | join => exact h.1
  | sleep w => exact h.1
  | wake w => exact h.1
  | finish w => exact h.1

theorem serving_or_stranded [DecidableEq τ] (h : Serving s) (hs : s.step e = some s') :
    WorkerLeft s e ∧ Serving s' ∨ ¬ WorkerLeft s e ∧ Stranded s' := by
  by_cases hw : WorkerLeft s e
  · exact Or.inl ⟨hw, h.next hs hw⟩
  · refine Or.inr ⟨hw, ?_⟩
    obtain ⟨-, rfl⟩ := step_next hs
    cases e with
    | addTask c task =>
      have hall : ∀ w, s.threads w = .gone := by
        intro w
        by_contra hg
        exact hw ⟨w, hg⟩
      exact ⟨List.append_ne_nil_of_right_ne_nil _ (by simp), hall⟩
    | _ => exact absurd trivial hw

/-! ## Whole runs -/

theorem serving_init : Serving (init n τ) := by
  refine ⟨⟨rfl, rfl⟩, ?_, fun k hk => ?_, fun hq => absurd rfl hq⟩
  · show (0 : Multiset τ) + held Finset.univ (fun _ => 0) = 0
    unfold held
    simp
  · cases hk

theorem Serving.drained (h : Serving s) (hj : Joined s) : Drained s := by
  have hgone : ∀ w, s.threads w = .gone := fun w => h.joined n hj w w.isLt
  have hq : s.taskQueue = [] := by
    by_contra hq
    obtain ⟨w, hw⟩ := h.served hq
    exact hw (hgone w)
  have htaken : s.taken = s.accepted := by
    rw [← h.inOrder.order, hq, List.append_nil]
  have hfinished := h.executed
  rw [running_gone hgone, add_zero, htaken] at hfinished
  exact ⟨hq, Multiset.coe_eq_coe.mp hfinished⟩

end

/-- **No abandoned task.** When the destructor has joined the workers, all accepted tasks
have been run exactly when each of them was pushed before the last worker returned. -/
theorem drained_iff_workerLeft [DecidableEq τ] {es : List (PoolEvent n τ)} {s : ThreadPool n τ}
    (hr : run step (init n τ) es = some s) (hj : s.Joined) :
    s.Drained ↔ Along step (fun s e _ => WorkerLeft s e) (init n τ) es := by
  rcases along_or_bad (fun _ _ _ h hs => serving_or_stranded h hs)
    (fun s e s' h hs => by
      obtain ⟨he, rfl⟩ := step_next hs
      exact Stranded.next h he) es _ s serving_init hr with ⟨ha, h⟩ | ⟨ha, h⟩
  · exact iff_of_true (h.drained hj) ha
  · exact iff_of_false (fun hd => h.1 hd.1) ha

/-- Two workers, one of which sleeps through the first task and is woken for the second. -/
def servedRun : List (PoolEvent 2 Nat) :=
  [.check 0, .sleep 0, .addTask 0 7, .check 1, .notifyOne 0 (some 0), .addTask 0 8, .check 0, .notifyOne 0 none,
    .finish 1, .finish 0, .destroy, .notifyDestroy, .check 0, .check 1, .join, .join]

theorem drained_iff_workerLeft_served : ∃ s, run step (init 2 Nat) servedRun = some s ∧
    (s.Drained ↔ Along step (fun s e _ => WorkerLeft s e) (init 2 Nat) servedRun) :=
  ⟨_, rfl, drained_iff_workerLeft rfl rfl⟩

/-- `setStop` sends the only worker home before the task comes. -/
def stoppedRun : List (PoolEvent 1 Nat) :=
  [.setStop 0 true, .notifyAll 0, .check 0, .addTask 0 7, .notifyOne 0 none, .destroy, .notifyDestroy, .join]

theorem destroyedLast_stoppedRun : Along step (fun s e _ => DestroyedLast s e) (init 1 Nat) stoppedRun := by
  refine along_cons rfl rfl (along_cons rfl trivial (along_cons rfl trivial (along_cons rfl rfl
    (along_cons rfl trivial (along_cons rfl (fun c => ?_) (along_cons rfl trivial (along_cons rfl trivial trivial)))))))
  simp [next, setCall, setThread, checkQueue, init, pred]

theorem stopped_abandons : ¬ ∀ n, 1 ≤ n → ∀ (es : List (PoolEvent n Nat)) (s : ThreadPool n Nat),
    run step (init n Nat) es = some s → Along step (fun s e _ => DestroyedLast s e) (init n Nat) es → s.Joined →
    s.Drained := by
  intro h
  have hd := h 1 (by decide) stoppedRun _ rfl destroyedLast_stoppedRun rfl
  cases hd.1

end ThreadPool

end LearningC
