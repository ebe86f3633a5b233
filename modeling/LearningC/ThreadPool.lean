import LearningC.CondVar

/-!
# The thread pool of ThreadPool_adv.cpp

`threadnums` workers, calls of `addTask` and `setStop` from any threads, and the
destructor. A critical section under `mtx` is one step, except that a worker which finds
the predicate false still holds `mtx` until it sleeps. Notifications are steps of their own.
-/

namespace LearningC

open CondVar

/-- What a call of `addTask` or `setStop` has left to do. -/
inductive PoolCall
  | idle
  | notifyOne
  | notifyAll
  deriving DecidableEq, Repr

/-- `accepted`, `taken` and `finished` list the tasks in the order of `push`, `pop` and
of their return; `underflow` tells whether `front` or `pop` met an empty queue. -/
structure ThreadPool (threadNums : Nat) (τ : Type) where
  mtx : Option (Fin threadNums)
  taskQueue : List τ
  stopFlag : Bool
  threads : Fin threadNums → Place τ
  calls : Nat → PoolCall
  dtor : Teardown
  accepted : List τ
  taken : List τ
  finished : List τ
  underflow : Bool

inductive PoolEvent (threadNums : Nat) (τ : Type)
  | addTask (c : Nat) (task : τ)
  | setStop (c : Nat) (flag : Bool)
  | notifyOne (c : Nat) (w : Option (Fin threadNums))
  | notifyAll (c : Nat)
  | destroy
  | notifyDestroy
  | join
  | check (w : Fin threadNums)
  | sleep (w : Fin threadNums)
  | wake (w : Fin threadNums)
  | finish (w : Fin threadNums)
  deriving DecidableEq, Repr

def PoolEvent.worker {n : Nat} {τ : Type} : PoolEvent n τ → Option (Fin n)
  | .check w | .sleep w | .wake w | .finish w => some w
  | _ => none

namespace ThreadPool

variable {n : Nat} {τ : Type}

def init (n : Nat) (τ : Type) : ThreadPool n τ where
  mtx := none
  taskQueue := []
  stopFlag := false
  threads := fun _ => .check
  calls := fun _ => .idle
  dtor := .idle
  accepted := []
  taken := []
  finished := []
  underflow := false

/-- The predicate of `cv.wait`. -/
def pred (s : ThreadPool n τ) : Bool := !s.taskQueue.isEmpty || s.stopFlag

def setThread (w : Fin n) (p : Place τ) (s : ThreadPool n τ) : ThreadPool n τ :=
  { s with threads := Function.update s.threads w p }

@[simp] theorem threads_setThread (s : ThreadPool n τ) (w : Fin n) (p : Place τ) :
    (s.setThread w p).threads = Function.update s.threads w p := rfl

def setCall (c : Nat) (p : PoolCall) (s : ThreadPool n τ) : ThreadPool n τ :=
  { s with calls := Function.update s.calls c p }

/-- `task = std::move(taskQueue.front())` and `taskQueue.pop()`. -/
def takeTask (w : Fin n) (s : ThreadPool n τ) : ThreadPool n τ :=
  match s.taskQueue with
  | [] => { s with underflow := true }
  | task :: queue => { s.setThread w (.busy task) with taskQueue := queue, taken := s.taken ++ [task] }

/-- The worker's critical section, up to the sleep in `cv.wait` if there is one. -/
def checkQueue (w : Fin n) (s : ThreadPool n τ) : ThreadPool n τ :=
  if s.pred then
    if s.taskQueue.isEmpty && s.stopFlag then s.setThread w .gone else s.takeTask w
  else { s.setThread w .block with mtx := some w }

def finishTask (w : Fin n) (s : ThreadPool n τ) : ThreadPool n τ :=
  { s.setThread w .check with finished := s.finished ++ (s.threads w).task.toList }

def Enabled (s : ThreadPool n τ) : PoolEvent n τ → Prop
  | .addTask c _ | .setStop c _ => s.calls c = .idle ∧ s.mtx = none
  | .notifyOne c none => s.calls c = .notifyOne ∧ ∀ w, s.threads w ≠ .asleep
  | .notifyOne c (some w) => s.calls c = .notifyOne ∧ s.threads w = .asleep
  | .notifyAll c => s.calls c = .notifyAll
  | .destroy => s.dtor = .idle ∧ s.mtx = none
  | .notifyDestroy => s.dtor = .notify
  | .join => ∃ w : Fin n, s.dtor = .join w ∧ s.threads w = .gone
  | .check w => s.threads w = .check ∧ s.mtx = none
  | .sleep w => s.threads w = .block
  | .wake w => s.threads w = .asleep
  | .finish w => ∃ task, s.threads w = .busy task

instance [DecidableEq τ] (s : ThreadPool n τ) : (e : PoolEvent n τ) → Decidable (s.Enabled e)
  | .addTask c _ | .setStop c _ => inferInstanceAs (Decidable (s.calls c = .idle ∧ s.mtx = none))
  | .notifyOne c none => inferInstanceAs (Decidable (s.calls c = .notifyOne ∧ ∀ w, s.threads w ≠ .asleep))
  | .notifyOne c (some w) => inferInstanceAs (Decidable (s.calls c = .notifyOne ∧ s.threads w = .asleep))
  | .notifyAll c => inferInstanceAs (Decidable (s.calls c = .notifyAll))
  | .destroy => inferInstanceAs (Decidable (s.dtor = .idle ∧ s.mtx = none))
  | .notifyDestroy => inferInstanceAs (Decidable (s.dtor = .notify))
  | .join => inferInstanceAs (Decidable (∃ w : Fin n, s.dtor = .join w ∧ s.threads w = .gone))
  | .check w => inferInstanceAs (Decidable (s.threads w = .check ∧ s.mtx = none))
  | .sleep w => inferInstanceAs (Decidable (s.threads w = .block))
  | .wake w => inferInstanceAs (Decidable (s.threads w = .asleep))
  | .finish w => match h : s.threads w with
    | .busy task => isTrue ⟨task, h⟩
    | .check | .block | .asleep | .gone => isFalse fun ⟨_, e⟩ => by rw [h] at e; cases e

def next (s : ThreadPool n τ) : PoolEvent n τ → ThreadPool n τ
  | .addTask c task =>
    { s.setCall c .notifyOne with taskQueue := s.taskQueue ++ [task], accepted := s.accepted ++ [task] }
  | .setStop c flag => { s.setCall c .notifyAll with stopFlag := flag }
  | .notifyOne c w => { s.setCall c .idle with threads := wakeOne s.threads w }
  | .notifyAll c => { s.setCall c .idle with threads := wakeAll s.threads }
  | .destroy => { s with stopFlag := true, dtor := .notify }
  | .notifyDestroy => { s with threads := wakeAll s.threads, dtor := .join 0 }
  | .join => { s with dtor := s.dtor.joinNext }
  | .check w => s.checkQueue w
  | .sleep w => { s.setThread w .asleep with mtx := none }
  | .wake w => s.setThread w .check
  | .finish w => s.finishTask w

def step [DecidableEq τ] (s : ThreadPool n τ) (e : PoolEvent n τ) : Option (ThreadPool n τ) :=
  if s.Enabled e then some (s.next e) else none

/-! ## What the critical section of a worker does -/

theorem checkQueue_cases (s : ThreadPool n τ) (w : Fin n) :
    (s.taskQueue = [] ∧ s.stopFlag = false ∧ s.next (.check w) = { s.setThread w .block with mtx := some w }) ∨
    (s.taskQueue = [] ∧ s.stopFlag = true ∧ s.next (.check w) = s.setThread w .gone) ∨
    ∃ task queue, s.taskQueue = task :: queue ∧ s.next (.check w) =
      { s.setThread w (.busy task) with taskQueue := queue, taken := s.taken ++ [task] } := by
  unfold next checkQueue pred takeTask
  cases hq : s.taskQueue with
  | nil =>
    cases hf : s.stopFlag with
    | false => exact Or.inl ⟨rfl, rfl, rfl⟩
    | true => exact Or.inr (Or.inl ⟨rfl, rfl, rfl⟩)
  | cons task queue => exact Or.inr (Or.inr ⟨task, queue, rfl, rfl⟩)

theorem frame_check (s : ThreadPool n τ) (w : Fin n) :
    (s.next (.check w)).calls = s.calls ∧ (s.next (.check w)).dtor = s.dtor ∧
      (s.next (.check w)).stopFlag = s.stopFlag ∧ (s.next (.check w)).accepted = s.accepted ∧
      (s.next (.check w)).finished = s.finished := by
  rcases checkQueue_cases s w with ⟨-, -, hn⟩ | ⟨-, -, hn⟩ | ⟨task, queue, -, hn⟩
  all_goals
    rw [hn]
    exact ⟨rfl, rfl, rfl, rfl, rfl⟩

end ThreadPool

end LearningC
