import LearningC.CondVar
import LearningC.PriorityQueue
import LearningC.Runs

/-!
# The timer pool of timer.cpp

Workers that run the events of a priority queue when their time has come, calls of
`enqueue`, changes of `timeAdjustment` and the destructor, over a clock of whole seconds.
`stop` and `timeAdjustment` change without `mtx`. A worker keeps `mtx` from its look at
the predicate to its sleep, or until it has taken the top event or left it in the queue.
-/

namespace LearningC

open CondVar

structure TimeEvent (β : Type) where
  time : Int
  callback : β
  deriving DecidableEq, Repr

/-- `operator<`, turned round so that the greatest event is the earliest. -/
def TimeEvent.lt {β : Type} (a other : TimeEvent β) : Prop := other.time < a.time

/-- `boost::heap::priority_queue<TimeEvent>`. -/
abbrev TimeQueue (β : Type) := PriorityQueue (TimeEvent β) TimeEvent.lt

def timeQueue (β : Type) : TimeQueue β := PriorityQueue.sorted TimeEvent.time

/-- Past the wait. `inspect`, `due` and `early` have `mtx`: before the comparison, and after
it with the `timeAdjustment` that it loaded. `late` has released `mtx` and computes how long
to sleep from the `time` of `nextEvent` and another `load` of the adjustment; `nextEvent` is
a reference to the event in this version of the queue. -/
inductive TimerPhase (β : Type)
  | inspect (now : Int)
  | due (event : TimeEvent β) (adjustment : Int)
  | run (event : TimeEvent β)
  | early (now : Int) (event : TimeEvent β) (adjustment : Int)
  | late (now : Int) (event : TimeEvent β) (adjustment : Int) (version : Nat) (time load : Option Int)
  | sleeping (wakeAt : Int)
  deriving DecidableEq, Repr

/-- `notifying` has the calls of `enqueue` that are still to notify; `version` counts the
changes of `timeQ`; `enqueued` and `started` list the events; `underflow` tells whether
`top` met an empty queue. -/
structure TimerPool {β : Type} (Q : TimeQueue β) (numThreads : Nat) where
  mtx : Option (Fin numThreads)
  timeQ : Q.Carrier
  stop : Bool
  timeAdjustment : Int
  clock : Int
  workers : Fin numThreads → Place (TimerPhase β)
  notifying : Nat → Bool
  dtor : Teardown
  version : Nat
  enqueued : List (TimeEvent β)
  started : List (TimeEvent β)
  underflow : Bool

inductive TimerStep (β : Type) (numThreads : Nat)
  | enqueue (c : Nat) (event : TimeEvent β)
  | notifyOne (c : Nat) (w : Option (Fin numThreads))
  | adjustTiming (adjustment : Int)
  | destroy
  | notifyDestroy
  | join
  | tick
  | check (w : Fin numThreads)
  | sleep (w : Fin numThreads)
  | wake (w : Fin numThreads)
  | inspect (w : Fin numThreads)
  | take (w : Fin numThreads)
  | finish (w : Fin numThreads)
  | unlock (w : Fin numThreads)
  | readTime (w : Fin numThreads) (time : Int)
  | loadAdjustment (w : Fin numThreads)
  | sleepFor (w : Fin numThreads)
  | awake (w : Fin numThreads)
  deriving DecidableEq, Repr

def TimerStep.worker {β : Type} {n : Nat} : TimerStep β n → Option (Fin n)
  | .check w | .sleep w | .wake w | .inspect w | .take w | .finish w | .unlock w | .readTime w _ | .loadAdjustment w
  | .sleepFor w | .awake w => some w
  | _ => none

namespace TimerPool

variable {β : Type} {Q : TimeQueue β} {n : Nat}

def init (Q : TimeQueue β) (n : Nat) : TimerPool Q n where
  mtx := none
  timeQ := Q.empty
  stop := false
  timeAdjustment := 0
  clock := 0
  workers := fun _ => .check
  notifying := fun _ => false
  dtor := .idle
  version := 0
  enqueued := []
  started := []
  underflow := false

def setWorker (w : Fin n) (p : Place (TimerPhase β)) (s : TimerPool Q n) : TimerPool Q n :=
  { s with workers := Function.update s.workers w p }

@[simp] theorem workers_setWorker (s : TimerPool Q n) (w : Fin n) (p : Place (TimerPhase β)) :
    (s.setWorker w p).workers = Function.update s.workers w p := rfl

/-- From the evaluation of the predicate to the sleep, the return, or `now = current_time()`. -/
def checkQueue (w : Fin n) (s : TimerPool Q n) : TimerPool Q n :=
  if !Q.isEmpty s.timeQ || s.stop then
    if s.stop && Q.isEmpty s.timeQ then s.setWorker w .gone
    else { s.setWorker w (.busy (.inspect s.clock)) with mtx := some w }
  else { s.setWorker w .block with mtx := some w }

/-- The comparison, which loads `timeAdjustment` without a lock of its own. -/
def inspectTop (w : Fin n) (now : Int) (s : TimerPool Q n) : TimerPool Q n :=
  match Q.top s.timeQ with
  | none => { s with underflow := true }
  | some event =>
    if now > event.time + s.timeAdjustment then s.setWorker w (.busy (.due event s.timeAdjustment))
    else s.setWorker w (.busy (.early now event s.timeAdjustment))

/-- From the copy of `nextEvent.callback` to the first `lock.unlock()`. -/
def takeTop (w : Fin n) (event : TimeEvent β) (s : TimerPool Q n) : TimerPool Q n :=
  { s.setWorker w (.busy (.run event)) with
    mtx := none
    timeQ := Q.pop s.timeQ
    version := s.version + 1
    started := s.started ++ [event] }

/-- From the prints about an event that is not due to the second `lock.unlock()`. -/
def unlockEarly (version : Nat) : Place (TimerPhase β) → Place (TimerPhase β)
  | .busy (.early now event adjustment) => .busy (.late now event adjustment version none none)
  | p => p

def setTime (time : Int) : Place (TimerPhase β) → Place (TimerPhase β)
  | .busy (.late now event adjustment version _ load) => .busy (.late now event adjustment version (some time) load)
  | p => p

def setLoad (load : Int) : Place (TimerPhase β) → Place (TimerPhase β)
  | .busy (.late now event adjustment version time _) => .busy (.late now event adjustment version time (some load))
  | p => p

def fallAsleep (clock : Int) : Place (TimerPhase β) → Place (TimerPhase β)
  | .busy (.late now _ _ _ (some time) (some load)) => .busy (.sleeping (clock + ((time + load) - now)))
  | p => p

/-- The time that a worker reads through `nextEvent` is that of the event as long as the
queue is as it was, and may be any value afterwards. -/
def ReadsTime (s : TimerPool Q n) (event : TimeEvent β) (version : Nat) (time : Int) : Prop :=
  s.version = version → time = event.time

def Enabled (s : TimerPool Q n) : TimerStep β n → Prop
  | .enqueue c _ => s.notifying c = false ∧ s.mtx = none
  | .notifyOne c none => s.notifying c = true ∧ ∀ w, s.workers w ≠ .asleep
  | .notifyOne c (some w) => s.notifying c = true ∧ s.workers w = .asleep
  | .adjustTiming _ | .tick => True
  | .destroy => s.dtor = .idle
  | .notifyDestroy => s.dtor = .notify
  | .join => ∃ w : Fin n, s.dtor = .join w ∧ s.workers w = .gone
  | .check w => s.workers w = .check ∧ s.mtx = none
  | .sleep w => s.workers w = .block
  | .wake w => s.workers w = .asleep
  | .inspect w => ∃ now, s.workers w = .busy (.inspect now)
  | .take w => ∃ event adjustment, s.workers w = .busy (.due event adjustment)
  | .finish w => ∃ event, s.workers w = .busy (.run event)
  | .unlock w => ∃ now event adjustment, s.workers w = .busy (.early now event adjustment)
  | .readTime w time => ∃ now event adjustment version load,
      s.workers w = .busy (.late now event adjustment version none load) ∧ s.ReadsTime event version time
  | .loadAdjustment w => ∃ now event adjustment version time,
      s.workers w = .busy (.late now event adjustment version time none)
  | .sleepFor w => ∃ now event adjustment version time load,
      s.workers w = .busy (.late now event adjustment version (some time) (some load))
  | .awake w => ∃ wakeAt, s.workers w = .busy (.sleeping wakeAt) ∧ wakeAt ≤ s.clock

instance [DecidableEq β] (s : TimerPool Q n) : (e : TimerStep β n) → Decidable (s.Enabled e)
  | .enqueue c _ => inferInstanceAs (Decidable (s.notifying c = false ∧ s.mtx = none))
  | .notifyOne c none => inferInstanceAs (Decidable (s.notifying c = true ∧ ∀ w, s.workers w ≠ .asleep))
  | .notifyOne c (some w) => inferInstanceAs (Decidable (s.notifying c = true ∧ s.workers w = .asleep))
  | .adjustTiming _ | .tick => isTrue trivial
  | .destroy => inferInstanceAs (Decidable (s.dtor = .idle))
  | .notifyDestroy => inferInstanceAs (Decidable (s.dtor = .notify))
  | .join => inferInstanceAs (Decidable (∃ w : Fin n, s.dtor = .join w ∧ s.workers w = .gone))
  | .check w => inferInstanceAs (Decidable (s.workers w = .check ∧ s.mtx = none))
  | .sleep w => inferInstanceAs (Decidable (s.workers w = .block))
  | .wake w => inferInstanceAs (Decidable (s.workers w = .asleep))
  | .inspect w => match h : s.workers w with
    | .busy (.inspect now) => isTrue ⟨now, h⟩
    | .check | .block | .asleep | .gone | .busy (.due ..) | .busy (.run _) | .busy (.early ..) | .busy (.late ..)
    | .busy (.sleeping _) => isFalse fun ⟨_, e⟩ => by rw [h] at e; cases e
  | .take w => match h : s.workers w with
    | .busy (.due event adjustment) => isTrue ⟨event, adjustment, h⟩
    | .check | .block | .asleep | .gone | .busy (.inspect _) | .busy (.run _) | .busy (.early ..) | .busy (.late ..)
    | .busy (.sleeping _) => isFalse fun ⟨_, _, e⟩ => by rw [h] at e; cases e
  | .finish w => match h : s.workers w with
    | .busy (.run event) => isTrue ⟨event, h⟩
    | .check | .block | .asleep | .gone | .busy (.inspect _) | .busy (.due ..) | .busy (.early ..) | .busy (.late ..)
    | .busy (.sleeping _) => isFalse fun ⟨_, e⟩ => by rw [h] at e; cases e
  | .unlock w => match h : s.workers w with
    | .busy (.early now event adjustment) => isTrue ⟨now, event, adjustment, h⟩
    | .check | .block | .asleep | .gone | .busy (.inspect _) | .busy (.due ..) | .busy (.run _) | .busy (.late ..)
    | .busy (.sleeping _) => isFalse fun ⟨_, _, _, e⟩ => by rw [h] at e; cases e
  | .readTime w time => match h : s.workers w with
    | .busy (.late now event adjustment version none load) =>
      decidable_of_iff (s.version = version → time = event.time)
        ⟨fun ht => ⟨now, event, adjustment, version, load, h, ht⟩,
          fun ⟨_, _, _, _, _, e, ht⟩ => by rw [h] at e; cases e; exact ht⟩
    | .check | .block | .asleep | .gone | .busy (.inspect _) | .busy (.due ..) | .busy (.run _) | .busy (.early ..)
    | .busy (.late _ _ _ _ (some _) _) | .busy (.sleeping _) =>
      isFalse fun ⟨_, _, _, _, _, e, _⟩ => by rw [h] at e; cases e
  | .loadAdjustment w => match h : s.workers w with
    | .busy (.late now event adjustment version time none) => isTrue ⟨now, event, adjustment, version, time, h⟩
    | .check | .block | .asleep | .gone | .busy (.inspect _) | .busy (.due ..) | .busy (.run _) | .busy (.early ..)
    | .busy (.late _ _ _ _ _ (some _)) | .busy (.sleeping _) =>
      isFalse fun ⟨_, _, _, _, _, e⟩ => by rw [h] at e; cases e
  | .sleepFor w => match h : s.workers w with
    | .busy (.late now event adjustment version (some time) (some load)) =>
      isTrue ⟨now, event, adjustment, version, time, load, h⟩
    | .check | .block | .asleep | .gone | .busy (.inspect _) | .busy (.due ..) | .busy (.run _) | .busy (.early ..)
    | .busy (.late _ _ _ _ none _) | .busy (.late _ _ _ _ (some _) none) | .busy (.sleeping _) =>
      isFalse fun ⟨_, _, _, _, _, _, e⟩ => by rw [h] at e; cases e
  | .awake w => match h : s.workers w with
    | .busy (.sleeping wakeAt) =>
      decidable_of_iff (wakeAt ≤ s.clock) ⟨fun ht => ⟨wakeAt, h, ht⟩, fun ⟨_, e, ht⟩ => by rw [h] at e; cases e; exact ht⟩
    | .check | .block | .asleep | .gone | .busy (.inspect _) | .busy (.due ..) | .busy (.run _) | .busy (.early ..)
    | .busy (.late ..) => isFalse fun ⟨_, e, _⟩ => by rw [h] at e; cases e

def next (s : TimerPool Q n) : TimerStep β n → TimerPool Q n
  | .enqueue c event =>
    { s with
      timeQ := Q.push event s.timeQ
      version := s.version + 1
      notifying := Function.update s.notifying c true
      enqueued := s.enqueued ++ [event] }
  | .notifyOne c w =>
    { s with workers := wakeOne s.workers w, notifying := Function.update s.notifying c false }
  | .adjustTiming adjustment => { s with timeAdjustment := adjustment }
  | .destroy => { s with stop := true, dtor := .notify }
  | .notifyDestroy => { s with workers := wakeAll s.workers, dtor := .join 0 }
  | .join => { s with dtor := s.dtor.joinNext }
  | .tick => { s with clock := s.clock + 1 }
  | .check w => s.checkQueue w
  | .sleep w => { s.setWorker w .asleep with mtx := none }
  | .wake w => s.setWorker w .check
  | .inspect w =>
    match s.workers w with
    | .busy (.inspect now) => s.inspectTop w now
    | _ => s
  | .take w =>
    match s.workers w with
    | .busy (.due event _) => s.takeTop w event
    | _ => s
  | .finish w => s.setWorker w .check
  | .unlock w => { s.setWorker w (unlockEarly s.version (s.workers w)) with mtx := none }
  | .readTime w time => s.setWorker w (setTime time (s.workers w))
  | .loadAdjustment w => s.setWorker w (setLoad s.timeAdjustment (s.workers w))
  | .sleepFor w => s.setWorker w (fallAsleep s.clock (s.workers w))
  | .awake w => s.setWorker w .check

def step [DecidableEq β] (s : TimerPool Q n) (e : TimerStep β n) : Option (TimerPool Q n) :=
  if s.Enabled e then some (s.next e) else none

/-! ## What the critical section of a worker does -/

theorem checkQueue_cases (s : TimerPool Q n) (w : Fin n) :
    (Q.elems s.timeQ = 0 ∧ s.stop = false ∧ s.next (.check w) = { s.setWorker w .block with mtx := some w }) ∨
    (Q.elems s.timeQ = 0 ∧ s.stop = true ∧ s.next (.check w) = s.setWorker w .gone) ∨
    (Q.elems s.timeQ ≠ 0 ∧
      s.next (.check w) = { s.setWorker w (.busy (.inspect s.clock)) with mtx := some w }) := by
  rw [← Q.isEmpty_iff]
  unfold next checkQueue
  cases hq : Q.isEmpty s.timeQ with
  | false =>
    refine Or.inr (Or.inr ⟨fun h0 => ?_, by cases s.stop <;> rfl⟩)
    rw [Q.isEmpty_iff.mpr h0] at hq
    cases hq
  | true =>
    cases hs : s.stop with
    | false => exact Or.inl ⟨rfl, rfl, rfl⟩
    | true => exact Or.inr (Or.inl ⟨rfl, rfl, rfl⟩)

theorem inspect_cases {s : TimerPool Q n} {w : Fin n} {now : Int} (hw : s.workers w = .busy (.inspect now))
    (hq : Q.elems s.timeQ ≠ 0) : ∃ event, Q.top s.timeQ = some event ∧
      (now > event.time + s.timeAdjustment ∧
        s.next (.inspect w) = s.setWorker w (.busy (.due event s.timeAdjustment)) ∨
      ¬ now > event.time + s.timeAdjustment ∧
        s.next (.inspect w) = s.setWorker w (.busy (.early now event s.timeAdjustment))) := by
  unfold next inspectTop
  simp only [hw]
  cases ht : Q.top s.timeQ with
  | none => exact absurd ((Q.top_eq_none _).mp ht) hq
  | some event =>
    refine ⟨event, rfl, ?_⟩
    simp only
    split
    · next h => exact Or.inl ⟨h, rfl⟩
    · next h => exact Or.inr ⟨h, rfl⟩

section
variable {s : TimerPool Q n} {w : Fin n} {now adjustment : Int} {event : TimeEvent β} {version : Nat}

theorem take_next (hw : s.workers w = .busy (.due event adjustment)) : s.next (.take w) = s.takeTop w event := by
  unfold next
  simp only [hw]

theorem unlock_next (hw : s.workers w = .busy (.early now event adjustment)) : s.next (.unlock w) =
    { s.setWorker w (.busy (.late now event adjustment s.version none none)) with mtx := none } := by
  unfold next
  simp only [hw, unlockEarly]

theorem readTime_next {load : Option Int} (time : Int)
    (hw : s.workers w = .busy (.late now event adjustment version none load)) :
    s.next (.readTime w time) = s.setWorker w (.busy (.late now event adjustment version (some time) load)) := by
  unfold next
  simp only [hw, setTime]

theorem loadAdjustment_next {time : Option Int}
    (hw : s.workers w = .busy (.late now event adjustment version time none)) : s.next (.loadAdjustment w) =
      s.setWorker w (.busy (.late now event adjustment version time (some s.timeAdjustment))) := by
  unfold next
  simp only [hw, setLoad]

theorem sleepFor_next {time load : Int}
    (hw : s.workers w = .busy (.late now event adjustment version (some time) (some load))) :
    s.next (.sleepFor w) = s.setWorker w (.busy (.sleeping (s.clock + ((time + load) - now)))) := by
  unfold next
  simp only [hw, fallAsleep]

end

theorem step_next [DecidableEq β] {s s' : TimerPool Q n} {e : TimerStep β n} (h : s.step e = some s') :
    s.Enabled e ∧ s' = s.next e :=
  Runs.guarded_some h

end TimerPool

end LearningC
