import LearningC.NextEvent
import Mathlib.Data.List.Forall2

/-!
# The main loop of timer.cpp

Main fills the log directory and enqueues a task that clears it ten seconds later. Then it
looks every second whether these ten seconds are over, and does the same again. So the tasks
come to the pool in the order of their times.
-/

namespace LearningC

open Runs CondVar

/-- The callbacks that main enqueues. -/
inductive TimerTask
  | clearLogTask
  deriving DecidableEq, Repr

def clearIntervalSeconds : Int := 10

/-- What main does next; `again` tells the rounds of the loop from the one before it. `plan`
computes `next_clear_time`, and `restart` is the last statement of a round. -/
inductive TimerMainPhase
  | setupLogDirectory (again : Bool)
  | plan (again : Bool)
  | push (again : Bool) (nextClearTime : Int)
  | notify (again : Bool)
  | restart
  | pause
  | sleeping (wakeAt : Int)
  | look
  deriving DecidableEq, Repr

/-- `setups` has the clock after each `setup_log_directory`. -/
structure TimerMain (Q : TimeQueue TimerTask) (numThreads : Nat) where
  pool : TimerPool Q numThreads
  phase : TimerMainPhase
  now : Int
  setups : List Int

/-- The call of `enqueue` is `push` and `notify`; `pool` is a step of a worker or of the clock. -/
inductive TimerMainStep (numThreads : Nat)
  | main
  | push
  | notify (w : Option (Fin numThreads))
  | pool (e : TimerStep TimerTask numThreads)
  deriving DecidableEq, Repr

namespace TimerMainPhase

def ready (clock : Int) : TimerMainPhase → Bool
  | .push _ _ | .notify _ => false
  | .sleeping wakeAt => wakeAt ≤ clock
  | _ => true

def nextClearTime : TimerMainPhase → Option Int
  | .push _ t => some t
  | _ => none

def notifies : TimerMainPhase → Bool
  | .notify _ => true
  | _ => false

end TimerMainPhase

def clearEvent (nextClearTime : Int) : TimeEvent TimerTask := ⟨nextClearTime, .clearLogTask⟩

namespace TimerMain

variable {Q : TimeQueue TimerTask} {n : Nat}

def init (Q : TimeQueue TimerTask) (n : Nat) : TimerMain Q n where
  pool := TimerPool.init Q n
  phase := .setupLogDirectory false
  now := 0
  setups := []

def Enabled (s : TimerMain Q n) : TimerMainStep n → Prop
  | .main => s.phase.ready s.pool.clock = true
  | .push => ∃ t ∈ s.phase.nextClearTime, s.pool.Enabled (.enqueue 0 (clearEvent t))
  | .notify w => s.phase.notifies = true ∧ s.pool.Enabled (.notifyOne 0 w)
  | .pool e => (e.worker ≠ none ∨ e = .tick) ∧ s.pool.Enabled e

instance (s : TimerMain Q n) : (e : TimerMainStep n) → Decidable (s.Enabled e)
  | .main => inferInstanceAs (Decidable (s.phase.ready s.pool.clock = true))
  | .push => inferInstanceAs (Decidable (∃ t ∈ s.phase.nextClearTime, s.pool.Enabled (.enqueue 0 (clearEvent t))))
  | .notify w => inferInstanceAs (Decidable (s.phase.notifies = true ∧ s.pool.Enabled (.notifyOne 0 w)))
  | .pool e => inferInstanceAs (Decidable ((e.worker ≠ none ∨ e = .tick) ∧ s.pool.Enabled e))

/-- The statements of main without the pool. -/
def goOn (s : TimerMain Q n) : TimerMain Q n :=
  match s.phase with
  | .setupLogDirectory again => { s with phase := .plan again, setups := s.setups ++ [s.pool.clock] }
  | .plan true => { s with phase := .push true (s.pool.clock + clearIntervalSeconds) }
  | .plan false => { s with phase := .push false (s.pool.clock + clearIntervalSeconds), now := s.pool.clock }
  | .restart => { s with phase := .pause, now := s.pool.clock }
  | .pause => { s with phase := .sleeping (s.pool.clock + 1) }
  | .sleeping _ => { s with phase := .look }
  | .look =>
    { s with phase := if s.pool.clock - s.now ≥ clearIntervalSeconds then .setupLogDirectory true else .pause }
  | .push _ _ | .notify _ => s

def next (s : TimerMain Q n) : TimerMainStep n → TimerMain Q n
  | .main => s.goOn
  | .push => match s.phase with
    | .push again t => { s with pool := s.pool.next (.enqueue 0 (clearEvent t)), phase := .notify again }
    | _ => s
  | .notify w => match s.phase with
    | .notify again => { s with pool := s.pool.next (.notifyOne 0 w), phase := if again then .restart else .pause }
    | _ => s
  | .pool e => { s with pool := s.pool.next e }

def step (s : TimerMain Q n) (e : TimerMainStep n) : Option (TimerMain Q n) := if s.Enabled e then some (s.next e) else none

end TimerMain

end LearningC
