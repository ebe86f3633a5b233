import LearningC.Budget
import LearningC.PoolDrain
import LearningC.PoolWakeups
import Mathlib.Data.Fintype.Card

/-!
# The main of ThreadPool_adv.cpp

`main` gives the pool `count` tasks with the arguments `i` and `i * 100`, waits for the
future of each, and destroys the pool. A future is ready once its task has returned. A task
prints by several `<<`, between which other threads may print; what one `<<` gives to `cout`
comes out in one piece.
-/

namespace LearningC

open Runs CondVar

/-- What `main` does next: push a task, notify for it, wait for a future, or what is left
of the destructor. -/
inductive MainPhase
  | adding (i : Nat)
  | notifying (i : Nat)
  | getting (i : Nat)
  | destroying
  deriving DecidableEq, Repr

inductive Piece (threadNums : Nat)
  | text (s : String)
  | threadId (w : Fin threadNums)
  | int (k : Int)
  | endl
  deriving DecidableEq, Repr

/-- `got` has the futures that `get` has returned from, `printed` what the threads have given
to `cout`, and `ran` the tasks that have returned, each with its worker. Of the line of its
task a worker has printed `cut` pieces. -/
structure PoolMain (threadNums count : Nat) where
  pool : ThreadPool threadNums Nat
  main : MainPhase
  got : List Nat
  cut : Fin threadNums → Nat
  printed : List (Fin threadNums × Piece threadNums)
  ran : List (Fin threadNums × Nat)

inductive PoolMainEvent (threadNums : Nat)
  | pool (e : PoolEvent threadNums Nat)
  | print (w : Fin threadNums)
  | get
  deriving DecidableEq, Repr

def PoolMainEvent.spurious {n : Nat} : PoolMainEvent n → Bool
  | .pool (.wake _) => true
  | _ => false

namespace MainPhase

variable {n : Nat}

/-- The steps of the pool that `main` may take, and those of its workers. -/
def Allows : MainPhase → PoolEvent n Nat → Prop
  | _, .check _ | _, .sleep _ | _, .wake _ | _, .finish _ => True
  | .adding i, .addTask c task => c = 0 ∧ task = i
  | .notifying _, .notifyOne c _ => c = 0
  | .destroying, .destroy | .destroying, .notifyDestroy | .destroying, .join => True
  | _, _ => False

instance : (p : MainPhase) → (e : PoolEvent n Nat) → Decidable (p.Allows e)
  | _, .check _ | _, .sleep _ | _, .wake _ | _, .finish _ => isTrue trivial
  | .adding i, .addTask c task => inferInstanceAs (Decidable (c = 0 ∧ task = i))
  | .notifying _, .notifyOne c _ => inferInstanceAs (Decidable (c = 0))
  | .destroying, .destroy | .destroying, .notifyDestroy | .destroying, .join => isTrue trivial
  | .adding _, .setStop _ _ | .adding _, .notifyOne _ _ | .adding _, .notifyAll _ | .adding _, .destroy
  | .adding _, .notifyDestroy | .adding _, .join => isFalse id
  | .notifying _, .addTask _ _ | .notifying _, .setStop _ _ | .notifying _, .notifyAll _ | .notifying _, .destroy
  | .notifying _, .notifyDestroy | .notifying _, .join => isFalse id
  | .getting _, .addTask _ _ | .getting _, .setStop _ _ | .getting _, .notifyOne _ _ | .getting _, .notifyAll _
  | .getting _, .destroy | .getting _, .notifyDestroy | .getting _, .join => isFalse id
  | .destroying, .addTask _ _ | .destroying, .setStop _ _ | .destroying, .notifyOne _ _
  | .destroying, .notifyAll _ => isFalse id

def getFrom (count i : Nat) : MainPhase := if i < count then .getting i else .destroying

def addFrom (count i : Nat) : MainPhase := if i < count then .adding i else getFrom count 0

def after (count : Nat) : MainPhase → PoolEvent n Nat → MainPhase
  | .adding i, .addTask _ _ => .notifying i
  | .notifying i, .notifyOne _ _ => addFrom count (i + 1)
  | p, _ => p

end MainPhase

namespace PoolMain

variable {n count : Nat}

def init (n count : Nat) : PoolMain n count where
  pool := .init n Nat
  main := .addFrom count 0
  got := []
  cut := fun _ => 0
  printed := []
  ran := []

def int (k : Nat) : Int := Int.bmod k (2 ^ 32)

def exampleFunc (w : Fin n) (k m : Int) : List (Piece n) :=
  [.text "thread = ", .threadId w, .text " n = ", .int k, .text " m = ", .int m, .endl]

/-- The line of the task that `w` is running. -/
def line (s : PoolMain n count) (w : Fin n) : List (Piece n) :=
  (s.pool.threads w).task.toList.flatMap fun i => exampleFunc w (int i) (int (i * 100))

def LineDone (s : PoolMain n count) : PoolEvent n Nat → Prop
  | .finish w => (s.line w)[s.cut w]? = none
  | _ => True

instance (s : PoolMain n count) : (e : PoolEvent n Nat) → Decidable (s.LineDone e)
  | .finish w => inferInstanceAs (Decidable ((s.line w)[s.cut w]? = none))
  | .addTask _ _ | .setStop _ _ | .notifyOne _ _ | .notifyAll _ | .destroy | .notifyDestroy | .join | .check _
  | .sleep _ | .wake _ => isTrue trivial

def returns (s : PoolMain n count) : PoolEvent n Nat → List (Fin n × Nat)
  | .finish w => (s.pool.threads w).task.toList.map fun i => (w, i)
  | _ => []

def cutAfter (s : PoolMain n count) : PoolEvent n Nat → Fin n → Nat
  | .finish w => Function.update s.cut w 0
  | _ => s.cut

def Enabled (s : PoolMain n count) : PoolMainEvent n → Prop
  | .pool e => (s.main.Allows e ∧ s.LineDone e) ∧ s.pool.Enabled e
  | .print w => (s.line w)[s.cut w]? ≠ none
  | .get => ∃ i ∈ s.pool.finished, s.main = .getting i

instance (s : PoolMain n count) : (e : PoolMainEvent n) → Decidable (s.Enabled e)
  | .pool e => inferInstanceAs (Decidable ((s.main.Allows e ∧ s.LineDone e) ∧ s.pool.Enabled e))
  | .print w => inferInstanceAs (Decidable ((s.line w)[s.cut w]? ≠ none))
  | .get => inferInstanceAs (Decidable (∃ i ∈ s.pool.finished, s.main = .getting i))

def next (s : PoolMain n count) : PoolMainEvent n → PoolMain n count
  | .pool e =>
    { s with
      pool := s.pool.next e
      main := s.main.after count e
      cut := s.cutAfter e
      ran := s.ran ++ s.returns e }
  | .print w =>
    { s with
      cut := Function.update s.cut w (s.cut w + 1)
      printed := s.printed ++ (s.line w)[s.cut w]?.toList.map fun p => (w, p) }
  | .get => match s.main with
    | .getting i => { s with main := .getFrom count (i + 1), got := s.got ++ [i] }
    | _ => s

def step (s : PoolMain n count) (e : PoolMainEvent n) : Option (PoolMain n count) :=
  if s.Enabled e then some (s.next e) else none

def Returned (s : PoolMain n count) : Prop := s.main = .destroying ∧ s.pool.dtor = .join n

/-- Only a spurious wakeup can follow. -/
def Stuck (s : PoolMain n count) : Prop := ∀ e, e.spurious = false → s.step e = none

end PoolMain

end LearningC
