import LearningC.Runs
import Mathlib.Logic.Function.Basic

/-!
# The log of async_buffer.cpp

`Log::write` by any number of threads, the loop of `AsyncWrite_` and the destructor, after
one `init`. The accesses to `toDay_` and `lineCount_` without `mtx_` are steps of their own,
and so are the two halves of `lineCount_++`, the test of the queue, the `push_back` and the
`fputs` under `mtx_`.

`BlockDeque` comes from a header that is not here. It is taken as a bounded queue: `push_back`
waits while it is full; `pop` waits while it is empty and not closed, and returns false once
it is closed; `flush` does no more than wake a `pop`; `Close` throws away what is queued.
-/

namespace LearningC

structure Tm where
  year : Nat
  mon : Nat
  mday : Nat
  deriving DecidableEq, Repr

/-- The arguments of the `snprintf` that makes a name, less `path_` and `suffix_`, which
stay as they are. -/
inductive FileName
  | base (t : Tm)
  | part (t : Tm) (number : Nat)
  deriving DecidableEq, Repr

-- `MAX_LINES`, and the capacity of the `BlockDeque`.
structure LogLimits where
  maxLines : Nat
  maxCapacity : Nat
  maxLines_pos : 0 < maxLines

structure LogCall (τ : Type) where
  time : Tm
  text : τ
  deriving DecidableEq, Repr

/-- Lines are numbered in the order in which they are formatted. -/
structure LogLine (τ : Type) where
  number : Nat
  call : LogCall τ
  deriving DecidableEq, Repr

/-- What a call of `write` does next; from `readCount` on it holds `mtx_`. -/
inductive WritePhase (τ : Type)
  | idle
  | test (c : LogCall τ)
  | testCount (c : LogCall τ)
  | testMultiple (c : LogCall τ)
  | relock (c : LogCall τ)
  | innerTest (c : LogCall τ)
  | setToDay (c : LogCall τ)
  | resetCount (c : LogCall τ)
  | nameByCount (c : LogCall τ)
  | reopen (c : LogCall τ) (newFile : FileName)
  | lock (c : LogCall τ)
  | readCount (c : LogCall τ)
  | storeCount (c : LogCall τ) (count : Nat)
  | choose (line : LogLine τ)
  | push (line : LogLine τ)
  | put (line : LogLine τ)
  deriving DecidableEq, Repr

def WritePhase.Holding {τ : Type} : WritePhase τ → Prop
  | .readCount _ | .storeCount _ _ | .choose _ | .push _ | .put _ => True
  | _ => False

def WritePhase.line {τ : Type} : WritePhase τ → Option (LogLine τ)
  | .choose line | .push line | .put line => some line
  | _ => none

inductive AsyncWrite (τ : Type)
  | pop
  | put (line : LogLine τ)
  | gone
  deriving DecidableEq, Repr

def AsyncWrite.line {τ : Type} : AsyncWrite τ → Option (LogLine τ)
  | .put line => some line
  | _ => none

/-- What the destructor does next; `drain` is the test of `while(!deque_->empty())`. -/
inductive LogDtor
  | idle
  | drain
  | flush
  | close
  | join
  | fclose
  | done
  deriving DecidableEq, Repr

structure Opening where
  time : Tm
  tested : Nat
  file : FileName
  deriving DecidableEq, Repr

/-- `since` is the date of the write, or of `init`, that set `toDay`, and `tested` the count
that a writer has read in its last test; `formatted` has the lines in the order of `mtx_`,
`appended` what `fputs` wrote, `opened` the rotations, and `discarded` what `Close` threw
away; `fault` tells whether a closed file was used. -/
structure Log (τ : Type) where
  isAsync : Bool
  toDay : Nat
  since : Tm
  lineCount : Nat
  mtx : Option Nat
  deque : List (LogLine τ)
  isClose : Bool
  fp : Option FileName
  writers : Nat → WritePhase τ
  asyncWrite : AsyncWrite τ
  dtor : LogDtor
  tested : Nat → Nat
  formatted : List (LogLine τ)
  appended : List (LogLine τ × FileName)
  opened : List Opening
  discarded : List (LogLine τ)
  fault : Bool

inductive LogStep (τ : Type)
  | call (w : Nat) (c : LogCall τ)
  | test (w : Nat) (c : LogCall τ)
  | testCount (w : Nat) (c : LogCall τ)
  | testMultiple (w : Nat) (c : LogCall τ)
  | relock (w : Nat) (c : LogCall τ)
  | innerTest (w : Nat) (c : LogCall τ)
  | setToDay (w : Nat) (c : LogCall τ)
  | resetCount (w : Nat) (c : LogCall τ)
  | nameByCount (w : Nat) (c : LogCall τ)
  | reopen (w : Nat) (c : LogCall τ) (newFile : FileName)
  | lock (w : Nat) (c : LogCall τ)
  | readCount (w : Nat) (c : LogCall τ)
  | storeCount (w : Nat) (c : LogCall τ) (count : Nat)
  | choose (w : Nat) (line : LogLine τ)
  | push (w : Nat) (line : LogLine τ)
  | put (w : Nat) (line : LogLine τ)
  | asyncPop
  | asyncPut (line : LogLine τ)
  | asyncLeave
  | destroy
  | again
  | flush
  | emptied
  | close
  | join
  | fclose
  deriving DecidableEq, Repr

def LogStep.writer {τ : Type} : LogStep τ → Option Nat
  | .call w _ | .test w _ | .testCount w _ | .testMultiple w _ | .relock w _ | .innerTest w _ | .setToDay w _
  | .resetCount w _ | .nameByCount w _ | .reopen w _ _ | .lock w _ | .readCount w _ | .storeCount w _ _ | .choose w _
  | .push w _ | .put w _ => some w
  | _ => none

namespace Log

variable {τ : Type}

def init (τ : Type) (maxQueueSize : Int) (t : Tm) : Log τ where
  isAsync := decide (0 < maxQueueSize)
  toDay := t.mday
  since := t
  lineCount := 0
  mtx := none
  deque := []
  isClose := false
  fp := some (.base t)
  writers := fun _ => .idle
  asyncWrite := if 0 < maxQueueSize then .pop else .gone
  dtor := .idle
  tested := fun _ => 0
  formatted := []
  appended := []
  opened := []
  discarded := []
  fault := false

def setWriter (w : Nat) (p : WritePhase τ) (s : Log τ) : Log τ := { s with writers := Function.update s.writers w p }

def fputs (line : LogLine τ) (s : Log τ) : Log τ :=
  match s.fp with
  | some file => { s with appended := s.appended ++ [(line, file)] }
  | none => { s with fault := true }

/-- What the test of writer `w` reads of `lineCount_` is kept for the record. -/
def readsCount (w : Nat) (p : WritePhase τ) (s : Log τ) : Log τ :=
  { s.setWriter w p with tested := Function.update s.tested w s.lineCount }

def full (L : LogLimits) (s : Log τ) : Bool := L.maxCapacity ≤ s.deque.length

def Enabled (L : LogLimits) (s : Log τ) : LogStep τ → Prop
  | .call w _ => s.writers w = .idle
  | .test w c => s.writers w = .test c
  | .testCount w c => s.writers w = .testCount c
  | .testMultiple w c => s.writers w = .testMultiple c
  | .relock w c => s.writers w = .relock c ∧ s.mtx = none
  | .innerTest w c => s.writers w = .innerTest c
  | .setToDay w c => s.writers w = .setToDay c
  | .resetCount w c => s.writers w = .resetCount c
  | .nameByCount w c => s.writers w = .nameByCount c
  | .reopen w c newFile => s.writers w = .reopen c newFile ∧ s.mtx = none
  | .lock w c => s.writers w = .lock c ∧ s.mtx = none
  | .readCount w c => s.writers w = .readCount c
  | .storeCount w c count => s.writers w = .storeCount c count
  | .choose w line => s.writers w = .choose line
  | .push w line => s.writers w = .push line ∧ s.deque.length < L.maxCapacity
  | .put w line => s.writers w = .put line
  | .asyncPop => s.asyncWrite = .pop ∧ s.isClose = false ∧ s.deque ≠ []
  | .asyncPut line => s.asyncWrite = .put line ∧ s.mtx = none
  | .asyncLeave => s.asyncWrite = .pop ∧ s.isClose = true
  | .destroy => s.dtor = .idle
  | .again => s.dtor = .drain ∧ s.deque ≠ []
  | .flush => s.dtor = .flush
  | .emptied => s.dtor = .drain ∧ s.deque = []
  | .close => s.dtor = .close
  | .join => s.dtor = .join ∧ s.asyncWrite = .gone
  | .fclose => s.dtor = .fclose ∧ s.mtx = none

instance [DecidableEq τ] (L : LogLimits) (s : Log τ) : (e : LogStep τ) → Decidable (s.Enabled L e)
  | .call w _ => inferInstanceAs (Decidable (s.writers w = .idle))
  | .test w c => inferInstanceAs (Decidable (s.writers w = .test c))
  | .testCount w c => inferInstanceAs (Decidable (s.writers w = .testCount c))
  | .testMultiple w c => inferInstanceAs (Decidable (s.writers w = .testMultiple c))
  | .relock w c => inferInstanceAs (Decidable (s.writers w = .relock c ∧ s.mtx = none))
  | .innerTest w c => inferInstanceAs (Decidable (s.writers w = .innerTest c))
  | .setToDay w c => inferInstanceAs (Decidable (s.writers w = .setToDay c))
  | .resetCount w c => inferInstanceAs (Decidable (s.writers w = .resetCount c))
  | .nameByCount w c => inferInstanceAs (Decidable (s.writers w = .nameByCount c))
  | .reopen w c newFile => inferInstanceAs (Decidable (s.writers w = .reopen c newFile ∧ s.mtx = none))
  | .lock w c => inferInstanceAs (Decidable (s.writers w = .lock c ∧ s.mtx = none))
  | .readCount w c => inferInstanceAs (Decidable (s.writers w = .readCount c))
  | .storeCount w c count => inferInstanceAs (Decidable (s.writers w = .storeCount c count))
  | .choose w line => inferInstanceAs (Decidable (s.writers w = .choose line))
  | .push w line => inferInstanceAs (Decidable (s.writers w = .push line ∧ s.deque.length < L.maxCapacity))
  | .put w line => inferInstanceAs (Decidable (s.writers w = .put line))
  | .asyncPop => inferInstanceAs (Decidable (s.asyncWrite = .pop ∧ s.isClose = false ∧ s.deque ≠ []))
  | .asyncPut line => inferInstanceAs (Decidable (s.asyncWrite = .put line ∧ s.mtx = none))
  | .asyncLeave => inferInstanceAs (Decidable (s.asyncWrite = .pop ∧ s.isClose = true))
  | .destroy => inferInstanceAs (Decidable (s.dtor = .idle))
  | .again => inferInstanceAs (Decidable (s.dtor = .drain ∧ s.deque ≠ []))
  | .flush => inferInstanceAs (Decidable (s.dtor = .flush))
  | .emptied => inferInstanceAs (Decidable (s.dtor = .drain ∧ s.deque = []))
  | .close => inferInstanceAs (Decidable (s.dtor = .close))
  | .join => inferInstanceAs (Decidable (s.dtor = .join ∧ s.asyncWrite = .gone))
  | .fclose => inferInstanceAs (Decidable (s.dtor = .fclose ∧ s.mtx = none))

def newLine (c : LogCall τ) (s : Log τ) : LogLine τ := { number := s.formatted.length, call := c }

def next (L : LogLimits) (s : Log τ) : LogStep τ → Log τ
  | .call w c => s.setWriter w (.test c)
  -- `if (toDay_ != t.tm_mday || (lineCount_ && (lineCount_ % MAX_LINES == 0)))`, one read after the other
  | .test w c => s.setWriter w (if s.toDay ≠ c.time.mday then .relock c else .testCount c)
  | .testCount w c => s.readsCount w (if s.lineCount ≠ 0 then .testMultiple c else .lock c)
  | .testMultiple w c => s.readsCount w (if s.lineCount % L.maxLines = 0 then .relock c else .lock c)
  | .relock w c => s.setWriter w (.innerTest c)
  | .innerTest w c => s.setWriter w (if s.toDay ≠ c.time.mday then .setToDay c else .nameByCount c)
  | .setToDay w c => { s.setWriter w (.resetCount c) with toDay := c.time.mday, since := c.time }
  | .resetCount w c => { s.setWriter w (.reopen c (.base c.time)) with lineCount := 0 }
  | .nameByCount w c => s.setWriter w (.reopen c (.part c.time (s.lineCount / L.maxLines)))
  | .reopen w c newFile =>
    { s.setWriter w (.lock c) with
      fp := some newFile
      opened := s.opened ++ [{ time := c.time, tested := s.tested w, file := newFile }]
      fault := s.fault || s.fp.isNone }
  | .lock w c => { s.setWriter w (.readCount c) with mtx := some w }
  | .readCount w c => s.setWriter w (.storeCount c s.lineCount)
  | .storeCount w c count =>
    { s.setWriter w (.choose (s.newLine c)) with
      lineCount := count + 1
      formatted := s.formatted ++ [s.newLine c] }
  | .choose w line => s.setWriter w (if s.isAsync && !s.full L then .push line else .put line)
  | .push w line => { s.setWriter w .idle with deque := s.deque ++ [line], mtx := none }
  | .put w line => { (s.fputs line).setWriter w .idle with mtx := none }
  | .asyncPop =>
    match s.deque with
    | [] => s
    | line :: rest => { s with deque := rest, asyncWrite := .put line }
  | .asyncPut line => { s.fputs line with asyncWrite := .pop }
  | .asyncLeave => { s with asyncWrite := .gone }
  | .destroy => { s with dtor := if s.isAsync then .drain else .fclose }
  | .again => { s with dtor := .flush }
  | .flush => { s with dtor := .drain }
  | .emptied => { s with dtor := .close }
  | .close => { s with isClose := true, deque := [], discarded := s.discarded ++ s.deque, dtor := .join }
  | .join => { s with dtor := .fclose }
  | .fclose => { s with fp := none, dtor := .done }

def step [DecidableEq τ] (L : LogLimits) (s : Log τ) (e : LogStep τ) : Option (Log τ) :=
  if s.Enabled L e then some (s.next L e) else none

theorem step_next [DecidableEq τ] {L : LogLimits} {s s' : Log τ} {e : LogStep τ} (h : s.step L e = some s') :
    s.Enabled L e ∧ s' = s.next L e :=
  Runs.guarded_some h

end Log

end LearningC
