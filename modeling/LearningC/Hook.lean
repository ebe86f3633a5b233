import LearningC.TaskGraph

/-!
# The lock hooks of deadlock.cpp

`lock_before`, `lock_after` and `unlock_after`, each under `tg->mutex` and so one
step, and the runs of threads that call them through the `pthread_mutex_lock`
wrapper. A hook is `none` where it uses `-1` as an index of `lock_list`.
-/

namespace LearningC

namespace TaskGraph

def searchLock (tg : TaskGraph) (lock : Nat) : Option Nat :=
  tg.lockList.findIdx? fun slot => slot.lockId == lock

/-- The argument is not used; a slot counts as empty when its `degress` is `0`. -/
def searchEmptyLock (tg : TaskGraph) (_lock : Nat) : Option Nat :=
  tg.lockList.findIdx? fun slot => slot.degress == 0

def modifyLock (tg : TaskGraph) (idx : Nat) (f : Pair → Pair) : TaskGraph :=
  { tg with lockList := tg.lockList.modify idx f }

def lockBefore (threadId lock : Nat) (tg : TaskGraph) : Option TaskGraph :=
  match tg.searchLock lock with
  | none => some tg
  | some idx => tg.lockList[idx]?.map fun slot =>
    let u := processPair threadId
    let tg := tg.addVertex u
    let v := processPair slot.thId
    let tg := tg.modifyLock idx fun slot => { slot with degress := slot.degress + 1 }
    let tg := tg.addVertex v
    if tg.verifyEdge u v then tg else tg.addEdge u v

def lockAfter (threadId lock : Nat) (tg : TaskGraph) : Option TaskGraph :=
  match tg.searchLock lock with
  | none => (tg.searchEmptyLock lock).map fun idx =>
    tg.modifyLock idx fun slot => { slot with thId := threadId, lockId := lock }
  | some idx => tg.lockList[idx]?.map fun slot =>
    let u := processPair threadId
    let v := processPair slot.thId
    let tg := tg.modifyLock idx fun slot => { slot with degress := slot.degress - 1 }
    let tg := if tg.verifyEdge u v then tg.removeEdge u v else tg
    tg.modifyLock idx fun slot => { slot with thId := threadId }

def unlockAfter (_threadId lock : Nat) (tg : TaskGraph) : Option TaskGraph :=
  (tg.searchLock lock).bind fun idx => tg.lockList[idx]?.map fun slot =>
    if slot.degress = 0 then tg.modifyLock idx fun slot => { slot with thId := 0, lockId := 0 } else tg

end TaskGraph

/-! ## Threads that lock and unlock -/

/-- Where a thread is: outside the hooks, between `lock_before` and the real mutex,
between the real mutex and `lock_after`, or between the real unlock and `unlock_after`. -/
inductive Phase
  | idle
  | waiting (lock : Nat)
  | granted (lock : Nat)
  | released (lock : Nat)
  deriving DecidableEq, Repr

/-- `tg` is `none` once a hook has used an index outside `lock_list`. -/
structure Sys where
  tg : Option TaskGraph
  owner : Nat → Option Nat
  phase : Nat → Phase

inductive Event
  | lockBefore (thread lock : Nat)
  | grant (thread lock : Nat)
  | lockAfter (thread lock : Nat)
  | unlock (thread lock : Nat)
  | unlockAfter (thread lock : Nat)
  deriving DecidableEq, Repr

def Event.lock : Event → Nat
  | .lockBefore _ l | .grant _ l | .lockAfter _ l | .unlock _ l | .unlockAfter _ l => l

def Event.thread : Event → Nat
  | .lockBefore t _ | .grant t _ | .lockAfter t _ | .unlock t _ | .unlockAfter t _ => t

def Event.target : Event → Phase
  | .lockBefore _ l => .waiting l
  | .grant _ l => .granted l
  | .unlock _ l => .released l
  | .lockAfter _ _ | .unlockAfter _ _ => .idle

namespace Sys

/-- No thread runs, and the lock table has `lockNum` zeroed slots. -/
def init (lockNum : Nat) : Sys where
  tg := some (TaskGraph.init lockNum)
  owner := fun _ => none
  phase := fun _ => .idle

def Enabled (s : Sys) : Event → Prop
  | .lockBefore t _ => s.phase t = .idle
  | .grant t l => s.phase t = .waiting l ∧ s.owner l = none
  | .lockAfter t l => s.phase t = .granted l
  | .unlock t l => s.phase t = .idle ∧ s.owner l = some t
  | .unlockAfter t l => s.phase t = .released l

instance (s : Sys) : (e : Event) → Decidable (s.Enabled e)
  | .lockBefore t _ => inferInstanceAs (Decidable (s.phase t = .idle))
  | .grant t l => inferInstanceAs (Decidable (s.phase t = .waiting l ∧ s.owner l = none))
  | .lockAfter t l => inferInstanceAs (Decidable (s.phase t = .granted l))
  | .unlock t l => inferInstanceAs (Decidable (s.phase t = .idle ∧ s.owner l = some t))
  | .unlockAfter t l => inferInstanceAs (Decidable (s.phase t = .released l))

def next (s : Sys) : Event → Sys
  | .lockBefore t l =>
    { s with tg := s.tg.bind (TaskGraph.lockBefore t l), phase := Function.update s.phase t (.waiting l) }
  | .grant t l =>
    { s with owner := Function.update s.owner l (some t), phase := Function.update s.phase t (.granted l) }
  | .lockAfter t l => { s with tg := s.tg.bind (TaskGraph.lockAfter t l), phase := Function.update s.phase t .idle }
  | .unlock t l =>
    { s with owner := Function.update s.owner l none, phase := Function.update s.phase t (.released l) }
  | .unlockAfter t l => { s with tg := s.tg.bind (TaskGraph.unlockAfter t l), phase := Function.update s.phase t .idle }

def step (s : Sys) (e : Event) : Option Sys := if s.Enabled e then some (s.next e) else none

/-- `t` has finished `lock_after` on `l` and has not begun to unlock it. -/
def Holds (s : Sys) (t l : Nat) : Prop := s.owner l = some t ∧ s.phase t ≠ .granted l

instance (s : Sys) (t l : Nat) : Decidable (s.Holds t l) :=
  inferInstanceAs (Decidable (s.owner l = some t ∧ s.phase t ≠ .granted l))

/-- `t` has finished `lock_before` on `l` and not yet `lock_after`. -/
def Acquiring (s : Sys) (t l : Nat) : Prop := s.phase t = .waiting l ∨ s.phase t = .granted l

instance (s : Sys) (t l : Nat) : Decidable (s.Acquiring t l) :=
  inferInstanceAs (Decidable (s.phase t = .waiting l ∨ s.phase t = .granted l))

end Sys

end LearningC
