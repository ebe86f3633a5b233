import LearningC.TimerRuns
import Mathlib.Algebra.Order.Group.Multiset

/-!
# Events of the timer pool

The events started and the events queued are together the events enqueued. A worker
starts the earliest event, which it has found due under the same hold of `mtx`; it returns
only over an empty queue. `adjustTiming` may come between the comparison and the start.
-/

namespace LearningC

open Runs CondVar

namespace TimerPool

variable {β : Type} {Q : TimeQueue β} {n : Nat}

structure Accounted (s : TimerPool Q n) : Prop where
  events : (s.started : Multiset (TimeEvent β)) + Q.elems s.timeQ = s.enqueued
  underflow : s.underflow = false
  due : ∀ w event adjustment, s.workers w = .busy (.due event adjustment) →
    s.mtx = some w ∧ event ∈ Q.elems s.timeQ ∧ s.clock > event.time + adjustment

/-- What a worker finds due in the step is the earliest event of the queue, by the adjustment
that is in force. -/
def FindsEarliestDue (s s' : TimerPool Q n) : Prop :=
  ∀ w event adjustment, s.workers w ≠ .busy (.due event adjustment) → s'.workers w = .busy (.due event adjustment) →
    adjustment = s.timeAdjustment ∧ s.clock > event.time + s.timeAdjustment ∧
      event ∈ Q.elems s.timeQ ∧ ∀ other ∈ Q.elems s.timeQ, event.time ≤ other.time

/-- What a worker starts in the step is an enqueued event that has not been started yet,
that it has found due, and that is the earliest of the queue. -/
def StartsFoundDue (s s' : TimerPool Q n) : Prop :=
  ∀ w event, s.workers w ≠ .busy (.run event) → s'.workers w = .busy (.run event) →
    (∃ adjustment, s.workers w = .busy (.due event adjustment)) ∧
      ((s.started ++ [event] : List (TimeEvent β)) : Multiset (TimeEvent β)) ≤ s.enqueued ∧
      event ∈ Q.elems s.timeQ ∧ (∀ other ∈ Q.elems s.timeQ, event.time ≤ other.time) ∧
      s'.started = s.started ++ [event]

/-- The event is due by the adjustment that is in force when the worker starts it. -/
def StartsDue (s s' : TimerPool Q n) : Prop :=
  ∀ w event, s.workers w ≠ .busy (.run event) → s'.workers w = .busy (.run event) →
    s.clock > event.time + s.timeAdjustment

/-- A worker that returns in the step does so on a set flag and an empty queue. -/
def ReturnsWhenStopped (s s' : TimerPool Q n) : Prop :=
  ∀ w, s.workers w ≠ .gone → s'.workers w = .gone → s.stop = true ∧ Q.elems s.timeQ = 0

section
variable {s s' : TimerPool Q n} {e : TimerStep β n} {w u : Fin n} {event : TimeEvent β} {adjustment : Int}

theorem gone_of_next (h : Locked s) (he : s.Enabled e) (hg : (s.next e).workers u = .gone) :
    s.workers u = .gone ∨ s.stop = true ∧ Q.elems s.timeQ = 0 := by
  rcases moved_or_stayed h he (by simp) (by simp) hg with hm | ⟨-, hw⟩
  · cases hm with
    | gone hq hs => exact Or.inr ⟨hs, hq⟩
  · exact Or.inl hw

theorem due_of_next (h : Locked s) (he : s.Enabled e) (hd : (s.next e).workers u = .busy (.due event adjustment)) :
    s.workers u = .busy (.due event adjustment) ∨ adjustment = s.timeAdjustment ∧ Q.top s.timeQ = some event ∧
      event.time + s.timeAdjustment < s.clock := by
  rcases moved_or_stayed h he (by simp) (by simp) hd with hm | ⟨-, hw⟩
  · cases hm with
    | due hw htop hdue => exact Or.inr ⟨rfl, htop, lt_of_lt_of_le hdue (h.inspect hw).2⟩
  · exact Or.inl hw

theorem run_of_next (h : Locked s) (he : s.Enabled e) (hr : (s.next e).workers u = .busy (.run event)) :
    s.workers u = .busy (.run event) ∨ ∃ adjustment, s.workers u = .busy (.due event adjustment) ∧
      (s.next e).started = s.started ++ [event] := by
  rcases moved_or_stayed h he (by simp) (by simp) hr with hm | ⟨-, hw⟩
  · cases hm with
    | run hw =>
      refine Or.inr ⟨_, hw, ?_⟩
      rw [take_next hw]
      rfl
  · exact Or.inl hw

theorem earliest_of_top (htop : Q.top s.timeQ = some event) :
    event ∈ Q.elems s.timeQ ∧ ∀ other ∈ Q.elems s.timeQ, event.time ≤ other.time :=
  ⟨Q.mem_of_top htop, fun other ho => not_lt.mp (Q.top_max _ _ htop other ho)⟩

theorem returnsWhenStopped_next (h : Locked s) (he : s.Enabled e) : ReturnsWhenStopped s (s.next e) :=
  fun _ hu hg => (gone_of_next h he hg).resolve_left hu

theorem findsEarliestDue_next (h : Locked s) (he : s.Enabled e) : FindsEarliestDue s (s.next e) := by
  intro u event adjustment hu hd
  obtain ⟨hadjustment, htop, hdue⟩ := (due_of_next h he hd).resolve_left hu
  exact ⟨hadjustment, hdue, earliest_of_top htop⟩

theorem startsFoundDue_next (h : Locked s) (ha : Accounted s) (he : s.Enabled e) : StartsFoundDue s (s.next e) := by
  intro u event hu hr
  obtain ⟨adjustment, hw, hstarted⟩ := (run_of_next h he hr).resolve_left hu
  obtain ⟨hmem, hall⟩ := earliest_of_top (h.due hw).1
  refine ⟨⟨adjustment, hw⟩, ?_, hmem, hall, hstarted⟩
  rw [← ha.events, ← Multiset.coe_add]
  exact Multiset.add_le_add_left (Multiset.singleton_le.mpr hmem)

theorem Locked.accounts (h : Locked s) (hw : s.workers w = .busy (.due event adjustment)) :
    s.mtx = some w ∧ event ∈ Q.elems s.timeQ ∧ s.clock > event.time + adjustment :=
  ⟨h.owner w (by rw [hw]; trivial), Q.mem_of_top (h.due hw).1, (h.due hw).2⟩

theorem Accounted.next (ha : Accounted s) (h : Locked s) (he : s.Enabled e) : Accounted (s.next e) := by
  refine ⟨?_, ?_, fun w event adjustment hw => (h.next he).accounts hw⟩
  · cases e with
    | enqueue c event =>
      show (s.started : Multiset (TimeEvent β)) + Q.elems (Q.push event s.timeQ) = ↑(s.enqueued ++ [event])
      rw [Q.elems_push, ← Multiset.coe_add, ← ha.events, Multiset.add_cons, ← Multiset.singleton_add, add_comm]
      rfl
    | check w =>
      obtain ⟨hq, -, -, -, henqueued, hstarted, -⟩ := frame_check s w
      rw [hq, henqueued, hstarted]
      exact ha.events
    | inspect w =>
      obtain ⟨hq, -, -, -, henqueued, hstarted, -⟩ := frame_inspect s w
      rw [hq, henqueued, hstarted]
      exact ha.events
    | take w =>
      obtain ⟨event, adjustment, hw⟩ := he
      have hevents := ha.events
      rw [Q.elems_pop _ _ (h.due hw).1] at hevents
      rw [take_next hw]
      show ((s.started ++ [event] : List (TimeEvent β)) : Multiset (TimeEvent β)) + Q.elems (Q.pop s.timeQ) = s.enqueued
      rw [← hevents, ← Multiset.coe_add, add_assoc]
      rfl
    | _ => exact ha.events
  · cases e with
    | check w => exact (frame_check s w).2.2.2.2.2.2.1.trans ha.underflow
    | inspect w =>
      obtain ⟨now, hw⟩ := he
      obtain ⟨event, -, ⟨-, hn⟩ | ⟨-, hn⟩⟩ := inspect_cases hw (h.inspect hw).1
      all_goals
        rw [hn]
        exact ha.underflow
    | take w =>
      obtain ⟨event, adjustment, hw⟩ := he
      rw [take_next hw]
      exact ha.underflow
    | _ => exact ha.underflow

end

/-- **Events.** In every run the started and the queued events are the enqueued ones. Each
start is of the earliest event, which its worker has found due in the same critical section,
and workers return only when the pool is stopped and its queue empty. -/
theorem accounted_always [DecidableEq β] (es : List (TimerStep β n)) :
    Always step Accounted (init Q n) es ∧
      Along step (fun s _ s' => FindsEarliestDue s s' ∧ StartsFoundDue s s' ∧ ReturnsWhenStopped s s') (init Q n) es := by
  have h0 : Locked (init Q n) ∧ Accounted (init Q n) := by
    refine ⟨locked_init, ?_, rfl, fun _ _ _ hw => by cases hw⟩
    show (0 : Multiset (TimeEvent β)) + Q.elems Q.empty = 0
    rw [Q.elems_empty]
    rfl
  have hnext : ∀ (s : TimerPool Q n) (e : TimerStep β n) (s' : TimerPool Q n), Locked s ∧ Accounted s →
      step s e = some s' → Locked s' ∧ Accounted s' := by
    intro s e s' h hs
    obtain ⟨he, rfl⟩ := step_next hs
    exact ⟨h.1.next he, h.2.next h.1 he⟩
  constructor
  · exact always_of_invariant hnext (fun _ h => h.2) h0 es
  · refine along_of_invariant (fun s e s' h hs => ⟨?_, hnext s e s' h hs⟩) es _ h0
    obtain ⟨he, rfl⟩ := step_next hs
    exact ⟨findsEarliestDue_next h.1 he, startsFoundDue_next h.1 h.2 he, returnsWhenStopped_next h.1 he⟩

/-- Worker `w` finds an event of second 0 due in second 1, and `adjustTiming` stores 5 before
the worker takes it. -/
def postponedRun (w : Fin n) : List (TimerStep Unit n) :=
  [.enqueue 0 ⟨0, ()⟩, .tick, .check w, .inspect w, .adjustTiming 5]

theorem postponed_starts : ¬ ∀ es : List (TimerStep Unit 1),
    Along step (fun s _ s' => StartsDue s s') (init (timeQueue Unit) 1) es := by
  intro h
  have hlast := (h (postponedRun 0 ++ [.take 0])).after _ _ rfl
  obtain ⟨hdue, -⟩ := hlast _ rfl
  exact absurd (hdue 0 ⟨0, ()⟩ (by decide) rfl) (by decide)

end TimerPool

end LearningC
