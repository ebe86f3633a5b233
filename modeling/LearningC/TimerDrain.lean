import LearningC.TimerPool

/-!
# Draining a queue of timer events

The loop of `priority_que.cpp` that takes the top of a `boost::heap::priority_queue` until
it is empty. `TimerEvent` compares by time, so the queue's top is its latest event;
`TimeEvent` of `timer.cpp` compares the other way round.
-/

namespace LearningC

open Fuel (Ends)

structure TimerEvent where
  id : Int
  time : Int
  deriving DecidableEq, Repr

/-- `operator<`, with "更早的时间具有更高的优先级" beside it in the source. -/
def TimerEvent.lt (a other : TimerEvent) : Prop := a.time < other.time

abbrev TimerEventQueue := PriorityQueue TimerEvent TimerEvent.lt

namespace TimerEvent

/-- The latest time first, as the comparison has it. -/
def queue : TimerEventQueue := PriorityQueue.sorted fun e : TimerEvent => OrderDual.toDual e.time

def mainEvents : List TimerEvent := [⟨1, 5⟩, ⟨2, 3⟩, ⟨3, 10⟩]

/-- The loop processes every pushed event once, an earlier one before a later one. -/
def DrainsEarliestFirst (Q : TimerEventQueue) (events : List TimerEvent) : Prop :=
  ∃ l, Ends (fun fuel => Q.drain fuel (Q.pushAll events)) l ∧ l.Perm events ∧
    l.Pairwise fun a b => a.time ≤ b.time

/-- What the loop does: every event once, a later one before an earlier one. -/
theorem drains_latest_first (Q : TimerEventQueue) (events : List TimerEvent) :
    ∃ l, Ends (fun fuel => Q.drain fuel (Q.pushAll events)) l ∧ l.Perm events ∧
      l.Pairwise fun a b => b.time ≤ a.time := by
  obtain ⟨l, hends, hperm, hpair⟩ := Q.drain_pushAll events
  exact ⟨l, hends, hperm, hpair.imp fun h => Int.not_lt.mp h⟩

/-- **Drain order.** The events come out earliest first only when there is no order
among them. -/
theorem drainsEarliestFirst_iff (Q : TimerEventQueue) (events : List TimerEvent) :
    DrainsEarliestFirst Q events ↔ ∀ a ∈ events, ∀ b ∈ events, a.time = b.time := by
  obtain ⟨l, hends, hperm, hdown⟩ := drains_latest_first Q events
  constructor
  · rintro ⟨l', hends', -, hup⟩
    obtain rfl : l' = l := hends'.unique hends
    have hle : ∀ a ∈ l', ∀ b ∈ l', a.time ≤ b.time := fun a ha b hb =>
      hup.forall_of_forall_of_flip (fun c _ => Int.le_refl c.time) hdown ha hb
    intro a ha b hb
    have ha' : a ∈ l' := hperm.mem_iff.mpr ha
    have hb' : b ∈ l' := hperm.mem_iff.mpr hb
    exact Int.le_antisymm (hle a ha' b hb') (hle b hb' a ha')
  · intro hsame
    refine ⟨l, hends, hperm, List.Pairwise.imp_of_mem (fun ha hb _ => ?_) hdown⟩
    exact (hsame _ (hperm.mem_iff.mp ha) _ (hperm.mem_iff.mp hb)).le

theorem mainEvents_out_of_order : ¬ DrainsEarliestFirst queue mainEvents := by
  rintro ⟨l, hends, -, hup⟩
  obtain rfl : l = [⟨3, 10⟩, ⟨1, 5⟩, ⟨2, 3⟩] := by
    refine hends.unique ⟨4, fun fuel h => ?_⟩
    obtain ⟨k, rfl⟩ := Nat.exists_eq_add_of_le' h
    rfl
  revert hup
  decide

end TimerEvent

/-- The comparison of `timer.cpp` drains the same events in the order that the other
one's comment promises. -/
theorem TimeEvent.drains_earliest_first {β : Type} (Q : TimeQueue β) (events : List (TimeEvent β)) :
    ∃ l, Ends (fun fuel => Q.drain fuel (Q.pushAll events)) l ∧ l.Perm events ∧
      l.Pairwise fun a b => a.time ≤ b.time := by
  obtain ⟨l, hends, hperm, hpair⟩ := Q.drain_pushAll events
  exact ⟨l, hends, hperm, hpair.imp fun h => Int.not_lt.mp h⟩

end LearningC
