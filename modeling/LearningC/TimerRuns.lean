import LearningC.Runs
import LearningC.TimerPool

/-!
# Steps of the timer pool

Who holds `mtx` between steps, and what such a worker knows: the queue is empty before a
sleep, and not empty before a decision about its top.
-/

namespace LearningC

open Runs CondVar

namespace TimerPool

variable {β : Type} {Q : TimeQueue β} {n : Nat}

/-- The places in which a worker holds `mtx`. -/
def Holding : Place (TimerPhase β) → Prop
  | .block | .busy (.inspect _) | .busy (.due ..) | .busy (.early ..) => True
  | _ => False

/-- What is so around a worker that holds `mtx`. -/
def Knows (s : TimerPool Q n) : Place (TimerPhase β) → Prop
  | .block => Q.elems s.timeQ = 0
  | .busy (.inspect now) => Q.elems s.timeQ ≠ 0 ∧ now ≤ s.clock
  | .busy (.due event adjustment) => Q.top s.timeQ = some event ∧ event.time + adjustment < s.clock
  | .busy (.early now event adjustment) => Q.top s.timeQ = some event ∧ now ≤ s.clock ∧ now ≤ event.time + adjustment
  | _ => True

structure Locked (s : TimerPool Q n) : Prop where
  owner : ∀ w, Holding (s.workers w) → s.mtx = some w
  knows : ∀ w, Knows s (s.workers w)

section
variable {s s' : TimerPool Q n} {e : TimerStep β n} {w u : Fin n}

theorem Locked.block (h : Locked s) (hw : s.workers w = .block) : Q.elems s.timeQ = 0 := by
  have hk := h.knows w
  rwa [hw] at hk

theorem Locked.inspect {now : Int} (h : Locked s) (hw : s.workers w = .busy (.inspect now)) :
    Q.elems s.timeQ ≠ 0 ∧ now ≤ s.clock := by
  have hk := h.knows w
  rwa [hw] at hk

theorem Locked.due {event : TimeEvent β} {adjustment : Int} (h : Locked s)
    (hw : s.workers w = .busy (.due event adjustment)) :
    Q.top s.timeQ = some event ∧ event.time + adjustment < s.clock := by
  have hk := h.knows w
  rwa [hw] at hk

theorem Locked.early {now : Int} {event : TimeEvent β} {adjustment : Int} (h : Locked s)
    (hw : s.workers w = .busy (.early now event adjustment)) :
    Q.top s.timeQ = some event ∧ now ≤ s.clock ∧ now ≤ event.time + adjustment := by
  have hk := h.knows w
  rwa [hw] at hk

theorem frame_check (s : TimerPool Q n) (w : Fin n) :
    (s.next (.check w)).timeQ = s.timeQ ∧ (s.next (.check w)).stop = s.stop ∧
      (s.next (.check w)).clock = s.clock ∧ (s.next (.check w)).dtor = s.dtor ∧
      (s.next (.check w)).enqueued = s.enqueued ∧ (s.next (.check w)).started = s.started ∧
      (s.next (.check w)).underflow = s.underflow ∧
      ∀ u ≠ w, (s.next (.check w)).workers u = s.workers u := by
  rcases checkQueue_cases s w with ⟨-, -, hn⟩ | ⟨-, -, hn⟩ | ⟨-, hn⟩
  all_goals
    rw [hn]
    exact ⟨rfl, rfl, rfl, rfl, rfl, rfl, rfl, fun u hu => Function.update_of_ne hu _ _⟩

theorem frame_inspect (s : TimerPool Q n) (w : Fin n) :
    (s.next (.inspect w)).timeQ = s.timeQ ∧ (s.next (.inspect w)).stop = s.stop ∧
      (s.next (.inspect w)).clock = s.clock ∧ (s.next (.inspect w)).dtor = s.dtor ∧
      (s.next (.inspect w)).enqueued = s.enqueued ∧ (s.next (.inspect w)).started = s.started ∧
      (s.next (.inspect w)).mtx = s.mtx ∧ (s.next (.inspect w)).version = s.version ∧
      (s.next (.inspect w)).timeAdjustment = s.timeAdjustment ∧
      ∀ u ≠ w, (s.next (.inspect w)).workers u = s.workers u := by
  have hset : ∀ (p : Place (TimerPhase β)), ∀ u ≠ w, Function.update s.workers w p u = s.workers u :=
    fun p u hu => Function.update_of_ne hu _ _
  unfold next inspectTop
  simp only
  split
  · split
    · exact ⟨rfl, rfl, rfl, rfl, rfl, rfl, rfl, rfl, rfl, fun _ _ => rfl⟩
    · split
      · exact ⟨rfl, rfl, rfl, rfl, rfl, rfl, rfl, rfl, rfl, hset _⟩
      · exact ⟨rfl, rfl, rfl, rfl, rfl, rfl, rfl, rfl, rfl, hset _⟩
  · exact ⟨rfl, rfl, rfl, rfl, rfl, rfl, rfl, rfl, rfl, fun _ _ => rfl⟩

theorem frame_take (s : TimerPool Q n) (w : Fin n) :
    (s.next (.take w)).stop = s.stop ∧ (s.next (.take w)).clock = s.clock ∧ (s.next (.take w)).dtor = s.dtor ∧
      (s.next (.take w)).enqueued = s.enqueued ∧ (s.next (.take w)).timeAdjustment = s.timeAdjustment ∧
      ∀ u ≠ w, (s.next (.take w)).workers u = s.workers u := by
  unfold next
  simp only
  split
  · exact ⟨rfl, rfl, rfl, rfl, rfl, fun u hu => Function.update_of_ne hu _ _⟩
  · exact ⟨rfl, rfl, rfl, rfl, rfl, fun _ _ => rfl⟩

theorem workers_next (he : s.Enabled e) (hu : e.worker ≠ some u) : Stirred (s.workers u) ((s.next e).workers u) := by
  have hne : ∀ {w : Fin n}, some w ≠ some u → u ≠ w := fun hw e => hw (congrArg some e.symm)
  cases e with
  | enqueue c event => exact Stirred.refl _
  | notifyOne c w =>
    apply wakeOne_stirs
    rintro j rfl
    exact he.2
  | adjustTiming adjustment => exact Stirred.refl _
  | destroy => exact Stirred.refl _
  | notifyDestroy => exact wakeAll_stirs _ _
  | join => exact Stirred.refl _
  | tick => exact Stirred.refl _
  | check w => exact Or.inl ((frame_check s w).2.2.2.2.2.2.2 u (hne hu))
  | sleep w => exact Or.inl (Function.update_of_ne (hne hu) _ _)
  | wake w => exact Or.inl (Function.update_of_ne (hne hu) _ _)
  | inspect w => exact Or.inl ((frame_inspect s w).2.2.2.2.2.2.2.2.2 u (hne hu))
  | take w => exact Or.inl ((frame_take s w).2.2.2.2.2 u (hne hu))
  | finish w => exact Or.inl (Function.update_of_ne (hne hu) _ _)
  | unlock w => exact Or.inl (Function.update_of_ne (hne hu) _ _)
  | readTime w time => exact Or.inl (Function.update_of_ne (hne hu) _ _)
  | loadAdjustment w => exact Or.inl (Function.update_of_ne (hne hu) _ _)
  | sleepFor w => exact Or.inl (Function.update_of_ne (hne hu) _ _)
  | awake w => exact Or.inl (Function.update_of_ne (hne hu) _ _)

/-- The places to which a worker goes by its own steps. -/
inductive Moved (s : TimerPool Q n) (u : Fin n) : TimerStep β n → Place (TimerPhase β) → Prop
  | block : Q.elems s.timeQ = 0 → s.stop = false → Moved s u (.check u) .block
  | gone : Q.elems s.timeQ = 0 → s.stop = true → Moved s u (.check u) .gone
  | inspect : Q.elems s.timeQ ≠ 0 → Moved s u (.check u) (.busy (.inspect s.clock))
  | asleep : s.workers u = .block → Moved s u (.sleep u) .asleep
  | wake : Moved s u (.wake u) .check
  | due {now event} : s.workers u = .busy (.inspect now) → Q.top s.timeQ = some event →
      now > event.time + s.timeAdjustment → Moved s u (.inspect u) (.busy (.due event s.timeAdjustment))
  | early {now event} : s.workers u = .busy (.inspect now) → Q.top s.timeQ = some event →
      ¬ now > event.time + s.timeAdjustment → Moved s u (.inspect u) (.busy (.early now event s.timeAdjustment))
  | run {event adjustment} : s.workers u = .busy (.due event adjustment) → Moved s u (.take u) (.busy (.run event))
  | finish : Moved s u (.finish u) .check
  | late {now event adjustment} : s.workers u = .busy (.early now event adjustment) →
      Moved s u (.unlock u) (.busy (.late now event adjustment s.version none none))
  | time {now event adjustment version load time} :
      s.workers u = .busy (.late now event adjustment version none load) → s.ReadsTime event version time →
      Moved s u (.readTime u time) (.busy (.late now event adjustment version (some time) load))
  | load {now event adjustment version time} : s.workers u = .busy (.late now event adjustment version time none) →
      Moved s u (.loadAdjustment u) (.busy (.late now event adjustment version time (some s.timeAdjustment)))
  | sleeping {now event adjustment version time load} :
      s.workers u = .busy (.late now event adjustment version (some time) (some load)) →
      Moved s u (.sleepFor u) (.busy (.sleeping (s.clock + ((time + load) - now))))
  | awake : Moved s u (.awake u) .check

theorem moved_or_stirred (h : Locked s) (he : s.Enabled e) (u : Fin n) :
    Moved s u e ((s.next e).workers u) ∨ e.worker ≠ some u ∧ Stirred (s.workers u) ((s.next e).workers u) := by
  have hset : ∀ {p : Place (TimerPhase β)}, Moved s u e p → Moved s u e (Function.update s.workers u p u) := by
    intro p hp
    rwa [Function.update_self]
  by_cases hu : e.worker = some u
  · refine Or.inl ?_
    cases e with
    | check w =>
      cases hu
      rcases checkQueue_cases s u with ⟨hq, hs, hn⟩ | ⟨hq, hs, hn⟩ | ⟨hq, hn⟩
      · rw [hn]
        exact hset (.block hq hs)
      · rw [hn]
        exact hset (.gone hq hs)
      · rw [hn]
        exact hset (.inspect hq)
    | sleep w =>
      cases hu
      exact hset (.asleep he)
    | wake w =>
      cases hu
      exact hset .wake
    | inspect w =>
      cases hu
      obtain ⟨now, hw⟩ := he
      obtain ⟨event, htop, ⟨hdue, hn⟩ | ⟨hdue, hn⟩⟩ := inspect_cases hw (h.inspect hw).1
      · rw [hn]
        exact hset (.due hw htop hdue)
      · rw [hn]
        exact hset (.early hw htop hdue)
    | take w =>
      cases hu
      obtain ⟨event, adjustment, hw⟩ := he
      rw [take_next hw]
      exact hset (.run hw)
    | finish w =>
      cases hu
      exact hset .finish
    | unlock w =>
      cases hu
      obtain ⟨now, event, adjustment, hw⟩ := he
      rw [unlock_next hw]
      exact hset (.late hw)
    | readTime w time =>
      cases hu
      obtain ⟨now, event, adjustment, version, load, hw, ht⟩ := he
      rw [readTime_next time hw]
      exact hset (.time hw ht)
    | loadAdjustment w =>
      cases hu
      obtain ⟨now, event, adjustment, version, time, hw⟩ := he
      rw [loadAdjustment_next hw]
      exact hset (.load hw)
    | sleepFor w =>
      cases hu
      obtain ⟨now, event, adjustment, version, time, load, hw⟩ := he
      rw [sleepFor_next hw]
      exact hset (.sleeping hw)
    | awake w =>
      cases hu
      exact hset .awake
    | _ => cases hu
  · exact Or.inr ⟨hu, workers_next he hu⟩

theorem moved_or_stayed (h : Locked s) (he : s.Enabled e) {p : Place (TimerPhase β)} (hc : p ≠ .check)
    (ha : p ≠ .asleep) (hp : (s.next e).workers u = p) :
    Moved s u e p ∨ e.worker ≠ some u ∧ s.workers u = p := by
  rcases moved_or_stirred h he u with hm | ⟨hu, hs⟩
  · exact Or.inl (hp ▸ hm)
  · exact Or.inr ⟨hu, (hs.eq_iff hc ha).mp hp⟩

/-- A worker keeps `mtx` while others take steps, and the queue stays as it is. -/
theorem Locked.frame (h : Locked s) (he : s.Enabled e) (hm : s.mtx = some u) (hu : e.worker ≠ some u) :
    (s.next e).mtx = some u ∧ (s.next e).timeQ = s.timeQ := by
  have hother : ∀ {w} {p : Place (TimerPhase β)}, some w ≠ some u → s.workers w = p → Holding p → False :=
    fun hw hp hh => hw ((h.owner _ (hp ▸ hh)).symm.trans hm)
  cases e with
  | enqueue c event => cases hm.symm.trans he.2
  | check w => cases hm.symm.trans he.2
  | sleep w => exact (hother hu he trivial).elim
  | inspect w =>
    obtain ⟨now, hw⟩ := he
    exact (hother hu hw trivial).elim
  | take w =>
    obtain ⟨event, adjustment, hw⟩ := he
    exact (hother hu hw trivial).elim
  | unlock w =>
    obtain ⟨now, event, adjustment, hw⟩ := he
    exact (hother hu hw trivial).elim
  | _ => exact ⟨hm, rfl⟩

theorem clock_next (s : TimerPool Q n) (e : TimerStep β n) : s.clock ≤ (s.next e).clock := by
  cases e with
  | tick => exact Int.le_add_one (Int.le_refl _)
  | check w => exact (frame_check s w).2.2.1.ge
  | inspect w => exact (frame_inspect s w).2.2.1.ge
  | take w => exact (frame_take s w).2.1.ge
  | _ => exact Int.le_refl _

theorem check_mtx (hh : Holding ((s.next (.check u)).workers u)) : (s.next (.check u)).mtx = some u := by
  rcases checkQueue_cases s u with ⟨-, -, hn⟩ | ⟨-, -, hn⟩ | ⟨-, hn⟩
  · rw [hn]
  · rw [hn, workers_setWorker, Function.update_self] at hh
    exact hh.elim
  · rw [hn]

theorem Locked.owner_next (h : Locked s) (he : s.Enabled e) (hh : Holding ((s.next e).workers u)) :
    (s.next e).mtx = some u := by
  generalize hp : (s.next e).workers u = p at hh
  have hc : p ≠ .check := by
    rintro rfl
    exact hh
  have ha : p ≠ .asleep := by
    rintro rfl
    exact hh
  rcases moved_or_stayed h he hc ha hp with hm | ⟨hu, hw⟩
  · -- a worker takes `mtx` with the check, and keeps it over the comparison
    have hkept : ∀ {now}, s.workers u = .busy (.inspect now) → (s.next (.inspect u)).mtx = some u := fun hw =>
      (frame_inspect s u).2.2.2.2.2.2.1.trans (h.owner u (by rw [hw]; trivial))
    cases hm with
    | block | inspect => exact check_mtx (hp ▸ hh)
    | due hw | early hw => exact hkept hw
    | _ => exact hh.elim
  · exact (h.frame he (h.owner u (hw ▸ hh)) hu).1

/-- Knowledge about the queue lasts as long as the queue, while the clock goes on. -/
theorem Knows.later {p : Place (TimerPhase β)} (h : Knows s p) (hq : s'.timeQ = s.timeQ) (hc : s.clock ≤ s'.clock) :
    Knows s' p := by
  cases p with
  | block =>
    show Q.elems s'.timeQ = 0
    rw [hq]
    exact h
  | busy p =>
    cases p with
    | inspect now =>
      show Q.elems s'.timeQ ≠ 0 ∧ now ≤ s'.clock
      rw [hq]
      exact ⟨h.1, Int.le_trans h.2 hc⟩
    | due event adjustment =>
      show Q.top s'.timeQ = some event ∧ event.time + adjustment < s'.clock
      rw [hq]
      exact ⟨h.1, Int.lt_of_lt_of_le h.2 hc⟩
    | early now event adjustment =>
      show Q.top s'.timeQ = some event ∧ now ≤ s'.clock ∧ now ≤ event.time + adjustment
      rw [hq]
      exact ⟨h.1, Int.le_trans h.2.1 hc, h.2.2⟩
    | _ => trivial
  | _ => trivial

theorem knows_of_not_holding {p : Place (TimerPhase β)} (hh : ¬ Holding p) : Knows s p := by
  cases p with
  | block => exact absurd trivial hh
  | busy p =>
    cases p with
    | inspect now => exact absurd trivial hh
    | due event adjustment => exact absurd trivial hh
    | early now event adjustment => exact absurd trivial hh
    | _ => trivial
  | _ => trivial

theorem Locked.knows_next (h : Locked s) (he : s.Enabled e) (u : Fin n) : Knows (s.next e) ((s.next e).workers u) := by
  rcases moved_or_stirred h he u with hm | ⟨hu, hs | ⟨-, hw⟩⟩
  · generalize (s.next e).workers u = p at hm
    have hsame : ∀ {p : Place (TimerPhase β)}, Knows s p → Knows (s.next (.inspect u)) p := fun hk =>
      hk.later (frame_inspect s u).1 (frame_inspect s u).2.2.1.ge
    cases hm with
    | block hq _ =>
      show Q.elems (s.next (.check u)).timeQ = 0
      rw [(frame_check s u).1]
      exact hq
    | inspect hq =>
      show Q.elems (s.next (.check u)).timeQ ≠ 0 ∧ s.clock ≤ (s.next (.check u)).clock
      rw [(frame_check s u).1, (frame_check s u).2.2.1]
      exact ⟨hq, Int.le_refl _⟩
    | due hw htop hdue => exact hsame ⟨htop, lt_of_lt_of_le hdue (h.inspect hw).2⟩
    | early hw htop hdue => exact hsame ⟨htop, (h.inspect hw).2, not_lt.mp hdue⟩
    | _ => trivial
  · rw [hs]
    by_cases hh : Holding (s.workers u)
    · exact (h.knows u).later (h.frame he (h.owner u hh) hu).2 (clock_next s e)
    · exact knows_of_not_holding hh
  · rw [hw]
    trivial

theorem Locked.next (h : Locked s) (he : s.Enabled e) : Locked (s.next e) :=
  ⟨fun _ hh => h.owner_next he hh, h.knows_next he⟩

theorem locked_init : Locked (init Q n) := ⟨fun _ hh => hh.elim, fun _ => trivial⟩

end

end TimerPool

end LearningC
