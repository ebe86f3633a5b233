import LearningC.TimerRuns

/-!
# How often a worker looks before an event is due

A worker that finds the top event not due sleeps until the second of the event, but in
that second the event is still not due: the comparison is `>`, and there are no seconds
left to sleep. The single-threaded loop of `main` compares with `>=`.
-/

namespace LearningC

open Runs CondVar TimerPool

variable {β : Type} {Q : TimeQueue β}

/-- A pool with one worker, and the event and the reading of the clock with which the
worker was last too early, unless a callback, an `enqueue` or an `adjustTiming` has come
since. -/
structure Waiting {β : Type} (Q : TimeQueue β) where
  pool : TimerPool Q 1
  waited : Option (TimeEvent β × Int)

namespace Waiting

def init (Q : TimeQueue β) : Waiting Q where
  pool := TimerPool.init Q 1
  waited := none

def waitedNext (s : Waiting Q) : TimerStep β 1 → Option (TimeEvent β × Int)
  | .inspect w =>
    match s.pool.workers w, Q.top s.pool.timeQ with
    | .busy (.inspect now), some event =>
      if now > event.time + s.pool.timeAdjustment then none else some (event, now)
    | _, _ => s.waited
  | .enqueue _ _ | .adjustTiming _ => none
  | _ => s.waited

def next (s : Waiting Q) (e : TimerStep β 1) : Waiting Q where
  pool := s.pool.next e
  waited := s.waitedNext e

def step [DecidableEq β] (s : Waiting Q) (e : TimerStep β 1) : Option (Waiting Q) :=
  if s.pool.Enabled e then some (s.next e) else none

/-- A comparison that finds an event not due is the first one to do so and leaves seconds
to sleep, and one made when these are over finds its event due. -/
def NeverSpins (s : Waiting Q) : TimerStep β 1 → Prop
  | .inspect w => ∀ now event, s.pool.workers w = .busy (.inspect now) → Q.top s.pool.timeQ = some event →
      (¬ now > event.time + s.pool.timeAdjustment →
        s.waited = none ∧ 0 < (event.time + s.pool.timeAdjustment) - now) ∧
      ∀ event₀ now₀, s.waited = some (event₀, now₀) →
        now = now₀ + ((event₀.time + s.pool.timeAdjustment) - now₀) → now > event₀.time + s.pool.timeAdjustment
  | .sleepFor w => ∀ now event adjustment version time load,
      s.pool.workers w = .busy (.late now event adjustment version (some time) (some load)) →
      s.waited ≠ none → 0 < (time + load) - now
  | _ => True

/-- The worker does not read the clock in the very second of the event. -/
def NotInItsSecond (s : Waiting Q) : TimerStep β 1 → Prop
  | .inspect w => ∀ now event, s.pool.workers w = .busy (.inspect now) → Q.top s.pool.timeQ = some event →
      now ≠ event.time + s.pool.timeAdjustment
  | _ => True

/-- Where a worker can be that waits for the event, and that the event's second has come
when it looks again. -/
def Awaits (s : TimerPool Q 1) (event : TimeEvent β) (now₀ : Int) : Place (TimerPhase β) → Prop
  | .check => event.time + s.timeAdjustment ≤ s.clock
  | .busy (.inspect now) => event.time + s.timeAdjustment ≤ now
  | .busy (.early now event' _) => event' = event ∧ now = now₀ ∧ now ≤ s.clock
  | .busy (.late now event' _ version time load) => event' = event ∧ now = now₀ ∧ now ≤ s.clock ∧
      version = s.version ∧ (∀ t ∈ time, t = event.time) ∧ ∀ l ∈ load, l = s.timeAdjustment
  | .busy (.sleeping wakeAt) => event.time + s.timeAdjustment ≤ wakeAt
  | .block | .asleep | .gone | .busy (.due ..) | .busy (.run _) => False

structure Patient (s : Waiting Q) : Prop where
  locked : Locked s.pool
  top : ∀ event now₀, s.waited = some (event, now₀) → Q.top s.pool.timeQ = some event
  early : ∀ event now₀, s.waited = some (event, now₀) → now₀ < event.time + s.pool.timeAdjustment
  place : ∀ event now₀, s.waited = some (event, now₀) → ∀ w, Awaits s.pool event now₀ (s.pool.workers w)

section
variable {s s' : Waiting Q} {e : TimerStep β 1} {w : Fin 1} {event : TimeEvent β} {now now₀ : Int}

theorem awaits_update {p : Place (TimerPhase β)} {f : Fin 1 → Place (TimerPhase β)} {s : TimerPool Q 1}
    (h : Awaits s event now₀ p) (w u : Fin 1) : Awaits s event now₀ (Function.update f w p u) := by
  rw [Subsingleton.elim u w, Function.update_self]
  exact h

/-- Steps that leave `timeQ`, `timeAdjustment` and what was waited for as they are. -/
theorem Patient.keep (h : Patient s) (he : s.pool.Enabled e) (hq : (s.pool.next e).timeQ = s.pool.timeQ)
    (ha : (s.pool.next e).timeAdjustment = s.pool.timeAdjustment) (hw : s.waitedNext e = s.waited)
    (hp : ∀ event now₀, Q.top s.pool.timeQ = some event → (∀ w, Awaits s.pool event now₀ (s.pool.workers w)) →
      now₀ < event.time + s.pool.timeAdjustment →
      ∀ w, Awaits (s.pool.next e) event now₀ ((s.pool.next e).workers w)) : Patient (s.next e) where
  locked := h.locked.next he
  top event now₀ hwaited := (congrArg Q.top hq).trans (h.top event now₀ (hw ▸ hwaited))
  early event now₀ hwaited := by
    show now₀ < event.time + (s.pool.next e).timeAdjustment
    rw [ha]
    exact h.early event now₀ (hw ▸ hwaited)
  place event now₀ hwaited := by
    have hwaited' : s.waited = some (event, now₀) := hw ▸ hwaited
    exact hp event now₀ (h.top event now₀ hwaited') (h.place event now₀ hwaited') (h.early event now₀ hwaited')

theorem Patient.reset (h : Patient s) (he : s.pool.Enabled e) (hw : s.waitedNext e = none) : Patient (s.next e) := by
  have hnone : ∀ event now₀, (s.next e).waited ≠ some (event, now₀) := by
    intro event now₀ hwaited
    cases hw.symm.trans hwaited
  exact ⟨h.locked.next he, fun _ _ hw => absurd hw (hnone _ _), fun _ _ hw => absurd hw (hnone _ _),
    fun _ _ hw => absurd hw (hnone _ _)⟩

theorem awaits_stirred {s : TimerPool Q 1} {p p' : Place (TimerPhase β)} (h : Stirred p p') (ha : Awaits s event now₀ p) :
    Awaits s event now₀ p' := by
  rcases h with rfl | ⟨rfl, -⟩
  · exact ha
  · exact ha.elim

theorem awaits_tick {s : TimerPool Q 1} {p : Place (TimerPhase β)} (ha : Awaits s event now₀ p) :
    Awaits (s.next .tick) event now₀ p := by
  have hclock : (s.next .tick).clock = s.clock + 1 := rfl
  have hadj : (s.next .tick).timeAdjustment = s.timeAdjustment := rfl
  cases p with
  | check =>
    have hle : event.time + s.timeAdjustment ≤ s.clock := ha
    show event.time + (s.next .tick).timeAdjustment ≤ (s.next .tick).clock
    omega
  | busy p =>
    cases p with
    | early now event' adjustment =>
      obtain ⟨rfl, rfl, hle⟩ := ha
      exact ⟨rfl, rfl, by omega⟩
    | late now event' adjustment version time load =>
      obtain ⟨rfl, rfl, hle, hread⟩ := ha
      exact ⟨rfl, rfl, by omega, hread⟩
    | inspect now => exact ha
    | sleeping wakeAt => exact ha
    | due event' adjustment => exact ha
    | run event' => exact ha
  | _ => exact ha.elim

/-- The worker's own steps on its way from one comparison to the next. -/
theorem awaits_own {s : TimerPool Q 1} (he : s.Enabled e) (hi : e ≠ .inspect w) (hw : e.worker = some w)
    (htop : Q.top s.timeQ = some event) (ha : Awaits s event now₀ (s.workers w)) :
    Awaits (s.next e) event now₀ ((s.next e).workers w) := by
  cases e with
  | check u =>
    cases hw
    have hle : event.time + s.timeAdjustment ≤ s.clock := by
      rw [he.1] at ha
      exact ha
    have hfull : Q.elems s.timeQ ≠ 0 := fun h0 => by cases ((Q.top_eq_none _).mpr h0).symm.trans htop
    rcases checkQueue_cases s w with ⟨h0, -, -⟩ | ⟨h0, -, -⟩ | ⟨-, hn⟩
    · exact absurd h0 hfull
    · exact absurd h0 hfull
    · rw [hn]
      refine awaits_update ?_ w w
      exact hle
  | sleep u =>
    cases hw
    rw [show s.workers w = .block from he] at ha
    exact ha.elim
  | wake u =>
    cases hw
    rw [show s.workers w = .asleep from he] at ha
    exact ha.elim
  | inspect u =>
    cases hw
    exact absurd rfl hi
  | take u =>
    cases hw
    obtain ⟨event', adjustment, hd⟩ := he
    rw [hd] at ha
    exact ha.elim
  | finish u =>
    cases hw
    obtain ⟨event', hr⟩ := he
    rw [hr] at ha
    exact ha.elim
  | unlock u =>
    cases hw
    obtain ⟨now, event', adjustment, hl⟩ := he
    rw [hl] at ha
    obtain ⟨rfl, rfl, hle⟩ := ha
    rw [unlock_next hl]
    refine awaits_update ?_ w w
    exact ⟨rfl, rfl, hle, rfl, fun _ ht => by (cases ht), fun _ hl => by (cases hl)⟩
  | readTime u time =>
    cases hw
    obtain ⟨now, event', adjustment, version, load, hl, htime⟩ := he
    rw [hl] at ha
    obtain ⟨rfl, rfl, hle, rfl, -, hload⟩ := ha
    rw [readTime_next time hl]
    refine awaits_update ?_ w w
    refine ⟨rfl, rfl, hle, rfl, fun t ht => ?_, hload⟩
    cases ht
    exact htime rfl
  | loadAdjustment u =>
    cases hw
    obtain ⟨now, event', adjustment, version, time, hl⟩ := he
    rw [hl] at ha
    obtain ⟨rfl, rfl, hle, rfl, htime, -⟩ := ha
    rw [loadAdjustment_next hl]
    refine awaits_update ?_ w w
    refine ⟨rfl, rfl, hle, rfl, htime, fun l hm => ?_⟩
    cases hm
    rfl
  | sleepFor u =>
    cases hw
    obtain ⟨now, event', adjustment, version, time, load, hl⟩ := he
    rw [hl] at ha
    obtain ⟨rfl, rfl, hle, rfl, htime, hload⟩ := ha
    rw [sleepFor_next hl]
    have hwake : event'.time + s.timeAdjustment ≤ s.clock + ((time + load) - now) := by
      rw [htime time rfl, hload load rfl]
      omega
    refine awaits_update ?_ w w
    exact hwake
  | awake u =>
    cases hw
    obtain ⟨wakeAt, hs, hle⟩ := he
    rw [hs] at ha
    have hcome : event.time + s.timeAdjustment ≤ s.clock := Int.le_trans ha hle
    refine awaits_update ?_ w w
    exact hcome
  | _ => cases hw

/-- A comparison, with the clock read before and an event on top. -/
theorem Patient.inspect_cases (h : Patient s) (hw : s.pool.workers w = .busy (.inspect now))
    (htop : Q.top s.pool.timeQ = some event) :
    (now > event.time + s.pool.timeAdjustment ∧ s.waitedNext (.inspect w) = none) ∨
      ¬ now > event.time + s.pool.timeAdjustment ∧ s.waitedNext (.inspect w) = some (event, now) ∧
        s.pool.next (.inspect w) = s.pool.setWorker w (.busy (.early now event s.pool.timeAdjustment)) := by
  have hwaited : s.waitedNext (.inspect w) =
      if now > event.time + s.pool.timeAdjustment then none else some (event, now) := by
    unfold waitedNext
    simp only [hw, htop]
  obtain ⟨event', htop', ⟨hdue, -⟩ | ⟨hdue, hn⟩⟩ := TimerPool.inspect_cases hw (h.locked.inspect hw).1
  · cases htop.symm.trans htop'
    exact Or.inl ⟨hdue, hwaited.trans (if_pos hdue)⟩
  · cases htop.symm.trans htop'
    exact Or.inr ⟨hdue, hwaited.trans (if_neg hdue), hn⟩

theorem Patient.next (h : Patient s) (he : s.pool.Enabled e) (hk : NotInItsSecond s e) : Patient (s.next e) := by
  have hown : ∀ w, e.worker = some w → e ≠ .inspect w → (s.pool.next e).timeQ = s.pool.timeQ →
      (s.pool.next e).timeAdjustment = s.pool.timeAdjustment → s.waitedNext e = s.waited → Patient (s.next e) := by
    intro w hw hi hq ha hsame
    refine h.keep he hq ha hsame fun event now₀ htop hawaits _ u => ?_
    obtain rfl : u = w := Subsingleton.elim u w
    exact awaits_own he hi hw htop (hawaits u)
  cases e with
  | enqueue c event => exact h.reset he rfl
  | adjustTiming adjustment => exact h.reset he rfl
  | notifyOne c u =>
    refine h.keep he rfl rfl rfl fun event now₀ _ hawaits _ w => ?_
    exact awaits_stirred (workers_next he (by simp [TimerStep.worker])) (hawaits w)
  | notifyDestroy =>
    exact h.keep he rfl rfl rfl fun event now₀ _ hawaits _ w => awaits_stirred (wakeAll_stirs _ _) (hawaits w)
  | destroy => exact h.keep he rfl rfl rfl fun event now₀ _ hawaits _ => hawaits
  | join => exact h.keep he rfl rfl rfl fun event now₀ _ hawaits _ => hawaits
  | tick => exact h.keep he rfl rfl rfl fun event now₀ _ hawaits _ w => awaits_tick (hawaits w)
  | check w =>
    have hadj : (s.pool.next (.check w)).timeAdjustment = s.pool.timeAdjustment := by
      rcases checkQueue_cases s.pool w with ⟨-, -, hn⟩ | ⟨-, -, hn⟩ | ⟨-, hn⟩
      all_goals
        rw [hn]
        rfl
    exact hown w rfl (by simp) (frame_check s.pool w).1 hadj rfl
  | sleep w => exact hown w rfl (by simp) rfl rfl rfl
  | wake w => exact hown w rfl (by simp) rfl rfl rfl
  | take w =>
    obtain ⟨event, adjustment, hd⟩ := id he
    refine h.reset he (Option.eq_none_iff_forall_ne_some.mpr fun p hwaited => ?_)
    have hplace := h.place p.1 p.2 hwaited w
    rw [hd] at hplace
    exact hplace
  | finish w => exact hown w rfl (by simp) rfl rfl rfl
  | unlock w => exact hown w rfl (by simp) rfl rfl rfl
  | readTime w time => exact hown w rfl (by simp) rfl rfl rfl
  | loadAdjustment w => exact hown w rfl (by simp) rfl rfl rfl
  | sleepFor w => exact hown w rfl (by simp) rfl rfl rfl
  | awake w => exact hown w rfl (by simp) rfl rfl rfl
  | inspect w =>
    obtain ⟨now, hw⟩ := id he
    obtain ⟨event, htop, -⟩ := TimerPool.inspect_cases hw (h.locked.inspect hw).1
    rcases h.inspect_cases hw htop with ⟨-, hnone⟩ | ⟨hdue, hsome, hn⟩
    · exact h.reset he hnone
    · have hne := hk now event hw htop
      have hp : (s.next (.inspect w)).pool = s.pool.next (.inspect w) := rfl
      refine ⟨h.locked.next he, fun event' now' hwaited => ?_, fun event' now' hwaited => ?_,
        fun event' now' hwaited u => ?_⟩
      all_goals
        cases hsome.symm.trans hwaited
        rw [hp, hn]
      · exact htop
      · show now < event.time + s.pool.timeAdjustment
        omega
      · refine awaits_update ?_ w u
        exact ⟨rfl, rfl, (h.locked.inspect hw).2⟩

theorem Patient.neverSpins_iff (h : Patient s) (he : s.pool.Enabled e) : NeverSpins s e ↔ NotInItsSecond s e := by
  cases e with
  | inspect w =>
    constructor
    · intro hk now event hw htop hsecond
      obtain ⟨hlate, -⟩ := hk now event hw htop
      obtain ⟨-, hsleep⟩ := hlate (by omega)
      omega
    · intro hk now event hw htop
      have hne := hk now event hw htop
      have hcome : ∀ event₀ now₀, s.waited = some (event₀, now₀) →
          event₀ = event ∧ event.time + s.pool.timeAdjustment ≤ now := by
        intro event₀ now₀ hwaited
        cases (h.top event₀ now₀ hwaited).symm.trans htop
        have hplace := h.place event now₀ hwaited w
        rw [hw] at hplace
        exact ⟨rfl, hplace⟩
      refine ⟨fun hdue => ⟨?_, by omega⟩, fun event₀ now₀ hwaited _ => ?_⟩
      · refine Option.eq_none_iff_forall_ne_some.mpr fun p hwaited => hdue ?_
        have hle := (hcome p.1 p.2 hwaited).2
        omega
      · obtain ⟨rfl, hle⟩ := hcome event₀ now₀ hwaited
        omega
  | sleepFor w =>
    refine iff_of_true (fun now event adjustment version time load hw hwaited => ?_) trivial
    obtain ⟨⟨event₀, now₀⟩, hwaited⟩ := Option.ne_none_iff_exists'.mp hwaited
    have hplace := h.place event₀ now₀ hwaited w
    rw [hw] at hplace
    obtain ⟨rfl, rfl, -, -, htime, hload⟩ := hplace
    have hearly := h.early event now hwaited
    rw [htime time rfl, hload load rfl]
    omega
  | _ => exact Iff.rfl

theorem patient_init : Patient (init Q) := by
  refine ⟨locked_init, fun _ _ hw => ?_, fun _ _ hw => ?_, fun _ _ hw => ?_⟩
  all_goals cases hw

end

end Waiting

/-! ## The loop under `one_thread` -/

inductive OneThreadPlace (β : Type)
  | look
  | compare (currentTime : Int) (nextEvent : TimeEvent β)
  | sleeping (wakeAt : Int)
  | gone
  deriving DecidableEq, Repr

/-- The loop of `main`, with `waited` as in `Waiting`. -/
structure OneThread {β : Type} (Q : TimeQueue β) where
  timeQ : Q.Carrier
  clock : Int
  place : OneThreadPlace β
  waited : Option (TimeEvent β × Int)

inductive OneThreadStep
  | tick
  | look
  | compare
  | awake
  deriving DecidableEq, Repr

namespace OneThread

def start (timeQ : Q.Carrier) (clock : Int) : OneThread Q where
  timeQ
  clock
  place := .look
  waited := none

def step (s : OneThread Q) : OneThreadStep → Option (OneThread Q)
  | .tick => some { s with clock := s.clock + 1 }
  | .look =>
    match s.place with
    | .look =>
      match Q.top s.timeQ with
      | none => some { s with place := .gone }
      | some nextEvent => some { s with place := .compare s.clock nextEvent }
    | _ => none
  | .compare =>
    match s.place with
    | .compare currentTime nextEvent =>
      if currentTime ≥ nextEvent.time then
        some { s with timeQ := Q.pop s.timeQ, place := .look, waited := none }
      else
        some { s with
          place := .sleeping (s.clock + (nextEvent.time - currentTime))
          waited := some (nextEvent, currentTime) }
    | _ => none
  | .awake =>
    match s.place with
    | .sleeping wakeAt => if wakeAt ≤ s.clock then some { s with place := .look } else none
    | _ => none

/-- `Waiting.NeverSpins`, with the comparison of this loop. -/
def NeverSpins (s : OneThread Q) : OneThreadStep → Prop
  | .compare => ∀ now event, s.place = .compare now event →
      (¬ now ≥ event.time → s.waited = none ∧ 0 < event.time - now) ∧
      ∀ event₀ now₀, s.waited = some (event₀, now₀) → now = now₀ + (event₀.time - now₀) → now ≥ event₀.time
  | _ => True

def Awaits (clock : Int) (event : TimeEvent β) : OneThreadPlace β → Prop
  | .look => event.time ≤ clock
  | .compare now _ => event.time ≤ now
  | .sleeping wakeAt => event.time ≤ wakeAt
  | .gone => False

structure Patient (s : OneThread Q) : Prop where
  compare : ∀ now event, s.place = .compare now event → Q.top s.timeQ = some event ∧ now ≤ s.clock
  waited : ∀ event now₀, s.waited = some (event, now₀) → Q.top s.timeQ = some event ∧ Awaits s.clock event s.place

section
variable {s s' : OneThread Q} {e : OneThreadStep}

theorem Patient.neverSpins (h : Patient s) (e : OneThreadStep) : NeverSpins s e := by
  cases e with
  | compare =>
    intro now event hp
    have hcome : ∀ event₀ now₀, s.waited = some (event₀, now₀) → event₀ = event ∧ event.time ≤ now := by
      intro event₀ now₀ hwaited
      obtain ⟨htop, hawaits⟩ := h.waited event₀ now₀ hwaited
      cases htop.symm.trans (h.compare now event hp).1
      rw [hp] at hawaits
      exact ⟨rfl, hawaits⟩
    refine ⟨fun hdue => ⟨?_, by omega⟩, fun event₀ now₀ hwaited _ => ?_⟩
    · exact Option.eq_none_iff_forall_ne_some.mpr fun p hwaited => hdue (hcome p.1 p.2 hwaited).2
    · obtain ⟨rfl, hle⟩ := hcome event₀ now₀ hwaited
      exact hle
  | _ => trivial

theorem Patient.tick (h : Patient s) : Patient { s with clock := s.clock + 1 } := by
  refine ⟨fun now event hp => ?_, fun event now₀ hw => ?_⟩
  · obtain ⟨htop, hle⟩ := h.compare now event hp
    exact ⟨htop, Int.le_trans hle (Int.le_add_one (Int.le_refl _))⟩
  · obtain ⟨htop, hawaits⟩ := h.waited event now₀ hw
    refine ⟨htop, ?_⟩
    cases hp : s.place with
    | look =>
      rw [hp] at hawaits
      exact Int.le_trans hawaits (Int.le_add_one (Int.le_refl _))
    | _ =>
      rw [hp] at hawaits
      exact hawaits

theorem Patient.gone (h : Patient s) (htop : Q.top s.timeQ = none) : Patient { s with place := .gone } := by
  refine ⟨fun now event hp => ?_, fun event now₀ hw => ?_⟩
  · cases hp
  · cases htop.symm.trans (h.waited event now₀ hw).1

theorem Patient.look (h : Patient s) (hp : s.place = .look) {nextEvent : TimeEvent β}
    (htop : Q.top s.timeQ = some nextEvent) : Patient { s with place := .compare s.clock nextEvent } := by
  refine ⟨fun now event hp' => ?_, fun event now₀ hw => ?_⟩
  · cases hp'
    exact ⟨htop, Int.le_refl _⟩
  · obtain ⟨htop', hawaits⟩ := h.waited event now₀ hw
    rw [hp] at hawaits
    exact ⟨htop', hawaits⟩

theorem patient_run (s : OneThread Q) :
    Patient { s with timeQ := Q.pop s.timeQ, place := .look, waited := none } := by
  refine ⟨fun now event hp => ?_, fun event now₀ hw => ?_⟩
  · cases hp
  · cases hw

theorem Patient.sleep (h : Patient s) {currentTime : Int} {nextEvent : TimeEvent β}
    (hp : s.place = .compare currentTime nextEvent) : Patient { s with
      place := .sleeping (s.clock + (nextEvent.time - currentTime))
      waited := some (nextEvent, currentTime) } := by
  obtain ⟨htop, hle⟩ := h.compare currentTime nextEvent hp
  refine ⟨fun now event hp' => ?_, fun event now₀ hw => ?_⟩
  · cases hp'
  · cases hw
    refine ⟨htop, ?_⟩
    show nextEvent.time ≤ s.clock + (nextEvent.time - currentTime)
    omega

theorem Patient.awake (h : Patient s) {wakeAt : Int} (hp : s.place = .sleeping wakeAt) (hwake : wakeAt ≤ s.clock) :
    Patient { s with place := .look } := by
  refine ⟨fun now event hp' => ?_, fun event now₀ hw => ?_⟩
  · cases hp'
  · obtain ⟨htop, hawaits⟩ := h.waited event now₀ hw
    rw [hp] at hawaits
    exact ⟨htop, Int.le_trans hawaits hwake⟩

theorem Patient.step (h : Patient s) (hs : s.step e = some s') : Patient s' := by
  cases e with
  | tick =>
    cases hs
    exact h.tick
  | look =>
    unfold OneThread.step at hs
    simp only at hs
    split at hs
    · next hp =>
      split at hs
      · next htop =>
        cases hs
        exact h.gone htop
      · next htop =>
        cases hs
        exact h.look hp htop
    · cases hs
  | compare =>
    unfold OneThread.step at hs
    simp only at hs
    split at hs
    · next hp =>
      split at hs
      · cases hs
        exact patient_run s
      · cases hs
        exact h.sleep hp
    · cases hs
  | awake =>
    unfold OneThread.step at hs
    simp only at hs
    split at hs
    · next hp =>
      obtain ⟨hwake, rfl⟩ := guarded_some hs
      exact h.awake hp hwake
    · cases hs

/-- A single-threaded loop that compares with `>=` never spins. -/
theorem neverSpins_always (timeQ : Q.Carrier) (clock : Int) (steps : List OneThreadStep) :
    Along step (fun s e _ => NeverSpins s e) (start timeQ clock) steps := by
  have hstart : Patient (start timeQ clock : OneThread Q) := by
    refine ⟨fun now event hp => ?_, fun event now₀ hw => ?_⟩
    · cases hp
    · cases hw
  exact along_of_invariant (fun s e s' h hs => ⟨h.neverSpins e, h.step hs⟩) steps _ hstart

end

end OneThread

/-! ## The worker -/

namespace Waiting

theorem step_next [DecidableEq β] {s s' : Waiting Q} {e : TimerStep β 1} (h : s.step e = some s') :
    s.pool.Enabled e ∧ s' = s.next e :=
  Runs.guarded_some h

/-- **Spinning.** The only worker of a pool never spins in a run if and only if it never
reads the clock in the very second of the event on top. The single-threaded loop never
spins at all. -/
theorem neverSpins_iff_notInItsSecond [DecidableEq β] (Q : TimeQueue β) :
    (∀ es : List (TimerStep β 1), Along step (fun s e _ => NeverSpins s e) (init Q) es ↔
      Along step (fun s e _ => NotInItsSecond s e) (init Q) es) ∧
    ∀ (timeQ : Q.Carrier) (clock : Int) (steps : List OneThreadStep),
      Along OneThread.step (fun s e _ => OneThread.NeverSpins s e) (OneThread.start timeQ clock) steps := by
  refine ⟨fun es => ?_, OneThread.neverSpins_always⟩
  refine along_iff (I := Patient) (U := fun _ => True) (fun s e s' h _ hs => ?_) (fun _ _ => trivial) patient_init
  obtain ⟨he, rfl⟩ := step_next hs
  have hiff := h.neverSpins_iff he
  exact ⟨hiff, fun hk => h.next he (hiff.mp hk)⟩

/-- The worker sleeps one second for an event of second 1, and is back in time. -/
def punctualRun (w : Fin 1) : List (TimerStep Unit 1) :=
  [.enqueue 0 ⟨1, ()⟩, .check w, .inspect w, .unlock w, .readTime w 1, .loadAdjustment w, .sleepFor w, .tick, .awake w,
    .check w]

theorem punctual_spins : ¬ ∀ es : List (TimerStep Unit 1),
    Along step (fun s e _ => NeverSpins s e) (init (timeQueue Unit)) es := by
  intro h
  have hlast := (h (punctualRun 0 ++ [.inspect 0])).after _ _ rfl
  obtain ⟨hk, -⟩ := hlast _ rfl
  obtain ⟨hlate, -⟩ := hk 1 ⟨1, ()⟩ rfl rfl
  exact absurd (hlate (by decide)).2 (by decide)

end Waiting

end LearningC
