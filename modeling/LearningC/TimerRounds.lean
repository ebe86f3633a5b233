import LearningC.TimerMain
import LearningC.TimerSleep

/-!
# Rounds of the main loop

A task is at least ten seconds after the one before it. So the pool starts the tasks in the
order in which they were enqueued, and a worker that sleeps for one of them sleeps past no
other: the tasks that come later are due later.
-/

namespace LearningC

open Runs CondVar

namespace TimerPool

variable {β : Type} {Q : TimeQueue β} {n : Nat}

/-- The events started and then those queued are the events in the order of `enqueue`. -/
def InOrder (s : TimerPool Q n) : Prop := ∃ rest, s.enqueued = s.started ++ rest ∧ Q.elems s.timeQ = rest

/-- Nobody sleeps past the present while an event is due. -/
def Punctual (s : TimerPool Q n) : Prop :=
  ∀ event ∈ Q.elems s.timeQ, event.time < s.clock → ∀ w wakeAt, s.workers w = .busy (.sleeping wakeAt) → wakeAt ≤ s.clock

/-- A worker goes to sleep in the second in which it has read the clock or in the next one, and
before anybody changes the queue. -/
def Prompt (s : TimerPool Q n) : TimerStep β n → Prop
  | .sleepFor w => ∀ now event adjustment version time load,
      s.workers w = .busy (.late now event adjustment version time load) → s.version = version ∧ s.clock ≤ now + 1
  | _ => True

/-- `timeAdjustment` is 0, and so is what workers have loaded of it. -/
structure Unadjusted (s : TimerPool Q n) : Prop where
  pool : s.timeAdjustment = 0
  due : ∀ w event adjustment, s.workers w = .busy (.due event adjustment) → adjustment = 0
  load : ∀ w now event adjustment version time load,
    s.workers w = .busy (.late now event adjustment version time (some load)) → load = 0

/-- Each sleeping worker sleeps for an event that is due before all that are queued. -/
def Rested (s : TimerPool Q n) : Prop :=
  ∀ w wakeAt, s.workers w = .busy (.sleeping wakeAt) → ∃ event ∈ s.enqueued, wakeAt ≤ event.time + 1 ∧
    ∀ other ∈ Q.elems s.timeQ, event.time ≤ other.time

section
variable {s : TimerPool Q n} {e : TimerStep β n} {w : Fin n} {event : TimeEvent β}

theorem enqueued_next :
    (s.next e).enqueued = s.enqueued ∨ ∃ c event, e = .enqueue c event ∧ (s.next e).enqueued = s.enqueued ++ [event] := by
  cases e with
  | enqueue c event => exact Or.inr ⟨c, event, rfl, rfl⟩
  | check w => exact Or.inl (frame_check s w).2.2.2.2.1
  | inspect w => exact Or.inl (frame_inspect s w).2.2.2.2.1
  | take w => exact Or.inl (frame_take s w).2.2.2.1
  | _ => exact Or.inl rfl

theorem started_next (he : s.Enabled e) : (s.next e).started = s.started ∨
    ∃ w event adjustment, e = .take w ∧ s.workers w = .busy (.due event adjustment) ∧
      (s.next e).started = s.started ++ [event] := by
  cases e with
  | check w => exact Or.inl (frame_check s w).2.2.2.2.2.1
  | inspect w => exact Or.inl (frame_inspect s w).2.2.2.2.2.1
  | take w =>
    obtain ⟨event, adjustment, hw⟩ := he
    exact Or.inr ⟨w, event, adjustment, rfl, hw, by rw [take_next hw]; rfl⟩
  | _ => exact Or.inl rfl

theorem timeAdjustment_next (hne : ∀ adjustment, e ≠ .adjustTiming adjustment) :
    (s.next e).timeAdjustment = s.timeAdjustment := by
  cases e with
  | adjustTiming adjustment => exact absurd rfl (hne adjustment)
  | check w =>
    rcases checkQueue_cases s w with ⟨-, -, hn⟩ | ⟨-, -, hn⟩ | ⟨-, hn⟩
    all_goals rw [hn]; rfl
  | inspect w => exact (frame_inspect s w).2.2.2.2.2.2.2.2.1
  | take w => exact (frame_take s w).2.2.2.2.1
  | _ => rfl

theorem Unadjusted.next (h : Unadjusted s) (hl : Locked s) (he : s.Enabled e)
    (hne : ∀ adjustment, e ≠ .adjustTiming adjustment) : Unadjusted (s.next e) := by
  refine ⟨(timeAdjustment_next hne).trans h.pool, fun w event adjustment hw => ?_,
    fun w now event adjustment version time load hw => ?_⟩
  · rcases moved_or_stayed hl he (by simp) (by simp) hw with hm | ⟨-, hw⟩
    · cases hm
      exact h.pool
    · exact h.due w event adjustment hw
  · rcases moved_or_stayed hl he (by simp) (by simp) hw with hm | ⟨-, hw⟩
    · cases hm with
      | time hi _ => exact h.load w _ _ _ _ _ _ hi
      | load hi => exact h.pool
    · exact h.load w now event adjustment version time load hw

/-! ## First in, first out -/

/-- The top of a queue whose events come in the order of their times. -/
theorem top_of_inOrder {rest : List (TimeEvent β)} (hq : Q.elems s.timeQ = rest)
    (hr : rest.Pairwise fun a b => a.time < b.time) (htop : Q.top s.timeQ = some event) :
    ∃ later, rest = event :: later ∧ Q.elems (Q.pop s.timeQ) = later := by
  have hmem := Q.mem_of_top htop
  have hpop := Q.elems_pop _ _ htop
  rw [hq] at hmem hpop
  cases rest with
  | nil => cases hmem
  | cons first later =>
    have hle : event.time ≤ first.time := not_lt.mp (Q.top_max _ _ htop first (hq ▸ List.mem_cons_self))
    rcases List.mem_cons.mp hmem with rfl | hmem
    · rw [← Multiset.cons_coe, Multiset.cons_inj_right] at hpop
      exact ⟨later, rfl, hpop.symm⟩
    · exact absurd (List.rel_of_pairwise_cons hr hmem) (by omega)

theorem InOrder.next (h : InOrder s) (hl : Locked s) (hs : s.enqueued.Pairwise fun a b => a.time < b.time)
    (he : s.Enabled e) : InOrder (s.next e) := by
  obtain ⟨rest, hrest, hq⟩ := h
  cases e with
  | enqueue c event =>
    refine ⟨rest ++ [event], ?_, ?_⟩
    · show s.enqueued ++ [event] = _
      rw [hrest, List.append_assoc]
      rfl
    · show Q.elems (Q.push event s.timeQ) = _
      rw [Q.elems_push, hq, ← Multiset.singleton_add, Multiset.add_comm, ← Multiset.coe_singleton, Multiset.coe_add]
  | check w =>
    obtain ⟨hqueue, -, -, -, henqueued, hstarted, -⟩ := frame_check s w
    exact ⟨rest, by rw [henqueued, hstarted, hrest], by rw [hqueue, hq]⟩
  | inspect w =>
    obtain ⟨hqueue, -, -, -, henqueued, hstarted, -⟩ := frame_inspect s w
    exact ⟨rest, by rw [henqueued, hstarted, hrest], by rw [hqueue, hq]⟩
  | take w =>
    obtain ⟨event, adjustment, hw⟩ := he
    rw [hrest] at hs
    obtain ⟨later, rfl, hpop⟩ := top_of_inOrder hq (List.pairwise_append.mp hs).2.1 (hl.due hw).1
    rw [take_next hw]
    refine ⟨later, ?_, hpop⟩
    show s.enqueued = (s.started ++ [event]) ++ later
    rw [hrest, List.append_assoc]
    rfl
  | _ => exact ⟨rest, hrest, hq⟩

theorem InOrder.mem_enqueued (h : InOrder s) (hm : event ∈ Q.elems s.timeQ) : event ∈ s.enqueued := by
  obtain ⟨rest, hrest, hq⟩ := h
  rw [hq] at hm
  rw [hrest]
  exact List.mem_append_right _ hm

/-! ## Sleep -/

theorem Rested.next (h : Rested s) (hl : Locked s) (hlook : Looked s) (ho : InOrder s) (hadj : Unadjusted s)
    (he : s.Enabled e) (hp : Prompt s e)
    (hnew : ∀ c event, e = .enqueue c event → ∀ old ∈ s.enqueued, old.time ≤ event.time) : Rested (s.next e) := by
  intro w wakeAt hw
  rcases moved_or_stayed hl he (by simp) (by simp) hw with hm | ⟨-, hw⟩
  · cases hm with
    | @sleeping now event adjustment version time load hlate =>
      obtain ⟨hversion, hclock⟩ := hp now event adjustment version _ _ hlate
      obtain ⟨htop, htime⟩ := (hlook w now event adjustment version _ _ hlate).2 hversion
      refine ⟨event, ho.mem_enqueued (Q.mem_of_top htop), ?_, fun other hother => ?_⟩
      · rw [htime time rfl, hadj.load w _ _ _ _ _ _ hlate]
        omega
      · exact not_lt.mp (Q.top_max _ _ htop other hother)
  · obtain ⟨event, hm, hle, hall⟩ := h w wakeAt hw
    refine ⟨event, ?_, hle, fun other hother => ?_⟩
    · rcases enqueued_next (s := s) (e := e) with hn | ⟨c, new, -, hn⟩
      · rwa [hn]
      · rw [hn]
        exact List.mem_append_left _ hm
    · rcases mem_of_next hl he hother with hother | ⟨c, rfl⟩
      · exact hall other hother
      · exact hnew c other rfl event hm

theorem Rested.punctual (h : Rested s) : Punctual s := by
  intro event hm hdue w wakeAt hw
  obtain ⟨slept, -, hle, hall⟩ := h w wakeAt hw
  have hfirst := hall event hm
  omega

end

end TimerPool

namespace TimerMain

open TimerPool

variable {Q : TimeQueue TimerTask} {n : Nat}

/-- No event is later than this. -/
def horizon (s : TimerMain Q n) : Int :=
  match s.phase with
  | .setupLogDirectory _ | .plan _ => s.pool.clock
  | .push _ t => t - clearIntervalSeconds
  | .notify true | .restart => s.pool.clock + clearIntervalSeconds
  | .notify false | .pause | .sleeping _ | .look => s.now + clearIntervalSeconds

/-- The times of an event that main has a log directory for and has not pushed yet. -/
def planned (s : TimerMain Q n) : List Int :=
  match s.phase with
  | .plan _ => [s.pool.clock + clearIntervalSeconds]
  | .push _ t => [t]
  | _ => []

/-- Between the planning of an event and the end of its round. -/
def Timed (s : TimerMain Q n) : Prop :=
  match s.phase with
  | .push false t => t = s.now + clearIntervalSeconds
  | .push true t => t ≤ s.pool.clock + clearIntervalSeconds
  | _ => True

/-- One round after another. -/
structure Rounds (s : TimerMain Q n) : Prop where
  horizon : ∀ event ∈ s.pool.enqueued, event.time ≤ s.horizon
  timed : s.Timed
  past : s.now ≤ s.pool.clock
  spaced : s.pool.enqueued.Pairwise fun a b => a.time + clearIntervalSeconds ≤ b.time
  setups : List.Forall₂ (fun t time => t + clearIntervalSeconds ≤ time) s.setups
    (s.pool.enqueued.map TimeEvent.time ++ s.planned)

section
variable {s s' : TimerMain Q n} {e : TimerMainStep n}

/-- What a step does: the statements of main, the two parts of `enqueue`, and the workers with
the clock. -/
theorem next_cases (he : s.Enabled e) :
    (e = .main ∧ s.next e = s.goOn) ∨
    (∃ again t, e = .push ∧ s.phase = .push again t ∧ s.pool.Enabled (.enqueue 0 (clearEvent t)) ∧
      s.next e = { s with pool := s.pool.next (.enqueue 0 (clearEvent t)), phase := .notify again }) ∨
    (∃ again w, e = .notify w ∧ s.phase = .notify again ∧ s.pool.Enabled (.notifyOne 0 w) ∧
      s.next e = { s with pool := s.pool.next (.notifyOne 0 w), phase := if again then .restart else .pause }) ∨
    ∃ e', e = .pool e' ∧ (e'.worker ≠ none ∨ e' = .tick) ∧ s.pool.Enabled e' ∧
      s.next e = { s with pool := s.pool.next e' } := by
  cases e with
  | main => exact Or.inl ⟨rfl, rfl⟩
  | push =>
    obtain ⟨t, ht, hp⟩ := he
    cases hphase : s.phase with
    | push again t' =>
      rw [hphase] at ht
      cases ht
      refine Or.inr (Or.inl ⟨again, t, rfl, rfl, hp, ?_⟩)
      unfold next
      simp only [hphase]
    | _ =>
      rw [hphase] at ht
      cases ht
  | notify w =>
    obtain ⟨hn, hp⟩ := he
    cases hphase : s.phase with
    | notify again =>
      refine Or.inr (Or.inr (Or.inl ⟨again, w, rfl, rfl, hp, ?_⟩))
      unfold next
      simp only [hphase]
    | _ =>
      rw [hphase] at hn
      cases hn
  | pool e' => exact Or.inr (Or.inr (Or.inr ⟨e', rfl, he.1, he.2, rfl⟩))

theorem setups_next (he : s.Enabled e) : (s.next e).setups = s.setups ∨ (s.next e).setups = s.setups ++ [s.pool.clock] := by
  rcases next_cases he with ⟨-, hn⟩ | ⟨again, t, -, -, -, hn⟩ | ⟨again, w, -, -, -, hn⟩ | ⟨e', -, -, -, hn⟩
  · rw [hn]
    unfold goOn
    cases s.phase with
    | setupLogDirectory again => exact Or.inr rfl
    | plan again => cases again <;> exact Or.inl rfl
    | _ => exact Or.inl rfl
  · exact Or.inl (by rw [hn])
  · exact Or.inl (by rw [hn])
  · exact Or.inl (by rw [hn])

theorem pool_goOn (s : TimerMain Q n) : s.goOn.pool = s.pool := by
  unfold goOn
  cases s.phase with
  | plan again => cases again <;> rfl
  | _ => rfl

/-! ## Rounds -/

theorem Rounds.goOn (h : Rounds s) (hready : s.phase.ready s.pool.clock = true) : Rounds s.goOn := by
  obtain ⟨hhorizon, htimed, hpast, hspaced, hsetups⟩ := h
  unfold TimerMain.goOn
  unfold TimerMain.horizon at hhorizon
  unfold TimerMain.planned at hsetups
  cases hphase : s.phase with
  | setupLogDirectory again =>
    simp only [hphase, List.append_nil] at hhorizon hsetups
    refine ⟨hhorizon, trivial, hpast, hspaced, List.rel_append hsetups (.cons (Int.le_refl _) .nil)⟩
  | plan again =>
    simp only [hphase] at hhorizon hsetups
    cases again with
    | false =>
      refine ⟨fun event hm => ?_, rfl, Int.le_refl _, hspaced, hsetups⟩
      have hle := hhorizon event hm
      show event.time ≤ s.pool.clock + clearIntervalSeconds - clearIntervalSeconds
      omega
    | true =>
      refine ⟨fun event hm => ?_, Int.le_refl _, hpast, hspaced, hsetups⟩
      have hle := hhorizon event hm
      show event.time ≤ s.pool.clock + clearIntervalSeconds - clearIntervalSeconds
      omega
  | push again t =>
    rw [hphase] at hready
    cases hready
  | notify again =>
    rw [hphase] at hready
    cases hready
  | restart =>
    simp only [hphase] at hhorizon hsetups
    exact ⟨hhorizon, trivial, Int.le_refl _, hspaced, hsetups⟩
  | pause =>
    simp only [hphase] at hhorizon hsetups
    exact ⟨hhorizon, trivial, hpast, hspaced, hsetups⟩
  | sleeping wakeAt =>
    simp only [hphase] at hhorizon hsetups
    exact ⟨hhorizon, trivial, hpast, hspaced, hsetups⟩
  | look =>
    simp only [hphase] at hhorizon hsetups
    by_cases hover : s.pool.clock - s.now ≥ clearIntervalSeconds
    · simp only [hover, if_true]
      refine ⟨fun event hm => ?_, trivial, hpast, hspaced, hsetups⟩
      have hle := hhorizon event hm
      show event.time ≤ s.pool.clock
      omega
    · simp only [hover, if_false]
      exact ⟨hhorizon, trivial, hpast, hspaced, hsetups⟩

theorem Rounds.increasing (h : Rounds s) : s.pool.enqueued.Pairwise fun a b => a.time < b.time := by
  refine h.spaced.imp fun hab => ?_
  have hpos : (0 : Int) < clearIntervalSeconds := by decide
  omega

theorem Rounds.horizon_le (h : Rounds s) : s.horizon ≤ s.pool.clock + clearIntervalSeconds := by
  have hpos : (0 : Int) < clearIntervalSeconds := by decide
  have htimed := h.timed
  have hpast := h.past
  unfold TimerMain.horizon
  unfold TimerMain.Timed at htimed
  cases hphase : s.phase with
  | setupLogDirectory again => exact Int.le_add_of_nonneg_right (Int.le_of_lt hpos)
  | plan again => exact Int.le_add_of_nonneg_right (Int.le_of_lt hpos)
  | restart => exact Int.le_refl _
  | push again t =>
    simp only [hphase] at htimed ⊢
    cases again with
    | false =>
      simp only at htimed
      omega
    | true =>
      simp only at htimed
      omega
  | notify again =>
    cases again with
    | false => exact Int.add_le_add_right hpast _
    | true => exact Int.le_refl _
  | pause => exact Int.add_le_add_right hpast _
  | sleeping wakeAt => exact Int.add_le_add_right hpast _
  | look => exact Int.add_le_add_right hpast _

/-- A new event is ten seconds after every other. -/
theorem Rounds.spaced_push {again : Bool} {t : Int} (h : Rounds s) (hphase : s.phase = .push again t) :
    ∀ old ∈ s.pool.enqueued, old.time + clearIntervalSeconds ≤ t := by
  intro old hold
  have hle := h.horizon old hold
  unfold TimerMain.horizon at hle
  simp only [hphase] at hle
  omega

theorem Rounds.push {again : Bool} {t : Int} (h : Rounds s) (hphase : s.phase = .push again t) :
    Rounds { s with pool := s.pool.next (.enqueue 0 (clearEvent t)), phase := .notify again } := by
  have hspaced := h.spaced_push hphase
  have htimed := h.timed
  have hsetups := h.setups
  unfold TimerMain.Timed at htimed
  unfold TimerMain.planned at hsetups
  simp only [hphase] at htimed hsetups
  have hpos : (0 : Int) ≤ clearIntervalSeconds := by decide
  refine ⟨fun event hm => ?_, trivial, h.past, ?_, ?_⟩
  · have hle : event.time ≤ t := by
      rcases List.mem_append.mp hm with hm | hm
      · have := hspaced event hm
        omega
      · rw [List.mem_singleton.mp hm]
        exact Int.le_refl _
    unfold TimerMain.horizon
    cases again with
    | false => exact Int.le_trans hle (Int.le_of_eq htimed)
    | true => exact Int.le_trans hle htimed
  · refine List.pairwise_append.mpr ⟨h.spaced, List.pairwise_singleton _ _, fun a ha b hb => ?_⟩
    rw [List.mem_singleton.mp hb]
    exact hspaced a ha
  · show List.Forall₂ _ s.setups ((s.pool.enqueued ++ [clearEvent t]).map TimeEvent.time ++ [])
    rw [List.append_nil, List.map_append]
    exact hsetups

theorem Rounds.notify {again : Bool} {w : Option (Fin n)} (h : Rounds s) (hphase : s.phase = .notify again) :
    Rounds { s with pool := s.pool.next (.notifyOne 0 w), phase := if again then .restart else .pause } := by
  have hhorizon := h.horizon
  have hsetups := h.setups
  unfold TimerMain.horizon at hhorizon
  unfold TimerMain.planned at hsetups
  simp only [hphase] at hhorizon hsetups
  cases again with
  | false => exact ⟨hhorizon, trivial, h.past, h.spaced, hsetups⟩
  | true => exact ⟨hhorizon, trivial, h.past, h.spaced, hsetups⟩

theorem horizon_later {pool : TimerPool Q n} (hclock : s.pool.clock ≤ pool.clock) :
    s.horizon ≤ TimerMain.horizon { s with pool := pool } := by
  unfold TimerMain.horizon
  cases s.phase with
  | setupLogDirectory again => exact hclock
  | plan again => exact hclock
  | restart => exact Int.add_le_add_right hclock _
  | notify again =>
    cases again with
    | false => exact Int.le_refl _
    | true => exact Int.add_le_add_right hclock _
  | _ => exact Int.le_refl _

theorem Timed.later (h : Timed s) {pool : TimerPool Q n} (hclock : s.pool.clock ≤ pool.clock) :
    Timed { s with pool := pool } := by
  unfold Timed at h ⊢
  cases hphase : s.phase with
  | push again t =>
    simp only [hphase] at h ⊢
    cases again with
    | false => exact h
    | true => exact Int.le_trans h (Int.add_le_add_right hclock _)
  | _ => trivial

theorem forall₂_last {R : Int → Int → Prop} {b b' : Int} (hb : ∀ a, R a b → R a b') :
    ∀ {l l' : List Int}, List.Forall₂ R l (l' ++ [b]) → List.Forall₂ R l (l' ++ [b'])
  | _, [], .cons h .nil => .cons (hb _ h) .nil
  | _, _ :: _, .cons h hs => .cons h (forall₂_last hb hs)

theorem Rounds.later (h : Rounds s) {pool : TimerPool Q n} (hclock : s.pool.clock ≤ pool.clock)
    (henqueued : pool.enqueued = s.pool.enqueued) : Rounds { s with pool := pool } := by
  refine ⟨fun event hm => ?_, h.timed.later hclock, Int.le_trans h.past hclock, ?_, ?_⟩
  · exact Int.le_trans (h.horizon event (henqueued ▸ hm)) (horizon_later hclock)
  · rw [henqueued]
    exact h.spaced
  · have hsetups := h.setups
    unfold planned at hsetups ⊢
    rw [henqueued]
    cases hphase : s.phase with
    | plan again =>
      simp only [hphase] at hsetups ⊢
      exact forall₂_last (fun t ht => Int.le_trans ht (Int.add_le_add_right hclock _)) hsetups
    | _ =>
      simp only [hphase] at hsetups ⊢
      exact hsetups

theorem Rounds.next (h : Rounds s) (he : s.Enabled e) : Rounds (s.next e) := by
  rcases next_cases he with ⟨rfl, hn⟩ | ⟨again, t, rfl, hphase, -, hn⟩ | ⟨again, w, rfl, hphase, -, hn⟩ |
    ⟨e', rfl, hown, -, hn⟩
  · rw [hn]
    exact h.goOn he
  · rw [hn]
    exact h.push hphase
  · rw [hn]
    exact h.notify hphase
  · rw [hn]
    refine h.later (clock_next s.pool e') ?_
    rcases enqueued_next (s := s.pool) (e := e') with henqueued | ⟨c, event, rfl, -⟩
    · exact henqueued
    · rcases hown with hown | hown
      · exact absurd rfl hown
      · cases hown

end

theorem rounds_init : Rounds (init Q n) where
  horizon _ hm := nomatch hm
  timed := trivial
  past := Int.le_refl _
  spaced := .nil
  setups := .nil

/-! ## The pool of main -/

/-- What every step of main keeps of its pool. -/
structure Managed (s : TimerMain Q n) : Prop where
  locked : Locked s.pool
  adjustment : Unadjusted s.pool
  inOrder : InOrder s.pool
  rounds : Rounds s
  begun : 0 ≤ s.pool.clock ∧ ∀ t ∈ s.setups, 0 ≤ t

theorem pool_next {s : TimerMain Q n} {e : TimerMainStep n} (he : s.Enabled e) : (s.next e).pool = s.pool ∨
    ∃ e', s.pool.Enabled e' ∧ (s.next e).pool = s.pool.next e' ∧ (∀ adjustment, e' ≠ .adjustTiming adjustment) ∧
      (∀ c event, e' = .enqueue c event → ∃ again, s.phase = .push again event.time) ∧
      ∀ w, e' = .sleepFor w → e = .pool e' := by
  rcases next_cases he with ⟨rfl, hn⟩ | ⟨again, t, rfl, hphase, hp, hn⟩ | ⟨again, w, rfl, hphase, hp, hn⟩ |
    ⟨e', rfl, hown, hp, hn⟩
  · rw [hn]
    exact Or.inl (pool_goOn s)
  · rw [hn]
    refine Or.inr ⟨_, hp, rfl, by simp, fun c event heq => ⟨again, ?_⟩, by simp⟩
    cases heq
    exact hphase
  · rw [hn]
    exact Or.inr ⟨_, hp, rfl, by simp, by simp, by simp⟩
  · rw [hn]
    refine Or.inr ⟨e', hp, rfl, fun a heq => ?_, fun c event heq => ?_, fun _ _ => rfl⟩
    · rw [heq] at hown
      exact absurd hown (by simp [TimerStep.worker])
    · rw [heq] at hown
      exact absurd hown (by simp [TimerStep.worker])

section
variable {s s' : TimerMain Q n} {e : TimerMainStep n}

theorem clock_mono (he : s.Enabled e) : s.pool.clock ≤ (s.next e).pool.clock := by
  rcases pool_next he with hn | ⟨e', -, hn, -⟩
  · rw [hn]
  · rw [hn]
    exact clock_next s.pool e'

theorem Managed.next (h : Managed s) (he : s.Enabled e) : Managed (s.next e) := by
  have hrounds := h.rounds.next he
  have hbegun : 0 ≤ (s.next e).pool.clock ∧ ∀ t ∈ (s.next e).setups, 0 ≤ t := by
    refine ⟨Int.le_trans h.begun.1 (clock_mono he), fun t ht => ?_⟩
    rcases setups_next he with hn | hn
    · exact h.begun.2 t (hn ▸ ht)
    · rcases List.mem_append.mp (hn ▸ ht) with ht | ht
      · exact h.begun.2 t ht
      · rw [List.mem_singleton.mp ht]
        exact h.begun.1
  rcases pool_next he with hn | ⟨e', he', hn, hadj, -⟩
  · exact ⟨hn ▸ h.locked, hn ▸ h.adjustment, hn ▸ h.inOrder, hrounds, hbegun⟩
  · refine ⟨hn ▸ h.locked.next he', ?_, ?_, hrounds, hbegun⟩
    · rw [hn]
      exact h.adjustment.next h.locked he' hadj
    · rw [hn]
      exact h.inOrder.next h.locked h.rounds.increasing he'

theorem managed_init : Managed (init Q n) where
  locked := locked_init
  adjustment := ⟨rfl, fun _ _ _ hw => by (cases hw), fun _ _ _ _ _ _ _ hw => by (cases hw)⟩
  inOrder := ⟨[], rfl, Q.elems_empty⟩
  rounds := rounds_init
  begun := ⟨Int.le_refl _, fun _ ht => nomatch ht⟩

/-- The tasks are ten seconds apart, one for each ten seconds that have begun, and are started
in the order of their rounds. -/
structure Scheduled (s : TimerMain Q n) : Prop where
  spaced : s.pool.enqueued.Pairwise fun a b => a.time + clearIntervalSeconds ≤ b.time
  few : clearIntervalSeconds * s.pool.enqueued.length ≤ s.pool.clock + clearIntervalSeconds
  inOrder : InOrder s.pool

/-- A task that is started in the step comes more than ten seconds after the directory of its
own round was set up. -/
def StartsLate (s s' : TimerMain Q n) : Prop :=
  ∀ event, s'.pool.started = s.pool.started ++ [event] →
    ∃ t, s.setups[s.pool.started.length]? = some t ∧ t + clearIntervalSeconds < s.pool.clock

theorem spaced_length {d : Int} (last : Int) : ∀ {l : List (TimeEvent TimerTask)} (first : Int),
    (l.Pairwise fun a b => a.time + d ≤ b.time) → (∀ event ∈ l, first + d ≤ event.time) →
    (∀ event ∈ l, event.time ≤ last) → first ≤ last → first + d * l.length ≤ last
  | [], first, _, _, _, hle => by simpa using hle
  | event :: l, first, hp, hfirst, hlast, _ => by
    have hrest := spaced_length last event.time hp.of_cons (fun _ hm => List.rel_of_pairwise_cons hp hm)
      (fun _ hm => hlast _ (List.mem_cons_of_mem _ hm)) (hlast event List.mem_cons_self)
    have hevent := hfirst event List.mem_cons_self
    rw [List.length_cons, Int.natCast_succ, Int.mul_add, Int.mul_one]
    omega

theorem Rounds.setup_of_time (h : Rounds s) {k : Nat} {time : Int}
    (hk : (s.pool.enqueued.map TimeEvent.time)[k]? = some time) :
    ∃ t, s.setups[k]? = some t ∧ t + clearIntervalSeconds ≤ time := by
  obtain ⟨hlt, hget⟩ := List.getElem?_eq_some_iff.mp hk
  have hlt' : k < (s.pool.enqueued.map TimeEvent.time ++ s.planned).length := by
    rw [List.length_append]
    exact Nat.lt_add_right _ hlt
  have hk' : k < s.setups.length := h.setups.length_eq ▸ hlt'
  refine ⟨s.setups[k], List.getElem?_eq_getElem hk', ?_⟩
  have hle := h.setups.get hk' hlt'
  rw [List.get_eq_getElem, List.get_eq_getElem, List.getElem_append_left hlt, hget] at hle
  exact hle

theorem Managed.scheduled (h : Managed s) : Scheduled s := by
  refine ⟨h.rounds.spaced, ?_, h.inOrder⟩
  have hpos : (0 : Int) < clearIntervalSeconds := by decide
  have hlength := spaced_length (s.pool.clock + clearIntervalSeconds) 0 h.rounds.spaced (fun event hm => ?_)
    (fun event hm => ?_) ?_
  · omega
  · obtain ⟨k, hk, hget⟩ := List.mem_iff_getElem.mp hm
    have htime : (s.pool.enqueued.map TimeEvent.time)[k]? = some event.time := by simp [hk, hget]
    obtain ⟨t, ht, hle⟩ := h.rounds.setup_of_time htime
    have hnonneg := h.begun.2 t (List.mem_of_getElem? ht)
    omega
  · exact Int.le_trans (h.rounds.horizon event hm) h.rounds.horizon_le
  · have hclock := h.begun.1
    omega

theorem Managed.startsLate (h : Managed s) (he : s.Enabled e) : StartsLate s (s.next e) := by
  intro event hstart
  have hsame : ∀ {l : List (TimeEvent TimerTask)}, l ≠ l ++ [event] := by simp
  rcases pool_next he with hn | ⟨e', he', hn, -⟩
  · rw [hn] at hstart
    exact absurd hstart hsame
  · rw [hn] at hstart
    rcases started_next he' with hs | ⟨w, top, adjustment, rfl, hw, hs⟩
    · rw [hs] at hstart
      exact absurd hstart hsame
    · obtain ⟨rest, hrest, hq⟩ := h.inOrder
      have hincreasing := h.rounds.increasing
      rw [hrest] at hincreasing
      obtain ⟨later, rfl, -⟩ := top_of_inOrder hq (List.pairwise_append.mp hincreasing).2.1 (h.locked.due hw).1
      -- the event has the place of its directory
      have htime : (s.pool.enqueued.map TimeEvent.time)[s.pool.started.length]? = some top.time := by simp [hrest]
      obtain ⟨t, ht, hle⟩ := h.rounds.setup_of_time htime
      have hdue := (h.locked.due hw).2
      rw [h.adjustment.due w top adjustment hw] at hdue
      exact ⟨t, ht, by omega⟩

end

/-! ## Whole runs -/

theorem step_next {s s' : TimerMain Q n} {e : TimerMainStep n} (h : s.step e = some s') : s.Enabled e ∧ s' = s.next e :=
  Runs.guarded_some h

/-- **Rounds.** In every run of main its tasks are ten seconds apart and are started in their
order, each more than ten seconds after the directory of its round was set up. -/
theorem scheduled_always (es : List (TimerMainStep n)) : Always step Scheduled (init Q n) es ∧
    Along step (fun s _ s' => StartsLate s s') (init Q n) es := by
  constructor
  · refine always_of_invariant (I := Managed) (fun s e s' h hs => ?_) (fun _ h => h.scheduled) managed_init es
    obtain ⟨he, rfl⟩ := step_next hs
    exact h.next he
  · refine along_of_invariant (I := Managed) (fun s e s' h hs => ?_) es _ managed_init
    obtain ⟨he, rfl⟩ := step_next hs
    exact ⟨h.startsLate he, h.next he⟩

/-- Workers go to sleep promptly. -/
def PromptWorkers (s : TimerMain Q n) : TimerMainStep n → Prop
  | .pool e => Prompt s.pool e
  | _ => True

/-- **Sleep.** While the workers of main go to sleep promptly, none of them sleeps on when an
event is due. -/
theorem punctual_of_prompt {es : List (TimerMainStep n)} (h : Along step (fun s e _ => PromptWorkers s e) (init Q n) es) :
    Always step (fun s => Punctual s.pool) (init Q n) es := by
  refine always_of_along (I := fun s => Managed s ∧ Looked s.pool ∧ Rested s.pool) (U := fun _ => True)
    (fun s e s' hI _ hs hp => ?_) (fun s hI => hI.2.2.punctual) (fun _ _ => trivial) ⟨managed_init, ?_, ?_⟩ h
  · obtain ⟨he, rfl⟩ := step_next hs
    obtain ⟨hm, hlook, hrest⟩ := hI
    refine ⟨hm.next he, ?_⟩
    rcases pool_next he with hn | ⟨e', he', hn, -, hnew, hsleep⟩
    · exact ⟨hn ▸ hlook, hn ▸ hrest⟩
    · have hprompt : Prompt s.pool e' := by
        cases e' with
        | sleepFor w =>
          obtain rfl := hsleep w rfl
          exact hp
        | _ => trivial
      rw [hn]
      refine ⟨hlook.next hm.locked he', hrest.next hm.locked hlook hm.inOrder hm.adjustment he' hprompt ?_⟩
      intro c event heq old hold
      obtain ⟨again, hphase⟩ := hnew c event heq
      have hpos : (0 : Int) < clearIntervalSeconds := by decide
      have hspaced := hm.rounds.spaced_push hphase old hold
      omega
  · exact looked_init
  · intro w wakeAt hw
    cases hw

/-- Worker `w` sleeps for the task of the first round, and runs it a second after its time. -/
def roundRun (w : Fin n) : List (TimerMainStep n) :=
  [.main, .main, .push, .notify none, .pool (.check w), .pool (.inspect w), .pool (.unlock w), .pool (.readTime w 10),
    .pool (.loadAdjustment w), .pool (.sleepFor w)] ++ List.replicate 11 (.pool .tick) ++
    [.pool (.awake w), .pool (.check w), .pool (.inspect w), .pool (.take w)]

theorem punctual_of_prompt_round :
    (∃ s, run step (init (timeQueue TimerTask) 1) (roundRun 0) = some s ∧ s.pool.started = [clearEvent 10]) ∧
      Always step (fun s => Punctual s.pool) (init (timeQueue TimerTask) 1) (roundRun 0) := by
  refine ⟨⟨_, rfl, rfl⟩, punctual_of_prompt ?_⟩
  iterate 9 refine along_cons rfl trivial ?_
  refine along_cons rfl (fun now event adjustment version time load hw => ?_) ?_
  · cases hw
    exact ⟨rfl, by decide⟩
  · repeat refine along_cons rfl trivial ?_
    trivial

end TimerMain

end LearningC
