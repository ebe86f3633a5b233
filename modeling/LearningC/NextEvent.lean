import LearningC.TimerRuns

/-!
# The event that a worker sleeps for

A worker that finds the top event not due releases `mtx` and reads the time of the event and
`timeAdjustment` again. Between the comparison and these reads others can change the queue,
and already since the comparison, `mtx` or not, they can change the adjustment.
-/

namespace LearningC

open Runs CondVar

namespace TimerPool

variable {β : Type} {Q : TimeQueue β} {n : Nat}

/-- The duration that a worker has read is that of its event and of the adjustment of its
comparison. -/
def OwnDuration (s : TimerPool Q n) (w : Fin n) : Prop :=
  ∀ now event adjustment version time load,
    s.workers w = .busy (.late now event adjustment version (some time) (some load)) →
    (time + load) - now = (event.time + adjustment) - now

/-- A worker reads `nextEvent` while that is its event and where it was, on top of the queue.
It sleeps for its event, by the adjustment that it compared with. -/
def OwnSleep (s : TimerPool Q n) (e : TimerStep β n) (s' : TimerPool Q n) : Prop :=
  match e with
  | .readTime w _ => (∀ now event adjustment version load,
      s.workers w = .busy (.late now event adjustment version none load) →
      s.version = version ∧ Q.top s.timeQ = some event) ∧ OwnDuration s' w
  | .loadAdjustment w => OwnDuration s' w
  | .sleepFor w => ∀ now event adjustment version time load,
      s.workers w = .busy (.late now event adjustment version time load) →
      s'.workers w = .busy (.sleeping (s.clock + ((event.time + adjustment) - now)))
  | _ => True

/-- A worker reads the time of `nextEvent` before anybody changes the queue, and with the
second of its two reads it has the adjustment of its comparison. -/
def Undisturbed (s : TimerPool Q n) : TimerStep β n → Prop
  | .readTime w _ => ∀ now event adjustment version load,
      s.workers w = .busy (.late now event adjustment version none load) →
      s.version = version ∧ ∀ l ∈ load, l = adjustment
  | .loadAdjustment w => ∀ now event adjustment version time,
      s.workers w = .busy (.late now event adjustment version (some time) none) → s.timeAdjustment = adjustment
  | _ => True

/-- What workers have seen of the queue as it is. -/
def Looked (s : TimerPool Q n) : Prop :=
  ∀ w now event adjustment version time load,
    s.workers w = .busy (.late now event adjustment version time load) → version ≤ s.version ∧
      (s.version = version → Q.top s.timeQ = some event ∧ ∀ t ∈ time, t = event.time)

/-- What workers have read is what they saw under `mtx`. -/
def ReadOwn (s : TimerPool Q n) : Prop :=
  ∀ w now event adjustment version time load,
    s.workers w = .busy (.late now event adjustment version (some time) load) →
    time = event.time ∧ ∀ l ∈ load, l = adjustment

section
variable {s s' : TimerPool Q n} {e : TimerStep β n} {w u : Fin n}

theorem version_next (he : s.Enabled e) : s.version ≤ (s.next e).version := by
  cases e with
  | enqueue c event => exact Nat.le_succ _
  | check w =>
    rcases checkQueue_cases s w with ⟨-, -, hn⟩ | ⟨-, -, hn⟩ | ⟨-, hn⟩
    all_goals
      rw [hn]
      exact Nat.le_refl _
  | inspect w => exact (frame_inspect s w).2.2.2.2.2.2.2.1.ge
  | take w =>
    obtain ⟨event, adjustment, hw⟩ := he
    rw [take_next hw]
    exact Nat.le_succ _
  | _ => exact Nat.le_refl _

theorem timeQ_of_version (he : s.Enabled e) (hv : (s.next e).version = s.version) : (s.next e).timeQ = s.timeQ := by
  cases e with
  | enqueue c event => exact absurd hv (Nat.succ_ne_self _)
  | check w => exact (frame_check s w).1
  | inspect w => exact (frame_inspect s w).1
  | take w =>
    obtain ⟨event, adjustment, hw⟩ := he
    rw [take_next hw] at hv
    exact absurd hv (Nat.succ_ne_self _)
  | _ => rfl

theorem Looked.next (h : Looked s) (hl : Locked s) (he : s.Enabled e) : Looked (s.next e) := by
  intro w now event adjustment version time load hw
  rcases moved_or_stayed hl he (by simp) (by simp) hw with hm | ⟨-, hw⟩
  · cases hm with
    | late hi =>
      rw [unlock_next hi]
      exact ⟨Nat.le_refl _, fun _ => ⟨(hl.early hi).1, fun _ ht => by cases ht⟩⟩
    | time hi hread =>
      obtain ⟨hle, htop⟩ := h w _ _ _ _ _ _ hi
      refine ⟨hle, fun hv => ⟨(htop hv).1, fun t ht => ?_⟩⟩
      cases ht
      exact hread hv
    | load hi => exact h w _ _ _ _ _ _ hi
  · obtain ⟨hle, htop⟩ := h w now event adjustment version time load hw
    have hversion := version_next he
    refine ⟨Nat.le_trans hle hversion, fun hv => ?_⟩
    have hsame : (s.next e).version = s.version := by omega
    rw [timeQ_of_version he hsame]
    exact htop (hsame.symm.trans hv)

theorem looked_init : Looked (init Q n) := fun _ _ _ _ _ _ _ hw => by cases hw

/-- Only the two reads matter for what has been read. -/
theorem ReadOwn.next (h : ReadOwn s) (hl : Locked s) (he : s.Enabled e) (hk : Undisturbed s e) : ReadOwn (s.next e) := by
  intro w now event adjustment version time load hw
  rcases moved_or_stayed hl he (by simp) (by simp) hw with hm | ⟨-, hw⟩
  · cases hm with
    | time hi hread =>
      obtain ⟨hversion, hload⟩ := hk _ _ _ _ _ hi
      exact ⟨hread hversion, hload⟩
    | load hi =>
      refine ⟨(h w _ _ _ _ _ _ hi).1, fun l hm => ?_⟩
      cases hm
      exact hk _ _ _ _ _ hi
  · exact h w now event adjustment version time load hw

theorem ReadOwn.ownDuration (h : ReadOwn s) (w : Fin n) : OwnDuration s w := by
  intro now event adjustment version time load hw
  obtain ⟨htime, hload⟩ := h w now event adjustment version time (some load) hw
  rw [htime, hload load rfl]

theorem ownSleep_iff (hl : Locked s) (hlook : Looked s) (h : ReadOwn s) (he : s.Enabled e) :
    OwnSleep s e (s.next e) ↔ Undisturbed s e := by
  have hself : ∀ {p : Place (TimerPhase β)} {w}, (s.setWorker w p).workers w = p := fun {p w} =>
    Function.update_self ..
  constructor
  · intro hk
    cases e with
    | readTime w time =>
      intro now event adjustment version load hw
      obtain ⟨hread, hown⟩ := hk
      obtain ⟨now', event', adjustment', version', load', hw', htime⟩ := he
      cases hw.symm.trans hw'
      refine ⟨(hread _ _ _ _ _ hw).1, fun l hm => ?_⟩
      cases hm
      rw [OwnDuration, readTime_next time hw] at hown
      have hsum := hown _ _ _ _ _ _ hself
      rw [htime (hread _ _ _ _ _ hw).1] at hsum
      omega
    | loadAdjustment w =>
      intro now event adjustment version time hw
      have hown : OwnDuration _ w := hk
      rw [OwnDuration, loadAdjustment_next hw] at hown
      have hsum := hown _ _ _ _ _ _ hself
      rw [(h w _ _ _ _ _ _ hw).1] at hsum
      omega
    | _ => trivial
  · intro hk
    have hown := (h.next hl he hk).ownDuration
    cases e with
    | readTime w time =>
      refine ⟨fun now event adjustment version load hw => ?_, hown w⟩
      obtain ⟨hversion, -⟩ := hk _ _ _ _ _ hw
      exact ⟨hversion, ((hlook w _ _ _ _ _ _ hw).2 hversion).1⟩
    | loadAdjustment w => exact hown w
    | sleepFor w =>
      intro now event adjustment version time load hw
      obtain ⟨now', event', adjustment', version', time', load', hw'⟩ := he
      cases hw.symm.trans hw'
      rw [sleepFor_next hw, hself, h.ownDuration w _ _ _ _ _ _ hw]
    | _ => trivial

theorem readOwn_init : ReadOwn (init Q n) := fun _ _ _ _ _ _ _ hw => by cases hw

end

/-- **The sleep of a worker.** In every step of a run workers read and sleep for the event and
the adjustment of their comparison, if and only if they read the time of the event before the
queue changes, and have that adjustment again when they have read both. -/
theorem ownSleep_iff_undisturbed [DecidableEq β] (es : List (TimerStep β n)) :
    Along step OwnSleep (init Q n) es ↔ Along step (fun s e _ => Undisturbed s e) (init Q n) es := by
  refine along_iff (I := fun s => Locked s ∧ Looked s ∧ ReadOwn s) (U := fun _ => True) (fun s e s' hI _ hs => ?_)
    (fun _ _ => trivial) ⟨locked_init, looked_init, readOwn_init⟩
  obtain ⟨he, rfl⟩ := step_next hs
  obtain ⟨hl, hlook, h⟩ := hI
  have hiff := ownSleep_iff hl hlook h he
  exact ⟨hiff, fun hk => ⟨hl.next he, hlook.next hl he, h.next hl he (hiff.mp hk)⟩⟩

/-- The worker finds an event of second 100 not due with adjustment 0, and `adjustTiming`
stores 50 before the worker has released `mtx`. -/
def adjustedRun (w : Fin n) : List (TimerStep Unit n) :=
  [.enqueue 0 ⟨100, ()⟩, .check w, .inspect w, .adjustTiming 50, .unlock w, .readTime w 100, .loadAdjustment w]

theorem adjusted_sleeps : ¬ ∀ es : List (TimerStep Unit 1), Along step OwnSleep (init (timeQueue Unit) 1) es := by
  intro h
  have hlast := (h (adjustedRun 0 ++ [.sleepFor 0])).after _ _ rfl
  obtain ⟨hown, -⟩ := hlast _ rfl
  exact absurd (hown 0 ⟨100, ()⟩ 0 1 (some 100) (some 50) rfl) (by decide)

end TimerPool

end LearningC
