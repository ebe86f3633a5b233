import LearningC.LogQueue
import Mathlib.Data.List.Perm.Basic

/-!
# No line is lost

The destructor tests and flushes the queue until it is empty, closes it and joins the thread,
which still has to write the line it has popped. When the file is closed every line is in it
once.
-/

namespace LearningC

open Runs

/-- The queue has been found empty. -/
def LogDtor.Emptied : LogDtor → Prop
  | .close | .join | .fclose | .done => True
  | _ => False

/-- The thread has been joined. -/
def LogDtor.Joined : LogDtor → Prop
  | .fclose | .done => True
  | _ => False

def LogStep.isCall {τ : Type} : LogStep τ → Bool
  | .call _ _ => true
  | _ => false

namespace Log

variable {τ : Type} {L : LogLimits} {s s' : Log τ} {e : LogStep τ} {w : Nat} {line : LogLine τ} {m : Int} {t : Tm}

/-- The destructor starts when no call of `write` is under way, and none comes later. -/
def Returned (s : Log τ) (e : LogStep τ) : Prop :=
  (e = .destroy → ∀ w, s.writers w = .idle) ∧ ∀ w c, e = .call w c → s.dtor = .idle

/-- Each line is written once at most, and has been when the file is closed. A line is
pushed into a queue with room for it, and none is thrown away. -/
structure Complete (L : LogLimits) (s : Log τ) : Prop where
  room : ∀ w line, s.writers w = .push line → s.deque.length < L.maxCapacity
  kept : s.discarded = []
  once : s.written.Nodup
  genuine : s.written ⊆ s.formatted
  all : s.fp = none → s.formatted ⊆ s.written
  fault : s.fault = false

structure Sound (L : LogLimits) (s : Log τ) : Prop where
  held : s.Held
  async : s.isAsync = true
  room : ∀ w line, s.writers w = .push line → s.deque.length < L.maxCapacity
  accounted : (s.written ++ s.transit).Perm s.formatted
  numbers : s.formatted.map LogLine.number = List.range s.formatted.length
  kept : s.discarded = []
  fault : s.fault = false
  returned : s.dtor ≠ .idle → ∀ w, s.writers w = .idle
  emptied : s.dtor.Emptied → s.deque = []
  joined : s.dtor.Joined → s.asyncWrite = .gone
  closed : s.fp = none → s.dtor = .done

theorem held_of_idle (hw : ∀ w, s.writers w = .idle) : s.held = [] := by
  unfold held
  cases s.mtx with
  | none => rfl
  | some w => simp [hw, WritePhase.line]

theorem Sound.transit_of_done (h : s.Sound L) (hd : s.dtor = .done) : s.transit = [] := by
  have hq : s.deque = [] := h.emptied (by simp [hd, LogDtor.Emptied])
  have ha : s.asyncWrite = .gone := h.joined (by simp [hd, LogDtor.Joined])
  simp [transit, waiting, hq, ha, held_of_idle (h.returned (by simp [hd])), AsyncWrite.line]

theorem Sound.complete (h : s.Sound L) : s.Complete L where
  room := h.room
  kept := h.kept
  once := ((h.accounted.nodup_iff.mpr (nodup_of_numbers h.numbers)).sublist (List.sublist_append_left _ _))
  genuine := fun _ hl => h.accounted.subset (List.mem_append_left _ hl)
  all := fun hfp line hl => by
    have hmem := h.accounted.symm.subset hl
    rw [h.transit_of_done (h.closed hfp), List.append_nil] at hmem
    exact hmem
  fault := h.fault

theorem sound_init (hm : 0 < m) : (init τ m t).Sound L where
  held := held_init m t
  async := by simp [init, hm]
  room := fun w line hp => by cases hp
  accounted := by rw [queued_init.accounted]
  numbers := rfl
  kept := rfl
  fault := rfl
  returned := fun _ _ => rfl
  emptied := fun h => h.elim
  joined := fun h => h.elim
  closed := fun h => by cases h

/-! ## One step -/

theorem writer_enabled (he : s.Enabled L e) (hw : e.writer = some w) :
    (∃ c, e = .call w c) ∨ s.writers w ≠ .idle := by
  cases e with
  | call u c =>
    cases hw
    exact Or.inl ⟨c, rfl⟩
  | relock | reopen | lock | push =>
    cases hw
    exact Or.inr (by simp [he.1])
  | test | testCount | testMultiple | innerTest | setToDay | resetCount | nameByCount | readCount | storeCount | choose
  | put =>
    cases hw
    exact Or.inr fun hidle => by cases hidle.symm.trans he
  | _ => cases hw

theorem Sound.idle (h : s.Sound L) (hr : s.Returned e) (he : s.Enabled L e) (hw : e.writer = some w) :
    s.dtor = .idle := by
  rcases writer_enabled he hw with ⟨c, rfl⟩ | hbusy
  · exact hr.2 w c rfl
  · by_contra hd
    exact hbusy (h.returned hd w)

theorem Sound.opened (h : s.Sound L) (hr : s.Returned e) (he : s.Enabled L e) : s.fp ≠ none := by
  intro hfp
  have hd := h.closed hfp
  have ha : s.asyncWrite = .gone := h.joined (by simp [hd, LogDtor.Joined])
  cases hw : e.writer with
  | some w => simp [h.idle hr he hw] at hd
  | none =>
    cases e with
    | asyncPop | asyncPut | asyncLeave => simp [he.1] at ha
    | destroy | flush | close => cases hd.symm.trans he
    | again | emptied | join | fclose => simp [he.1] at hd
    | _ => cases hw

theorem fault_next (hfp : s.fp ≠ none) : (s.next L e).fault = s.fault := by
  cases e with
  | reopen w c newFile =>
    obtain ⟨file, hfile⟩ := Option.ne_none_iff_exists'.mp hfp
    simp [Log.next, hfile]
  | put w line =>
    obtain ⟨file, hfile⟩ := fputs_of_open line hfp
    show (s.fputs line).fault = s.fault
    rw [hfile]
  | asyncPut line =>
    obtain ⟨file, hfile⟩ := fputs_of_open line hfp
    show (s.fputs line).fault = s.fault
    rw [hfile]
  | asyncPop =>
    unfold Log.next
    cases s.deque with
    | nil => rfl
    | cons line rest => rfl
  | _ => rfl

theorem Sound.accounted_next (h : s.Sound L) (hfp : s.fp ≠ none) (he : s.Enabled L e) :
    ((s.next L e).written ++ (s.next L e).transit).Perm (s.next L e).formatted ∧ (s.next L e).discarded = [] ∧
      (s.next L e).formatted.map LogLine.number = List.range (s.next L e).formatted.length := by
  have hacc := h.accounted
  cases h.held.flow hfp he with
  | still _ ht hf ha hd =>
    rw [ht, hf, ha, hd]
    exact ⟨hacc, h.kept, h.numbers⟩
  | format w c count ht hf ha hd =>
    refine ⟨?_, hd.trans h.kept, numbers_concat h.numbers hf⟩
    rw [ht, hf, ha, ← List.append_assoc]
    exact hacc.append_right _
  | put w line hs ht hf ha hd =>
    rw [hf, hd]
    refine ⟨?_, h.kept, h.numbers⟩
    rw [hs] at hacc
    rw [ht, ha, List.append_assoc]
    exact (List.perm_append_comm.append_left _).trans hacc
  | asyncPut line ht hf ha hd =>
    rw [hf, hd]
    refine ⟨?_, h.kept, h.numbers⟩
    rw [ha, List.append_assoc, List.singleton_append, ← ht]
    exact hacc
  | close ht hf ha hd =>
    have hq : s.deque = [] := h.emptied (by simp [show s.dtor = .close from he, LogDtor.Emptied])
    rw [hf, ha, hd, ht hq, hq, List.append_nil]
    exact ⟨hacc, h.kept, h.numbers⟩

theorem deque_next_le (he : ∀ w line, e ≠ .push w line) : (s.next L e).deque.length ≤ s.deque.length := by
  cases e with
  | push w line => exact absurd rfl (he w line)
  | put w line =>
    show (s.fputs line).deque.length ≤ _
    unfold fputs
    split <;> exact Nat.le_refl _
  | asyncPut line =>
    show (s.fputs line).deque.length ≤ _
    unfold fputs
    split <;> exact Nat.le_refl _
  | asyncPop =>
    cases hq : s.deque with
    | nil => simp [Log.next, hq]
    | cons line rest => simp [next_asyncPop hq]
  | close => exact Nat.zero_le _
  | _ => exact Nat.le_refl _

/-- The queue cannot fill up between the test and the push, both made by the owner of `mtx`. -/
theorem Sound.room_next (h : s.Sound L) (he : s.Enabled L e) (hp : (s.next L e).writers w = .push line) :
    (s.next L e).deque.length < L.maxCapacity := by
  rcases chosen_of_next hp (Or.inl rfl) with ⟨hw, hpush⟩ | ⟨rfl, hroom⟩
  · refine Nat.lt_of_le_of_lt (deque_next_le ?_) (h.room w line hpush)
    rintro u l rfl
    refine hw (congrArg some ?_)
    exact h.held.alone (by rw [he.1]; trivial) (by rw [hpush]; trivial)
  · show s.deque.length < L.maxCapacity
    by_contra hfull
    simp [full, Nat.le_of_not_lt hfull] at hroom

theorem Sound.of_dtor (h : s.Sound L) (hr : s.Returned e) (he : s.Enabled L e)
    (hidle : (s.next L e).dtor ≠ .idle → ∀ w, (s.next L e).writers w = .idle)
    (hempty : (s.next L e).dtor.Emptied → (s.next L e).deque = [])
    (hjoin : (s.next L e).dtor.Joined → (s.next L e).asyncWrite = .gone)
    (hclosed : (s.next L e).fp = none → (s.next L e).dtor = .done) : (s.next L e).Sound L where
  held := h.held.next he
  async := isAsync_next.trans h.async
  room := fun _ _ hp => h.room_next he hp
  accounted := (h.accounted_next (h.opened hr he) he).1
  numbers := (h.accounted_next (h.opened hr he) he).2.2
  kept := (h.accounted_next (h.opened hr he) he).2.1
  fault := (fault_next (h.opened hr he)).trans h.fault
  returned := hidle
  emptied := hempty
  joined := hjoin
  closed := hclosed

theorem Sound.next_of_quiet (h : s.Sound L) (hr : s.Returned e) (he : s.Enabled L e)
    (hidle : ∀ w, (s.next L e).writers w = .idle) (hquiet : ∀ w, e.writer ≠ some w) : (s.next L e).Sound L := by
  have hopen := h.opened hr he
  cases e with
  | asyncPop =>
    obtain ⟨line, rest, hq⟩ := List.exists_cons_of_ne_nil he.2.2
    have hgone : ¬ s.dtor.Joined := fun hjoin => by cases he.1.symm.trans (h.joined hjoin)
    refine h.of_dtor hr he (fun _ => hidle) ?_ ?_ ?_ <;> rw [next_asyncPop hq]
    · exact fun hemp => absurd (h.emptied hemp) he.2.2
    · exact fun hjoin => absurd hjoin hgone
    · exact fun hfp => absurd hfp hopen
  | asyncPut line =>
    have hgone : ¬ s.dtor.Joined := fun hjoin => by cases he.1.symm.trans (h.joined hjoin)
    obtain ⟨file, hfile⟩ := fputs_of_open line hopen
    have hn : s.next L (.asyncPut line) = { s.fputs line with asyncWrite := .pop } := rfl
    refine h.of_dtor hr he (fun _ => hidle) ?_ ?_ ?_ <;> rw [hn, hfile]
    · exact h.emptied
    · exact fun hjoin => absurd hjoin hgone
    · exact fun hfp => absurd hfp hopen
  | asyncLeave => exact h.of_dtor hr he (fun _ => hidle) h.emptied (fun _ => rfl) fun hfp => absurd hfp hopen
  | destroy =>
    have hn : (s.next L .destroy).dtor = .drain := by simp [Log.next, h.async]
    refine h.of_dtor hr he (fun _ => hidle) ?_ ?_ fun hfp => absurd hfp hopen <;> rw [hn]
    · exact fun hemp => hemp.elim
    · exact fun hjoin => hjoin.elim
  | again => exact h.of_dtor hr he (fun _ => hidle) (fun hemp => hemp.elim) (fun hjoin => hjoin.elim) fun hfp => absurd hfp hopen
  | flush => exact h.of_dtor hr he (fun _ => hidle) (fun hemp => hemp.elim) (fun hjoin => hjoin.elim) fun hfp => absurd hfp hopen
  | emptied => exact h.of_dtor hr he (fun _ => hidle) (fun _ => he.2) (fun hjoin => hjoin.elim) fun hfp => absurd hfp hopen
  | close => exact h.of_dtor hr he (fun _ => hidle) (fun _ => rfl) (fun hjoin => hjoin.elim) fun hfp => absurd hfp hopen
  | join =>
    refine h.of_dtor hr he (fun _ => hidle) (fun _ => h.emptied ?_) (fun _ => he.2) fun hfp => absurd hfp hopen
    rw [he.1]
    trivial
  | fclose =>
    refine h.of_dtor hr he (fun _ => hidle) (fun _ => h.emptied ?_) (fun _ => h.joined ?_) fun _ => rfl
    · rw [he.1]
      trivial
    · rw [he.1]
      trivial
  | _ => exact absurd rfl (hquiet _)

theorem Sound.next (h : s.Sound L) (hr : s.Returned e) (he : s.Enabled L e) : (s.next L e).Sound L := by
  have hopen := h.opened hr he
  by_cases hd : s.dtor = .idle ∧ e ≠ .destroy
  · have hrun := Running.next ⟨h.held, hd.1, hopen⟩ hd.2 he
    refine h.of_dtor hr he (fun hne => absurd hrun.running hne) ?_ ?_ fun hfp => absurd hfp hrun.opened
    · rw [hrun.running]
      exact fun hemp => hemp.elim
    · rw [hrun.running]
      exact fun hjoin => hjoin.elim
  · have hwriters : (s.next L e).writers = s.writers := by
      funext w
      refine writers_next_of_ne fun hw => hd ⟨h.idle hr he hw, ?_⟩
      rintro rfl
      cases hw
    have hidle : ∀ w, (s.next L e).writers w = .idle := by
      rw [hwriters]
      by_cases hdes : e = .destroy
      · exact hr.1 hdes
      · exact h.returned fun hi => hd ⟨hi, hdes⟩
    refine h.next_of_quiet hr he hidle fun w hw => ?_
    rcases writer_enabled he hw with ⟨c, rfl⟩ | hbusy
    · exact hd ⟨h.idle hr he hw, by simp⟩
    · exact hbusy (congrFun hwriters w ▸ hidle w)

/-- **No line is lost.** With a queue, and if all calls have returned before the destructor
starts, every line goes to the file once, and has done so when the file is closed. -/
theorem complete_always [DecidableEq τ] {es : List (LogStep τ)} (hm : 0 < m)
    (hr : Along (step L) (fun s e _ => s.Returned e) (init τ m t) es) :
    Always (step L) (Complete L) (init τ m t) es := by
  refine always_of_along (I := Sound L) (fun s e s' h _ hs hr => ?_) (fun s h => h.complete)
    (fun _ _ => trivial : ∀ e ∈ es, True) (sound_init hm) hr
  obtain ⟨he, rfl⟩ := step_next hs
  exact h.next hr he

/-- The destructor, with a line in the queue when it starts. -/
def shutdown (line : LogLine Nat) : List (LogStep Nat) :=
  [.destroy, .again, .flush, .asyncPop, .emptied, .close, .asyncPut line, .asyncLeave, .join, .fclose]

def shutdownRun (day : Tm) : List (LogStep Nat) := fullQueueRun day ++ shutdown ⟨0, { time := day, text := 0 }⟩

/-- `Returned`, with a look at the first `n` writers. -/
def ReturnedBelow (n : Nat) (s : Log τ) (e : LogStep τ) : Prop :=
  (e = .destroy → ∀ w < n, s.writers w = .idle) ∧ (e.isCall = true → s.dtor = .idle)

instance [DecidableEq τ] (n : Nat) (s : Log τ) (e : LogStep τ) : Decidable (s.ReturnedBelow n e) :=
  inferInstanceAs (Decidable ((e = .destroy → ∀ w < n, s.writers w = .idle) ∧ (e.isCall = true → s.dtor = .idle)))

theorem returned_of_below [DecidableEq τ] {n : Nat} {es : List (LogStep τ)}
    (hn : ∀ e ∈ es, ∀ w, e.writer = some w → w < n)
    (h : Along (step L) (fun s e _ => s.ReturnedBelow n e) (init τ m t) es) :
    Along (step L) (fun s e _ => s.Returned e) (init τ m t) es := by
  refine Along.imp (I := Quiet n) (fun s e s' hq hw hs hb => ?_) es _ hn (quiet_init n m t) h
  obtain ⟨he, rfl⟩ := step_next hs
  refine ⟨⟨fun hdes w => ?_, fun w c hcall => hb.2 (by rw [hcall]; rfl)⟩, hq.next hw⟩
  rcases Nat.lt_or_ge w n with hlt | hge
  · exact hb.1 hdes w hlt
  · exact hq w hge

theorem returned_shutdownRun :
    Along (step ⟨50000, 1, by decide⟩) (fun s e _ => s.Returned e) (init Nat 1 ⟨124, 0, 15⟩) (shutdownRun ⟨124, 0, 15⟩) :=
  returned_of_below (n := 1) (by decide) (by decide)

theorem complete_always_shutdown :
    (∃ s, run (step ⟨50000, 1, by decide⟩) (init Nat 1 ⟨124, 0, 15⟩) (shutdownRun ⟨124, 0, 15⟩) = some s ∧ s.fp = none ∧
      s.written.map LogLine.number = [1, 0]) ∧
    Always (step ⟨50000, 1, by decide⟩) (Complete ⟨50000, 1, by decide⟩) (init Nat 1 ⟨124, 0, 15⟩) (shutdownRun ⟨124, 0, 15⟩) :=
  ⟨⟨_, rfl, rfl, rfl⟩, complete_always (by decide) returned_shutdownRun⟩

end Log

end LearningC
