import LearningC.Budget
import LearningC.LogLoss
import Mathlib.Data.Fintype.Card

/-!
# The log comes to rest

Writers, the thread of `AsyncWrite_` and the destructor wait for each other by `mtx_` and
by the queue. They never do so in a circle. Every call of `write` takes a bounded number of
steps, and so does the destructor, apart from the rounds in which it finds the queue not yet
empty: these are as many as the scheduler grants it before the thread has emptied the queue.
-/

namespace LearningC

open Runs

/-- The queue has been closed. -/
def LogDtor.Closed : LogDtor → Prop
  | .join | .fclose | .done => True
  | _ => False

/-- A test that finds the queue not empty. -/
def LogStep.isRound {τ : Type} : LogStep τ → Bool
  | .again => true
  | _ => false

namespace Log

variable {τ : Type} {L : LogLimits} {s s' : Log τ} {e : LogStep τ} {w : Nat} {line : LogLine τ} {m : Int} {t : Tm}

/-- Nothing can happen but a call of `write`, the start of the destructor, or another round of
its loop over a queue that is not empty. -/
def AtRest [DecidableEq τ] (L : LogLimits) (s : Log τ) : Prop :=
  ∀ e, e.isCall = false → e ≠ .destroy → e ≠ .again → s.step L e = none

/-- All calls have returned, every line is in the file, and the destructor has not begun or is done. -/
structure Settled (s : Log τ) : Prop where
  idle : ∀ w, s.writers w = .idle
  written : s.written.Perm s.formatted
  dtor : s.dtor = .idle ∨ s.dtor = .done

/-- The thread of `AsyncWrite_` leaves when the destructor has closed the queue. -/
structure Closing (s : Log τ) : Prop where
  closed : s.isClose = true ↔ s.dtor.Closed
  gone : s.asyncWrite = .gone → s.isClose = true

theorem closing_init (hm : 0 < m) : (init τ m t).Closing where
  closed := iff_of_false (by simp [init]) id
  gone := fun h => by simp [init, hm] at h

theorem Closing.next (h : s.Closing) (hasync : s.isAsync = true) (he : s.Enabled L e) : (s.next L e).Closing := by
  have hsame : (s.next L e).isClose = s.isClose → (s.next L e).dtor = s.dtor →
      ((s.next L e).asyncWrite = .gone → s.asyncWrite = .gone) → (s.next L e).Closing :=
    fun hc hd ha => ⟨by rw [hc, hd]; exact h.closed, fun hg => hc.trans (h.gone (ha hg))⟩
  have hputs : ∀ line, (s.fputs line).isClose = s.isClose ∧ (s.fputs line).asyncWrite = s.asyncWrite := by
    intro line
    unfold fputs
    split <;> exact ⟨rfl, rfl⟩
  cases e with
  | put w line => exact hsame (hputs line).1 fputs_frame.1 fun hg => (hputs line).2.symm.trans hg
  | asyncPut line => exact hsame (hputs line).1 fputs_frame.1 fun hg => nomatch hg
  | asyncPop =>
    obtain ⟨line, rest, hq⟩ := List.exists_cons_of_ne_nil he.2.2
    have hn := next_asyncPop (L := L) hq
    exact hsame (by rw [hn]) (by rw [hn]) fun hg => by rw [hn] at hg; cases hg
  | asyncLeave => exact ⟨h.closed, fun _ => he.2⟩
  | destroy =>
    have hopen : s.isClose ≠ true := fun hc => by
      have hclosed := h.closed.mp hc
      rw [show s.dtor = .idle from he] at hclosed
      exact hclosed
    have hn : (s.next L .destroy).dtor = .drain := by simp [Log.next, hasync]
    refine ⟨iff_of_false hopen ?_, h.gone⟩
    rw [hn]
    exact id
  | again | emptied =>
    have hopen : s.isClose ≠ true := fun hc => by
      have hclosed := h.closed.mp hc
      rw [he.1] at hclosed
      exact hclosed
    exact ⟨iff_of_false hopen id, h.gone⟩
  | flush =>
    have hopen : s.isClose ≠ true := fun hc => by
      have hclosed := h.closed.mp hc
      rw [show s.dtor = .flush from he] at hclosed
      exact hclosed
    exact ⟨iff_of_false hopen id, h.gone⟩
  | close => exact ⟨iff_of_true rfl trivial, fun _ => rfl⟩
  | join =>
    refine ⟨iff_of_true (h.closed.mpr ?_) trivial, h.gone⟩
    rw [he.1]
    trivial
  | fclose =>
    refine ⟨iff_of_true (h.closed.mpr ?_) trivial, h.gone⟩
    rw [he.1]
    trivial
  | _ => exact hsame rfl rfl id

/-! ## Rest -/

section
variable [DecidableEq τ]

theorem AtRest.off (h : AtRest L s) (hc : e.isCall = false) (hd : e ≠ .destroy ∧ e ≠ .again) : ¬ s.Enabled L e := by
  intro he
  have hnone := h e hc hd.1 hd.2
  rw [show s.step L e = some _ from if_pos he] at hnone
  cases hnone

theorem Sound.mtx_free (h : s.Sound L) (hrest : AtRest L s) : s.mtx = none := by
  rw [Option.eq_none_iff_forall_ne_some]
  intro w hw
  have hholds : (s.writers w).Holding := (h.held w).mp hw
  cases hp : s.writers w with
  | readCount c => exact hrest.off rfl (by simp) (e := .readCount w c) hp
  | storeCount c count => exact hrest.off rfl (by simp) (e := .storeCount w c count) hp
  | choose line => exact hrest.off rfl (by simp) (e := .choose w line) hp
  | push line => exact hrest.off rfl (by simp) (e := .push w line) ⟨hp, h.room w line hp⟩
  | put line => exact hrest.off rfl (by simp) (e := .put w line) hp
  | _ =>
    rw [hp] at hholds
    exact hholds

theorem Sound.writers_idle (h : s.Sound L) (hrest : AtRest L s) (w : Nat) : s.writers w = .idle := by
  have hm := h.mtx_free hrest
  have hfree : ¬ (s.writers w).Holding := fun hh => by cases hm.symm.trans ((h.held w).mpr hh)
  cases hp : s.writers w with
  | idle => rfl
  | test c => exact (hrest.off rfl (by simp) (e := .test w c) hp).elim
  | testCount c => exact (hrest.off rfl (by simp) (e := .testCount w c) hp).elim
  | testMultiple c => exact (hrest.off rfl (by simp) (e := .testMultiple w c) hp).elim
  | relock c => exact (hrest.off rfl (by simp) (e := .relock w c) ⟨hp, hm⟩).elim
  | innerTest c => exact (hrest.off rfl (by simp) (e := .innerTest w c) hp).elim
  | setToDay c => exact (hrest.off rfl (by simp) (e := .setToDay w c) hp).elim
  | resetCount c => exact (hrest.off rfl (by simp) (e := .resetCount w c) hp).elim
  | nameByCount c => exact (hrest.off rfl (by simp) (e := .nameByCount w c) hp).elim
  | reopen c newFile => exact (hrest.off rfl (by simp) (e := .reopen w c newFile) ⟨hp, hm⟩).elim
  | lock c => exact (hrest.off rfl (by simp) (e := .lock w c) ⟨hp, hm⟩).elim
  | readCount c | storeCount c count | choose line | push line | put line =>
    rw [hp] at hfree
    exact absurd trivial hfree

/-- What the thread of `AsyncWrite_` waits for: nothing is queued, or the queue is closed. -/
theorem Sound.consumer (h : s.Sound L) (hc : s.Closing) (hrest : AtRest L s) :
    s.asyncWrite = .gone ∧ s.isClose = true ∨ s.asyncWrite = .pop ∧ s.isClose = false ∧ s.deque = [] := by
  have hm := h.mtx_free hrest
  cases ha : s.asyncWrite with
  | put line => exact (hrest.off rfl (by simp) (e := .asyncPut line) ⟨ha, hm⟩).elim
  | gone => exact Or.inl ⟨rfl, hc.gone ha⟩
  | pop =>
    have hopen : s.isClose = false := by
      rw [← Bool.not_eq_true]
      exact fun hclose => hrest.off rfl (by simp) (e := .asyncLeave) ⟨ha, hclose⟩
    refine Or.inr ⟨rfl, hopen, ?_⟩
    by_contra hq
    exact hrest.off rfl (by simp) (e := .asyncPop) ⟨ha, hopen, hq⟩

/-- **No deadlock.** -/
theorem Sound.settled (h : s.Sound L) (hc : s.Closing) (hrest : AtRest L s) : s.Settled := by
  have hm := h.mtx_free hrest
  have hidle := h.writers_idle hrest
  have hwritten : s.waiting = [] → s.written.Perm s.formatted := by
    intro hw
    have hacc := h.accounted
    rwa [transit, hw, held_of_idle hidle, List.append_nil, List.append_nil] at hacc
  rcases h.consumer hc hrest with ⟨hgone, hclose⟩ | ⟨hpop, hopen, hq⟩
  · have hclosed := hc.closed.mp hclose
    cases hd : s.dtor with
    | join => exact (hrest.off rfl (by simp) (e := .join) ⟨hd, hgone⟩).elim
    | fclose => exact (hrest.off rfl (by simp) (e := .fclose) ⟨hd, hm⟩).elim
    | done =>
      refine ⟨hidle, hwritten ?_, Or.inr hd⟩
      have hq : s.deque = [] := h.emptied (by simp [hd, LogDtor.Emptied])
      simp [waiting, hgone, hq, AsyncWrite.line]
    | _ =>
      rw [hd] at hclosed
      exact hclosed.elim
  · have hnot : ¬ s.dtor.Closed := fun hclosed => by
      rw [hc.closed.mpr hclosed] at hopen
      cases hopen
    cases hd : s.dtor with
    | idle =>
      refine ⟨hidle, hwritten ?_, Or.inl hd⟩
      simp [waiting, hpop, hq, AsyncWrite.line]
    | drain => exact (hrest.off rfl (by simp) (e := .emptied) ⟨hd, hq⟩).elim
    | flush => exact (hrest.off rfl (by simp) (e := .flush) hd).elim
    | close => exact (hrest.off rfl (by simp) (e := .close) hd).elim
    | _ =>
      rw [hd] at hnot
      exact (hnot trivial).elim

end

/-! ## The work ahead -/

/-- The steps that a call of `write` may take, with those for its line in the queue. -/
def weight : WritePhase τ → Nat
  | .idle => 0
  | .test _ => 15
  | .testCount _ => 14
  | .testMultiple _ => 13
  | .relock _ => 12
  | .innerTest _ => 11
  | .setToDay _ => 10
  | .resetCount _ | .nameByCount _ => 9
  | .reopen _ _ => 8
  | .lock _ => 7
  | .readCount _ => 6
  | .storeCount _ _ => 5
  | .choose _ => 4
  | .push _ => 3
  | .put _ => 1

def asyncWork : AsyncWrite τ → Nat
  | .gone => 0
  | .pop => 1
  | .put _ => 2

def dtorWork : LogDtor → Nat
  | .idle => 5
  | .flush => 5
  | .drain => 4
  | .close => 3
  | .join => 2
  | .fclose => 1
  | .done => 0

/-- What a step brings with it: a call, or a round of the destructor's loop. -/
def allowance (e : LogStep τ) : Nat := (if e.isCall then 16 else 0) + if e.isRound then 2 else 0

/-- With `n` writers. -/
def work (n : Nat) (s : Log τ) : Nat :=
  Budget.total weight (fun i : Fin n => s.writers i) + asyncWork s.asyncWrite + 2 * s.deque.length + dtorWork s.dtor

theorem total_writer {n : Nat} (hn : w < n) (hw : e.writer = some w) :
    weight (s.writers w) + Budget.total weight (fun i : Fin n => (s.next L e).writers i) =
      weight (s.phaseAfter L e) + Budget.total weight (fun i : Fin n => s.writers i) := by
  have hupdate : (fun i : Fin n => (s.next L e).writers i) =
      Function.update (fun i : Fin n => s.writers i) ⟨w, hn⟩ (s.phaseAfter L e) := by
    funext i
    by_cases hi : i = ⟨w, hn⟩
    · rw [hi, Function.update_self]
      exact writers_next_self hw
    · rw [Function.update_of_ne hi]
      refine writers_next_of_ne fun hw' => hi (Fin.ext ?_)
      exact Option.some.inj (hw'.symm.trans hw)
  rw [hupdate]
  exact Budget.total_update (w := weight) (f := fun i : Fin n => s.writers i) (i := ⟨w, hn⟩) (x := s.phaseAfter L e)

theorem total_quiet {n : Nat} (hw : e.writer = none) :
    Budget.total weight (fun i : Fin n => (s.next L e).writers i) = Budget.total weight fun i : Fin n => s.writers i := by
  congr 1
  funext i
  exact writers_next_of_ne (by simp [hw])

theorem fputs_rest : (s.fputs line).asyncWrite = s.asyncWrite ∧ (s.fputs line).deque = s.deque := by
  unfold fputs
  split <;> exact ⟨rfl, rfl⟩

theorem frame_writer (hw : e.writer = some w) : (s.next L e).asyncWrite = s.asyncWrite ∧ (s.next L e).dtor = s.dtor := by
  cases e with
  | put u line => exact ⟨fputs_rest.1, fputs_frame.1⟩
  | asyncPop | asyncPut | asyncLeave | destroy | again | flush | emptied | close | join | fclose => cases hw
  | _ => exact ⟨rfl, rfl⟩

/-- A call of `write` moves on by one phase, and pays for the line that it leaves in the queue. -/
theorem weight_after (he : s.Enabled L e) (hw : e.writer = some w) :
    weight (s.phaseAfter L e) + 2 * (s.next L e).deque.length + 1 ≤
      weight (s.writers w) + 2 * s.deque.length + allowance e := by
  have hsame : ∀ {p : WritePhase τ} {k : Nat}, s.writers w = p → (s.next L e).deque = s.deque →
      weight (s.phaseAfter L e) + 1 ≤ weight p + k →
      weight (s.phaseAfter L e) + 2 * (s.next L e).deque.length + 1 ≤ weight (s.writers w) + 2 * s.deque.length + k := by
    intro p k hp hq hk
    rw [hp, hq]
    omega
  cases e with
  | call u c =>
    cases hw
    exact hsame he rfl (Nat.le_refl 16)
  | test u c =>
    cases hw
    refine hsame he rfl ?_
    show weight (if s.toDay ≠ c.time.mday then .relock c else .testCount c) + 1 ≤ 15 + 0
    split <;> simp [weight]
  | testCount u c =>
    cases hw
    refine hsame he rfl ?_
    show weight (if s.lineCount ≠ 0 then .testMultiple c else .lock c) + 1 ≤ 14 + 0
    split <;> simp [weight]
  | testMultiple u c =>
    cases hw
    refine hsame he rfl ?_
    show weight (if s.lineCount % L.maxLines = 0 then .relock c else .lock c) + 1 ≤ 13 + 0
    split <;> simp [weight]
  | innerTest u c =>
    cases hw
    refine hsame he rfl ?_
    show weight (if s.toDay ≠ c.time.mday then .setToDay c else .nameByCount c) + 1 ≤ 11 + 0
    split <;> simp [weight]
  | choose u line =>
    cases hw
    refine hsame he rfl ?_
    show weight (if s.isAsync && !s.full L then .push line else .put line) + 1 ≤ 4 + 0
    split <;> simp [weight]
  | push u line =>
    cases hw
    have hqueue : (s.next L (.push w line)).deque.length = s.deque.length + 1 := List.length_append
    rw [hqueue, he.1]
    show 0 + 2 * (s.deque.length + 1) + 1 ≤ 3 + 2 * s.deque.length + 0
    omega
  | put u line =>
    cases hw
    exact hsame he fputs_rest.2 (Nat.le_refl 1)
  | relock u c | reopen u c newFile | lock u c =>
    cases hw
    exact hsame he.1 rfl (Nat.le_refl _)
  | setToDay u c | resetCount u c | nameByCount u c | readCount u c | storeCount u c count =>
    cases hw
    exact hsame he rfl (Nat.le_refl _)
  | _ => cases hw

theorem work_writer {n : Nat} (he : s.Enabled L e) (hn : w < n) (hw : e.writer = some w) :
    (s.next L e).work n + 1 ≤ s.work n + allowance e := by
  have htotal := total_writer (L := L) (s := s) hn hw
  have hweight := weight_after he hw
  obtain ⟨ha, hd⟩ := frame_writer (L := L) (s := s) hw
  unfold work
  rw [ha, hd]
  omega

/-- The thread of `AsyncWrite_` and the destructor move on as well. -/
theorem work_quiet {n : Nat} (hasync : s.isAsync = true) (he : s.Enabled L e) (hw : e.writer = none) :
    (s.next L e).work n + 1 ≤ s.work n + allowance e := by
  have htotal := total_quiet (L := L) (s := s) (n := n) hw
  unfold work
  rw [htotal]
  cases e with
  | asyncPop =>
    obtain ⟨line, rest, hq⟩ := List.exists_cons_of_ne_nil he.2.2
    rw [next_asyncPop hq, he.1, hq]
    show _ + 2 + 2 * rest.length + dtorWork s.dtor + 1 ≤ _ + 1 + 2 * (rest.length + 1) + _ + 0
    omega
  | asyncPut line =>
    have hn : s.next L (.asyncPut line) = { s.fputs line with asyncWrite := .pop } := rfl
    rw [hn, he.1]
    show _ + 1 + 2 * (s.fputs line).deque.length + dtorWork (s.fputs line).dtor + 1 ≤ _ + 2 + 2 * s.deque.length + _ + 0
    rw [fputs_rest.2, fputs_frame.1]
    omega
  | asyncLeave =>
    rw [he.1]
    show _ + 0 + 2 * s.deque.length + dtorWork s.dtor + 1 ≤ _ + 1 + _ + _ + 0
    omega
  | destroy =>
    have hn : (s.next L .destroy).dtor = .drain := by simp [Log.next, hasync]
    rw [hn, show s.dtor = .idle from he]
    exact Nat.le_refl _
  | again =>
    rw [he.1]
    exact Nat.le_refl _
  | flush =>
    rw [show s.dtor = .flush from he]
    exact Nat.le_refl _
  | emptied =>
    rw [he.1]
    exact Nat.le_refl _
  | close =>
    rw [show s.dtor = .close from he]
    show _ + asyncWork s.asyncWrite + 2 * 0 + 2 + 1 ≤ _ + _ + 2 * s.deque.length + 3 + 0
    omega
  | join =>
    rw [he.1]
    exact Nat.le_refl _
  | fclose =>
    rw [he.1]
    exact Nat.le_refl _
  | _ => cases hw

theorem work_init (n : Nat) (hm : 0 < m) : (init τ m t).work n = 6 := by
  unfold work
  have ha : (init τ m t).asyncWrite = .pop := by simp [init, hm]
  rw [ha]
  show Budget.total weight (fun _ : Fin n => WritePhase.idle) + 1 + 2 * 0 + 5 = 6
  rw [Budget.total_const]
  rfl

/-! ## Whole runs -/

theorem writers_bounded (es : List (LogStep τ)) : ∃ n, ∀ e ∈ es, ∀ w, e.writer = some w → w < n := by
  induction es with
  | nil => exact ⟨0, fun e he => absurd he List.not_mem_nil⟩
  | cons e es ih =>
    obtain ⟨n, hn⟩ := ih
    refine ⟨max n ((e.writer.getD 0) + 1), fun e' he' w hw => ?_⟩
    rcases List.mem_cons.mp he' with rfl | he'
    · rw [hw]
      exact Nat.lt_of_lt_of_le (Nat.lt_succ_self w) (Nat.le_max_right _ _)
    · exact Nat.lt_of_lt_of_le (hn e' he' w hw) (Nat.le_max_left _ _)

/-- **Rest.** With a queue, and if all calls have returned before the destructor starts, the
log takes at most sixteen steps for each call of `write`, two for each round of the
destructor's loop and six for the rest; and where no step but another call or round is
possible, all calls have returned and every line is in the file. -/
theorem drains [DecidableEq τ] {es : List (LogStep τ)} (hm : 0 < m)
    (hr : Along (step L) (fun s e _ => s.Returned e) (init τ m t) es) (hs : run (step L) (init τ m t) es = some s) :
    es.length ≤ 16 * es.countP LogStep.isCall + 2 * es.countP LogStep.isRound + 6 ∧ (AtRest L s → s.Settled) := by
  obtain ⟨n, hn⟩ := writers_bounded es
  have hkeep : ∀ (s : Log τ) (e : LogStep τ) s', Sound L s ∧ s.Closing → step L s e = some s' → s.Returned e →
      Sound L s' ∧ s'.Closing := by
    rintro s e s' ⟨h, hc⟩ hs hr
    obtain ⟨he, rfl⟩ := step_next hs
    exact ⟨h.next hr he, hc.next h.async he⟩
  have hstep : ∀ (s : Log τ) (e : LogStep τ) s', Sound L s ∧ s.Closing → (∀ w, e.writer = some w → w < n) →
      step L s e = some s' → s.Returned e → (Sound L s' ∧ s'.Closing) ∧
        s'.work n + 1 ≤ s.work n + allowance e := by
    intro s e s' h hn hs hr
    refine ⟨hkeep s e s' h hs hr, ?_⟩
    obtain ⟨he, rfl⟩ := step_next hs
    cases hw : e.writer with
    | none => exact work_quiet h.1.async he hw
    | some w => exact work_writer he (hn w hw) hw
  have hlen := Budget.length_le hstep es _ s hn ⟨sound_init hm, closing_init hm⟩ hr hs
  have hsum : (es.map allowance).sum = 16 * es.countP LogStep.isCall + 2 * es.countP LogStep.isRound := by
    unfold allowance
    rw [List.sum_map_add, Budget.sum_map_ite, Budget.sum_map_ite]
  rw [work_init n hm, hsum] at hlen
  refine ⟨by omega, fun hrest => ?_⟩
  have hinv : Always (step L) (fun s => Sound L s ∧ s.Closing) (init τ m t) es :=
    always_of_along (fun s e s' h _ hs hr => hkeep s e s' h hs hr) (fun _ h => h)
      (fun _ _ => trivial : ∀ e ∈ es, True) ⟨sound_init hm, closing_init hm⟩ hr
  obtain ⟨h, hc⟩ := hinv.last _ _ _ hs
  exact h.settled hc hrest

theorem drains_shutdown : ∃ s, run (step ⟨50000, 1, by decide⟩) (init Nat 1 ⟨124, 0, 15⟩) (shutdownRun ⟨124, 0, 15⟩) = some s ∧
    s.dtor = .done ∧ (shutdownRun ⟨124, 0, 15⟩).length ≤ 16 * (shutdownRun ⟨124, 0, 15⟩).countP LogStep.isCall +
      2 * (shutdownRun ⟨124, 0, 15⟩).countP LogStep.isRound + 6 ∧ (AtRest ⟨50000, 1, by decide⟩ s → s.Settled) :=
  ⟨_, rfl, rfl, drains (by decide) returned_shutdownRun rfl⟩

end Log

end LearningC
