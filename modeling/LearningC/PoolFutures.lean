import LearningC.PoolOutput

/-!
# main returns

Every future becomes ready, since a task in the queue keeps a worker awake or a notification
on its way. Each step but a spurious wakeup brings `main` nearer to its end, so it returns,
with every task run once.
-/

namespace LearningC

open Runs CondVar

namespace MainPhase

/-- What the call of `addTask` in `main` has left to do. -/
def call : MainPhase → PoolCall
  | .notifying _ => .notifyOne
  | _ => .idle

/-- The number of tasks pushed. -/
def pushed (count : Nat) : MainPhase → Nat
  | .adding i => i
  | .notifying i => i + 1
  | .getting _ | .destroying => count

/-- The number of futures waited for. -/
def obtained (count : Nat) : MainPhase → Nat
  | .adding _ | .notifying _ => 0
  | .getting i => i
  | .destroying => count

def InLoop (count : Nat) : MainPhase → Prop
  | .adding i | .notifying i | .getting i => i < count
  | .destroying => True

section
variable {count i : Nat}

@[simp] theorem call_getFrom : (getFrom count i).call = .idle := by
  unfold getFrom
  split <;> rfl

@[simp] theorem call_addFrom : (addFrom count i).call = .idle := by
  unfold addFrom
  split
  · rfl
  · simp

@[simp] theorem inLoop_getFrom : (getFrom count i).InLoop count := by
  unfold getFrom
  split
  · next h => exact h
  · trivial

@[simp] theorem inLoop_addFrom : (addFrom count i).InLoop count := by
  unfold addFrom
  split
  · next h => exact h
  · simp

@[simp] theorem pushed_getFrom : (getFrom count i).pushed count = count := by
  unfold getFrom
  split <;> rfl

theorem pushed_addFrom (h : i ≤ count) : (addFrom count i).pushed count = i := by
  unfold addFrom
  split
  · rfl
  · simp
    omega

theorem obtained_getFrom (h : i ≤ count) : (getFrom count i).obtained count = i := by
  unfold getFrom
  split
  · rfl
  · show count = i
    omega

theorem obtained_addFrom : (addFrom count i).obtained count = 0 := by
  unfold addFrom
  split
  · rfl
  · exact obtained_getFrom (Nat.zero_le _)

variable {n : Nat} {p : MainPhase} {e : PoolEvent n Nat}

theorem after_worker {w : Fin n} (hw : e.worker = some w) : p.after count e = p := by
  cases e <;> cases p <;> first | rfl | cases hw

theorem adding_of_allows {c task : Nat} (h : p.Allows (.addTask c task : PoolEvent n Nat)) :
    ∃ i, p = .adding i ∧ c = 0 ∧ task = i := by
  cases p with
  | adding i => exact ⟨i, rfl, h⟩
  | _ => exact h.elim

theorem notifying_of_allows {c : Nat} {w : Option (Fin n)} (h : p.Allows (.notifyOne c w)) :
    ∃ i, p = .notifying i ∧ c = 0 := by
  cases p with
  | notifying i => exact ⟨i, rfl, h⟩
  | _ => exact h.elim

theorem destroying_of_allows (h : p.Allows e) (he : e = .destroy ∨ e = .notifyDestroy ∨ e = .join) : p = .destroying := by
  rcases he with rfl | rfl | rfl <;> cases p <;> first | rfl | exact h.elim

theorem not_allows_setStop {c : Nat} {flag : Bool} : ¬ p.Allows (.setStop c flag : PoolEvent n Nat) := by
  cases p <;> exact id

theorem not_allows_notifyAll {c : Nat} : ¬ p.Allows (.notifyAll c : PoolEvent n Nat) := by
  cases p <;> exact id

end

end MainPhase

namespace ThreadPool

section
variable {n : Nat} {τ : Type} {s : ThreadPool n τ} {e : PoolEvent n τ}

/-- Only a worker that is about to sleep keeps `mtx` from one step to the next. -/
def HeldToSleep (s : ThreadPool n τ) : Prop := ∀ w, s.mtx = some w → s.threads w = .block

theorem HeldToSleep.next (h : HeldToSleep s) (he : s.Enabled e) : HeldToSleep (s.next e) := by
  have hkeep : ∀ u, s.mtx = some u → e.worker ≠ some u → (s.next e).threads u = .block := by
    intro u hu hw
    exact ((threads_next he hw).eq_iff (by simp) (by simp)).mpr (h u hu)
  intro u hu
  cases e with
  | check w =>
    rcases checkQueue_cases s w with ⟨-, -, hn⟩ | ⟨-, -, hn⟩ | ⟨task, queue, -, hn⟩
    · rw [hn] at hu ⊢
      cases hu
      exact Function.update_self ..
    · rw [hn] at hu
      cases he.2.symm.trans hu
    · rw [hn] at hu
      cases he.2.symm.trans hu
  | sleep w => cases hu
  | wake w =>
    refine hkeep u hu fun e => ?_
    cases e
    cases (h u hu).symm.trans he
  | finish w =>
    refine hkeep u hu fun e => ?_
    cases e
    obtain ⟨task, ht⟩ := he
    cases (h u hu).symm.trans ht
  | addTask c task => exact hkeep u hu (by simp [PoolEvent.worker])
  | setStop c flag => exact hkeep u hu (by simp [PoolEvent.worker])
  | notifyOne c w => exact hkeep u hu (by simp [PoolEvent.worker])
  | notifyAll c => exact hkeep u hu (by simp [PoolEvent.worker])
  | destroy => exact hkeep u hu (by simp [PoolEvent.worker])
  | notifyDestroy => exact hkeep u hu (by simp [PoolEvent.worker])
  | join => exact hkeep u hu (by simp [PoolEvent.worker])

/-- Nobody has set the flag but the destructor, and no worker returns before that. -/
structure Unstopped (s : ThreadPool n τ) : Prop where
  flag : s.stopFlag = true ↔ s.dtor ≠ .idle
  left : s.dtor = .idle → ∀ w, s.threads w ≠ .gone
  joined : ∀ k, s.dtor = .join k → k ≤ n

theorem Unstopped.next (h : Unstopped s) (he : s.Enabled e) (hset : ∀ c flag, e ≠ .setStop c flag) :
    Unstopped (s.next e) := by
  have hsame : (s.next e).stopFlag = s.stopFlag → (s.next e).dtor = s.dtor → Unstopped (s.next e) := by
    intro hf hd
    refine ⟨hf ▸ hd ▸ h.flag, fun hi w hg => ?_, fun k hk => h.joined k (hd ▸ hk)⟩
    rw [hd] at hi
    rcases gone_of_next he hg with hg | ⟨-, hstop⟩
    · exact h.left hi w hg
    · exact h.flag.mp hstop hi
  cases e with
  | setStop c flag => exact absurd rfl (hset c flag)
  | destroy =>
    refine ⟨by simp [ThreadPool.next], fun hi => ?_, fun k hk => ?_⟩
    · cases hi
    · cases hk
  | notifyDestroy =>
    refine ⟨?_, fun hi => ?_, fun k hk => ?_⟩
    · have hd : s.dtor ≠ .idle := by rw [show s.dtor = .notify from he]; simp
      exact iff_of_true (h.flag.mpr hd) (by simp [ThreadPool.next])
    · cases hi
    · cases hk
      exact Nat.zero_le n
  | join =>
    obtain ⟨w, hd, -⟩ := he
    have hn : (s.next .join).dtor = .join (w + 1) := congrArg Teardown.joinNext hd
    refine ⟨?_, fun hi => ?_, fun k hk => ?_⟩
    · exact iff_of_true (h.flag.mpr (by simp [hd])) (by simp [hn])
    · cases hn.symm.trans hi
    · cases hn.symm.trans hk
      exact w.isLt
  | check w => exact hsame (frame_check s w).2.2.1 (frame_check s w).2.1
  | addTask c task => exact hsame rfl rfl
  | notifyOne c w => exact hsame rfl rfl
  | notifyAll c => exact hsame rfl rfl
  | sleep w => exact hsame rfl rfl
  | wake w => exact hsame rfl rfl
  | finish w => exact hsame rfl rfl

/-- A pool at rest that has given every notification has an empty queue, and is not stopped
while a worker is left. -/
theorem rest (hw : Wakeful s) (hs : Serving s) (hidle : ∀ c, s.calls c = .idle) (hd : s.dtor ≠ .notify)
    (hrest : ∀ w, s.threads w = .gone ∨ s.threads w = .asleep) :
    s.taskQueue = [] ∧ (s.stopFlag = true → ∀ w, s.threads w = .gone) := by
  have hlost : ∀ w, s.threads w = .asleep → s.pred = false := by
    intro w ha
    rw [← Bool.not_eq_true]
    exact fun hp => hw.not_lostWakeup ⟨hidle, hd, ⟨w, ha⟩, hrest, hp⟩
  unfold pred at hlost
  refine ⟨?_, fun hf w => (hrest w).resolve_right fun ha => ?_⟩
  · by_contra hq
    obtain ⟨w, hg⟩ := hs.served hq
    have := hlost w ((hrest w).resolve_left hg)
    simp [hq] at this
  · have := hlost w ha
    simp [hf] at this

end

end ThreadPool

namespace PoolMain

section
variable {n count : Nat} {s s' : PoolMain n count} {e : PoolMainEvent n}

theorem step_next (h : s.step e = some s') : s.Enabled e ∧ s' = s.next e :=
  Runs.guarded_some h

structure Consistent (s : PoolMain n count) : Prop where
  serving : s.pool.Serving
  wakeful : s.pool.Wakeful
  held : s.pool.HeldToSleep
  unstopped : s.pool.Unstopped
  calls : ∀ c, s.pool.calls c = if c = 0 then s.main.call else .idle
  accepted : s.pool.accepted = List.range (s.main.pushed count)
  loop : s.main.InLoop count
  dtor : s.main ≠ .destroying → s.pool.dtor = .idle
  got : s.got = List.range (s.main.obtained count)
  printing : s.Printing

theorem consistent_init : Consistent (init n count) := by
  refine ⟨ThreadPool.serving_init, ThreadPool.wakeful_init, fun w hw => ?_, ⟨?_, fun _ w hg => ?_, fun k hk => ?_⟩,
    fun c => ?_, ?_, MainPhase.inLoop_addFrom, fun _ => rfl, ?_, printing_init⟩
  · cases hw
  · simp [init, ThreadPool.init]
  · cases hg
  · cases hk
  · simp [init, ThreadPool.init]
  · show [] = List.range ((MainPhase.addFrom count 0).pushed count)
    rw [MainPhase.pushed_addFrom (Nat.zero_le _)]
    rfl
  · show [] = List.range ((MainPhase.addFrom count 0).obtained count)
    rw [MainPhase.obtained_addFrom]
    rfl

/-! ## Steps of the pool -/

theorem workerLeft (hn : 0 < n) (h : Consistent s) {e : PoolEvent n Nat} (ha : s.main.Allows e) : s.pool.WorkerLeft e := by
  cases e with
  | addTask c task =>
    refine ⟨⟨0, hn⟩, h.unstopped.left (h.dtor fun hm => ?_) _⟩
    rw [hm] at ha
    exact ha
  | _ => trivial

/-- What a step of the pool keeps by itself. -/
structure PoolSound (s : PoolMain n count) : Prop where
  serving : s.pool.Serving
  wakeful : s.pool.Wakeful
  held : s.pool.HeldToSleep
  unstopped : s.pool.Unstopped
  printing : s.Printing

theorem Consistent.sound (h : Consistent s) (hn : 0 < n) {e : PoolEvent n Nat} (ha : s.main.Allows e)
    (hl : s.LineDone e) (he : s.pool.Enabled e) : PoolSound (s.next (.pool e)) := by
  have hpool : s.pool.step e = some (s.pool.next e) := if_pos he
  refine ⟨h.serving.next hpool (workerLeft hn h ha), h.wakeful.step hpool, h.held.next he, h.unstopped.next he ?_,
    h.printing.pool he hl⟩
  rintro c flag rfl
  exact MainPhase.not_allows_setStop ha

/-- A step after which `main` is where it was. -/
theorem Consistent.pool_same (h : Consistent s) {e : PoolEvent n Nat} (hsound : PoolSound (s.next (.pool e)))
    (hm : s.main.after count e = s.main) (hc : (s.pool.next e).calls = s.pool.calls)
    (hacc : (s.pool.next e).accepted = s.pool.accepted)
    (hd : s.main ≠ .destroying → (s.pool.next e).dtor = s.pool.dtor) : Consistent (s.next (.pool e)) := by
  have hmain : (s.next (.pool e)).main = s.main := hm
  refine ⟨hsound.serving, hsound.wakeful, hsound.held, hsound.unstopped, fun c => ?_, ?_, hmain ▸ h.loop, fun hne => ?_,
    ?_, hsound.printing⟩
  · rw [hmain, ← h.calls, ← hc]
    rfl
  · rw [hmain, ← h.accepted, ← hacc]
    rfl
  · rw [hmain] at hne
    exact (hd hne).trans (h.dtor hne)
  · rw [hmain, ← h.got]
    rfl

theorem Consistent.addTask (h : Consistent s) {i : Nat} (hm : s.main = .adding i)
    (hsound : PoolSound (s.next (.pool (.addTask 0 i)))) : Consistent (s.next (.pool (.addTask 0 i))) := by
  obtain ⟨-, -, -, -, hcalls, hacc, hloop, hd, hgot, -⟩ := h
  have hmain : (s.next (.pool (.addTask 0 i))).main = .notifying i := by
    show s.main.after count _ = _
    rw [hm]
    rfl
  rw [hm] at hacc hloop hgot
  refine ⟨hsound.serving, hsound.wakeful, hsound.held, hsound.unstopped, fun c => ?_, ?_, hmain ▸ hloop, fun _ => ?_, ?_,
    hsound.printing⟩
  · rw [hmain]
    show Function.update s.pool.calls 0 PoolCall.notifyOne c = if c = 0 then .notifyOne else .idle
    by_cases hc : c = 0
    · rw [hc, Function.update_self, if_pos rfl]
    · rw [Function.update_of_ne hc, hcalls, if_neg hc, if_neg hc]
  · rw [hmain]
    show s.pool.accepted ++ [i] = List.range (i + 1)
    rw [hacc, List.range_succ]
    rfl
  · exact hd (by rw [hm]; simp)
  · rw [hmain]
    exact hgot

theorem Consistent.notifyOne (h : Consistent s) {i : Nat} {w : Option (Fin n)} (hm : s.main = .notifying i)
    (hsound : PoolSound (s.next (.pool (.notifyOne 0 w)))) : Consistent (s.next (.pool (.notifyOne 0 w))) := by
  obtain ⟨-, -, -, -, hcalls, hacc, hloop, hd, hgot, -⟩ := h
  have hmain : (s.next (.pool (.notifyOne 0 w))).main = .addFrom count (i + 1) := by
    show s.main.after count _ = _
    rw [hm]
    rfl
  rw [hm] at hacc hloop hgot
  refine ⟨hsound.serving, hsound.wakeful, hsound.held, hsound.unstopped, fun c => ?_, ?_,
    hmain ▸ MainPhase.inLoop_addFrom, fun _ => ?_, ?_, hsound.printing⟩
  · rw [hmain, MainPhase.call_addFrom, ite_self]
    show Function.update s.pool.calls 0 PoolCall.idle c = .idle
    by_cases hc : c = 0
    · rw [hc, Function.update_self]
    · rw [Function.update_of_ne hc, hcalls, if_neg hc]
  · rw [hmain, MainPhase.pushed_addFrom hloop]
    exact hacc
  · exact hd (by rw [hm]; simp)
  · rw [hmain, MainPhase.obtained_addFrom]
    exact hgot

theorem Consistent.pool (h : Consistent s) (hn : 0 < n) {e : PoolEvent n Nat} (ha : s.main.Allows e)
    (hl : s.LineDone e) (he : s.pool.Enabled e) : Consistent (s.next (.pool e)) := by
  have hsound := h.sound hn ha hl he
  have hworker : ∀ w, e.worker = some w → s.main.after count e = s.main := fun w hw => MainPhase.after_worker hw
  have hrest : s.main = .destroying → s.main.after count e = s.main := by
    intro hm
    rw [hm]
    rfl
  cases e with
  | addTask c task =>
    obtain ⟨i, hm, rfl, rfl⟩ := MainPhase.adding_of_allows ha
    exact h.addTask hm hsound
  | notifyOne c w =>
    obtain ⟨i, hm, rfl⟩ := MainPhase.notifying_of_allows ha
    exact h.notifyOne hm hsound
  | check w =>
    obtain ⟨hc, hd, -, hacc, -⟩ := ThreadPool.frame_check s.pool w
    exact h.pool_same hsound (hworker w rfl) hc hacc fun _ => hd
  | sleep w => exact h.pool_same hsound (hworker w rfl) rfl rfl fun _ => rfl
  | wake w => exact h.pool_same hsound (hworker w rfl) rfl rfl fun _ => rfl
  | finish w => exact h.pool_same hsound (hworker w rfl) rfl rfl fun _ => rfl
  | setStop c flag => exact (MainPhase.not_allows_setStop ha).elim
  | notifyAll c => exact (MainPhase.not_allows_notifyAll ha).elim
  | destroy =>
    have hm := MainPhase.destroying_of_allows ha (by simp)
    exact h.pool_same hsound (hrest hm) rfl rfl fun hne => absurd hm hne
  | notifyDestroy =>
    have hm := MainPhase.destroying_of_allows ha (by simp)
    exact h.pool_same hsound (hrest hm) rfl rfl fun hne => absurd hm hne
  | join =>
    have hm := MainPhase.destroying_of_allows ha (by simp)
    exact h.pool_same hsound (hrest hm) rfl rfl fun hne => absurd hm hne

theorem next_get {i : Nat} (hm : s.main = .getting i) :
    s.next .get = { s with main := .getFrom count (i + 1), got := s.got ++ [i] } := by
  unfold next
  rw [hm]

theorem Consistent.get (h : Consistent s) (he : s.Enabled .get) : Consistent (s.next .get) := by
  obtain ⟨i, hi, hm⟩ := he
  have hacc := h.accepted
  have hgot := h.got
  have hloop : i < count := by
    have hloop := h.loop
    rwa [hm] at hloop
  have hcalls := h.calls
  rw [hm] at hacc hgot hcalls
  rw [next_get hm]
  refine ⟨h.serving, h.wakeful, h.held, h.unstopped, fun c => ?_, ?_, MainPhase.inLoop_getFrom, fun _ => ?_, ?_,
    ⟨h.printing.fresh, h.printing.output, h.printing.ran⟩⟩
  · rw [MainPhase.call_getFrom]
    exact hcalls c
  · rw [MainPhase.pushed_getFrom]
    exact hacc
  · exact h.dtor (by rw [hm]; simp)
  · rw [MainPhase.obtained_getFrom hloop]
    show s.got ++ [i] = List.range (i + 1)
    rw [hgot, List.range_succ]
    rfl

theorem Consistent.step (h : Consistent s) (hn : 0 < n) (hs : s.step e = some s') : Consistent s' := by
  obtain ⟨he, rfl⟩ := step_next hs
  cases e with
  | pool e => exact h.pool hn he.1.1 he.1.2 he.2
  | print w => exact ⟨h.serving, h.wakeful, h.held, h.unstopped, h.calls, h.accepted, h.loop, h.dtor, h.got, h.printing.print he⟩
  | get => exact h.get he

/-! ## Rest -/

theorem running_rest {p : ThreadPool n Nat} (h : ∀ w, p.threads w = .gone ∨ p.threads w = .asleep) : p.running = 0 := by
  unfold ThreadPool.running Custody.held
  apply Finset.sum_eq_zero
  intro w _
  rcases h w with hw | hw
  · rw [hw]
    rfl
  · rw [hw]
    rfl

theorem Stuck.off (h : s.Stuck) {e : PoolMainEvent n} (hspur : e.spurious = false) : ¬ s.Enabled e := by
  intro he
  have hnone := h _ hspur
  rw [show s.step e = some _ from if_pos he] at hnone
  cases hnone

theorem Consistent.mtx_free (h : Consistent s) (hstuck : s.Stuck) : s.pool.mtx = none := by
  rw [Option.eq_none_iff_forall_ne_some]
  intro w hw
  exact hstuck.off (e := .pool (.sleep w)) rfl ⟨⟨trivial, trivial⟩, h.held w hw⟩

theorem Consistent.workers_rest (h : Consistent s) (hstuck : s.Stuck) (w : Fin n) :
    s.pool.threads w = .gone ∨ s.pool.threads w = .asleep := by
  cases hw : s.pool.threads w with
  | check => exact (hstuck.off (e := .pool (.check w)) rfl ⟨⟨trivial, trivial⟩, hw, h.mtx_free hstuck⟩).elim
  | block => exact (hstuck.off (e := .pool (.sleep w)) rfl ⟨⟨trivial, trivial⟩, hw⟩).elim
  | busy task =>
    by_cases hp : (s.line w)[s.cut w]? = none
    · exact (hstuck.off (e := .pool (.finish w)) rfl ⟨⟨trivial, hp⟩, task, hw⟩).elim
    · exact (hstuck.off (e := .print w) rfl hp).elim
  | asleep => exact Or.inr rfl
  | gone => exact Or.inl rfl

/-- Where all workers are at rest, the future that `main` waits for is ready. -/
theorem Consistent.ready {i : Nat} (h : Consistent s) (hm : s.main = .getting i)
    (hrest : ∀ w, s.pool.threads w = .gone ∨ s.pool.threads w = .asleep) : i ∈ s.pool.finished := by
  have hcalls := h.calls
  have hloop := h.loop
  have hacc := h.accepted
  rw [hm] at hcalls hloop hacc
  have hidle : ∀ c, s.pool.calls c = .idle := fun c => (hcalls c).trans (ite_self _)
  have hd : s.pool.dtor ≠ .notify := by
    rw [h.dtor (by simp [hm])]
    simp
  -- every task that has been pushed has returned
  obtain ⟨hq, -⟩ := ThreadPool.rest h.wakeful h.serving hidle hd hrest
  have htaken := h.serving.inOrder.order
  rw [hq, List.append_nil, hacc] at htaken
  have hfinished := h.serving.executed
  rw [running_rest hrest, add_zero, htaken] at hfinished
  exact (Multiset.coe_eq_coe.mp hfinished).mem_iff.mpr (List.mem_range.mpr hloop)

/-- **Progress.** Only when `main` has returned is there nothing to wait for but a spurious wakeup. -/
theorem Consistent.returned (h : Consistent s) (hstuck : s.Stuck) : s.Returned := by
  have hmtx := h.mtx_free hstuck
  have hrest := h.workers_rest hstuck
  have hcalls := h.calls
  have hoff : ∀ e, s.main.Allows e → s.LineDone e → PoolMainEvent.spurious (.pool e) = false → ¬ s.pool.Enabled e :=
    fun e ha hl hspur he => hstuck.off hspur ⟨⟨ha, hl⟩, he⟩
  cases hm : s.main with
  | adding i =>
    rw [hm] at hcalls hoff
    exact absurd ⟨hcalls 0, hmtx⟩ (hoff (.addTask 0 i) ⟨rfl, rfl⟩ trivial rfl)
  | notifying i =>
    rw [hm] at hcalls hoff
    by_cases ha : ∃ w, s.pool.threads w = .asleep
    · obtain ⟨w, hw⟩ := ha
      exact absurd ⟨hcalls 0, hw⟩ (hoff (.notifyOne 0 (some w)) rfl trivial rfl)
    · exact absurd ⟨hcalls 0, fun w hw => ha ⟨w, hw⟩⟩ (hoff (.notifyOne 0 none) rfl trivial rfl)
  | getting i =>
    have hnone := hstuck .get rfl
    rw [show s.step .get = some _ from if_pos ⟨i, h.ready hm hrest, hm⟩] at hnone
    cases hnone
  | destroying =>
    rw [hm] at hcalls hoff
    refine ⟨hm, ?_⟩
    cases hd : s.pool.dtor with
    | idle => exact absurd ⟨hd, hmtx⟩ (hoff .destroy trivial trivial rfl)
    | notify => exact absurd hd (hoff .notifyDestroy trivial trivial rfl)
    | join k =>
      have hidle : ∀ c, s.pool.calls c = .idle := fun c => (hcalls c).trans (ite_self _)
      have hstop : s.pool.stopFlag = true := h.unstopped.flag.mpr (by simp [hd])
      obtain ⟨-, hgone⟩ := ThreadPool.rest h.wakeful h.serving hidle (by simp [hd]) hrest
      rcases Nat.eq_or_lt_of_le (h.unstopped.joined k hd) with hk | hk
      · rw [hk]
      · exact absurd ⟨⟨k, hk⟩, hd, hgone hstop _⟩ (hoff .join trivial trivial rfl)

/-- What has happened when `main` returns: every task has run once, and what a worker has
given to `cout` are the lines of its tasks. -/
structure AllDone (s : PoolMain n count) : Prop where
  got : s.got = List.range count
  ran : (s.ran.map Prod.snd).Perm (List.range count)
  output : ∀ w, s.output w = (s.ran.filter fun r => r.1 = w).flatMap fun r => exampleFunc w r.2 (r.2 * 100)

theorem int_eq {k : Nat} (h : k < 2 ^ 31) : int k = k := by
  unfold int
  apply Int.bmod_eq_of_le_mul_two
  · omega
  · omega

/-- The numbers of all tasks fit in an `int`. -/
theorem lines_eq (hc : 100 * count ≤ 2 ^ 31) (hran : ∀ i ∈ s.ran.map Prod.snd, i < count) (w : Fin n) :
    s.lines w = (s.ran.filter fun r => r.1 = w).flatMap fun r => exampleFunc w r.2 (r.2 * 100) := by
  apply List.flatMap_congr
  intro r hr
  have hlt : r.2 < count := hran _ (List.mem_map_of_mem (List.mem_of_mem_filter hr))
  rw [int_eq (show r.2 < 2 ^ 31 by omega), int_eq (show r.2 * 100 < 2 ^ 31 by omega), Nat.cast_mul]
  rfl

theorem Consistent.allDone (h : Consistent s) (hc : 100 * count ≤ 2 ^ 31) (hr : s.Returned) : AllDone s := by
  obtain ⟨hm, hj⟩ := hr
  have hgot := h.got
  have hacc := h.accepted
  rw [hm] at hgot hacc
  obtain ⟨-, hperm⟩ := h.serving.drained hj
  rw [hacc, ← h.printing.ran] at hperm
  refine ⟨hgot, hperm, fun w => ?_⟩
  have hgone : (s.pool.threads w).task = none := congrArg Place.task (h.serving.joined n hj w w.isLt)
  rw [h.printing.output, line_none hgone, List.take_nil, List.append_nil,
    lines_eq hc fun i hi => List.mem_range.mp (hperm.mem_iff.mp hi)]

/-! ## The work ahead -/

/-- The steps that a worker may take before it sleeps or takes another task, where it has
printed `k` of the seven pieces of its line. -/
def weight : Place Nat × Nat → Nat
  | (.check, _) => 2
  | (.block, _) => 1
  | (.busy _, k) => 3 + (7 - k)
  | (.asleep, _) | (.gone, _) => 0

def total (cut : Fin n → Nat) (threads : Fin n → Place Nat) : Nat := Budget.total weight fun w => (threads w, cut w)

/-- A task in the queue counts for its line, its `finish` and the look at the queue after it. -/
def poolWork (cut : Fin n → Nat) (p : ThreadPool n Nat) : Nat := total cut p.threads + 9 * p.taskQueue.length

/-- The steps of `main`, with what each of them gives to the workers. -/
def ahead (n count : Nat) : MainPhase → Teardown → Nat
  | .adding i, _ => 13 * (count - i) + count + (3 * n + 2)
  | .notifying i, _ => 13 * (count - (i + 1)) + 3 + count + (3 * n + 2)
  | .getting i, _ => count - i + (3 * n + 2)
  | .destroying, .idle => 3 * n + 2
  | .destroying, .notify => 3 * n + 1
  | .destroying, .join k => n - k

def work (s : PoolMain n count) : Nat := poolWork s.cut s.pool + ahead n count s.main s.pool.dtor

theorem ahead_getFrom {i : Nat} : ahead n count (.getFrom count i) .idle = count - i + (3 * n + 2) := by
  unfold MainPhase.getFrom
  split
  · rfl
  · show 3 * n + 2 = _
    omega

theorem ahead_addFrom {i : Nat} (h : i ≤ count) :
    ahead n count (.addFrom count i) .idle = 13 * (count - i) + count + (3 * n + 2) := by
  unfold MainPhase.addFrom
  split
  · rfl
  · rw [ahead_getFrom]
    omega

section
variable (cut : Fin n → Nat) {p r : ThreadPool n Nat} {w : Fin n} {q : Place Nat}

theorem total_set (p : ThreadPool n Nat) (w : Fin n) (q : Place Nat) (k : Nat) :
    weight (p.threads w, cut w) + total (Function.update cut w k) (Function.update p.threads w q) =
      weight (q, k) + total cut p.threads := by
  have hpair : (fun u => (Function.update p.threads w q u, Function.update cut w k u)) =
      Function.update (fun u => (p.threads u, cut u)) w (q, k) := by
    funext u
    by_cases hu : u = w
    · rw [hu, Function.update_self, Function.update_self, Function.update_self]
    · rw [Function.update_of_ne hu, Function.update_of_ne hu, Function.update_of_ne hu]
  unfold total
  rw [hpair]
  exact Budget.total_update (f := fun u => (p.threads u, cut u))

theorem poolWork_set {k : Nat} (ht : r.threads = Function.update p.threads w q) (hq : r.taskQueue = p.taskQueue) :
    weight (p.threads w, cut w) + poolWork (Function.update cut w k) r = weight (q, k) + poolWork cut p := by
  have hset := total_set cut p w q k
  unfold poolWork
  rw [ht, hq]
  omega

theorem poolWork_move (ht : r.threads = Function.update p.threads w q) (hq : r.taskQueue = p.taskQueue) :
    weight (p.threads w, cut w) + poolWork cut r = weight (q, cut w) + poolWork cut p := by
  have hset := poolWork_set cut (k := cut w) ht hq
  rwa [Function.update_eq_self] at hset

theorem poolWork_stirred (ht : ∀ w, Stirred (p.threads w) (r.threads w)) (hq : r.taskQueue = p.taskQueue) :
    poolWork cut r ≤ poolWork cut p + 2 * n := by
  have hle := Budget.total_le (w := weight) (f := fun u => (p.threads u, cut u)) (g := fun u => (r.threads u, cut u)) 2
    fun w => by
      rcases ht w with e | ⟨e, e'⟩
      · rw [e]
        omega
      · rw [e']
        exact Nat.le_add_left 2 _
  rw [Fintype.card_fin] at hle
  unfold poolWork total
  rw [hq]
  omega

theorem poolWork_check (he : p.Enabled (.check w)) : poolWork cut (p.next (.check w)) + 1 ≤ poolWork cut p := by
  rcases ThreadPool.checkQueue_cases p w with ⟨-, -, hn⟩ | ⟨-, -, hn⟩ | ⟨task, queue, hq, hn⟩
  · have hset := poolWork_move cut (p := p) (r := p.next (.check w)) (q := .block) (by rw [hn]; rfl) (by rw [hn]; rfl)
    rw [he.1] at hset
    simp only [weight] at hset
    omega
  · have hset := poolWork_move cut (p := p) (r := p.next (.check w)) (q := .gone) (by rw [hn]; rfl) (by rw [hn]; rfl)
    rw [he.1] at hset
    simp only [weight] at hset
    omega
  · have hset := total_set cut p w (.busy task) (cut w)
    rw [he.1, Function.update_eq_self] at hset
    simp only [weight] at hset
    unfold poolWork
    rw [hn, hq, List.length_cons]
    show total cut (Function.update p.threads w (.busy task)) + 9 * queue.length + 1 ≤ _
    omega

end

theorem work_worker {e : PoolEvent n Nat} {w : Fin n} (he : s.pool.Enabled e) (hw : e.worker = some w) :
    (s.next (.pool e)).work + 1 ≤ s.work + if (PoolMainEvent.pool e).spurious then 3 else 0 := by
  have hmain : (s.next (.pool e)).main = s.main := MainPhase.after_worker hw
  have hsame : ∀ k, (s.pool.next e).dtor = s.pool.dtor →
      poolWork (s.cutAfter e) (s.pool.next e) + 1 ≤ poolWork s.cut s.pool + k → (s.next (.pool e)).work + 1 ≤ s.work + k := by
    intro k hd hp
    unfold work
    rw [hmain]
    show poolWork (s.cutAfter e) (s.pool.next e) + ahead n count s.main (s.pool.next e).dtor + 1 ≤ _
    rw [hd]
    omega
  cases e with
  | check u => exact hsame 0 (ThreadPool.frame_check s.pool u).2.1 (poolWork_check _ he)
  | sleep u =>
    have hset := poolWork_move s.cut (p := s.pool) (r := s.pool.next (.sleep u)) (q := .asleep) rfl rfl
    rw [show s.pool.threads u = .block from he] at hset
    simp only [weight] at hset
    exact hsame 0 rfl (by show poolWork s.cut _ + 1 ≤ _; omega)
  | wake u =>
    have hset := poolWork_move s.cut (p := s.pool) (r := s.pool.next (.wake u)) (q := .check) rfl rfl
    rw [show s.pool.threads u = .asleep from he] at hset
    simp only [weight] at hset
    exact hsame 3 rfl (by show poolWork s.cut _ + 1 ≤ _; omega)
  | finish u =>
    obtain ⟨task, ht⟩ := he
    have hset := poolWork_set s.cut (p := s.pool) (r := s.pool.next (.finish u)) (q := .check) (k := 0) rfl rfl
    rw [ht] at hset
    simp only [weight] at hset
    exact hsame 0 rfl (by show poolWork (Function.update s.cut u 0) _ + 1 ≤ _; omega)
  | _ => cases hw

theorem work_print {w : Fin n} (he : s.Enabled (.print w)) : (s.next (.print w)).work + 1 ≤ s.work := by
  have hempty : (s.pool.threads w).task = none → False := by
    intro ht
    apply he
    rw [line_none ht]
    rfl
  have hset := poolWork_set s.cut (p := s.pool) (r := s.pool) (q := s.pool.threads w) (k := s.cut w + 1)
    (Function.update_eq_self ..).symm rfl
  cases hw : s.pool.threads w with
  | busy i =>
    have hlt : s.cut w < 7 := by
      by_contra hge
      apply he
      rw [line_some (congrArg Place.task hw)]
      exact List.getElem?_eq_none (Nat.le_of_not_lt hge)
    rw [hw] at hset
    simp only [weight] at hset
    unfold work
    show poolWork (Function.update s.cut w (s.cut w + 1)) s.pool + ahead n count s.main s.pool.dtor + 1 ≤ _
    omega
  | _ => exact (hempty (congrArg Place.task hw)).elim

theorem poolWork_addTask (cut : Fin n → Nat) (p : ThreadPool n Nat) (c task : Nat) :
    poolWork cut (p.next (.addTask c task)) = poolWork cut p + 9 := by
  show total cut p.threads + 9 * (p.taskQueue ++ [task]).length = _
  rw [List.length_append, List.length_singleton]
  unfold poolWork
  omega

theorem poolWork_notifyOne (cut : Fin n → Nat) {p : ThreadPool n Nat} {c : Nat} {w : Option (Fin n)}
    (he : p.Enabled (.notifyOne c w)) : poolWork cut (p.next (.notifyOne c w)) ≤ poolWork cut p + 2 := by
  cases w with
  | none => exact Nat.le_add_right _ 2
  | some w =>
    have hset := poolWork_move cut (p := p) (r := p.next (.notifyOne c (some w))) (q := .check) rfl rfl
    rw [he.2] at hset
    simp only [weight] at hset
    omega

theorem work_get (h : Consistent s) (he : s.Enabled .get) : (s.next .get).work + 1 ≤ s.work := by
  have hloop := h.loop
  have hdtor := h.dtor
  obtain ⟨i, -, hm⟩ := he
  rw [next_get hm]
  rw [hm] at hloop hdtor
  have hlt : i < count := hloop
  unfold work
  rw [hm, hdtor (by simp)]
  show poolWork s.cut s.pool + ahead n count (.getFrom count (i + 1)) .idle + 1 ≤ poolWork s.cut s.pool + (count - i + (3 * n + 2))
  rw [ahead_getFrom]
  omega

theorem work_main (h : Consistent s) {e : PoolEvent n Nat} (ha : s.main.Allows e) (he : s.pool.Enabled e)
    (hw : e.worker = none) : (s.next (.pool e)).work + 1 ≤ s.work := by
  have hloop := h.loop
  have hdtor := h.dtor
  unfold work
  cases e with
  | addTask c task =>
    obtain ⟨i, hm, rfl, rfl⟩ := MainPhase.adding_of_allows ha
    rw [hm] at hloop
    have hlt : task < count := hloop
    show poolWork s.cut (s.pool.next (.addTask 0 task)) + ahead n count (s.main.after count _) s.pool.dtor + 1 ≤ _
    rw [hm, poolWork_addTask]
    show poolWork s.cut s.pool + 9 + (13 * (count - (task + 1)) + 3 + count + (3 * n + 2)) + 1 ≤
      poolWork s.cut s.pool + (13 * (count - task) + count + (3 * n + 2))
    omega
  | notifyOne c w =>
    obtain ⟨i, hm, rfl⟩ := MainPhase.notifying_of_allows ha
    rw [hm] at hloop hdtor
    have hlt : i < count := hloop
    have hp := poolWork_notifyOne s.cut he
    show poolWork s.cut (s.pool.next (.notifyOne 0 w)) + ahead n count (s.main.after count _) s.pool.dtor + 1 ≤ _
    rw [hm, hdtor (by simp)]
    show _ + ahead n count (.addFrom count (i + 1)) .idle + 1 ≤
      poolWork s.cut s.pool + (13 * (count - (i + 1)) + 3 + count + (3 * n + 2))
    rw [ahead_addFrom hlt]
    omega
  | destroy =>
    have hm := MainPhase.destroying_of_allows ha (by simp)
    show poolWork s.cut s.pool + ahead n count (s.main.after count _) .notify + 1 ≤ _
    rw [hm, he.1]
    exact Nat.le_refl _
  | notifyDestroy =>
    have hm := MainPhase.destroying_of_allows ha (by simp)
    have hp : poolWork s.cut (s.pool.next .notifyDestroy) ≤ poolWork s.cut s.pool + 2 * n :=
      poolWork_stirred s.cut (fun w => wakeAll_stirs _ w) rfl
    show poolWork s.cut (s.pool.next .notifyDestroy) + ahead n count (s.main.after count _) (.join 0) + 1 ≤ _
    rw [hm, show s.pool.dtor = .notify from he]
    show _ + (n - 0) + 1 ≤ poolWork s.cut s.pool + (3 * n + 1)
    omega
  | join =>
    have hm := MainPhase.destroying_of_allows ha (by simp)
    obtain ⟨w, hd, -⟩ := he
    have hlt := w.isLt
    show poolWork s.cut s.pool + ahead n count (s.main.after count _) s.pool.dtor.joinNext + 1 ≤ _
    rw [hm, hd]
    show _ + (n - (w + 1)) + 1 ≤ poolWork s.cut s.pool + (n - w)
    omega
  | setStop c flag => exact (MainPhase.not_allows_setStop ha).elim
  | notifyAll c => exact (MainPhase.not_allows_notifyAll ha).elim
  | _ => cases hw

/-- Each step lowers the work, and a spurious wakeup adds a look at the queue. -/
theorem work_next (h : Consistent s) (he : s.Enabled e) : (s.next e).work + 1 ≤ s.work + if e.spurious then 3 else 0 := by
  cases e with
  | get => exact Nat.le_add_right_of_le (work_get h he)
  | print w => exact Nat.le_add_right_of_le (work_print he)
  | pool e =>
    rcases hw : e.worker with _ | w
    · exact Nat.le_add_right_of_le (work_main h he.1.1 he.2 hw)
    · exact work_worker he.2 hw

theorem work_init : (init n count).work = 2 * n + (13 * count + count + (3 * n + 2)) := by
  unfold work
  show Budget.total weight (fun _ : Fin n => (Place.check, 0)) + 9 * 0 + ahead n count (.addFrom count 0) .idle = _
  rw [Budget.total_const, ahead_addFrom (Nat.zero_le _), Fintype.card_fin]
  simp only [weight]
  omega

end

/-! ## Whole runs -/

/-- **Return.** A run is no longer than the work of the program and its spurious wakeups
allow, and where nothing else than a spurious wakeup can follow, `main` has returned, `get`
has returned from every future in order, and what each worker has printed are the lines of
its tasks, each task having run once. -/
theorem main_returns {n count : Nat} (hn : 0 < n) (hc : 100 * count ≤ 2 ^ 31) {es : List (PoolMainEvent n)} {s : PoolMain n count}
    (hr : run step (init n count) es = some s) :
    es.length ≤ 5 * n + 14 * count + 2 + 3 * es.countP PoolMainEvent.spurious ∧
      (s.Stuck → s.Returned ∧ s.AllDone) := by
  have h : Consistent s := run_keeps (fun s e s' h hs => h.step hn hs) es _ s consistent_init hr
  refine ⟨?_, fun hstuck => ⟨h.returned hstuck, h.allDone hc (h.returned hstuck)⟩⟩
  have hstep : ∀ (s : PoolMain n count) (e : PoolMainEvent n) s', Consistent s → True → step s e = some s' → True →
      Consistent s' ∧ s'.work + 1 ≤ s.work + if e.spurious then 3 else 0 := by
    intro s e s' h _ hs _
    obtain ⟨he, rfl⟩ := step_next hs
    exact ⟨h.step hn hs, work_next h he⟩
  have hlen := Budget.length_le hstep es _ s (fun _ _ => trivial) consistent_init (along_true es _) hr
  rw [work_init, Budget.sum_map_ite] at hlen
  omega

/-- One worker and one task, with a spurious wakeup. -/
def oneTaskRun : List (PoolMainEvent 1) :=
  let w := Fin.last 0
  [.pool (.check w), .pool (.sleep w), .pool (.wake w), .pool (.check w), .pool (.sleep w), .pool (.addTask 0 (0 : Nat)),
    .pool (.notifyOne 0 (some w)), .pool (.check w), .print w, .print w, .print w, .print w, .print w, .print w, .print w,
    .pool (.finish w), .get, .pool .destroy, .pool (.check w), .pool .notifyDestroy, .pool .join]

theorem main_returns_one : ∃ s : PoolMain 1 1, run step (init 1 1) oneTaskRun = some s ∧
    s.printed.map Prod.snd = exampleFunc (Fin.last 0) 0 0 ∧
    oneTaskRun.length ≤ 5 * 1 + 14 * 1 + 2 + 3 * oneTaskRun.countP PoolMainEvent.spurious ∧
    (s.Stuck → s.Returned ∧ s.AllDone) :=
  ⟨_, rfl, rfl, @main_returns 1 1 Nat.one_pos (by decide) oneTaskRun _ rfl⟩

end PoolMain

end LearningC
