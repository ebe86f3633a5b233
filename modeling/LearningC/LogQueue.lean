import LearningC.LogFlow
import LearningC.Runs
import Mathlib.Data.List.Nodup

/-!
# The order of the lines in the file

With a queue, a line that finds it full goes to the file at once. The lines in the file are
in the order of `mtx` exactly while no such line overtakes one that waits, and with room for
a line in the queue each of them does.
-/

namespace LearningC.Log

open Runs

variable {τ : Type} {L : LogLimits} {s s' : Log τ} {e : LogStep τ} {w : Nat} {line : LogLine τ} {m : Int} {t : Tm}

/-- The lines in the file are the first ones that were formatted. -/
def InOrder (s : Log τ) : Prop := s.written <+: s.formatted

instance [DecidableEq τ] (s : Log τ) : Decidable s.InOrder := inferInstanceAs (Decidable (s.written <+: s.formatted))

/-- Step `e` puts a line in the file while an earlier one is in the queue or has been popped. -/
def Overtakes (s : Log τ) (e : LogStep τ) : Prop := ∃ w line, e = .put w line ∧ s.waiting ≠ []

structure Queued (s : Log τ) : Prop extends Running s where
  accounted : s.written ++ s.transit = s.formatted
  numbers : s.formatted.map LogLine.number = List.range s.formatted.length

theorem queued_init : (init τ m t).Queued where
  toRunning := running_init m t
  accounted := by
    unfold init transit waiting held written
    split <;> rfl
  numbers := rfl

theorem Queued.inOrder (h : s.Queued) : s.InOrder := ⟨s.transit, h.accounted⟩

theorem nodup_of_numbers {lines : List (LogLine τ)} (h : lines.map LogLine.number = List.range lines.length) :
    lines.Nodup :=
  List.Nodup.of_map LogLine.number (h ▸ List.nodup_range)

theorem numbers_concat {c : LogCall τ} (h : s.formatted.map LogLine.number = List.range s.formatted.length)
    (hf : s'.formatted = s.formatted ++ [s.newLine c]) :
    s'.formatted.map LogLine.number = List.range s'.formatted.length := by
  rw [hf, List.map_append, h, List.length_append, List.length_singleton, List.range_succ]
  rfl

theorem Queued.not_inOrder (h : s.Queued) (ht : s.transit = s.waiting ++ [line]) (hw : s.waiting ≠ [])
    (ha : s'.written = s.written ++ [line]) (hf : s'.formatted = s.formatted) : ¬ s'.InOrder := by
  intro hin
  have hacc := h.accounted
  have hnodup := nodup_of_numbers h.numbers
  rw [ht] at hacc
  obtain ⟨first, rest, hfirst⟩ := List.exists_cons_of_ne_nil hw
  rw [hfirst] at hacc
  unfold InOrder at hin
  rw [ha, hf, ← hacc, List.prefix_append_right_inj, List.cons_append, List.cons_prefix_cons] at hin
  rw [← hacc, List.nodup_append] at hnodup
  have hne : first ∉ rest ++ [line] := (List.nodup_cons.mp hnodup.2.1).1
  exact hne (by simp [hin.1])

theorem Queued.of_accounted (h : s.Queued) (hr : s'.Running) (hf : s'.formatted = s.formatted)
    (hacc : s'.written ++ s'.transit = s.formatted) : s'.Queued :=
  ⟨hr, hacc.trans hf.symm, by rw [hf]; exact h.numbers⟩

theorem Queued.next (h : s.Queued) (hd : e ≠ .destroy) (he : s.Enabled L e) :
    ((s.next L e).InOrder ↔ ¬ s.Overtakes e) ∧ ((s.next L e).InOrder → (s.next L e).Queued) := by
  have hr := h.toRunning.next hd he
  have hkeeps : ¬ s.Overtakes e → (s.next L e).Queued →
      ((s.next L e).InOrder ↔ ¬ s.Overtakes e) ∧ ((s.next L e).InOrder → (s.next L e).Queued) :=
    fun ho hq => ⟨iff_of_true hq.inOrder ho, fun _ => hq⟩
  have hnot : (∀ w line, e ≠ .put w line) → ¬ s.Overtakes e := fun hne ⟨w, line, hput, _⟩ => hne w line hput
  cases h.held.flow h.opened he with
  | still hput ht hf ha _ =>
    refine hkeeps (hnot hput) (h.of_accounted hr hf ?_)
    rw [ht, ha]
    exact h.accounted
  | format w c count ht hf ha _ =>
    refine hkeeps (hnot (by simp)) ⟨hr, ?_, numbers_concat h.numbers hf⟩
    rw [ht, ha, hf, ← List.append_assoc, h.accounted]
  | asyncPut line ht hf ha _ =>
    refine hkeeps (hnot (by simp)) (h.of_accounted hr hf ?_)
    rw [ha, List.append_assoc, List.singleton_append, ← ht]
    exact h.accounted
  | close => exact absurd (show s.dtor = .close from he) (by simp [h.running])
  | put w line hs ht hf ha _ =>
    by_cases hw : s.waiting = []
    · refine hkeeps (fun ⟨_, _, _, hne⟩ => hne hw) (h.of_accounted hr hf ?_)
      rw [ha, ht, hw, List.append_nil, ← h.accounted, hs, hw]
      rfl
    · have hin : ¬ (s.next L (.put w line)).InOrder := h.not_inOrder hs hw ha hf
      exact ⟨iff_of_false hin fun ho => ho ⟨w, line, rfl, hw⟩, fun hin' => absurd hin' hin⟩

/-! ## Every direct write overtakes -/

/-- A writer that is about to write past the queue has found it full. -/
structure Behind (s : Log τ) : Prop extends Running s where
  async : s.isAsync = true
  behind : ∀ w line, s.writers w = .put line → s.waiting ≠ []

theorem waiting_next (he : s.Enabled L e) (hput : ∀ line, e ≠ .asyncPut line) (hclose : e ≠ .close)
    (hw : s.waiting ≠ []) : (s.next L e).waiting ≠ [] := by
  cases e with
  | asyncPut line => exact absurd rfl (hput line)
  | close => exact absurd rfl hclose
  | push w line => simp [waiting, Log.next]
  | put w line =>
    show (s.fputs line).waiting ≠ []
    rw [waiting_fputs]
    exact hw
  | asyncPop =>
    obtain ⟨line, rest, hq⟩ := List.exists_cons_of_ne_nil he.2.2
    rw [next_asyncPop hq]
    simp [waiting, AsyncWrite.line]
  | asyncLeave =>
    have hd : s.deque ≠ [] := by simpa [waiting, AsyncWrite.line, he.1] using hw
    simpa [waiting, AsyncWrite.line, Log.next] using hd
  | _ => exact hw

theorem Behind.next (h : s.Behind) (h0 : 0 < L.maxCapacity) (hd : e ≠ .destroy) (he : s.Enabled L e) :
    (s.next L e).Behind := by
  refine ⟨h.toRunning.next hd he, isAsync_next.trans h.async, fun w line hp => ?_⟩
  have hclose : e ≠ .close := by
    rintro rfl
    exact absurd (show s.dtor = .close from he) (by simp [h.running])
  rcases chosen_of_next hp (Or.inr rfl) with ⟨-, hp⟩ | ⟨rfl, hfull⟩
  · have hm : s.mtx = some w := h.held.owner (line_of_eq hp)
    refine waiting_next he ?_ hclose (h.behind w line hp)
    rintro line rfl
    simp [he.2] at hm
  · refine waiting_next he (by simp) hclose ?_
    have hlen : L.maxCapacity ≤ s.deque.length := by
      by_contra hroom
      simp [h.async, full, hroom] at hfull
    have hne : s.deque ≠ [] := List.ne_nil_of_length_pos (Nat.lt_of_lt_of_le h0 hlen)
    simp [waiting, hne]

theorem Behind.overtakes (h : s.Behind) (he : s.Enabled L (.put w line)) : s.Overtakes (.put w line) :=
  ⟨w, line, rfl, h.behind w line he⟩

theorem behind_init (hm : 0 < m) : (init τ m t).Behind :=
  ⟨running_init m t, by simp [init, hm], fun w line hp => by cases hp⟩

/-- **The order of the file.** Until the destructor starts, the lines in the file are the
first ones that were formatted if and only if no line overtakes another. Past a full queue,
which has room for a line, every line does. -/
theorem inOrder_iff [DecidableEq τ] {es : List (LogStep τ)} (hm : 0 < m) (hd : .destroy ∉ es) :
    (Always (step L) InOrder (init τ m t) es ↔ Along (step L) (fun s e _ => ¬ s.Overtakes e) (init τ m t) es) ∧
      (0 < L.maxCapacity →
        Along (step L) (fun s e _ => s.Overtakes e ↔ ∃ w line, e = .put w line) (init τ m t) es) := by
  have hU : ∀ e ∈ es, e ≠ .destroy := fun e he => ne_of_mem_of_not_mem he hd
  constructor
  · refine always_iff (I := Queued) (fun s e s' h hd (hs : step L s e = some s') => ?_) hU queued_init queued_init.inOrder
    obtain ⟨he, rfl⟩ := step_next hs
    exact h.next hd he
  · intro h0
    refine along_of_events (I := Behind) (fun s e s' h hd hs => ?_) hU (behind_init hm)
    obtain ⟨he, rfl⟩ := step_next hs
    refine ⟨⟨fun ⟨w, line, hput, _⟩ => ⟨w, line, hput⟩, ?_⟩, h.next h0 hd he⟩
    rintro ⟨w, line, rfl⟩
    exact h.overtakes he

/-- The test finds nothing to do when `lineCount` is `count`. -/
def plainTest (w : Nat) (c : LogCall τ) (count : Nat) : List (LogStep τ) :=
  [.call w c, .test w c, .testCount w c] ++ if count = 0 then [] else [.testMultiple w c]

def formatLine (w : Nat) (line : LogLine τ) (count : Nat) : List (LogStep τ) :=
  [.lock w line.call, .readCount w line.call, .storeCount w line.call count, .choose w line]

/-- A queue with room for one line, and a second line while the first one is still in it. -/
def fullQueueRun (day : Tm) : List (LogStep Nat) :=
  let c : Nat → LogCall Nat := fun text => { time := day, text }
  plainTest 0 (c 0) 0 ++ formatLine 0 ⟨0, c 0⟩ 0 ++ [.push 0 ⟨0, c 0⟩] ++
    plainTest 0 (c 1) 1 ++ formatLine 0 ⟨1, c 1⟩ 1 ++ [.put 0 ⟨1, c 1⟩]

theorem not_inOrder_fullQueue : ¬ ∀ (L : LogLimits) (es : List (LogStep Nat)), .destroy ∉ es →
    (∀ w c, .relock w c ∉ es) → Always (step L) InOrder (init Nat 1 ⟨124, 0, 15⟩) es := by
  intro h
  have hlast : InOrder _ := (h ⟨50000, 1, by decide⟩ (fullQueueRun ⟨124, 0, 15⟩) (by simp [fullQueueRun, plainTest, formatLine])
    (by simp [fullQueueRun, plainTest, formatLine])).last _ _ _ rfl
  exact absurd hlast (by decide)

/-- The same queue, with the second line after the first one has been popped. -/
def poppedInTimeRun (day : Tm) : List (LogStep Nat) :=
  let c : Nat → LogCall Nat := fun text => { time := day, text }
  plainTest 0 (c 0) 0 ++ formatLine 0 ⟨0, c 0⟩ 0 ++ [.push 0 ⟨0, c 0⟩, .asyncPop] ++
    plainTest 0 (c 1) 1 ++ formatLine 0 ⟨1, c 1⟩ 1 ++ [.push 0 ⟨1, c 1⟩, .asyncPut ⟨0, c 0⟩, .asyncPop, .asyncPut ⟨1, c 1⟩]

theorem inOrder_iff_poppedInTime :
    (∃ s, run (step ⟨50000, 1, by decide⟩) (init Nat 1 ⟨124, 0, 15⟩) (poppedInTimeRun ⟨124, 0, 15⟩) = some s ∧
      s.written.map LogLine.number = [0, 1]) ∧
    Always (step ⟨50000, 1, by decide⟩) InOrder (init Nat 1 ⟨124, 0, 15⟩) (poppedInTimeRun ⟨124, 0, 15⟩) := by
  refine ⟨⟨_, rfl, rfl⟩, (inOrder_iff (by decide) (by simp [poppedInTimeRun, plainTest, formatLine])).1.mpr ?_⟩
  refine along_of_events (I := fun _ => True) (U := fun e => ∀ w line, e ≠ .put w line) ?_ ?_ trivial
  · exact fun s e s' _ hne _ => ⟨fun ⟨w, line, hput, _⟩ => hne w line hput, trivial⟩
  · simp [poppedInTimeRun, plainTest, formatLine]

end LearningC.Log
