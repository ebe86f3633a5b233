import LearningC.LogQueue

/-!
# The log without a queue

In synchronous mode every line is written by the call that has formatted it, before `mtx`
is released.
-/

namespace LearningC.Log

variable {τ : Type} {L : LogLimits} {s : Log τ} {e : LogStep τ} {w : Nat} {line : LogLine τ} {m : Int} {t : Tm}

/-- The state after `put` while `file` is open. -/
def putTo (w : Nat) (line : LogLine τ) (file : FileName) (s : Log τ) : Log τ :=
  { s with
    writers := Function.update s.writers w .idle
    mtx := none
    appended := s.appended ++ [(line, file)] }

theorem next_put {file : FileName} (hf : s.fp = some file) : s.next L (.put w line) = s.putTo w line file := by
  have hput : s.fputs line = { s with appended := s.appended ++ [(line, file)] } := by simp [fputs, hf]
  show { (s.fputs line).setWriter w .idle with mtx := none } = _
  rw [hput]
  rfl

@[simp] theorem written_putTo (file : FileName) : (s.putTo w line file).written = s.written ++ [line] := by
  simp [written, putTo]

structure Sync (s : Log τ) : Prop extends Queued s where
  sync : s.isAsync = false
  gone : s.asyncWrite = .gone
  empty : s.deque = []
  unpushed : ∀ w line, s.writers w ≠ .push line

theorem sync_init (hm : m ≤ 0) : (init τ m t).Sync where
  toQueued := queued_init
  sync := by simp [init, hm]
  gone := by simp [init, hm]
  empty := rfl
  unpushed := by simp [init]

theorem Sync.waiting_nil (h : s.Sync) : s.waiting = [] := by
  simp [waiting, AsyncWrite.line, h.gone, h.empty]

theorem Sync.writer (h : s.Sync) (hd : e ≠ .destroy) (he : s.Enabled L e) : ∃ w, e.writer = some w := by
  cases e with
  | destroy => exact absurd rfl hd
  | asyncPop | asyncPut | asyncLeave => cases h.gone.symm.trans he.1
  | again | emptied | join | fclose => cases h.running.symm.trans he.1
  | flush | close => cases h.running.symm.trans he
  | _ => exact ⟨_, rfl⟩

theorem Sync.open_file (h : s.Sync) : ∃ file, s.fp = some file := Option.ne_none_iff_exists'.mp h.opened

theorem Sync.next (h : s.Sync) (hd : e ≠ .destroy) (he : s.Enabled L e) : (s.next L e).Sync := by
  have ho : ¬ s.Overtakes e := fun ⟨_, _, _, hw⟩ => hw h.waiting_nil
  have hqueued := h.toQueued.next hd he
  refine ⟨hqueued.2 (hqueued.1.mpr ho), isAsync_next.trans h.sync, ?_, ?_, fun w line hp => ?_⟩
  · obtain ⟨w, hw⟩ := h.writer hd he
    cases e with
    | put u line =>
      obtain ⟨file, hfile⟩ := h.open_file
      rw [next_put hfile]
      exact h.gone
    | call | test | testCount | testMultiple | relock | innerTest | setToDay | resetCount | nameByCount | reopen | lock
    | readCount | storeCount | choose | push => exact h.gone
    | _ => cases hw
  · obtain ⟨w, hw⟩ := h.writer hd he
    cases e with
    | push u line => exact absurd he.1 (h.unpushed u line)
    | put u line =>
      obtain ⟨file, hfile⟩ := h.open_file
      rw [next_put hfile]
      exact h.empty
    | call | test | testCount | testMultiple | relock | innerTest | setToDay | resetCount | nameByCount | reopen | lock
    | readCount | storeCount | choose => exact h.empty
    | _ => cases hw
  · rcases chosen_of_next hp (Or.inl rfl) with ⟨-, hpush⟩ | ⟨rfl, hchosen⟩
    · exact h.unpushed w line hpush
    · simp [h.sync] at hchosen

theorem Sync.written_of_unheld (h : s.Sync) (hh : s.held = []) : s.written = s.formatted := by
  have hacc := h.accounted
  rw [transit, h.waiting_nil, hh, List.append_nil, List.append_nil] at hacc
  exact hacc

theorem Sync.written_of_free (h : s.Sync) (hm : s.mtx = none) : s.written = s.formatted :=
  h.written_of_unheld (held_of_free hm)

theorem Sync.formatted_of_line (h : s.Sync) (hl : (s.writers w).line = some line) :
    s.formatted = s.written ++ [line] := by
  have hacc := h.accounted
  rw [transit, h.waiting_nil, held_of_owner (h.held.owner hl) hl, List.nil_append] at hacc
  exact hacc.symm

theorem Sync.number_of_line (h : s.Sync) (hl : (s.writers w).line = some line) : line.number = s.written.length := by
  have hn := h.numbers
  rw [h.formatted_of_line hl, List.map_append, List.length_append, List.length_singleton, List.range_succ] at hn
  have hlast := List.append_inj_right' hn rfl
  exact (List.cons.inj hlast).1

end LearningC.Log
