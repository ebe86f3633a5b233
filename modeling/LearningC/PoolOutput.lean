import LearningC.PoolMain

/-!
# What the tasks print

The pieces of different workers may be mixed in any way. Those of one worker are the lines
of the tasks that have returned from it, in order, and a beginning of the line it is
printing.
-/

namespace LearningC

open CondVar

namespace ThreadPool

variable {n : Nat} {τ : Type} {s : ThreadPool n τ} {e : PoolEvent n τ} {w : Fin n} {task : τ}

/-- A worker keeps its task until the task returns. -/
theorem task_next (he : s.Enabled e) (hf : e ≠ .finish w) (ht : (s.threads w).task = some task) :
    ((s.next e).threads w).task = some task := by
  by_cases hw : e.worker = some w
  · cases e with
    | check u =>
      cases hw
      rw [he.1] at ht
      cases ht
    | sleep u =>
      cases hw
      rw [show s.threads w = .block from he] at ht
      cases ht
    | wake u =>
      cases hw
      rw [show s.threads w = .asleep from he] at ht
      cases ht
    | finish u =>
      cases hw
      exact absurd rfl hf
    | _ => cases hw
  · rw [(threads_next he hw).task, ht]

end ThreadPool

namespace PoolMain

section
variable {n count : Nat} {s : PoolMain n count} {w u : Fin n}

/-- What `w` has given to `cout`. -/
def output (s : PoolMain n count) (w : Fin n) : List (Piece n) := (s.printed.filter fun p => p.1 = w).map Prod.snd

/-- The lines of the tasks that have returned from `w`. -/
def lines (s : PoolMain n count) (w : Fin n) : List (Piece n) :=
  (s.ran.filter fun r => r.1 = w).flatMap fun r => exampleFunc w (int r.2) (int (r.2 * 100))

structure Printing (s : PoolMain n count) : Prop where
  fresh : ∀ w, (s.pool.threads w).task = none → s.cut w = 0
  output : ∀ w, s.output w = s.lines w ++ (s.line w).take (s.cut w)
  ran : s.ran.map Prod.snd = s.pool.finished

theorem printing_init : Printing (init n count) :=
  ⟨fun _ _ => rfl, fun _ => (List.take_nil (i := 0)).symm, rfl⟩

theorem line_none (h : (s.pool.threads w).task = none) : s.line w = [] := by
  unfold line
  rw [h]
  rfl

theorem line_some {i : Nat} (h : (s.pool.threads w).task = some i) :
    s.line w = exampleFunc w (int i) (int (i * 100)) := by
  unfold line
  rw [h]
  exact List.append_nil _

/-- A step that is not the return of the task of `w` leaves what `w` has printed of its line. -/
theorem take_line_next (h : Printing s) {e : PoolEvent n Nat} (he : s.pool.Enabled e) (hf : e ≠ .finish w) :
    ((s.next (.pool e)).line w).take (s.cut w) = (s.line w).take (s.cut w) := by
  cases ht : (s.pool.threads w).task with
  | none => rw [h.fresh w ht, List.take_zero, List.take_zero]
  | some i => rw [line_some ht, line_some (s := s.next (.pool e)) (ThreadPool.task_next he hf ht)]

theorem cutAfter_of_ne {e : PoolEvent n Nat} (hf : e ≠ .finish w) : s.cutAfter e w = s.cut w := by
  cases e with
  | finish u => exact Function.update_of_ne (fun hw => hf (congrArg _ hw.symm)) _ _
  | _ => rfl

theorem lines_next_of_ne {e : PoolEvent n Nat} (hf : e ≠ .finish w) : (s.next (.pool e)).lines w = s.lines w := by
  have hnone : (s.returns e).filter (fun r => r.1 = w) = [] := by
    cases e with
    | finish u =>
      rw [List.filter_eq_nil_iff]
      intro r hr hw
      obtain ⟨i, -, rfl⟩ := List.mem_map.mp hr
      exact hf (congrArg _ (of_decide_eq_true hw))
    | _ => rfl
  unfold lines
  show ((s.ran ++ s.returns e).filter _).flatMap _ = _
  rw [List.filter_append, hnone, List.append_nil]

theorem lines_finish {i : Nat} (ht : (s.pool.threads w).task = some i) :
    (s.next (.pool (.finish w))).lines w = s.lines w ++ exampleFunc w (int i) (int (i * 100)) := by
  unfold lines
  show ((s.ran ++ (s.pool.threads w).task.toList.map fun i => (w, i)).filter _).flatMap _ = _
  rw [ht, List.filter_append, List.flatMap_append]
  simp

theorem Printing.pool (h : Printing s) {e : PoolEvent n Nat} (he : s.pool.Enabled e) (hl : s.LineDone e) :
    Printing (s.next (.pool e)) := by
  refine ⟨fun w hw => ?_, fun w => ?_, ?_⟩
  · show s.cutAfter e w = 0
    by_cases hf : e = .finish w
    · rw [hf]
      exact Function.update_self ..
    · rw [cutAfter_of_ne hf]
      apply h.fresh
      by_contra ht
      obtain ⟨i, ht⟩ := Option.ne_none_iff_exists'.mp ht
      cases hw.symm.trans (ThreadPool.task_next he hf ht)
  · show s.output w = (s.next (.pool e)).lines w ++ ((s.next (.pool e)).line w).take (s.cutAfter e w)
    by_cases hf : e = .finish w
    · subst hf
      obtain ⟨i, ht⟩ := he
      have hall : (s.line w).take (s.cut w) = s.line w := List.take_of_length_le (List.getElem?_eq_none_iff.mp hl)
      rw [lines_finish (congrArg Place.task ht), h.output, hall, line_some (congrArg Place.task ht)]
      show _ = _ ++ List.take (Function.update s.cut w 0 w) _
      rw [Function.update_self, List.take_zero, List.append_nil]
    · rw [cutAfter_of_ne hf, lines_next_of_ne hf, take_line_next h he hf, h.output]
  · have hsame : s.returns e = [] → (s.pool.next e).finished = s.pool.finished →
        (s.ran ++ s.returns e).map Prod.snd = (s.pool.next e).finished := by
      intro hr hfin
      rw [hr, hfin, List.append_nil, h.ran]
    show (s.ran ++ s.returns e).map Prod.snd = (s.pool.next e).finished
    cases e with
    | finish w =>
      show (s.ran ++ (s.pool.threads w).task.toList.map fun i => (w, i)).map Prod.snd =
        s.pool.finished ++ (s.pool.threads w).task.toList
      rw [List.map_append, h.ran, List.map_map]
      exact congrArg _ (List.map_id _)
    | check w => exact hsame rfl (ThreadPool.frame_check s.pool w).2.2.2.2
    | addTask c task => exact hsame rfl rfl
    | setStop c flag => exact hsame rfl rfl
    | notifyOne c w => exact hsame rfl rfl
    | notifyAll c => exact hsame rfl rfl
    | destroy => exact hsame rfl rfl
    | notifyDestroy => exact hsame rfl rfl
    | join => exact hsame rfl rfl
    | sleep w => exact hsame rfl rfl
    | wake w => exact hsame rfl rfl

theorem output_print (w u : Fin n) : (s.next (.print w)).output u =
    s.output u ++ if u = w then (s.line w)[s.cut w]?.toList else [] := by
  unfold output
  show ((s.printed ++ (s.line w)[s.cut w]?.toList.map fun p => (w, p)).filter _).map Prod.snd = _
  rw [List.filter_append, List.map_append]
  congr 1
  cases (s.line w)[s.cut w]? with
  | none => simp
  | some p =>
    by_cases hu : u = w
    · simp [hu]
    · simp [hu, Ne.symm hu]

theorem Printing.print (h : Printing s) (he : s.Enabled (.print w)) : Printing (s.next (.print w)) := by
  have hbusy : (s.pool.threads w).task ≠ none := by
    intro ht
    apply he
    rw [line_none ht]
    rfl
  refine ⟨fun u hu => ?_, fun u => ?_, h.ran⟩
  · show Function.update s.cut w (s.cut w + 1) u = 0
    have hne : u ≠ w := fun e => hbusy (e ▸ hu)
    rw [Function.update_of_ne hne]
    exact h.fresh u hu
  · rw [output_print, h.output]
    show _ = s.lines u ++ (s.line u).take (Function.update s.cut w (s.cut w + 1) u)
    by_cases hu : u = w
    · rw [hu, if_pos rfl, Function.update_self, List.take_add_one, List.append_assoc]
    · rw [if_neg hu, Function.update_of_ne hu, List.append_nil]

end

end PoolMain

end LearningC
