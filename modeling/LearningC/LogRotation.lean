import LearningC.LogSync
import Mathlib.Data.List.Perm.Subperm

/-!
# Rotation within one day

Line `k` belongs in the base file for `k < MAX_LINES`, and otherwise in the file with the
number `k / MAX_LINES`. The test of `lineCount` is made outside `mtx`, so a line can come
to the file before its rotation, and a rotation can come late.
-/

namespace LearningC.Log

open Runs

variable {τ : Type} {L : LogLimits} {s : Log τ} {e : LogStep τ} {w v : Nat} {p : WritePhase τ} {line : LogLine τ}
  {m : Int} {t : Tm}

/-- The file of line `k`. -/
def fileFor (L : LogLimits) (t : Tm) (k : Nat) : FileName :=
  if k < L.maxLines then .base t else .part t (k / L.maxLines)

/-- Every line is in its file, and no file has more than `MAX_LINES`. -/
structure Rotated (L : LogLimits) (t : Tm) (s : Log τ) : Prop where
  placed : ∀ p ∈ s.appended, p.2 = fileFor L t p.1.number
  bounded : ∀ file, (s.appended.filter fun p => p.2 = file).length ≤ L.maxLines

/-- The counts for which a write makes a new file. -/
def Multiple (L : LogLimits) (k : Nat) : Prop := k ≠ 0 ∧ L.maxLines ∣ k

instance (L : LogLimits) (k : Nat) : Decidable (Multiple L k) := inferInstanceAs (Decidable (k ≠ 0 ∧ L.maxLines ∣ k))

/-- The first line of a new file is written by a call that has tested its very number, or after
such a call has opened the file. -/
def AfterRotation (L : LogLimits) (s : Log τ) : LogStep τ → Prop
  | .put w line => Multiple L line.number → s.tested w = line.number ∨ ∃ o ∈ s.opened, o.tested = line.number
  | _ => True

instance (L : LogLimits) (s : Log τ) : (e : LogStep τ) → Decidable (AfterRotation L s e)
  | .put w line => inferInstanceAs
      (Decidable (Multiple L line.number → s.tested w = line.number ∨ ∃ o ∈ s.opened, o.tested = line.number))
  | .call .. | .test .. | .testCount .. | .testMultiple .. | .relock .. | .innerTest .. | .setToDay .. | .resetCount ..
  | .nameByCount .. | .reopen .. | .lock .. | .readCount .. | .storeCount .. | .choose .. | .push .. | .asyncPop
  | .asyncPut _ | .asyncLeave | .destroy | .again | .flush | .emptied | .close | .join | .fclose => isTrue trivial

/-- A write opens its file before `lineCount` has passed another multiple of `MAX_LINES`. -/
def ReopensInTime (L : LogLimits) (s : Log τ) : LogStep τ → Prop
  | .reopen w _ _ => s.lineCount / L.maxLines = s.tested w / L.maxLines
  | _ => True

instance (L : LogLimits) (s : Log τ) : (e : LogStep τ) → Decidable (ReopensInTime L s e)
  | .reopen w _ _ => inferInstanceAs (Decidable (s.lineCount / L.maxLines = s.tested w / L.maxLines))
  | .call .. | .test .. | .testCount .. | .testMultiple .. | .relock .. | .innerTest .. | .setToDay .. | .resetCount ..
  | .nameByCount .. | .lock .. | .readCount .. | .storeCount .. | .choose .. | .push .. | .put .. | .asyncPop
  | .asyncPut _ | .asyncLeave | .destroy | .again | .flush | .emptied | .close | .join | .fclose => isTrue trivial

/-- What a phase knows of `lineCount` and of the tested count when all calls are of the day `t`. -/
def OneDay (L : LogLimits) (t : Tm) (n tested : Nat) : WritePhase τ → Prop
  | .test c | .testCount c | .lock c | .readCount c | .storeCount c _ => c.time = t
  | .testMultiple c => c.time = t ∧ n ≠ 0
  | .relock c | .innerTest c | .nameByCount c => c.time = t ∧ Multiple L tested ∧ tested ≤ n
  | .setToDay _ | .resetCount _ => False
  | .reopen c newFile =>
    c.time = t ∧ Multiple L tested ∧ ∃ count, tested ≤ count ∧ count ≤ n ∧ newFile = .part t (count / L.maxLines)
  | _ => True

structure Daily (L : LogLimits) (t : Tm) (s : Log τ) : Prop extends Sync s where
  day : s.toDay = t.mday
  count : s.lineCount = s.formatted.length
  stored : ∀ w c count, s.writers w = .storeCount c count → count = s.lineCount
  phases : ∀ w, OneDay L t s.lineCount (s.tested w) (s.writers w)

/-- The calls of a run of one day without the destructor. -/
def OfDay (t : Tm) (e : LogStep τ) : Prop := e ≠ .destroy ∧ ∀ w c, e = .call w c → c.time = t

theorem daily_init (hm : m ≤ 0) : (init τ m t).Daily L t where
  toSync := sync_init hm
  day := rfl
  count := rfl
  stored := fun w c count hp => by cases hp
  phases := fun _ => trivial

theorem OneDay.mono {n n' k : Nat} (hn : n ≤ n') (h : OneDay L t n k p) : OneDay L t n' k p := by
  cases p with
  | testMultiple c => exact ⟨h.1, Nat.pos_iff_ne_zero.mp (Nat.lt_of_lt_of_le (Nat.pos_of_ne_zero h.2) hn)⟩
  | relock | innerTest | nameByCount => exact ⟨h.1, h.2.1, Nat.le_trans h.2.2 hn⟩
  | reopen c newFile =>
    obtain ⟨hc, hk, count, hle, hcn, hf⟩ := h
    exact ⟨hc, hk, count, hle, Nat.le_trans hcn hn, hf⟩
  | _ => exact h

/-! ## The tests -/

theorem tested_next_of_ne (hw : e.writer ≠ some w) : (s.next L e).tested w = s.tested w := by
  have hset : ∀ {u : Nat} {n : Nat}, some u ≠ some w → Function.update s.tested u n w = s.tested w :=
    fun hu => Function.update_of_ne (fun he => hu (congrArg some he.symm)) _ _
  cases e with
  | testCount u c => exact hset hw
  | testMultiple u c => exact hset hw
  | put u line =>
    show (s.fputs line).tested w = s.tested w
    unfold fputs
    split <;> rfl
  | asyncPut line =>
    show (s.fputs line).tested w = s.tested w
    unfold fputs
    split <;> rfl
  | asyncPop =>
    unfold Log.next
    cases s.deque with
    | nil => rfl
    | cons line rest => rfl
  | _ => rfl

theorem Daily.phase_of (h : s.Daily L t) (hp : s.writers w = p) : OneDay L t s.lineCount (s.tested w) p :=
  hp ▸ h.phases w

theorem Daily.phaseAfter (h : s.Daily L t) (hU : OfDay t e) (he : s.Enabled L e) (hw : e.writer = some w) :
    OneDay L t s.lineCount ((s.next L e).tested w) (s.phaseAfter L e) := by
  have hself : ∀ {n : Nat}, Function.update s.tested w n w = n := fun {n} => Function.update_self ..
  cases e with
  | call u c => exact hU.2 u c rfl
  | test u c =>
    cases hw
    have hc : c.time = t := h.phase_of he
    have hday : s.toDay = c.time.mday := hc ▸ h.day
    simp only [Log.phaseAfter, hday, ne_eq, not_true_eq_false, if_false]
    exact hc
  | testCount u c =>
    cases hw
    have hc : c.time = t := h.phase_of he
    simp only [Log.phaseAfter]
    split
    · next hn => exact ⟨hc, hn⟩
    · exact hc
  | testMultiple u c =>
    cases hw
    obtain ⟨hc, hn⟩ := h.phase_of he
    simp only [Log.phaseAfter, Log.next, readsCount, hself]
    split
    · next hmod => exact ⟨hc, ⟨hn, Nat.dvd_of_mod_eq_zero hmod⟩, Nat.le_refl _⟩
    · exact hc
  | innerTest u c =>
    cases hw
    have hc := h.phase_of he
    have hday : s.toDay = c.time.mday := hc.1 ▸ h.day
    simp only [Log.phaseAfter, hday, ne_eq, not_true_eq_false, if_false]
    exact hc
  | setToDay u c | resetCount u c => exact (h.phase_of he).elim
  | relock u c | lock u c =>
    cases hw
    have hc := h.phase_of he.1
    exact hc
  | nameByCount u c =>
    cases hw
    obtain ⟨hc, hk, hle⟩ := h.phase_of he
    refine ⟨hc, hk, s.lineCount, hle, Nat.le_refl _, ?_⟩
    rw [hc]
  | reopen u c newFile => exact (h.phase_of he.1).1
  | readCount u c =>
    have hc := h.phase_of he
    exact hc
  | choose u line =>
    simp only [Log.phaseAfter]
    split <;> trivial
  | _ => trivial

theorem Daily.lineCount_le (h : s.Daily L t) (hU : OfDay t e) (he : s.Enabled L e) :
    s.lineCount ≤ (s.next L e).lineCount := by
  obtain ⟨w, hw⟩ := h.writer hU.1 he
  cases e with
  | resetCount u c => exact (h.phase_of he).elim
  | storeCount u c count =>
    show s.lineCount ≤ count + 1
    rw [h.stored u c count he]
    exact Nat.le_succ _
  | put u line =>
    obtain ⟨file, hfile⟩ := h.open_file
    rw [next_put hfile]
    exact Nat.le_refl _
  | call | test | testCount | testMultiple | relock | innerTest | setToDay | nameByCount | reopen | lock | readCount
  | choose | push => exact Nat.le_refl _
  | _ => cases hw

theorem Daily.phases_next (h : s.Daily L t) (hU : OfDay t e) (he : s.Enabled L e) (v : Nat) :
    OneDay L t (s.next L e).lineCount ((s.next L e).tested v) ((s.next L e).writers v) := by
  refine OneDay.mono (h.lineCount_le hU he) ?_
  by_cases hv : e.writer = some v
  · rw [writers_next_self hv]
    exact h.phaseAfter hU he hv
  · rw [writers_next_of_ne hv, tested_next_of_ne hv]
    exact h.phases v

/-- Between the two halves of `lineCount++` nobody else changes it. -/
theorem Daily.stored_next (h : s.Daily L t) (hU : OfDay t e) (he : s.Enabled L e) {c : LogCall τ} {count : Nat}
    (hp : (s.next L e).writers v = .storeCount c count) : count = (s.next L e).lineCount := by
  by_cases hv : e.writer = some v
  · rw [writers_next_self hv] at hp
    cases e with
    | readCount u c' =>
      cases hp
      rfl
    | test | testCount | testMultiple | innerTest | choose =>
      simp only [Log.phaseAfter] at hp
      split at hp <;> cases hp
    | _ => cases hp
  · rw [writers_next_of_ne hv] at hp
    obtain ⟨w, hw⟩ := h.writer hU.1 he
    have hsame := h.stored v c count hp
    cases e with
    | resetCount u c' => exact (h.phase_of he).elim
    | storeCount u c' count' =>
      refine absurd ?_ hv
      exact congrArg some (h.held.alone (by rw [show s.writers u = _ from he]; trivial) (by rw [hp]; trivial))
    | put u line =>
      obtain ⟨file, hfile⟩ := h.open_file
      rw [next_put hfile]
      exact hsame
    | call | test | testCount | testMultiple | relock | innerTest | setToDay | nameByCount | reopen | lock | readCount
    | choose | push => exact hsame
    | _ => cases hw

theorem Daily.next (h : s.Daily L t) (hU : OfDay t e) (he : s.Enabled L e) : (s.next L e).Daily L t := by
  have hs := h.toSync.next hU.1 he
  refine ⟨hs, ?_, ?_, fun v c count hp => h.stored_next hU he hp, h.phases_next hU he⟩
  · obtain ⟨w, hw⟩ := h.writer hU.1 he
    cases e with
    | setToDay u c => exact (h.phase_of he).elim
    | put u line =>
      obtain ⟨file, hfile⟩ := h.open_file
      rw [next_put hfile]
      exact h.day
    | call | test | testCount | testMultiple | relock | innerTest | resetCount | nameByCount | reopen | lock | readCount
    | storeCount | choose | push => exact h.day
    | _ => cases hw
  · obtain ⟨w, hw⟩ := h.writer hU.1 he
    cases e with
    | resetCount u c => exact (h.phase_of he).elim
    | storeCount u c count =>
      show count + 1 = (s.formatted ++ [s.newLine c]).length
      rw [h.stored u c count he, h.count, List.length_append, List.length_singleton]
    | put u line =>
      obtain ⟨file, hfile⟩ := h.open_file
      rw [next_put hfile]
      exact h.count
    | call | test | testCount | testMultiple | relock | innerTest | setToDay | nameByCount | reopen | lock | readCount
    | choose | push => exact h.count
    | _ => cases hw

theorem Daily.lineCount_of_free (h : s.Daily L t) (hm : s.mtx = none) : s.lineCount = s.written.length :=
  h.count.trans (congrArg List.length (h.written_of_free hm).symm)

/-! ## The file of a line -/

section
variable {j k k' : Nat}

theorem fileFor_base (h : k < L.maxLines) : fileFor L t k = .base t := if_pos h

theorem fileFor_part (h : L.maxLines ≤ k) : fileFor L t k = .part t (k / L.maxLines) := if_neg (Nat.not_lt.mpr h)

theorem fileFor_eq_iff : fileFor L t k = fileFor L t k' ↔ k / L.maxLines = k' / L.maxLines := by
  have hpos : ∀ {k : Nat}, L.maxLines ≤ k → 0 < k / L.maxLines := fun hk => Nat.div_pos hk L.maxLines_pos
  rcases Nat.lt_or_ge k L.maxLines with hk | hk <;> rcases Nat.lt_or_ge k' L.maxLines with hk' | hk'
  · rw [fileFor_base hk, fileFor_base hk', Nat.div_eq_of_lt hk, Nat.div_eq_of_lt hk']
    exact iff_of_true rfl rfl
  · have hlt := hpos hk'
    rw [fileFor_base hk, fileFor_part hk', Nat.div_eq_of_lt hk]
    exact iff_of_false (by simp) (by omega)
  · have hlt := hpos hk
    rw [fileFor_part hk, fileFor_base hk', Nat.div_eq_of_lt hk']
    exact iff_of_false (by simp) (by omega)
  · rw [fileFor_part hk, fileFor_part hk', FileName.part.injEq]
    simp

theorem Multiple.le (h : Multiple L k) : L.maxLines ≤ k := Nat.le_of_dvd (Nat.pos_of_ne_zero h.1) h.2

end

theorem Queued.written_numbers (h : s.Queued) : s.written.map LogLine.number = List.range s.written.length := by
  have hn := h.numbers
  rw [← h.accounted, List.map_append, List.length_append, List.range_add] at hn
  exact List.append_inj_left hn (by simp)

theorem Queued.bounded (h : s.Queued) (hp : ∀ p ∈ s.appended, p.2 = fileFor L t p.1.number) (file : FileName) :
    (s.appended.filter fun p => p.2 = file).length ≤ L.maxLines := by
  have hnodup : (s.appended.map fun p => p.1.number).Nodup := by
    have hmap : s.written.map LogLine.number = s.appended.map fun p => p.1.number := List.map_map
    rw [← hmap, h.written_numbers]
    exact List.nodup_range
  have hsub := (List.filter_sublist (l := s.appended) (p := fun p => p.2 = file)).map fun p => p.1.number
  cases hl : s.appended.filter (fun p => p.2 = file) with
  | nil => exact Nat.zero_le _
  | cons first rest =>
    rw [hl] at hsub
    have hfile : ∀ p ∈ first :: rest, fileFor L t p.1.number = file := fun p hmem => by
      rw [← hl, List.mem_filter, decide_eq_true_eq] at hmem
      rw [← hp p hmem.1, hmem.2]
    have hblock : (first :: rest).map (fun p => p.1.number) ⊆
        List.range' (first.1.number / L.maxLines * L.maxLines) L.maxLines := by
      intro k hk
      obtain ⟨p, hmem, rfl⟩ := List.mem_map.mp hk
      have hdiv := fileFor_eq_iff.mp ((hfile p hmem).trans (hfile first List.mem_cons_self).symm)
      rw [← hdiv, List.mem_range'_1]
      exact ⟨Nat.div_mul_le_self _ _, Nat.lt_div_mul_add L.maxLines_pos⟩
    have hle := (List.subperm_of_subset (hsub.nodup hnodup) hblock).length_le
    rw [List.length_map, List.length_range'] at hle
    exact hle

/-! ## Rotations in time -/

/-- Past the test of `lineCount`, and past the rotation if there is one. -/
def Past : WritePhase τ → Prop
  | .lock _ => True
  | p => p.Holding

/-- The open file is that of the next line, or the one before it if the line is the first of a
new file. A write that has tested a multiple of `MAX_LINES` has opened its file before it is
past the rotation. -/
structure InFile (L : LogLimits) (t : Tm) (s : Log τ) : Prop extends Daily L t s, Rotated L t s where
  current : ∃ j, s.fp = some (fileFor L t (j * L.maxLines)) ∧ j * L.maxLines ≤ s.written.length ∧
    s.written.length ≤ (j + 1) * L.maxLines ∧ (0 < j → ∃ o ∈ s.opened, o.tested = j * L.maxLines)
  rotations : ∀ o ∈ s.opened, o.tested ≤ s.written.length ∧
    (o.tested = s.written.length → s.fp = some (fileFor L t s.written.length))
  past : ∀ w, Past (s.writers w) → Multiple L (s.tested w) → ∃ o ∈ s.opened, o.tested = s.tested w

theorem rotated_init : Rotated L t (init τ m t) := ⟨by simp [init], by simp [init]⟩

theorem inFile_init (hm : m ≤ 0) : (init τ m t).InFile L t where
  toDaily := daily_init hm
  toRotated := rotated_init
  current := by
    refine ⟨0, ?_, Nat.le_of_eq (Nat.zero_mul _), Nat.zero_le _, fun h => absurd h (Nat.lt_irrefl 0)⟩
    rw [fileFor_base (by rw [Nat.zero_mul]; exact L.maxLines_pos)]
    rfl
  rotations := by simp [init]
  past := fun _ hp => hp.elim

/-- The own step of a write with which it gets past the rotation. -/
theorem past_of_next (he : s.Enabled L e) (hp : Past ((s.next L e).writers v))
    (hk : Multiple L ((s.next L e).tested v)) :
    Past (s.writers v) ∧ Multiple L (s.tested v) ∧ (s.next L e).tested v = s.tested v ∨
      ∃ c newFile, e = .reopen v c newFile := by
  by_cases hv : e.writer = some v
  · rw [writers_next_self hv] at hp
    have hself : ∀ {n : Nat}, Function.update s.tested v n v = n := fun {n} => Function.update_self ..
    cases e with
    | call | relock | setToDay | resetCount | nameByCount | push | put => exact hp.elim
    | test | innerTest =>
      simp only [Log.phaseAfter] at hp
      split at hp <;> exact hp.elim
    | testCount u c =>
      cases hv
      simp only [Log.next, readsCount, hself] at hk
      simp only [Log.phaseAfter, hk.1, ne_eq, not_false_eq_true, if_true] at hp
      exact hp.elim
    | testMultiple u c =>
      cases hv
      simp only [Log.next, readsCount, hself] at hk
      simp only [Log.phaseAfter, Nat.mod_eq_zero_of_dvd hk.2, if_true] at hp
      exact hp.elim
    | reopen u c newFile =>
      cases hv
      exact Or.inr ⟨c, newFile, rfl⟩
    | lock u c =>
      cases hv
      refine Or.inl ⟨?_, hk, rfl⟩
      rw [he.1]
      trivial
    | readCount | storeCount | choose =>
      cases hv
      refine Or.inl ⟨?_, hk, rfl⟩
      rw [show s.writers v = _ from he]
      trivial
    | _ => cases hv
  · rw [writers_next_of_ne hv] at hp
    rw [tested_next_of_ne hv] at hk ⊢
    exact Or.inl ⟨hp, hk, rfl⟩

/-- Steps that neither open a file nor write a line. -/
theorem InFile.keep (h : s.InFile L t) (hU : OfDay t e) (he : s.Enabled L e) (hf : (s.next L e).fp = s.fp)
    (ha : (s.next L e).appended = s.appended) (ho : (s.next L e).opened = s.opened) : (s.next L e).InFile L t := by
  have hw : (s.next L e).written = s.written := congrArg (List.map Prod.fst) ha
  refine ⟨h.toDaily.next hU he, ⟨ha ▸ h.placed, ha ▸ h.bounded⟩, ?_, ?_, fun v hp hk => ?_⟩
  · rw [hf, hw, ho]
    exact h.current
  · rw [hf, hw, ho]
    exact h.rotations
  · rcases past_of_next he hp hk with ⟨hp, hk, hsame⟩ | ⟨c, newFile, rfl⟩
    · rw [ho, hsame]
      exact h.past v hp hk
    · exact absurd (congrArg List.length ho) (by simp [Log.next])

theorem InFile.reopen {c : LogCall τ} {newFile : FileName} (h : s.InFile L t) (hU : OfDay t (.reopen w c newFile))
    (he : s.Enabled L (.reopen w c newFile)) (hin : ReopensInTime L s (.reopen w c newFile)) :
    (s.next L (.reopen w c newFile)).InFile L t := by
  have hcount := h.lineCount_of_free he.2
  obtain ⟨-, hk, count, hle, hcn, hfile⟩ := h.phase_of he.1
  have hin' : s.lineCount / L.maxLines = s.tested w / L.maxLines := hin
  have hdiv : count / L.maxLines = s.lineCount / L.maxLines :=
    Nat.le_antisymm (Nat.div_le_div_right hcn) (Nat.le_trans (Nat.le_of_eq hin') (Nat.div_le_div_right hle))
  have hnext : newFile = fileFor L t s.written.length := by
    rw [hfile, hdiv, hcount, fileFor_part (hcount ▸ Nat.le_trans hk.le (Nat.le_trans hle hcn))]
  have hw : (s.next L (.reopen w c newFile)).written = s.written := rfl
  have ho : ∀ o ∈ (s.next L (.reopen w c newFile)).opened, o ∈ s.opened ∨ o.tested = s.tested w := by
    intro o ho
    rcases List.mem_append.mp ho with ho | ho
    · exact Or.inl ho
    · exact Or.inr (by rw [List.mem_singleton.mp ho])
  have hnew : ∃ o ∈ (s.next L (.reopen w c newFile)).opened, o.tested = s.tested w :=
    ⟨_, List.mem_append_right _ List.mem_cons_self, rfl⟩
  refine ⟨h.toDaily.next hU he, ⟨h.placed, h.bounded⟩, ?_, fun o hmem => ?_, fun v hp hk' => ?_⟩
  · refine ⟨s.written.length / L.maxLines, ?_, Nat.div_mul_le_self _ _, ?_, fun _ => ?_⟩
    · show some newFile = _
      rw [hnext]
      exact congrArg some (fileFor_eq_iff.mpr (Nat.mul_div_cancel _ L.maxLines_pos).symm)
    · rw [hw]
      exact Nat.le_of_lt (Nat.lt_mul_of_div_lt (Nat.lt_succ_self _) L.maxLines_pos)
    · -- the tested count is a multiple, and the last one that has been reached
      rw [← hcount, hin', Nat.div_mul_cancel hk.2]
      exact hnew
  · refine ⟨?_, fun _ => congrArg some hnext⟩
    rw [hw]
    rcases ho o hmem with hmem | hsame
    · exact (h.rotations o hmem).1
    · rw [hsame, ← hcount]
      exact Nat.le_trans hle hcn
  · rcases past_of_next he hp hk' with ⟨hp, hk', hsame⟩ | ⟨c', newFile', heq⟩
    · obtain ⟨o, hmem, htested⟩ := h.past v hp hk'
      exact ⟨o, List.mem_append_left _ hmem, htested.trans hsame.symm⟩
    · cases heq
      exact hnew

/-- The line that is written comes to its file. -/
theorem InFile.fp_iff (h : s.InFile L t) (he : s.Enabled L (.put w line)) :
    s.fp = some (fileFor L t line.number) ↔ AfterRotation L s (.put w line) := by
  have hl : (s.writers w).line = some line := line_of_eq he
  have hnum : line.number = s.written.length := h.number_of_line hl
  obtain ⟨j, hfile, hlow, hhigh, hopened⟩ := h.current
  have hdiv : j * L.maxLines / L.maxLines = j := Nat.mul_div_cancel _ L.maxLines_pos
  constructor
  · intro hfp hk
    rw [hfile, Option.some.injEq, fileFor_eq_iff, hdiv] at hfp
    have hmul : j * L.maxLines = line.number := by rw [hfp, Nat.div_mul_cancel hk.2]
    obtain ⟨o, ho, htested⟩ := hopened (by rw [hfp]; exact Nat.div_pos hk.le L.maxLines_pos)
    exact Or.inr ⟨o, ho, htested.trans hmul⟩
  · intro hafter
    by_cases hk : Multiple L line.number
    · have hrotated : ∃ o ∈ s.opened, o.tested = line.number := by
        rcases hafter hk with hown | hother
        -- the write has made the rotation that its own test asked for
        · have hpast : Past (s.writers w) := by
            rw [show s.writers w = _ from he]
            trivial
          rw [← hown]
          exact h.past w hpast (hown ▸ hk)
        · exact hother
      obtain ⟨o, ho, htested⟩ := hrotated
      rw [hnum]
      exact (h.rotations o ho).2 (htested.trans hnum)
    · rw [hfile, Option.some.injEq, fileFor_eq_iff, hdiv, hnum]
      have hlt : s.written.length < (j + 1) * L.maxLines := by
        refine Nat.lt_of_le_of_ne hhigh fun heq => hk ⟨?_, ?_⟩
        · rw [hnum, heq]
          exact Nat.mul_ne_zero (Nat.succ_ne_zero j) (Nat.pos_iff_ne_zero.mp L.maxLines_pos)
        · rw [hnum, heq]
          exact Nat.dvd_mul_left _ _
      exact (Nat.div_eq_of_lt_le hlow hlt).symm

theorem InFile.put_rotated (h : s.InFile L t) (hU : OfDay t (.put w line)) (he : s.Enabled L (.put w line)) :
    Rotated L t (s.next L (.put w line)) ↔ s.fp = some (fileFor L t line.number) := by
  have hs := (h.toSync.next hU.1 he).toQueued
  obtain ⟨file, hfile⟩ := h.open_file
  rw [next_put hfile] at hs ⊢
  rw [hfile]
  constructor
  · intro hrot
    exact congrArg some (hrot.placed (line, file) (by simp [putTo]))
  · intro hline
    have hplaced : ∀ p ∈ (s.putTo w line file).appended, p.2 = fileFor L t p.1.number := by
      intro p hp
      rcases List.mem_append.mp hp with hp | hp
      · exact h.placed p hp
      · rw [List.mem_singleton.mp hp]
        exact Option.some.inj hline
    exact ⟨hplaced, hs.bounded hplaced⟩

theorem InFile.put (h : s.InFile L t) (hU : OfDay t (.put w line)) (he : s.Enabled L (.put w line))
    (hr : Rotated L t (s.next L (.put w line))) : (s.next L (.put w line)).InFile L t := by
  have hfp := (h.put_rotated hU he).mp hr
  have hnum : line.number = s.written.length := h.number_of_line (line_of_eq he)
  obtain ⟨j, hfile, hlow, hhigh, hopened⟩ := h.current
  have hj : j = s.written.length / L.maxLines := by
    rw [hfile, Option.some.injEq, fileFor_eq_iff, Nat.mul_div_cancel _ L.maxLines_pos, hnum] at hfp
    exact hfp
  have hd := h.toDaily.next hU he
  have hpast : ∀ v, Past ((s.next L (.put w line)).writers v) → Multiple L ((s.next L (.put w line)).tested v) →
      ∃ o ∈ s.opened, o.tested = (s.next L (.put w line)).tested v := by
    intro v hp hk
    rcases past_of_next he hp hk with ⟨hp, hk, hsame⟩ | ⟨c, newFile, heq⟩
    · rw [hsame]
      exact h.past v hp hk
    · cases heq
  rw [next_put hfile] at hd hr hpast ⊢
  have hlen : (s.putTo w line (fileFor L t (j * L.maxLines))).written.length = s.written.length + 1 := by simp
  refine ⟨hd, hr, ⟨j, hfile, ?_, ?_, hopened⟩, fun o ho => ?_, hpast⟩
  · rw [hlen]
    exact Nat.le_succ_of_le hlow
  · rw [hlen, hj]
    exact Nat.lt_mul_of_div_lt (Nat.lt_succ_self _) L.maxLines_pos
  · have hle := (h.rotations o ho).1
    rw [hlen]
    exact ⟨Nat.le_succ_of_le hle, fun heq => absurd heq (by omega)⟩

/-! ## Runs of one day -/

theorem InFile.step_iff (h : s.InFile L t) (hU : OfDay t e) (he : s.Enabled L e) (hin : ReopensInTime L s e) :
    (Rotated L t (s.next L e) ↔ AfterRotation L s e) ∧ (Rotated L t (s.next L e) → (s.next L e).InFile L t) := by
  obtain ⟨w, hw⟩ := h.writer hU.1 he
  have hof : AfterRotation L s e → (s.next L e).InFile L t →
      (Rotated L t (s.next L e) ↔ AfterRotation L s e) ∧ (Rotated L t (s.next L e) → (s.next L e).InFile L t) :=
    fun ha hn => ⟨iff_of_true hn.toRotated ha, fun _ => hn⟩
  cases e with
  | put u line => exact ⟨(h.put_rotated hU he).trans (h.fp_iff he), h.put hU he⟩
  | reopen u c newFile => exact hof trivial (h.reopen hU he hin)
  | asyncPop | asyncPut | asyncLeave | destroy | again | flush | emptied | close | join | fclose => cases hw
  | _ => exact hof trivial (h.keep hU he rfl rfl rfl)

/-- Two writers make the test when the file has room for one more line. -/
def lateTestRun (day : Tm) : List (LogStep Nat) :=
  let c : LogCall Nat := { time := day, text := 0 }
  plainTest 0 c 0 ++ formatLine 0 ⟨0, c⟩ 0 ++ [.put 0 ⟨0, c⟩] ++ plainTest 0 c 1 ++ plainTest 1 c 1 ++
    formatLine 0 ⟨1, c⟩ 1 ++ [.put 0 ⟨1, c⟩] ++ formatLine 1 ⟨2, c⟩ 2 ++ [.put 1 ⟨2, c⟩]

/-- The third line of one writer, with `MAX_LINES` at two. -/
def rotationRun (day : Tm) : List (LogStep Nat) :=
  let c : LogCall Nat := { time := day, text := 0 }
  plainTest 0 c 0 ++ formatLine 0 ⟨0, c⟩ 0 ++ [.put 0 ⟨0, c⟩] ++ plainTest 0 c 1 ++ formatLine 0 ⟨1, c⟩ 1 ++
    [.put 0 ⟨1, c⟩] ++ plainTest 0 c 2 ++ [.relock 0 c, .innerTest 0 c, .nameByCount 0 c, .reopen 0 c (.part day 1)] ++
    formatLine 0 ⟨2, c⟩ 2 ++ [.put 0 ⟨2, c⟩]

end LearningC.Log
