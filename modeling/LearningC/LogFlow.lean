import LearningC.Exclusive
import LearningC.Log

/-!
# The way of a line to the file

A line that has been formatted is in the hands of the writer that holds `mtx`, then in the
queue, then with the thread of `AsyncWrite_`. `Flow` says what each step does to the lines
on their way.
-/

namespace LearningC.Log

variable {τ : Type} {L : LogLimits} {s : Log τ} {e : LogStep τ} {w : Nat} {p : WritePhase τ} {line : LogLine τ}

/-- The lines that have left the writers and are not in the file. -/
def waiting (s : Log τ) : List (LogLine τ) := s.asyncWrite.line.toList ++ s.deque

def held (s : Log τ) : List (LogLine τ) := (s.mtx.bind fun w => (s.writers w).line).toList

/-- The lines on their way, the oldest first. -/
def transit (s : Log τ) : List (LogLine τ) := s.waiting ++ s.held

def written (s : Log τ) : List (LogLine τ) := s.appended.map Prod.fst

/-- The owner of `mtx` is the one writer whose phase holds it. -/
def Held (s : Log τ) : Prop := Exclusive WritePhase.Holding s.mtx s.writers

theorem holding_of_line (h : p.line ≠ none) : p.Holding := by
  cases p with
  | choose | push | put => trivial
  | _ => exact absurd rfl h

section fields

@[simp] theorem writers_setWriter : (s.setWriter w p).writers = Function.update s.writers w p := rfl
@[simp] theorem mtx_setWriter : (s.setWriter w p).mtx = s.mtx := rfl
@[simp] theorem waiting_setWriter : (s.setWriter w p).waiting = s.waiting := rfl

@[simp] theorem writers_fputs : (s.fputs line).writers = s.writers := by
  unfold fputs
  split <;> rfl

@[simp] theorem mtx_fputs : (s.fputs line).mtx = s.mtx := by
  unfold fputs
  split <;> rfl

@[simp] theorem waiting_fputs : (s.fputs line).waiting = s.waiting := by
  unfold fputs
  split <;> rfl

end fields

theorem held_setWriter (hp : p.line = (s.writers w).line) : (s.setWriter w p).held = s.held := by
  unfold held
  cases hm : s.mtx with
  | none => simp [hm]
  | some v =>
    by_cases hv : v = w
    · subst hv
      simp [hm, hp]
    · simp [hm, Function.update_of_ne hv]

theorem held_of_free (hm : s.mtx = none) : s.held = [] := by
  simp [held, hm]

theorem held_of_owner (hm : s.mtx = some w) (hl : (s.writers w).line = some line) : s.held = [line] := by
  simp [held, hm, hl]

theorem next_asyncPop {rest : List (LogLine τ)} (hq : s.deque = line :: rest) :
    s.next L .asyncPop = { s with deque := rest, asyncWrite := .put line } := by
  simp only [Log.next, hq]

/-! ## The phases of the writers -/

/-- The phase in which step `e` leaves its writer. -/
def phaseAfter (L : LogLimits) (s : Log τ) : LogStep τ → WritePhase τ
  | .call _ c => .test c
  | .test _ c => if s.toDay ≠ c.time.mday then .relock c else .testCount c
  | .testCount _ c => if s.lineCount ≠ 0 then .testMultiple c else .lock c
  | .testMultiple _ c => if s.lineCount % L.maxLines = 0 then .relock c else .lock c
  | .relock _ c => .innerTest c
  | .innerTest _ c => if s.toDay ≠ c.time.mday then .setToDay c else .nameByCount c
  | .setToDay _ c => .resetCount c
  | .resetCount _ c => .reopen c (.base c.time)
  | .nameByCount _ c => .reopen c (.part c.time (s.lineCount / L.maxLines))
  | .reopen _ c _ => .lock c
  | .lock _ c => .readCount c
  | .readCount _ c => .storeCount c s.lineCount
  | .storeCount _ c _ => .choose (s.newLine c)
  | .choose _ line => if s.isAsync && !s.full L then .push line else .put line
  | _ => .idle

theorem writers_next_self (hw : e.writer = some w) : (s.next L e).writers w = s.phaseAfter L e := by
  cases e with
  | put u line =>
    cases hw
    exact Function.update_self ..
  | call | test | testCount | testMultiple | relock | innerTest | setToDay | resetCount | nameByCount | reopen | lock
  | readCount | storeCount | choose | push =>
    cases hw
    exact Function.update_self ..
  | _ => cases hw

theorem writers_next_of_ne (hw : e.writer ≠ some w) : (s.next L e).writers w = s.writers w := by
  have hset : ∀ {u : Nat} {p : WritePhase τ}, some u ≠ some w → (s.setWriter u p).writers w = s.writers w :=
    fun hu => Function.update_of_ne (fun he => hu (congrArg some he.symm)) _ _
  cases e with
  | put u line =>
    show ((s.fputs line).setWriter u .idle).writers w = _
    rw [writers_setWriter, writers_fputs]
    exact hset hw
  | call | test | testCount | testMultiple | relock | innerTest | setToDay | resetCount | nameByCount | reopen | lock
  | readCount | storeCount | choose | push => exact hset hw
  | asyncPop =>
    unfold Log.next
    cases s.deque with
    | nil => rfl
    | cons line rest => rfl
  | asyncPut line => exact congrFun writers_fputs w
  | _ => rfl

theorem chosen_of_next (hp : (s.next L e).writers w = p) (hline : p = .push line ∨ p = .put line) :
    e.writer ≠ some w ∧ s.writers w = p ∨
      e = .choose w line ∧ p = if s.isAsync && !s.full L then .push line else .put line := by
  by_cases hw : e.writer = some w
  · rw [writers_next_self hw] at hp
    refine Or.inr ?_
    cases e with
    | choose u l =>
      cases hw
      simp only [phaseAfter] at hp
      split at hp <;> rcases hline with rfl | rfl <;> cases hp <;> exact ⟨rfl, by simp_all⟩
    | test | testCount | testMultiple | innerTest =>
      simp only [phaseAfter] at hp
      split at hp <;> rcases hline with rfl | rfl <;> cases hp
    | _ => rcases hline with rfl | rfl <;> cases hp
  · rw [writers_next_of_ne hw] at hp
    exact Or.inl ⟨hw, hp⟩

/-- No writer from `n` on has been called. -/
def Quiet (n : Nat) (s : Log τ) : Prop := ∀ w, n ≤ w → s.writers w = .idle

theorem quiet_init (n : Nat) (m : Int) (t : Tm) : (init τ m t).Quiet n := fun _ _ => rfl

theorem Quiet.next {n : Nat} (h : s.Quiet n) (he : ∀ w, e.writer = some w → w < n) : (s.next L e).Quiet n := by
  intro w hw
  rw [writers_next_of_ne fun hw' => Nat.not_lt.mpr hw (he w hw')]
  exact h w hw

/-! ## The owner of mtx -/

theorem held_init (m : Int) (t : Tm) : (init τ m t).Held := Exclusive.const id

theorem Held.owner (h : s.Held) (hl : (s.writers w).line = some line) : s.mtx = some w :=
  (h w).mpr (holding_of_line (by simp [hl]))

theorem Held.release (h : s.Held) (hl : (s.writers w).line = some line) :
    Exclusive WritePhase.Holding none (s.setWriter w .idle).writers :=
  Exclusive.release h (holding_of_line (by simp [hl])) id

theorem line_of_eq (hw : s.writers w = p) : (s.writers w).line = p.line := congrArg _ hw

theorem Held.next (h : s.Held) (he : s.Enabled L e) : (s.next L e).Held := by
  have hset : ∀ {w : Nat} {p q : WritePhase τ}, s.writers w = q → (p.Holding ↔ q.Holding) →
      Exclusive WritePhase.Holding s.mtx (Function.update s.writers w p) :=
    fun hw hp => Exclusive.update h (by rw [hp, hw])
  cases e with
  | call w | setToDay w | resetCount w | nameByCount w | readCount w | storeCount w => exact hset he Iff.rfl
  | relock w | reopen w => exact hset he.1 Iff.rfl
  | test w | testCount w | testMultiple w | innerTest w | choose w =>
    refine hset he ?_
    split <;> exact Iff.rfl
  | lock w c =>
    unfold Held at h
    rw [he.2] at h
    exact h.acquire trivial
  | push w line => exact h.release (line_of_eq he.1)
  | put w line =>
    have hr := h.release (line_of_eq he)
    show Exclusive _ none ((s.fputs line).setWriter w .idle).writers
    rw [writers_setWriter, writers_fputs]
    exact hr
  | asyncPop =>
    obtain ⟨line, rest, hq⟩ := List.exists_cons_of_ne_nil he.2.2
    rw [next_asyncPop hq]
    exact h
  | asyncPut line =>
    show Exclusive _ (s.fputs line).mtx (s.fputs line).writers
    rw [mtx_fputs, writers_fputs]
    exact h
  | _ => exact h

/-! ## What a step does to the lines -/

/-- The effect of step `e` on the lines. -/
inductive Flow (s s' : Log τ) : LogStep τ → Prop
  | still {e : LogStep τ} (hput : ∀ w line, e ≠ .put w line) (ht : s'.transit = s.transit)
      (hf : s'.formatted = s.formatted) (ha : s'.written = s.written) (hd : s'.discarded = s.discarded) : Flow s s' e
  | format (w : Nat) (c : LogCall τ) (count : Nat) (ht : s'.transit = s.transit ++ [s.newLine c])
      (hf : s'.formatted = s.formatted ++ [s.newLine c]) (ha : s'.written = s.written)
      (hd : s'.discarded = s.discarded) : Flow s s' (.storeCount w c count)
  | put (w : Nat) (line : LogLine τ) (hs : s.transit = s.waiting ++ [line]) (ht : s'.transit = s.waiting)
      (hf : s'.formatted = s.formatted) (ha : s'.written = s.written ++ [line])
      (hd : s'.discarded = s.discarded) : Flow s s' (.put w line)
  | asyncPut (line : LogLine τ) (ht : s.transit = line :: s'.transit)
      (hf : s'.formatted = s.formatted) (ha : s'.written = s.written ++ [line])
      (hd : s'.discarded = s.discarded) : Flow s s' (.asyncPut line)
  | close (ht : s.deque = [] → s'.transit = s.transit)
      (hf : s'.formatted = s.formatted) (ha : s'.written = s.written)
      (hd : s'.discarded = s.discarded ++ s.deque) : Flow s s' .close

theorem fputs_of_open (line : LogLine τ) (hf : s.fp ≠ none) : ∃ file, s.fputs line = { s with appended := s.appended ++ [(line, file)] } := by
  obtain ⟨file, hfile⟩ := Option.ne_none_iff_exists'.mp hf
  exact ⟨file, by simp [fputs, hfile]⟩

theorem written_append (file : FileName) :
    written { s with appended := s.appended ++ [(line, file)] } = s.written ++ [line] := by
  simp [written]

theorem Flow.setWriter {s' : Log τ} (hput : ∀ w line, e ≠ .put w line) (hw : (s.writers w).line = p.line)
    (ht : s'.transit = (s.setWriter w p).transit) (hf : s'.formatted = s.formatted) (ha : s'.written = s.written)
    (hd : s'.discarded = s.discarded) : Flow s s' e :=
  .still hput (by rw [ht, transit, transit, held_setWriter hw.symm, waiting_setWriter]) hf ha hd

theorem Held.flow (h : s.Held) (hfp : s.fp ≠ none) (he : s.Enabled L e) : Flow s (s.next L e) e := by
  have hset : ∀ {e : LogStep τ} {s' : Log τ} {w : Nat} {q : WritePhase τ} (p : WritePhase τ), (∀ w line, e ≠ .put w line) →
      s.writers w = q → q.line = p.line → s'.transit = (s.setWriter w p).transit → s'.formatted = s.formatted →
      s'.written = s.written → s'.discarded = s.discarded → Flow s s' e :=
    fun p hput hw hp => Flow.setWriter hput ((line_of_eq hw).trans hp)
  cases e with
  | call w c => exact hset (.test c) (by simp) he rfl rfl rfl rfl rfl
  | test w | testCount w | testMultiple w | innerTest w | choose w =>
    refine hset _ (by simp) he ?_ rfl rfl rfl rfl
    split <;> rfl
  | relock w c => exact hset (.innerTest c) (by simp) he.1 rfl rfl rfl rfl rfl
  | setToDay w c => exact hset (.resetCount c) (by simp) he rfl rfl rfl rfl rfl
  | resetCount w c => exact hset (.reopen c (.base c.time)) (by simp) he rfl rfl rfl rfl rfl
  | nameByCount w c => exact hset (.reopen c (.part c.time (s.lineCount / L.maxLines))) (by simp) he rfl rfl rfl rfl rfl
  | reopen w c newFile => exact hset (.lock c) (by simp) he.1 rfl rfl rfl rfl rfl
  | lock w c =>
    refine .still (by simp) ?_ rfl rfl rfl
    have hnew : (s.next L (.lock w c)).held = [] := by simp [held, Log.next, WritePhase.line]
    rw [transit, transit, hnew, held_of_free he.2]
    rfl
  | readCount w c => exact hset (.storeCount c s.lineCount) (by simp) he rfl rfl rfl rfl rfl
  | storeCount w c count =>
    refine .format w c count ?_ rfl rfl rfl
    have hm : s.mtx = some w := (h w).mpr (by rw [show s.writers w = .storeCount c count from he]; trivial)
    have hold : s.held = [] := by simp [held, hm, show s.writers w = .storeCount c count from he, WritePhase.line]
    have hnew : (s.next L (.storeCount w c count)).held = [s.newLine c] :=
      held_of_owner (w := w) hm (by simp [Log.next, WritePhase.line])
    rw [transit, hnew, transit, hold, List.append_nil]
    rfl
  | push w line =>
    refine .still (by simp) ?_ rfl rfl rfl
    have hl : (s.writers w).line = some line := line_of_eq he.1
    have hfree : (s.next L (.push w line)).held = [] := held_of_free rfl
    rw [transit, transit, hfree, held_of_owner (h.owner hl) hl, List.append_nil]
    exact (List.append_assoc ..).symm
  | put w line =>
    have hl : (s.writers w).line = some line := line_of_eq he
    obtain ⟨file, hfile⟩ := fputs_of_open line hfp
    have hn : s.next L (.put w line) = { (s.fputs line).setWriter w .idle with mtx := none } := rfl
    rw [hn, hfile]
    refine .put w line ?_ ?_ rfl (written_append file) rfl
    · rw [transit, held_of_owner (h.owner hl) hl]
    · rw [transit, held_of_free rfl, List.append_nil]
      rfl
  | asyncPop =>
    obtain ⟨line, rest, hq⟩ := List.exists_cons_of_ne_nil he.2.2
    rw [next_asyncPop hq]
    refine .still (by simp) ?_ rfl rfl rfl
    have hwait : waiting { s with deque := rest, asyncWrite := .put line } = s.waiting := by
      simp [waiting, AsyncWrite.line, he.1, hq]
    rw [transit, hwait]
    rfl
  | asyncPut line =>
    obtain ⟨file, hfile⟩ := fputs_of_open line hfp
    have hn : s.next L (.asyncPut line) = { s.fputs line with asyncWrite := .pop } := rfl
    rw [hn, hfile]
    refine .asyncPut line ?_ rfl (written_append file) rfl
    simp [transit, waiting, held, AsyncWrite.line, he.1]
  | asyncLeave =>
    refine .still (by simp) ?_ rfl rfl rfl
    simp [transit, waiting, held, AsyncWrite.line, Log.next, he.1]
  | close =>
    refine .close (fun hq => ?_) rfl rfl rfl
    simp [transit, waiting, held, Log.next, hq]
  | destroy | again | flush | emptied | join | fclose => exact .still (by simp) rfl rfl rfl rfl

/-! ## Runs without the destructor -/

/-- What holds until the destructor starts. -/
structure Running (s : Log τ) : Prop where
  held : s.Held
  running : s.dtor = .idle
  opened : s.fp ≠ none

theorem running_init (m : Int) (t : Tm) : (init τ m t).Running := ⟨held_init m t, rfl, by simp [init]⟩

theorem fputs_frame : (s.fputs line).dtor = s.dtor ∧ (s.fputs line).fp = s.fp ∧ (s.fputs line).isAsync = s.isAsync := by
  unfold fputs
  split <;> exact ⟨rfl, rfl, rfl⟩

theorem isAsync_next : (s.next L e).isAsync = s.isAsync := by
  cases e with
  | put w line => exact fputs_frame.2.2
  | asyncPut line => exact fputs_frame.2.2
  | asyncPop =>
    unfold Log.next
    cases s.deque with
    | nil => rfl
    | cons line rest => rfl
  | _ => rfl

theorem Running.next (h : s.Running) (hd : e ≠ .destroy) (he : s.Enabled L e) : (s.next L e).Running := by
  have hbusy : s.dtor ≠ .idle → (s.next L e).Running := fun hb => absurd h.running hb
  cases e with
  | destroy => exact absurd rfl hd
  | again => exact hbusy (by simp [he.1])
  | flush => exact hbusy (by simp [show s.dtor = .flush from he])
  | emptied => exact hbusy (by simp [he.1])
  | close => exact hbusy (by simp [show s.dtor = .close from he])
  | join => exact hbusy (by simp [he.1])
  | fclose => exact hbusy (by simp [he.1])
  | reopen w c newFile => exact ⟨h.held.next he, h.running, by simp [Log.next]⟩
  | put w line =>
    refine ⟨h.held.next he, fputs_frame.1.trans h.running, ?_⟩
    show (s.fputs line).fp ≠ none
    rw [fputs_frame.2.1]
    exact h.opened
  | asyncPut line =>
    refine ⟨h.held.next he, fputs_frame.1.trans h.running, ?_⟩
    show (s.fputs line).fp ≠ none
    rw [fputs_frame.2.1]
    exact h.opened
  | asyncPop =>
    obtain ⟨line, rest, hq⟩ := List.exists_cons_of_ne_nil he.2.2
    have hheld := h.held.next he
    rw [next_asyncPop hq] at hheld ⊢
    exact ⟨hheld, h.running, h.opened⟩
  | _ => exact ⟨h.held.next he, h.running, h.opened⟩

end LearningC.Log
