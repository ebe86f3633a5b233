import LearningC.LogSync

/-!
# The change of the day

With fewer lines a day than `MAX_LINES`, a rotation is meant to open the base file of the
day of its write. It does so in runs without a race at the change of the day, and as long
as every change of the date is a change of the day of the month.
-/

namespace LearningC

open Runs

variable {τ : Type} {L : LogLimits} {s : Log τ} {e : LogStep τ} {w v : Nat} {p : WritePhase τ} {line : LogLine τ}
  {c : LogCall τ} {m : Int} {t : Tm}

/-- Past the outer test, and not yet past the inner one. -/
def WritePhase.between : WritePhase τ → Option (LogCall τ)
  | .relock c | .innerTest c => some c
  | _ => none

/-- With `toDay` set, and the file not yet opened. -/
def WritePhase.switching : WritePhase τ → Option (LogCall τ)
  | .resetCount c | .reopen c _ => some c
  | _ => none

/-- From the lock to the end of `lineCount++`. -/
def WritePhase.Incrementing : WritePhase τ → Prop
  | .readCount _ | .storeCount _ _ => True
  | _ => False

/-- Between the two reads of `lineCount` in the test, or in `lineCount++`. -/
def WritePhase.Counting : WritePhase τ → Prop
  | .testMultiple _ => True
  | p => p.Incrementing

def LogStep.reading : LogStep τ → Option Tm
  | .call _ c => some c.time
  | _ => none

/-- The date of a line that is about to be formatted. -/
def LogStep.locking : LogStep τ → Option Tm
  | .lock _ c => some c.time
  | _ => none

/-- No later day. -/
def Tm.NoLater (a b : Tm) : Prop :=
  a.year < b.year ∨ a.year = b.year ∧ (a.mon < b.mon ∨ a.mon = b.mon ∧ a.mday ≤ b.mday)

instance (a b : Tm) : Decidable (a.NoLater b) :=
  inferInstanceAs (Decidable (a.year < b.year ∨ a.year = b.year ∧ (a.mon < b.mon ∨ a.mon = b.mon ∧ a.mday ≤ b.mday)))

namespace Log

/-- The number of lines of the date `d`. -/
def linesOf (d : Tm) (s : Log τ) : Nat := (s.formatted.filter fun line => line.call.time = d).length

/-- Fewer lines than `MAX_LINES` of every date. -/
def Sparse (L : LogLimits) (s : Log τ) : Prop := ∀ d, s.linesOf d < L.maxLines

/-- Every rotation has opened the base file of its write, and every line is in the base file of its date. -/
structure ByDay (s : Log τ) : Prop where
  rotated : ∀ o ∈ s.opened, o.file = .base o.time
  placed : ∀ p ∈ s.appended, p.2 = .base p.1.call.time

/-- Writer `v` is in no race with the step: it is not to make the inner test for the day to
which `toDay` is set, nor on the way from one date to another; it is not about to go on with
an old value of `lineCount`. -/
def Calm (s : Log τ) (v : Nat) : LogStep τ → Prop
  | .setToDay w c => v ≠ w → (∀ c' ∈ (s.writers v).between, c'.time.mday ≠ c.time.mday) ∧
      ∀ c' ∈ (s.writers v).switching, c'.time = c.time
  | .resetCount w _ => v ≠ w → ¬ (s.writers v).Counting
  | .lock _ _ => (s.writers v).switching = none
  | _ => True

/-- Nobody is in a race with the step, and a line is formatted when `toDay` was last set for
its date. -/
def NoRace (s : Log τ) (e : LogStep τ) : Prop := (∀ v, s.Calm v e) ∧ ∀ d ∈ e.locking, s.since = d

/-- What a phase knows of the date and of the count. -/
def DatedPhase (s : Log τ) : WritePhase τ → Prop
  | .testMultiple _ => s.lineCount ≠ 0
  | .relock c | .innerTest c => c.time.mday ≠ s.toDay
  | .nameByCount _ => False
  | .resetCount c => c.time = s.since
  | .reopen c newFile => c.time = s.since ∧ newFile = .base c.time ∧ s.lineCount = 0
  | .readCount c => s.fp = some (.base c.time) ∧ s.lineCount ≤ s.linesOf c.time
  | .storeCount c count => s.fp = some (.base c.time) ∧ s.lineCount ≤ s.linesOf c.time ∧ count = s.lineCount
  | .choose line | .push line | .put line => s.fp = some (.base line.call.time)
  | _ => True

structure Dated (s : Log τ) : Prop extends Sync s, ByDay s where
  mday : s.since.mday = s.toDay
  phases : ∀ w, s.DatedPhase (s.writers w)
  count : ∃ d, s.lineCount ≤ s.linesOf d
  reset : ∀ v c newFile, s.writers v = .reopen c newFile → ∀ w, ¬ (s.writers w).Incrementing
  settled : (∀ w, (s.writers w).switching = none) → s.fp = some (.base s.since) ∧ s.lineCount ≤ s.linesOf s.since

theorem dated_init (hm : m ≤ 0) : (init τ m t).Dated where
  toSync := sync_init hm
  toByDay := ⟨by simp [init], by simp [init]⟩
  mday := rfl
  phases := fun _ => trivial
  count := ⟨t, Nat.zero_le _⟩
  reset := fun _ _ _ hv => by cases hv
  settled := fun _ => ⟨rfl, Nat.zero_le _⟩

/-! ## The phases -/

theorem Dated.phase_of (h : s.Dated) (hp : s.writers w = p) : s.DatedPhase p := hp ▸ h.phases w

theorem Dated.not_multiple (h : s.Dated) (hsp : s.Sparse L) (h0 : s.lineCount ≠ 0) : s.lineCount % L.maxLines ≠ 0 := by
  obtain ⟨d, hd⟩ := h.count
  rw [Nat.mod_eq_of_lt (Nat.lt_of_le_of_lt hd (hsp d))]
  exact h0

theorem Dated.phaseAfter (h : s.Dated) (hsp : s.Sparse L) (hr : s.NoRace e) (he : s.Enabled L e) :
    (s.next L e).DatedPhase (s.phaseAfter L e) := by
  cases e with
  | test w c =>
    simp only [Log.phaseAfter]
    split
    · next hne => exact hne.symm
    · trivial
  | testCount w c =>
    simp only [Log.phaseAfter]
    split
    · next h0 => exact h0
    · trivial
  | testMultiple w c =>
    have h0 : s.lineCount ≠ 0 := h.phase_of he
    simp only [Log.phaseAfter, h.not_multiple hsp h0, if_false]
    trivial
  | relock w c =>
    have hne := h.phase_of he.1
    exact hne
  | innerTest w c =>
    have hne : c.time.mday ≠ s.toDay := h.phase_of he
    simp only [Log.phaseAfter, ne_eq, hne.symm, not_false_eq_true, if_true]
    trivial
  | setToDay w c => exact rfl
  | resetCount w c => exact ⟨h.phase_of he, rfl, rfl⟩
  | nameByCount w c => exact (h.phase_of he).elim
  | lock w c =>
    obtain ⟨hfp, hle⟩ := h.settled hr.1
    rw [hr.2 c.time rfl] at hfp hle
    exact ⟨hfp, hle⟩
  | readCount w c =>
    obtain ⟨hfp, hle⟩ := h.phase_of he
    exact ⟨hfp, hle, rfl⟩
  | storeCount w c count => exact (h.phase_of he).1
  | choose w line =>
    have hfp : s.fp = some (.base line.call.time) := h.phase_of he
    simp only [Log.phaseAfter]
    split <;> exact hfp
  | _ => trivial

theorem DatedPhase.setToDay (h : s.DatedPhase p) (hb : ∀ c' ∈ p.between, c'.time.mday ≠ c.time.mday)
    (hs : ∀ c' ∈ p.switching, c'.time = c.time) : (s.next L (.setToDay w c)).DatedPhase p := by
  cases p with
  | relock c' => exact hb c' rfl
  | innerTest c' => exact hb c' rfl
  | resetCount c' => exact hs c' rfl
  | reopen c' newFile => exact ⟨hs c' rfl, h.2⟩
  | _ => exact h

theorem DatedPhase.resetCount (h : s.DatedPhase p) (hp : ¬ p.Counting) :
    (s.next L (.resetCount w c)).DatedPhase p := by
  cases p with
  | testMultiple | readCount | storeCount => exact absurd trivial hp
  | reopen c' newFile => exact ⟨h.1, h.2.1, rfl⟩
  | _ => exact h

theorem DatedPhase.reopen {newFile : FileName} (h : s.DatedPhase p) (hp : ¬ p.Holding) :
    (s.next L (.reopen w c newFile)).DatedPhase p := by
  cases p with
  | readCount | storeCount | choose | push | put => exact absurd trivial hp
  | _ => exact h

theorem DatedPhase.storeCount {count : Nat} (h : s.DatedPhase p) (hp : ¬ p.Holding)
    (hr : ∀ c newFile, p ≠ .reopen c newFile) : (s.next L (.storeCount w c count)).DatedPhase p := by
  cases p with
  | testMultiple c' => exact Nat.succ_ne_zero count
  | reopen c' newFile => exact absurd rfl (hr c' newFile)
  | readCount | storeCount | choose | push | put => exact absurd trivial hp
  | _ => exact h

theorem Dated.phase_of_ne (h : s.Dated) (hr : s.NoRace e) (he : s.Enabled L e) (hw : e.writer = some w) (hv : v ≠ w) :
    (s.next L e).DatedPhase (s.writers v) := by
  have hp := h.phases v
  cases e with
  | setToDay u c =>
    cases hw
    obtain ⟨hb, hs⟩ := hr.1 v hv
    exact DatedPhase.setToDay hp hb hs
  | resetCount u c =>
    cases hw
    exact DatedPhase.resetCount hp (hr.1 v hv)
  | reopen u c newFile =>
    refine DatedPhase.reopen hp fun hh => ?_
    cases he.2.symm.trans ((h.held v).mpr hh)
  | storeCount u c count =>
    cases hw
    have hu : s.writers w = .storeCount c count := he
    refine DatedPhase.storeCount hp (fun hh => hv (h.held.alone hh (by rw [hu]; trivial))) fun c' newFile heq => ?_
    exact h.reset v c' newFile heq w (by rw [hu]; trivial)
  | put u line =>
    obtain ⟨file, hfile⟩ := h.open_file
    rw [next_put hfile]
    exact hp
  | call | test | testCount | testMultiple | relock | innerTest | nameByCount | lock | readCount | choose | push => exact hp
  | _ => cases hw

theorem Dated.phases_next (h : s.Dated) (hsp : s.Sparse L) (hr : s.NoRace e) (he : s.Enabled L e)
    (hw : e.writer = some w) (v : Nat) : (s.next L e).DatedPhase ((s.next L e).writers v) := by
  by_cases hv : v = w
  · rw [hv, writers_next_self hw]
    exact h.phaseAfter hsp hr he
  · rw [writers_next_of_ne (hw ▸ fun heq => hv (Option.some.inj heq).symm)]
    exact h.phase_of_ne hr he hw hv

/-! ## The file and the count -/

theorem linesOf_storeCount {count : Nat} : (s.next L (.storeCount w c count)).linesOf c.time = s.linesOf c.time + 1 := by
  simp [linesOf, Log.next, newLine]

theorem Dated.lineCount_storeCount {count : Nat} (h : s.Dated) (he : s.Enabled L (.storeCount w c count)) :
    (s.next L (.storeCount w c count)).lineCount ≤ (s.next L (.storeCount w c count)).linesOf c.time := by
  obtain ⟨-, hle, hcount⟩ := h.phase_of he
  rw [linesOf_storeCount]
  show count + 1 ≤ _
  rw [hcount]
  exact Nat.succ_le_succ hle

theorem Dated.count_next (h : s.Dated) (he : s.Enabled L e) (hw : e.writer = some w) :
    ∃ d, (s.next L e).lineCount ≤ (s.next L e).linesOf d := by
  cases e with
  | resetCount u c => exact ⟨s.since, Nat.zero_le _⟩
  | storeCount u c count => exact ⟨c.time, h.lineCount_storeCount he⟩
  | put u line =>
    obtain ⟨file, hfile⟩ := h.open_file
    rw [next_put hfile]
    exact h.count
  | call | test | testCount | testMultiple | relock | innerTest | setToDay | nameByCount | reopen | lock | readCount
  | choose | push => exact h.count
  | _ => cases hw

theorem incrementing_of_next (hu : ((s.next L e).writers v).Incrementing) :
    (s.writers v).Incrementing ∧ e.writer ≠ some v ∨ (∃ c, e = .readCount v c) ∨ ∃ c, e = .lock v c := by
  by_cases hv : e.writer = some v
  · rw [writers_next_self hv] at hu
    refine Or.inr ?_
    cases e with
    | readCount u c =>
      cases hv
      exact Or.inl ⟨c, rfl⟩
    | lock u c =>
      cases hv
      exact Or.inr ⟨c, rfl⟩
    | test | testCount | testMultiple | innerTest | choose =>
      simp only [Log.phaseAfter] at hu
      split at hu <;> exact hu.elim
    | _ => exact hu.elim
  · rw [writers_next_of_ne hv] at hu
    exact Or.inl ⟨hu, hv⟩

theorem reopen_of_next {newFile : FileName} (hp : (s.next L e).writers v = .reopen c newFile) :
    s.writers v = .reopen c newFile ∨ (∃ c', e = .resetCount v c') ∨ ∃ c', e = .nameByCount v c' := by
  by_cases hv : e.writer = some v
  · rw [writers_next_self hv] at hp
    refine Or.inr ?_
    cases e with
    | resetCount u c' =>
      cases hv
      exact Or.inl ⟨c', rfl⟩
    | nameByCount u c' =>
      cases hv
      exact Or.inr ⟨c', rfl⟩
    | test | testCount | testMultiple | innerTest | choose =>
      simp only [Log.phaseAfter] at hp
      split at hp <;> cases hp
    | _ => cases hp
  · rw [writers_next_of_ne hv] at hp
    exact Or.inl hp

/-- While a file waits to be opened, nobody adds to `lineCount`. -/
theorem Dated.reset_next {newFile : FileName} (h : s.Dated) (hr : s.NoRace e) (he : s.Enabled L e)
    (hv : (s.next L e).writers v = .reopen c newFile) (u : Nat) : ¬ ((s.next L e).writers u).Incrementing := by
  intro hu
  rcases reopen_of_next hv with hbefore | ⟨c', rfl⟩ | ⟨c', rfl⟩
  · rcases incrementing_of_next hu with ⟨hu, -⟩ | ⟨c', rfl⟩ | ⟨c', rfl⟩
    · exact h.reset v c newFile hbefore u hu
    · exact h.reset v c newFile hbefore u (by rw [show s.writers u = _ from he]; trivial)
    · have hnone : (s.writers v).switching = none := hr.1 v
      rw [hbefore] at hnone
      cases hnone
  · rcases incrementing_of_next hu with ⟨hu, hne⟩ | ⟨c'', heq⟩ | ⟨c'', heq⟩
    · refine hr.1 u (fun huv => hne (congrArg some huv.symm)) ?_
      cases hp : s.writers u with
      | readCount | storeCount => trivial
      | _ =>
        rw [hp] at hu
        exact hu.elim
    · cases heq
    · cases heq
  · exact (h.phase_of he).elim

theorem none_switching (hw : e.writer = some w) (hself : (s.writers w).switching = none)
    (hnone : ∀ v, ((s.next L e).writers v).switching = none) (v : Nat) : (s.writers v).switching = none := by
  by_cases hv : v = w
  · rw [hv]
    exact hself
  · rw [← writers_next_of_ne (L := L) (hw ▸ fun heq => hv (Option.some.inj heq).symm)]
    exact hnone v

theorem Dated.settled_next (h : s.Dated) (he : s.Enabled L e) (hw : e.writer = some w)
    (hnone : ∀ v, ((s.next L e).writers v).switching = none) :
    (s.next L e).fp = some (.base (s.next L e).since) ∧
      (s.next L e).lineCount ≤ (s.next L e).linesOf (s.next L e).since := by
  have hquiet : ∀ {q : WritePhase τ}, s.writers w = q → q.switching = none →
      s.fp = some (.base s.since) ∧ s.lineCount ≤ s.linesOf s.since :=
    fun hq hs => h.settled (none_switching hw ((congrArg WritePhase.switching hq).trans hs) hnone)
  have hself := hnone w
  rw [writers_next_self hw] at hself
  cases e with
  | setToDay u c => cases hself
  | resetCount u c => cases hself
  | reopen u c newFile =>
    obtain ⟨hsince, hfile, hzero⟩ : c.time = s.since ∧ newFile = .base c.time ∧ s.lineCount = 0 := h.phase_of he.1
    refine ⟨congrArg some (hfile.trans (congrArg FileName.base hsince)), ?_⟩
    show s.lineCount ≤ _
    rw [hzero]
    exact Nat.zero_le _
  | storeCount u c count =>
    cases hw
    obtain ⟨hfp, -⟩ := h.phase_of he
    obtain ⟨hsince, -⟩ := hquiet he rfl
    -- the file is the one that the writer has locked for
    have hdate : c.time = s.since := FileName.base.inj (Option.some.inj (hfp.symm.trans hsince))
    refine ⟨hsince, ?_⟩
    show (s.next L (.storeCount w c count)).lineCount ≤ (s.next L (.storeCount w c count)).linesOf s.since
    rw [← hdate]
    exact h.lineCount_storeCount he
  | put u line =>
    cases hw
    obtain ⟨file, hfile⟩ := h.open_file
    have hsame := hquiet he rfl
    rw [next_put hfile]
    exact hsame
  | nameByCount u c => exact (h.phase_of he).elim
  | relock | lock | push =>
    cases hw
    exact hquiet he.1 rfl
  | call | test | testCount | testMultiple | innerTest | readCount | choose =>
    cases hw
    exact hquiet he rfl
  | _ => cases hw

theorem Dated.byDay_next (h : s.Dated) (he : s.Enabled L e) (hw : e.writer = some w) : (s.next L e).ByDay := by
  cases e with
  | reopen u c newFile =>
    refine ⟨fun o ho => ?_, h.placed⟩
    rcases List.mem_append.mp ho with ho | ho
    · exact h.rotated o ho
    · rw [List.mem_singleton.mp ho]
      exact (h.phase_of he.1).2.1
  | put u line =>
    have hfp : s.fp = some (.base line.call.time) := h.phase_of he
    rw [next_put hfp]
    refine ⟨h.rotated, fun p hp => ?_⟩
    rcases List.mem_append.mp hp with hp | hp
    · exact h.placed p hp
    · rw [List.mem_singleton.mp hp]
  | call | test | testCount | testMultiple | relock | innerTest | setToDay | resetCount | nameByCount | lock | readCount
  | storeCount | choose | push => exact ⟨h.rotated, h.placed⟩
  | _ => cases hw

theorem Dated.mday_next (h : s.Dated) (hw : e.writer = some w) : (s.next L e).since.mday = (s.next L e).toDay := by
  cases e with
  | put u line =>
    obtain ⟨file, hfile⟩ := h.open_file
    rw [next_put hfile]
    exact h.mday
  | setToDay u c => rfl
  | call | test | testCount | testMultiple | relock | innerTest | resetCount | nameByCount | reopen | lock | readCount
  | storeCount | choose | push => exact h.mday
  | _ => cases hw

theorem Dated.next (h : s.Dated) (hsp : s.Sparse L) (hd : e ≠ .destroy) (hr : s.NoRace e) (he : s.Enabled L e) :
    (s.next L e).Dated := by
  obtain ⟨w, hw⟩ := h.writer hd he
  exact ⟨h.toSync.next hd he, h.byDay_next he hw, h.mday_next hw, h.phases_next hsp hr he hw, h.count_next he hw,
    fun v c newFile hv => h.reset_next hr he hv, h.settled_next he hw⟩

/-! ## Runs -/

theorem sparse_of_length (h : s.formatted.length < L.maxLines) : s.Sparse L :=
  fun _ => Nat.lt_of_le_of_lt (List.length_filter_le _ _) h

theorem sparse_along [DecidableEq τ] {es : List (LogStep τ)}
    (h : Along (step L) (fun _ _ s' => s'.formatted.length < L.maxLines) (init τ m t) es) :
    Always (step L) (Sparse L) (init τ m t) es := by
  refine ⟨sparse_of_length L.maxLines_pos, ?_⟩
  exact Along.imp (I := fun _ => True) (U := fun _ => True) (fun _ _ _ _ _ _ hl => ⟨sparse_of_length hl, trivial⟩) es _
    (fun _ _ => trivial) trivial h

instance : (p : WritePhase τ) → Decidable p.Counting
  | .testMultiple _ | .readCount _ | .storeCount .. => isTrue trivial
  | .idle | .test _ | .testCount _ | .relock _ | .innerTest _ | .setToDay _ | .resetCount _ | .nameByCount _ | .reopen ..
  | .lock _ | .choose _ | .push _ | .put _ => isFalse id

instance [DecidableEq τ] (s : Log τ) (v : Nat) : (e : LogStep τ) → Decidable (s.Calm v e)
  | .setToDay w c => inferInstanceAs (Decidable (v ≠ w → (∀ c' ∈ (s.writers v).between, c'.time.mday ≠ c.time.mday) ∧
      ∀ c' ∈ (s.writers v).switching, c'.time = c.time))
  | .resetCount w _ => inferInstanceAs (Decidable (v ≠ w → ¬ (s.writers v).Counting))
  | .lock .. => inferInstanceAs (Decidable ((s.writers v).switching = none))
  | .call .. | .test .. | .testCount .. | .testMultiple .. | .relock .. | .innerTest .. | .nameByCount .. | .reopen ..
  | .readCount .. | .storeCount .. | .choose .. | .push .. | .put .. | .asyncPop | .asyncPut _ | .asyncLeave | .destroy
  | .again | .flush | .emptied | .close | .join | .fclose => isTrue trivial

theorem calm_of_idle (hv : s.writers v = .idle) (e : LogStep τ) : s.Calm v e := by
  cases e with
  | setToDay w c =>
    refine fun _ => ⟨fun c' hc => ?_, fun c' hc => ?_⟩
    all_goals
      rw [hv] at hc
      cases hc
  | resetCount w c => exact fun _ hc => by rwa [hv] at hc
  | lock w c => exact congrArg WritePhase.switching hv
  | _ => trivial

/-- A look at the first `n` writers is enough while the others have not been called. -/
theorem noRace_of_below [DecidableEq τ] {n : Nat} {es : List (LogStep τ)}
    (hn : ∀ e ∈ es, ∀ w, e.writer = some w → w < n)
    (h : Along (step L) (fun s e _ => (∀ v < n, s.Calm v e) ∧ ∀ d ∈ e.locking, s.since = d) (init τ m t) es) :
    Along (step L) (fun s e _ => s.NoRace e) (init τ m t) es := by
  refine Along.imp (I := Quiet n) (fun s e s' hq hw hs hb => ?_) es _ hn (quiet_init n m t) h
  obtain ⟨he, rfl⟩ := step_next hs
  refine ⟨⟨fun v => ?_, hb.2⟩, hq.next hw⟩
  rcases Nat.lt_or_ge v n with hlt | hge
  · exact hb.1 v hlt
  · exact calm_of_idle (hq v hge) e

/-- The next line comes a month later. -/
def monthGapRun : List (LogStep Nat) :=
  let c : LogCall Nat := { time := ⟨124, 1, 15⟩, text := 0 }
  plainTest 0 c 0 ++ formatLine 0 ⟨0, c⟩ 0 ++ [.put 0 ⟨0, c⟩]

/-- A line on the day of `init`, and one on the next day. -/
def nextDayRun (day next : Tm) : List (LogStep Nat) :=
  let c : LogCall Nat := { time := day, text := 0 }
  let d : LogCall Nat := { time := next, text := 1 }
  plainTest 0 c 0 ++ formatLine 0 ⟨0, c⟩ 0 ++ [.put 0 ⟨0, c⟩] ++
    [.call 0 d, .test 0 d, .relock 0 d, .innerTest 0 d, .setToDay 0 d, .resetCount 0 d, .reopen 0 d (.base next)] ++
    formatLine 0 ⟨1, d⟩ 0 ++ [.put 0 ⟨1, d⟩]

end Log

end LearningC
