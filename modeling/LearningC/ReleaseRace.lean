import LearningC.Runs
import Mathlib.Data.Fintype.Basic
import Mathlib.Data.Fintype.Card

/-!
# Concurrent calls of `release`

The decrement and the zero test of `shared_ptr_::release` are two atomic steps. With
one handle for each of `n` threads, the object is destroyed once exactly when the last
decrement finds no other thread between its decrement and its test.
-/

namespace LearningC

open Runs

inductive ReleasePc
  | decrement
  | test
  | deletePtr
  | deleteRefCount
  | done
  deriving DecidableEq, Repr

/-- A control block and `n` threads that release it. `late` tells whether a thread has
used `ref_count` after it was deleted. -/
structure ReleaseRace (n : Nat) where
  refCount : Int
  freed : Bool
  pc : Fin n → ReleasePc
  ptrDeletes : List (Fin n)
  refCountDeletes : List (Fin n)
  late : Bool

namespace ReleaseRace

variable {n : Nat}

def init (n : Nat) : ReleaseRace n where
  refCount := n
  freed := false
  pc := fun _ => .decrement
  ptrDeletes := []
  refCountDeletes := []
  late := false

def next (s : ReleaseRace n) (i : Fin n) : ReleaseRace n :=
  match s.pc i with
  | .decrement =>
    { s with refCount := s.refCount - 1, late := s.late || s.freed, pc := Function.update s.pc i .test }
  | .test =>
    { s with
      late := s.late || s.freed
      pc := Function.update s.pc i (if s.refCount = 0 then .deletePtr else .done) }
  | .deletePtr => { s with ptrDeletes := s.ptrDeletes ++ [i], pc := Function.update s.pc i .deleteRefCount }
  | .deleteRefCount =>
    { s with
      refCountDeletes := s.refCountDeletes ++ [i]
      freed := true
      late := s.late || s.freed
      pc := Function.update s.pc i .done }
  | .done => s

def step (s : ReleaseRace n) (i : Fin n) : Option (ReleaseRace n) := if s.pc i = .done then none else some (s.next i)

def AllDone (s : ReleaseRace n) : Prop := ∀ i, s.pc i = .done

/-- One thread has deleted the object and the counter, and nobody used the counter since. -/
def DestroysOnce (s : ReleaseRace n) : Prop :=
  ∃ i, s.ptrDeletes = [i] ∧ s.refCountDeletes = [i] ∧ s.late = false

/-- The last decrement comes when no other thread is about to test the count. -/
def LastAlone (s : ReleaseRace n) (i : Fin n) : Prop :=
  s.pc i = .decrement → s.refCount = 1 → ∀ j, s.pc j ≠ .test

/-! ## The three kinds of states -/

def pending (s : ReleaseRace n) : Finset (Fin n) := Finset.univ.filter fun j => s.pc j = .decrement

structure Counting (s : ReleaseRace n) : Prop where
  count : s.refCount = s.pending.card
  positive : 0 < s.refCount
  pcs : ∀ j, s.pc j = .decrement ∨ s.pc j = .test ∨ s.pc j = .done
  alive : s.freed = false ∧ s.late = false ∧ s.ptrDeletes = [] ∧ s.refCountDeletes = []

/-- Thread `i` made the last decrement, and every other thread is done. -/
structure Ending (s : ReleaseRace n) (i : Fin n) : Prop where
  zero : s.refCount = 0
  others : ∀ j ≠ i, s.pc j = .done
  late : s.late = false
  progress :
    ((s.pc i = .test ∨ s.pc i = .deletePtr) ∧ s.freed = false ∧ s.ptrDeletes = [] ∧ s.refCountDeletes = []) ∨
    (s.pc i = .deleteRefCount ∧ s.freed = false ∧ s.ptrDeletes = [i] ∧ s.refCountDeletes = []) ∨
    (s.pc i = .done ∧ s.ptrDeletes = [i] ∧ s.refCountDeletes = [i])

/-- The thread will delete the counter, or it has. -/
def Committed (s : ReleaseRace n) (i : Fin n) : Prop :=
  s.pc i = .test ∨ s.pc i = .deletePtr ∨ s.pc i = .deleteRefCount ∨ i ∈ s.refCountDeletes

structure Doubled (s : ReleaseRace n) : Prop where
  zero : s.refCount = 0
  decremented : ∀ j, s.pc j ≠ .decrement
  two : ∃ i j, i ≠ j ∧ s.Committed i ∧ s.Committed j

section
variable {s s' : ReleaseRace n} {i : Fin n}

theorem step_next (h : s.step i = some s') : s.pc i ≠ .done ∧ s' = s.next i := by
  unfold step at h
  by_cases hd : s.pc i = .done
  · rw [if_pos hd] at h
    cases h
  · rw [if_neg hd] at h
    cases h
    exact ⟨hd, rfl⟩

theorem counting_init (hn : 1 ≤ n) : Counting (init n) := by
  refine ⟨?_, ?_, fun _ => Or.inl rfl, rfl, rfl, rfl, rfl⟩
  · simp [init, pending]
  · simp only [init]
    omega

theorem next_decrement (hp : s.pc i = .decrement) : s.next i =
    { s with refCount := s.refCount - 1, late := s.late || s.freed, pc := Function.update s.pc i .test } := by
  unfold next
  rw [hp]

theorem next_test (hp : s.pc i = .test) (h0 : s.refCount ≠ 0) :
    s.next i = { s with late := s.late || s.freed, pc := Function.update s.pc i .done } := by
  unfold next
  rw [hp]
  simp only [if_neg h0]

theorem pending_decrement (hp : s.pc i = .decrement) : (s.next i).pending = s.pending.erase i := by
  rw [next_decrement hp]
  ext j
  unfold pending
  by_cases e : j = i
  · subst e; simp
  · simp [e]

theorem card_pending (hp : s.pc i = .decrement) : (s.next i).pending.card + 1 = s.pending.card := by
  have hmem : i ∈ s.pending := by simp [pending, hp]
  rw [pending_decrement hp, Finset.card_erase_add_one hmem]

theorem Counting.test (h : Counting s) (hp : s.pc i = .test) : Counting (s.next i) := by
  obtain ⟨hfreed, hlate, hptr, href⟩ := h.alive
  have hpos := h.positive
  have hpend : (s.next i).pending = s.pending := by
    rw [next_test hp (by omega)]
    ext j
    unfold pending
    by_cases e : j = i
    · subst e; simp [hp]
    · simp [e]
  refine ⟨?_, ?_, ?_, ?_⟩
  · rw [hpend, ← h.count, next_test hp (by omega)]
  · rw [next_test hp (by omega)]
    exact hpos
  · intro j
    rw [next_test hp (by omega)]
    by_cases e : j = i
    · subst e; simp
    · simpa [e] using h.pcs j
  · rw [next_test hp (by omega)]
    simp [hfreed, hlate, hptr, href]

theorem Counting.decrement (h : Counting s) (hp : s.pc i = .decrement) (hone : s.refCount ≠ 1) :
    Counting (s.next i) := by
  obtain ⟨hfreed, hlate, hptr, href⟩ := h.alive
  have hcard := card_pending hp
  have hcount := h.count
  have hpos := h.positive
  have hnext : (s.next i).refCount = s.refCount - 1 := by rw [next_decrement hp]
  refine ⟨by omega, by omega, ?_, ?_⟩
  · intro j
    rw [next_decrement hp]
    by_cases e : j = i
    · subst e; simp
    · simpa [e] using h.pcs j
  · rw [next_decrement hp]
    simp [hfreed, hlate, hptr, href]

theorem Counting.last_pending (h : Counting s) (hp : s.pc i = .decrement) (hone : s.refCount = 1) :
    ∀ j ≠ i, s.pc j ≠ .decrement := by
  intro j hj hjp
  have hcard := card_pending hp
  have hcount := h.count
  have hempty : (s.next i).pending = ∅ := Finset.card_eq_zero.mp (by omega)
  have hmem : j ∈ (s.next i).pending := by
    rw [pending_decrement hp]
    simp [pending, hj, hjp]
  rw [hempty] at hmem
  simp at hmem

theorem Counting.ending (h : Counting s) (hp : s.pc i = .decrement) (hone : s.refCount = 1)
    (halone : ∀ j, s.pc j ≠ .test) : Ending (s.next i) i := by
  obtain ⟨hfreed, hlate, hptr, href⟩ := h.alive
  rw [next_decrement hp]
  refine ⟨by simp [hone], ?_, by simp [hfreed, hlate], Or.inl ⟨Or.inl (by simp), hfreed, hptr, href⟩⟩
  intro j hj
  have hjp : s.pc j = .done := by
    rcases h.pcs j with e | e | e
    · exact absurd e (h.last_pending hp hone j hj)
    · exact absurd e (halone j)
    · exact e
  simpa [hj] using hjp

theorem Counting.doubled (h : Counting s) (hp : s.pc i = .decrement) (hone : s.refCount = 1) {j : Fin n}
    (hj : s.pc j = .test) : Doubled (s.next i) := by
  have hji : j ≠ i := fun e => by rw [e, hp] at hj; cases hj
  rw [next_decrement hp]
  refine ⟨by simp [hone], ?_, j, i, hji, Or.inl (by simp [hji, hj]), Or.inl (by simp)⟩
  intro k
  by_cases e : k = i
  · subst e; simp
  · simpa [e] using h.last_pending hp hone k e

theorem Counting.step (h : Counting s) (hs : s.step i = some s') :
    (Counting s' ∨ ∃ w, Ending s' w) ∧ LastAlone s i ∨ Doubled s' ∧ ¬ LastAlone s i := by
  obtain ⟨hd, rfl⟩ := step_next hs
  rcases h.pcs i with hp | hp | hp
  · by_cases hone : s.refCount = 1
    · by_cases halone : ∀ j, s.pc j ≠ .test
      · exact Or.inl ⟨Or.inr ⟨i, h.ending hp hone halone⟩, fun _ _ => halone⟩
      · push Not at halone
        obtain ⟨j, hj⟩ := halone
        exact Or.inr ⟨h.doubled hp hone hj, fun hl => hl hp hone j hj⟩
    · exact Or.inl ⟨Or.inl (h.decrement hp hone), fun _ e => absurd e hone⟩
  · exact Or.inl ⟨Or.inl (h.test hp), fun e => by rw [hp] at e; cases e⟩
  · exact absurd hp hd

theorem Ending.step {w : Fin n} (h : Ending s w) (hs : s.step i = some s') : Ending s' w ∧ LastAlone s i := by
  obtain ⟨hd, rfl⟩ := step_next hs
  have hi : i = w := by
    by_cases e : i = w
    · exact e
    · exact absurd (h.others i e) hd
  subst hi
  have hothers : ∀ j ≠ i, (s.next i).pc j = .done := by
    intro j hj
    unfold next
    cases hp : s.pc i <;> simp [hj, h.others j hj]
  have halone : LastAlone s i := by
    intro _ e
    rw [h.zero] at e
    cases e
  refine ⟨?_, halone⟩
  rcases h.progress with ⟨hp | hp, hf, hptr, href⟩ | ⟨hp, hf, hptr, href⟩ | ⟨hp, -⟩
  · refine ⟨?_, hothers, ?_, Or.inl ?_⟩
    all_goals unfold next; rw [hp]; simp [h.zero, h.late, hf, hptr, href]
  · refine ⟨?_, hothers, ?_, Or.inr (Or.inl ?_)⟩
    all_goals unfold next; rw [hp]; simp [h.zero, h.late, hf, hptr, href]
  · refine ⟨?_, hothers, ?_, Or.inr (Or.inr ?_)⟩
    all_goals unfold next; rw [hp]; simp [h.zero, h.late, hf, hptr, href]
  · exact absurd hp hd

theorem next_committed (h0 : s.refCount = 0) (hp : s.pc i ≠ .decrement) (hd : s.pc i ≠ .done) :
    (s.next i).refCount = 0 ∧ (s.next i).Committed i ∧ (s.next i).pc i ≠ .decrement ∧
      ∀ j ≠ i, (s.next i).pc j = s.pc j ∧ (j ∈ s.refCountDeletes → j ∈ (s.next i).refCountDeletes) := by
  unfold Committed next
  cases hpc : s.pc i with
  | decrement => exact absurd hpc hp
  | test => simp +contextual [h0]
  | deletePtr => simp +contextual [h0]
  | deleteRefCount => simp +contextual [h0]
  | done => exact absurd hpc hd

theorem Doubled.step (h : Doubled s) (hs : s.step i = some s') : Doubled s' := by
  obtain ⟨a, b, hab, ha, hb⟩ := h.two
  obtain ⟨hd, rfl⟩ := step_next hs
  obtain ⟨hzero, hi, hpi, hother⟩ := next_committed h.zero (h.decremented i) hd
  have hkeep : ∀ j, s.Committed j → (s.next i).Committed j := by
    intro j hj
    by_cases e : j = i
    · rw [e]
      exact hi
    · obtain ⟨hpc, hmem⟩ := hother j e
      unfold Committed at hj ⊢
      rw [hpc]
      exact hj.imp_right (Or.imp_right (Or.imp_right hmem))
  refine ⟨hzero, ?_, a, b, hab, hkeep a ha, hkeep b hb⟩
  intro j
  by_cases e : j = i
  · rw [e]
    exact hpi
  · rw [(hother j e).1]
    exact h.decremented j

/-! ## Whole runs -/

theorem Counting.not_allDone (h : Counting s) : ¬ s.AllDone := by
  intro hd
  have hempty : s.pending = ∅ := by
    rw [pending, Finset.filter_eq_empty_iff]
    intro j _
    rw [hd j]
    simp
  have hc := h.count
  have hpos := h.positive
  rw [hempty, Finset.card_empty] at hc
  omega

theorem Ending.destroysOnce {w : Fin n} (h : Ending s w) (hd : s.AllDone) : s.DestroysOnce := by
  have hw := hd w
  rcases h.progress with ⟨hp | hp, -⟩ | ⟨hp, -⟩ | ⟨-, hptr, href⟩
  · rw [hp] at hw; cases hw
  · rw [hp] at hw; cases hw
  · rw [hp] at hw; cases hw
  · exact ⟨w, hptr, href, h.late⟩

theorem Doubled.not_destroysOnce (h : Doubled s) (hd : s.AllDone) : ¬ s.DestroysOnce := by
  intro ho
  obtain ⟨w, -, href, -⟩ := ho
  obtain ⟨i, j, hij, hi, hj⟩ := h.two
  have key : ∀ k, s.Committed k → k = w := by
    intro k hk
    unfold Committed at hk
    rw [hd k, href] at hk
    simpa using hk
  exact hij ((key i hi).trans (key j hj).symm)

end

theorem lastAlone_or_doubled {s s' : ReleaseRace n} {i : Fin n} (h : Counting s ∨ ∃ w, Ending s w)
    (hs : s.step i = some s') :
    LastAlone s i ∧ (Counting s' ∨ ∃ w, Ending s' w) ∨ ¬ LastAlone s i ∧ Doubled s' := by
  rcases h with h | ⟨w, h⟩
  · exact (h.step hs).imp And.symm And.symm
  · exact Or.inl ⟨(h.step hs).2, Or.inr ⟨w, (h.step hs).1⟩⟩

/-- **Release.** When all `n` threads have released their handles, the object has been
destroyed once exactly when the last decrement met no thread before its test. -/
theorem destroysOnce_iff_lastAlone (hn : 1 ≤ n) {es : List (Fin n)} {s : ReleaseRace n}
    (hr : run step (init n) es = some s) (hd : s.AllDone) :
    s.DestroysOnce ↔ Along step (fun s i _ => LastAlone s i) (init n) es := by
  rcases along_or_bad (fun _ _ _ h hs => lastAlone_or_doubled h hs) (fun _ _ _ h hs => Doubled.step h hs)
    es _ s (Or.inl (counting_init hn)) hr with ⟨ha, h | ⟨w, h⟩⟩ | ⟨ha, h⟩
  · exact absurd hd h.not_allDone
  · exact iff_of_true (h.destroysOnce hd) ha
  · exact iff_of_false (h.not_destroysOnce hd) ha

theorem destroysOnce_iff_lastAlone_sequential :
    ∃ s, run step (init 2) [0, 0, 1, 1, 1, 1] = some s ∧
      (s.DestroysOnce ↔ Along step (fun s i _ => LastAlone s i) (init 2) [0, 0, 1, 1, 1, 1]) :=
  ⟨_, rfl, destroysOnce_iff_lastAlone (by decide) rfl (by unfold AllDone; decide)⟩

/-- Two threads that both decrement before either of them tests. -/
theorem release_twice : ¬ ∀ n, 1 ≤ n → ∀ (es : List (Fin n)) (s : ReleaseRace n),
    run step (init n) es = some s → s.AllDone → s.DestroysOnce := by
  intro h
  obtain ⟨i, hptr, -⟩ := h 2 (by decide) [0, 1, 0, 1, 0, 0, 1, 1] _ rfl (by unfold AllDone; decide)
  cases hptr

end ReleaseRace

end LearningC
