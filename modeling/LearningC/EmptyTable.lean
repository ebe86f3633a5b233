import LearningC.LockRuns

/-!
# A lock table without slots

`lock_num` is `0` in a zeroed task graph and nothing changes it. Both searches then
return `-1`, and the first `lock_after` writes to `lock_list[-1]`.
-/

namespace LearningC

open TaskGraph Runs

namespace Sys

/-- The hook used no index outside `lock_list`, and `search_lock` finds a mutex after
`lock_after`. -/
def IndicesInRange (_ : Sys) (e : Event) (s' : Sys) : Prop :=
  ∃ tg, s'.tg = some tg ∧ ∀ t l, e = .lockAfter t l → tg.searchLock l ≠ none

/-- No thread has come to `lock_after` yet. -/
structure Fresh (s : Sys) : Prop where
  empty : ∃ tg, s.tg = some tg ∧ tg.lockList = []
  owned : ∀ t l, s.owner l = some t → s.phase t = .granted l
  unreleased : ∀ t l, s.phase t ≠ .released l

section
variable {tg : TaskGraph} (h : tg.lockList = [])
include h

theorem searchLock_empty (l : Nat) : tg.searchLock l = none := by
  unfold searchLock
  rw [h]
  rfl

theorem searchEmptyLock_empty (l : Nat) : tg.searchEmptyLock l = none := by
  unfold searchEmptyLock
  rw [h]
  rfl

theorem lockBefore_empty (t l : Nat) : lockBefore t l tg = some tg := by
  unfold lockBefore
  rw [searchLock_empty h]

theorem lockAfter_empty (t l : Nat) : lockAfter t l tg = none := by
  unfold lockAfter
  rw [searchLock_empty h]
  simp only [searchEmptyLock_empty h, Option.map_none]

end

theorem fresh_init : Fresh (init 0) := by
  constructor
  · exact ⟨_, rfl, rfl⟩
  · intro t l h
    cases h
  · intro t l h
    cases h

theorem Fresh.step {s s' : Sys} {e : Event} (hf : Fresh s) (hs : s.step e = some s') :
    (IndicesInRange s e s' ↔ ∀ t l, e ≠ .lockAfter t l) ∧ (IndicesInRange s e s' → Fresh s') := by
  obtain ⟨he, rfl⟩ := step_next hs
  obtain ⟨tg, htg, hempty⟩ := hf.empty
  cases e with
  | lockBefore t l =>
    have hp : s.phase t = .idle := he
    have htg' : (s.next (.lockBefore t l)).tg = some tg := by
      unfold next
      simp [htg, lockBefore_empty hempty]
    refine ⟨iff_of_true ⟨tg, htg', by simp⟩ (by simp), fun _ => ⟨⟨tg, htg', hempty⟩, ?_, ?_⟩⟩
    · intro u m ho
      have hu := hf.owned u m ho
      have hut : u ≠ t := fun e => by rw [e, hp] at hu; cases hu
      simpa [next, hut] using hu
    · intro u m hu
      exact hf.unreleased u m (phase_of_next (by simp [Event.target]) hu).2
  | grant t l =>
    have hp : s.phase t = .waiting l := he.1
    refine ⟨iff_of_true ⟨tg, htg, by simp⟩ (by simp), fun _ => ⟨⟨tg, htg, hempty⟩, ?_, ?_⟩⟩
    · intro u m ho
      unfold next at ho ⊢
      by_cases e : m = l
      · subst e
        have : u = t := by simpa [eq_comm] using ho
        simp [this]
      · have hu := hf.owned u m (by simpa [e] using ho)
        have hut : u ≠ t := fun e => by rw [e, hp] at hu; cases hu
        simpa [hut] using hu
    · intro u m hu
      exact hf.unreleased u m (phase_of_next (by simp [Event.target]) hu).2
  | lockAfter t l =>
    have hnone : ¬ IndicesInRange s (.lockAfter t l) (s.next (.lockAfter t l)) := by
      intro h
      obtain ⟨tg', htg', -⟩ := h
      unfold next at htg'
      simp [htg, lockAfter_empty hempty] at htg'
    exact ⟨iff_of_false hnone fun h => h t l rfl, fun h => absurd h hnone⟩
  | unlock t l =>
    have hp : s.phase t = .idle := he.1
    have hg := hf.owned t l he.2
    rw [hp] at hg
    cases hg
  | unlockAfter t l => exact absurd he (hf.unreleased t l)

/-- **Slot indices.** From a table without slots a run stays inside the table exactly as
long as no thread comes to `lock_after`. -/
theorem indicesInRange_iff_no_lockAfter (es : List Event) :
    Along step IndicesInRange (init 0) es ↔ Along step (fun _ e _ => ∀ t l, e ≠ .lockAfter t l) (init 0) es :=
  along_iff (U := fun _ => True) (fun _ _ _ hf _ hs => hf.step hs) (fun _ _ => trivial) fresh_init

theorem first_lockAfter_out_of_range : ¬ ∀ es, Along step IndicesInRange (init 0) es := by
  intro h
  obtain ⟨-, h⟩ := h [.lockBefore 1 10, .grant 1 10, .lockAfter 1 10] _ rfl
  obtain ⟨-, h⟩ := h _ rfl
  obtain ⟨⟨tg, htg, -⟩, -⟩ := h _ rfl
  cases htg

end Sys

end LearningC
