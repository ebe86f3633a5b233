import LearningC.LockRuns

/-!
# The table and the real owners

When the slots name the threads that hold the mutexes, and the two kinds of step that
break this: a first `lock_after` that takes the slot of a held mutex, because it counts
as empty, and an `unlock_after` that comes after the next owner's `lock_after`.
-/

namespace LearningC

open TaskGraph Runs

namespace Sys

/-- Every mutex that is held has one slot, and that slot names its holder. -/
def TableExact (s : Sys) : Prop :=
  ∃ tg, s.tg = some tg ∧ ∀ t l, s.Holds t l →
    ∃ slot, (tg.lockList.filter fun slot => slot.lockId == l) = [slot] ∧ slot.thId = t

/-- The step takes no slot from a mutex that is held, and `unlock_after` finds its mutex. -/
def SlotsKept (s : Sys) : Event → Prop
  | .lockAfter _ l => ∀ tg slot, s.tg = some tg → tg.entry l = none → tg.emptySlot l = some slot →
      ∀ h, ¬ s.Holds h slot.lockId
  | .unlockAfter _ l => ∃ tg slot, s.tg = some tg ∧ tg.entry l = some slot ∧
      (slot.degress = 0 → ∀ h, ¬ s.Holds h l)
  | _ => True

section
variable {ms : Finset Nat} {s s' : Sys} {e : Event} {t l : Nat} {tg : TaskGraph}

def Names (tg : TaskGraph) (t l : Nat) : Prop := ∃ slot, tg.entry l = some slot ∧ slot.thId = t

theorem tableExact_names (hok : Ok ms s) (htg : s.tg = some tg) :
    TableExact s ↔ ∀ t l, s.Holds t l → Names tg t l := by
  have hfilter : ∀ t l, s.Holds t l → (tg.lockList.filter fun slot => slot.lockId == l) = (tg.entry l).toList :=
    fun t l hh => (hok.table tg htg).distinct.filter_eq (hok.owned t l hh.1)
  constructor
  · intro h t l hh
    obtain ⟨tg', htg', hex⟩ := h
    rw [htg] at htg'
    cases htg'
    obtain ⟨slot, hslot, ht⟩ := hex t l hh
    rw [hfilter t l hh, Option.toList_eq_singleton_iff] at hslot
    exact ⟨slot, hslot, ht⟩
  · intro h
    refine ⟨tg, htg, fun t l hh => ?_⟩
    obtain ⟨slot, hslot, ht⟩ := h t l hh
    refine ⟨slot, ?_, ht⟩
    rw [hfilter t l hh, hslot]
    rfl

theorem tableExact_some (h : TableExact s) : ∃ tg, s.tg = some tg := by
  obtain ⟨tg, htg, -⟩ := h
  exact ⟨tg, htg⟩

section
variable (hok : Ok ms s) (hex : TableExact s) (htg : s.tg = some tg)
include hok hex htg

theorem tableExact_lockBefore (hl : l ≠ 0) (he : s.Enabled (.lockBefore t l))
    (hok' : Ok ms (s.next (.lockBefore t l))) : TableExact (s.next (.lockBefore t l)) := by
  rw [tableExact_names hok htg] at hex
  rcases hok.lockBefore_cases htg (t := t) hl with ⟨-, htg'⟩ | ⟨slot, tg', hslot, htg', -, hent⟩
  · rw [tableExact_names hok' htg']
    intro h m hh
    rw [holds_lockBefore he] at hh
    exact hex h m hh
  · rw [tableExact_names hok' htg']
    intro h m hh
    rw [holds_lockBefore he] at hh
    unfold Names
    rw [hent m (hok.owned h m hh.1)]
    obtain ⟨b, hb, hbt⟩ := hex h m hh
    by_cases e : m = l
    · subst e
      rw [hslot] at hb
      cases hb
      rw [if_pos rfl]
      exact ⟨_, rfl, hbt⟩
    · rw [if_neg e]
      exact ⟨b, hb, hbt⟩

theorem tableExact_lockAfter (hms : l ∈ ms) (hl : l ≠ 0) (he : s.Enabled (.lockAfter t l))
    (hok' : Ok ms (s.next (.lockAfter t l))) :
    TableExact (s.next (.lockAfter t l)) ↔ SlotsKept s (.lockAfter t l) := by
  have hown : s.owner l = some t := hok.owns t l he
  rw [tableExact_names hok htg] at hex
  rcases hok.lockAfter_cases htg (t := t) hms hl with
    ⟨slot, tg', hnone, hempty, htg', -, hent⟩ | ⟨slot, tg', hslot, htg', -, hent⟩
  · rw [tableExact_names hok' htg']
    have hother : ∀ u m, s.Holds u m → m ≠ l := by
      intro u m hu e
      obtain ⟨b, hb, -⟩ := hex u m hu
      rw [e, hnone] at hb
      cases hb
    constructor
    · intro h tg₁ b htg₁ _ hb u hu
      rw [htg] at htg₁
      cases htg₁
      rw [hempty] at hb
      cases hb
      -- the slot of the mutex that `u` holds is the one that `l` gets
      obtain ⟨b, hb, -⟩ := h u slot.lockId ((holds_lockAfter hown he u _).mpr (Or.inl hu))
      rw [hent _ (hok.owned u _ hu.1), if_neg (hother u _ hu), if_pos rfl] at hb
      cases hb
    · intro h u m hh
      unfold Names
      rcases (holds_lockAfter hown he u m).mp hh with hh | ⟨rfl, rfl⟩
      · have hms : m ≠ slot.lockId := fun e => h tg slot htg hnone hempty u (e ▸ hh)
        rw [hent m (hok.owned u m hh.1), if_neg (hother u m hh), if_neg hms]
        exact hex u m hh
      · rw [hent m hl, if_pos rfl]
        exact ⟨_, rfl, rfl⟩
  · rw [tableExact_names hok' htg']
    apply iff_of_true
    · intro u m hh
      unfold Names
      by_cases e : m = l
      · subst e
        rw [hent m hl, if_pos rfl]
        exact ⟨_, rfl, Option.some.inj (hown.symm.trans hh.1)⟩
      · have hh' : s.Holds u m := ((holds_lockAfter hown he u m).mp hh).resolve_right fun h => e h.2
        rw [hent m (hok.owned u m hh'.1), if_neg e]
        exact hex u m hh'
    · intro tg₁ b htg₁ hb
      rw [htg] at htg₁
      cases htg₁
      rw [hslot] at hb
      cases hb

theorem tableExact_unlockAfter (hl : l ≠ 0) (he : s.Enabled (.unlockAfter t l))
    (hok' : Ok ms (s.next (.unlockAfter t l))) :
    TableExact (s.next (.unlockAfter t l)) ↔ SlotsKept s (.unlockAfter t l) := by
  rw [tableExact_names hok htg] at hex
  rcases hok.unlockAfter_cases htg (t := t) (l := l) with ⟨hnone, htg'⟩ | ⟨slot, tg', hslot, htg', -, hent⟩
  · apply iff_of_false
    · intro h
      obtain ⟨tg₁, htg₁⟩ := tableExact_some h
      rw [htg'] at htg₁
      cases htg₁
    · intro h
      obtain ⟨tg₁, slot, htg₁, hb, -⟩ := h
      rw [htg] at htg₁
      cases htg₁
      rw [hnone] at hb
      cases hb
  · rw [tableExact_names hok' htg']
    constructor
    · intro h
      refine ⟨tg, slot, htg, hslot, fun hd u hu => ?_⟩
      obtain ⟨b, hb, -⟩ := h u l ((holds_unlockAfter he u l).mpr hu)
      rw [hent l hl, if_pos ⟨rfl, hd⟩] at hb
      cases hb
    · intro h u m hh
      rw [holds_unlockAfter he] at hh
      obtain ⟨tg₁, b, htg₁, hb, hd⟩ := h
      rw [htg] at htg₁
      cases htg₁
      rw [hslot] at hb
      cases hb
      have hm : ¬ (m = l ∧ slot.degress = 0) := fun h => hd h.2 u (h.1 ▸ hh)
      unfold Names
      rw [hent m (hok.owned u m hh.1), if_neg hm]
      exact hex u m hh

end

theorem tableExact_step (h0 : 0 ∉ ms) (hok : Ok ms s) (hex : TableExact s) (hl : e.lock ∈ ms)
    (hs : s.step e = some s') : TableExact s' ↔ SlotsKept s e := by
  have hok' := hok.step h0 hl hs
  obtain ⟨he, rfl⟩ := step_next hs
  obtain ⟨tg, htg⟩ := tableExact_some hex
  have hne : e.lock ≠ 0 := fun e0 => h0 (e0 ▸ hl)
  have hnames := (tableExact_names hok htg).mp hex
  cases e with
  | lockBefore t l => exact iff_of_true (tableExact_lockBefore hok hex htg hne he hok') trivial
  | grant t l =>
    apply iff_of_true _ trivial
    rw [tableExact_names (s := s.next (.grant t l)) hok' htg]
    intro h m hh
    rw [holds_grant he] at hh
    exact hnames h m hh
  | lockAfter t l => exact tableExact_lockAfter hok hex htg hl hne he hok'
  | unlock t l =>
    apply iff_of_true _ trivial
    rw [tableExact_names (s := s.next (.unlock t l)) hok' htg]
    intro h m hh
    exact hnames h m ((holds_unlock he h m).mp hh).1
  | unlockAfter t l => exact tableExact_unlockAfter hok hex htg hne he hok'

end

theorem tableExact_init (N : Nat) : TableExact (init N) := by
  refine ⟨_, rfl, fun t l hh => ?_⟩
  cases hh.1

/-- **Ownership.** In every state of a run the table names the holders of all held
mutexes exactly when every step keeps the slots of held mutexes, and `vertex_list` has not
overflowed exactly when every edge found room. -/
theorem tableExact_iff_slotsKept {N : Nat} {es : List Event} (h : Fits N es) :
    (Always step TableExact (init N) es ↔ Along step (fun s e _ => SlotsKept s e) (init N) es) ∧
      (Always step WithinMax (init N) es ↔ Along step (fun s e _ => HasRoom s e) (init N) es) := by
  refine ⟨?_, withinMax_iff_hasRoom h⟩
  apply always_iff_of_step h (tableExact_init N) (tableExact_init N)
  intro ms s e s' h0 hok hex hl hs
  exact ⟨tableExact_step h0 hok hex hl hs, id⟩

/-- One thread that locks mutex `20` while it holds mutex `10`. -/
def nestedRun : List Event :=
  [.lockBefore 1 10, .grant 1 10, .lockAfter 1 10, .lockBefore 1 20, .grant 1 20, .lockAfter 1 20]

theorem holds_none {s : Sys} {l : Nat} (h : s.owner l = none) (t : Nat) : ¬ s.Holds t l := by
  intro hh
  cases h.symm.trans hh.1

theorem slotsKept_waiterRun : Along step (fun s e _ => SlotsKept s e) (init 1) waiterRun := by
  apply Runs.along_cons rfl trivial
  apply Runs.along_cons rfl trivial
  apply Runs.along_cons rfl
  · intro tg slot htg _ hslot h
    cases htg
    cases hslot
    exact holds_none rfl h
  apply Runs.along_cons rfl trivial
  apply Runs.along_cons rfl trivial
  apply Runs.along_cons rfl
  · exact ⟨_, _, rfl, rfl, fun hd => absurd hd (by decide)⟩
  apply Runs.along_cons rfl trivial
  apply Runs.along_cons rfl
  · intro tg slot htg hnone
    cases htg
    cases hnone
  trivial

theorem tableExact_iff_slotsKept_nested : Fits 2 nestedRun ∧ Fits 1 waiterRun ∧
    (Always step TableExact (init 2) nestedRun ↔ Along step (fun s e _ => SlotsKept s e) (init 2) nestedRun) ∧
    Always step TableExact (init 1) waiterRun :=
  ⟨by decide, by decide, (tableExact_iff_slotsKept (by decide)).1,
    (tableExact_iff_slotsKept (by decide)).1.mpr slotsKept_waiterRun⟩

theorem nested_overwrites : ¬ ∀ N es, Fits N es → Always step TableExact (init N) es := by
  intro h
  obtain ⟨tg, htg, hex⟩ := (h 2 nestedRun (by decide)).last _ _ _ rfl
  cases htg
  obtain ⟨slot, hslot, -⟩ := hex 1 10 (by decide)
  cases hslot

end Sys

end LearningC
