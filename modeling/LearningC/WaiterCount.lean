import LearningC.LockRuns

/-!
# The waiter count of a slot

`lock_before` counts a waiter only where the mutex has a slot, `lock_after` uncounts
one wherever it has. The counts stay exact exactly as long as no thread records a
mutex that another one is already acquiring.
-/

namespace LearningC

open TaskGraph Runs

namespace Sys

/-- The `degress` of every slot in use is the number of threads between `lock_before`
and `lock_after` on its mutex. -/
def WaitersExact (s : Sys) : Prop :=
  ∃ tg, s.tg = some tg ∧ ∀ slot ∈ tg.lockList, slot.lockId ≠ 0 →
    ∃ T : Finset Nat, (∀ t, t ∈ T ↔ s.Acquiring t slot.lockId) ∧ slot.degress = T.card

/-- `unlock_after` clears a slot only when nobody acquires or holds its mutex. -/
def ClearsFree (s : Sys) (e : Event) (s' : Sys) : Prop :=
  ∀ t l tg tg', e = .unlockAfter t l → s.tg = some tg → s'.tg = some tg' →
    tg.entry l ≠ none → tg'.entry l = none → ∀ h, ¬ s.Acquiring h l ∧ ¬ s.Holds h l

/-- A mutex gets its slot while nobody else acquires it; `unlock_after` finds its mutex,
and there are waiters when it has a new holder. -/
def CountsKept (s : Sys) : Event → Prop
  | .lockAfter t l => ∀ tg, s.tg = some tg → tg.entry l = none → ∀ h ≠ t, ¬ s.Acquiring h l
  | .unlockAfter _ l => ∃ tg slot, s.tg = some tg ∧ tg.entry l = some slot ∧
      (slot.degress = 0 → ∀ h, ¬ s.Holds h l)
  | _ => True

def Counts (s : Sys) (l : Nat) (n : Int) : Prop := ∃ T : Finset Nat, (∀ t, t ∈ T ↔ s.Acquiring t l) ∧ n = T.card

section
variable {ms : Finset Nat} {s s' : Sys} {e : Event} {t l : Nat} {n : Int} {tg : TaskGraph}

theorem Counts.congr (h : Counts s l n) (hiff : ∀ u, s'.Acquiring u l ↔ s.Acquiring u l) : Counts s' l n := by
  obtain ⟨T, hT, hn⟩ := h
  exact ⟨T, fun u => (hT u).trans (hiff u).symm, hn⟩

theorem Counts.zero_iff : Counts s l 0 ↔ ∀ u, ¬ s.Acquiring u l := by
  constructor
  · intro h u hu
    obtain ⟨T, hT, hn⟩ := h
    have hempty : T = ∅ := Finset.card_eq_zero.mp (by omega)
    have hu' := (hT u).mpr hu
    rw [hempty] at hu'
    simp at hu'
  · intro h
    exact ⟨∅, fun u => by simp [h u], rfl⟩

theorem Counts.lockBefore (he : s.Enabled (.lockBefore t l)) (h : Counts s l n) :
    Counts (s.next (.lockBefore t l)) l (n + 1) := by
  obtain ⟨T, hT, hn⟩ := h
  have ht : t ∉ T := by
    rw [hT]
    have hp : s.phase t = .idle := he
    simp [Acquiring, hp]
  refine ⟨insert t T, fun u => ?_, ?_⟩
  · rw [acquiring_lockBefore he, Finset.mem_insert, hT]
    constructor
    · intro hu
      exact hu.elim (fun hu => Or.inr ⟨hu, rfl⟩) Or.inl
    · intro hu
      exact hu.elim Or.inr fun hu => Or.inl hu.1
  · rw [Finset.card_insert_of_notMem ht, hn]
    rfl

theorem Counts.lockAfter (he : s.Enabled (.lockAfter t l)) (h : Counts s l n) :
    Counts (s.next (.lockAfter t l)) l (n - 1) := by
  obtain ⟨T, hT, hn⟩ := h
  have hp : s.phase t = .granted l := he
  have ht : t ∈ T := (hT t).mpr (Or.inr hp)
  refine ⟨T.erase t, fun u => ?_, ?_⟩
  · rw [acquiring_lockAfter he, Finset.mem_erase, hT, and_comm]
  · have := Finset.card_erase_add_one ht
    omega

/-- Waiters of another mutex are not touched. -/
theorem Counts.lockBefore_other (he : s.Enabled (.lockBefore t l)) {m : Nat} (hm : m ≠ l) (h : Counts s m n) :
    Counts (s.next (.lockBefore t l)) m n :=
  h.congr fun u => by
    rw [acquiring_lockBefore he]
    simp [hm]

theorem Counts.lockAfter_other (he : s.Enabled (.lockAfter t l)) {m : Nat} (hm : m ≠ l) (h : Counts s m n) :
    Counts (s.next (.lockAfter t l)) m n := by
  have hp : s.phase t = .granted l := he
  refine h.congr fun u => ?_
  rw [acquiring_lockAfter he]
  refine ⟨fun hu => hu.1, fun hu => ⟨hu, fun e => ?_⟩⟩
  rw [e] at hu
  rcases hu with hu | hu
  · cases hp.symm.trans hu
  · cases hp.symm.trans hu
    exact hm rfl

theorem waitersExact_counts (hok : Ok ms s) (htg : s.tg = some tg) :
    WaitersExact s ↔ ∀ l ≠ 0, ∀ slot, tg.entry l = some slot → Counts s l slot.degress := by
  have key := (hok.table tg htg).forall_slots fun slot => Counts s slot.lockId slot.degress
  constructor
  · intro h l hl slot hslot
    obtain ⟨tg', htg', hex⟩ := h
    rw [htg] at htg'
    cases htg'
    have hc := key.mp hex l hl slot hslot
    rwa [lockId_of_entry hslot] at hc
  · intro h
    refine ⟨tg, htg, key.mpr fun l hl slot hslot => ?_⟩
    rw [lockId_of_entry hslot]
    exact h l hl slot hslot

/-! ## One lemma for each hook -/

theorem clearsFree_of_ne (hne : ∀ t l, e ≠ .unlockAfter t l) : ClearsFree s e s' :=
  fun t l _ _ he => absurd he (hne t l)

section
variable (hok : Ok ms s) (hex : WaitersExact s) (htg : s.tg = some tg)
include hok hex htg

theorem waitersExact_lockBefore (hl : l ≠ 0) (he : s.Enabled (.lockBefore t l))
    (hok' : Ok ms (s.next (.lockBefore t l))) : WaitersExact (s.next (.lockBefore t l)) := by
  rw [waitersExact_counts hok htg] at hex
  rcases hok.lockBefore_cases htg (t := t) hl with ⟨hnone, htg'⟩ | ⟨slot, tg', hslot, htg', -, hent⟩
  · rw [waitersExact_counts hok' htg']
    intro m hm b hb
    have hml : m ≠ l := fun e => by rw [e, hnone] at hb; cases hb
    exact (hex m hm b hb).lockBefore_other he hml
  · rw [waitersExact_counts hok' htg']
    intro m hm b hb
    rw [hent m hm] at hb
    by_cases e : m = l
    · subst e
      rw [if_pos rfl] at hb
      cases hb
      exact (hex m hm slot hslot).lockBefore he
    · rw [if_neg e] at hb
      exact (hex m hm b hb).lockBefore_other he e

theorem waitersExact_lockAfter (hms : l ∈ ms) (hl : l ≠ 0) (he : s.Enabled (.lockAfter t l))
    (hok' : Ok ms (s.next (.lockAfter t l))) :
    WaitersExact (s.next (.lockAfter t l)) ↔ CountsKept s (.lockAfter t l) := by
  rw [waitersExact_counts hok htg] at hex
  rcases hok.lockAfter_cases htg (t := t) hms hl with
    ⟨slot, tg', hnone, hempty, htg', -, hent⟩ | ⟨slot, tg', hslot, htg', -, hent⟩
  · rw [waitersExact_counts hok' htg']
    have hd := degress_of_emptySlot hempty
    constructor
    · intro h tg₁ htg₁ _ u hu hau
      have hcount := h l hl _ (by rw [hent l hl, if_pos rfl])
      rw [show ({ slot with thId := t, lockId := l } : Pair).degress = 0 from hd, Counts.zero_iff] at hcount
      exact hcount u ((acquiring_lockAfter he u l).mpr ⟨hau, hu⟩)
    · intro h m hm b hb
      rw [hent m hm] at hb
      by_cases e : m = l
      · subst e
        rw [if_pos rfl] at hb
        cases hb
        show Counts _ m slot.degress
        rw [hd, Counts.zero_iff]
        intro u hu
        obtain ⟨hau, hut⟩ := (acquiring_lockAfter he u m).mp hu
        exact h tg htg hnone u hut hau
      · rw [if_neg e] at hb
        by_cases e' : m = slot.lockId
        · rw [if_pos e'] at hb; cases hb
        · rw [if_neg e'] at hb
          exact (hex m hm b hb).lockAfter_other he e
  · rw [waitersExact_counts hok' htg']
    apply iff_of_true
    · intro m hm b hb
      rw [hent m hm] at hb
      by_cases e : m = l
      · subst e
        rw [if_pos rfl] at hb
        cases hb
        exact (hex m hm slot hslot).lockAfter he
      · rw [if_neg e] at hb
        exact (hex m hm b hb).lockAfter_other he e
    · intro tg₁ htg₁ hb
      rw [htg] at htg₁
      cases htg₁
      rw [hslot] at hb
      cases hb

theorem waitersExact_unlockAfter (hl : l ≠ 0) (he : s.Enabled (.unlockAfter t l))
    (hok' : Ok ms (s.next (.unlockAfter t l))) :
    WaitersExact (s.next (.unlockAfter t l)) ∧ ClearsFree s (.unlockAfter t l) (s.next (.unlockAfter t l)) ↔
      CountsKept s (.unlockAfter t l) := by
  rw [waitersExact_counts hok htg] at hex
  rcases hok.unlockAfter_cases htg (t := t) (l := l) with ⟨hnone, htg'⟩ | ⟨slot, tg', hslot, htg', -, hent⟩
  · apply iff_of_false
    · intro h
      obtain ⟨tg₁, htg₁, -⟩ := h.1
      rw [htg'] at htg₁
      cases htg₁
    · intro h
      obtain ⟨tg₁, slot, htg₁, hb, -⟩ := h
      rw [htg] at htg₁
      cases htg₁
      rw [hnone] at hb
      cases hb
  · rw [waitersExact_counts hok' htg']
    constructor
    · intro h
      refine ⟨tg, slot, htg, hslot, fun hd => ?_⟩
      have hclear : tg'.entry l = none := by rw [hent l hl, if_pos ⟨rfl, hd⟩]
      exact fun u => (h.2 t l tg tg' rfl htg htg' (by simp [hslot]) hclear u).2
    · intro h
      obtain ⟨tg₁, b, htg₁, hb, hd⟩ := h
      rw [htg] at htg₁
      cases htg₁
      rw [hslot] at hb
      cases hb
      constructor
      · intro m hm b hb
        rw [hent m hm] at hb
        by_cases e : m = l ∧ slot.degress = 0
        · rw [if_pos e] at hb; cases hb
        · rw [if_neg e] at hb
          exact (hex m hm b hb).congr fun u => acquiring_unlockAfter he u m
      · intro t' l' tg₁ tg₂ e htg₁ htg₂ _ hclear
        cases e
        rw [htg] at htg₁
        cases htg₁
        rw [htg'] at htg₂
        cases htg₂
        have hd0 : slot.degress = 0 := by
          by_cases hd0 : slot.degress = 0
          · exact hd0
          · rw [hent l hl, if_neg fun h => hd0 h.2, hslot] at hclear
            cases hclear
        -- the count is exact, so `0` means that nobody acquires the mutex
        have hcount := hex l hl slot hslot
        rw [hd0, Counts.zero_iff] at hcount
        exact fun u => ⟨hcount u, hd hd0 u⟩

end

theorem waitersExact_step (h0 : 0 ∉ ms) (hok : Ok ms s) (hex : WaitersExact s) (hl : e.lock ∈ ms)
    (hs : s.step e = some s') : WaitersExact s' ∧ ClearsFree s e s' ↔ CountsKept s e := by
  have hok' := hok.step h0 hl hs
  obtain ⟨he, rfl⟩ := step_next hs
  have htg : ∃ tg, s.tg = some tg := hex.imp fun _ h => h.1
  obtain ⟨tg, htg⟩ := htg
  have hne : e.lock ≠ 0 := fun e0 => h0 (e0 ▸ hl)
  have hcounts := (waitersExact_counts hok htg).mp hex
  cases e with
  | lockBefore t l =>
    exact iff_of_true ⟨waitersExact_lockBefore hok hex htg hne he hok', clearsFree_of_ne (by simp)⟩ trivial
  | grant t l =>
    refine iff_of_true ⟨?_, clearsFree_of_ne (by simp)⟩ trivial
    rw [waitersExact_counts (s := s.next (.grant t l)) hok' htg]
    intro m hm b hb
    exact (hcounts m hm b hb).congr fun u => acquiring_grant he u m
  | lockAfter t l =>
    have hiff := waitersExact_lockAfter (l := l) hok hex htg hl hne he hok'
    rw [← hiff]
    exact and_iff_left (clearsFree_of_ne (by simp))
  | unlock t l =>
    refine iff_of_true ⟨?_, clearsFree_of_ne (by simp)⟩ trivial
    rw [waitersExact_counts (s := s.next (.unlock t l)) hok' htg]
    intro m hm b hb
    exact (hcounts m hm b hb).congr fun u => acquiring_unlock he u m
  | unlockAfter t l => exact waitersExact_unlockAfter hok hex htg hne he hok'

end

theorem waitersExact_init (N : Nat) : WaitersExact (init N) := by
  refine ⟨_, rfl, fun slot hs hl => ?_⟩
  rw [List.eq_of_mem_replicate hs] at hl
  exact absurd rfl hl

/-- **Waiter counts.** In every state of a run the counts are exact, and `unlock_after`
clears only free slots, exactly when every step keeps the counts, and `vertex_list` has not
overflowed exactly when every edge found room. -/
theorem waitersExact_iff_countsKept {N : Nat} {es : List Event} (h : Fits N es) :
    (Always step WaitersExact (init N) es ∧ Along step ClearsFree (init N) es ↔
      Along step (fun s e _ => CountsKept s e) (init N) es) ∧
      (Always step WithinMax (init N) es ↔ Along step (fun s e _ => HasRoom s e) (init N) es) := by
  refine ⟨?_, withinMax_iff_hasRoom h⟩
  have hiff := along_iff_of_step (K := fun s e s' => WaitersExact s' ∧ ClearsFree s e s')
    (L := fun s e _ => CountsKept s e) (I := WaitersExact) h (waitersExact_init N)
    fun ms s e s' h0 hok hex hl hs => ⟨waitersExact_step h0 hok hex hl hs, fun hK => hK.1⟩
  rw [along_and] at hiff
  rw [← hiff]
  constructor
  · exact fun ha => ⟨ha.1.2, ha.2⟩
  · exact fun ha => ⟨⟨waitersExact_init N, ha.1⟩, ha.2⟩

/-- Two threads that both find mutex `10` unrecorded. -/
def firstRaceRun : List Event := [.lockBefore 1 10, .lockBefore 2 10, .grant 1 10, .lockAfter 1 10]

theorem countsKept_waiterRun : Along step (fun s e _ => CountsKept s e) (init 1) waiterRun := by
  apply Runs.along_cons rfl trivial
  apply Runs.along_cons rfl trivial
  apply Runs.along_cons rfl
  · intro tg _ _ h hne ha
    simp only [Acquiring, next, init, Function.update_of_ne hne] at ha
    rcases ha with ha | ha <;> cases ha
  apply Runs.along_cons rfl trivial
  apply Runs.along_cons rfl trivial
  apply Runs.along_cons rfl
  · exact ⟨_, _, rfl, rfl, fun hd => absurd hd (by decide)⟩
  apply Runs.along_cons rfl trivial
  apply Runs.along_cons rfl
  · intro tg htg hnone
    cases htg
    cases hnone
  trivial

theorem waitersExact_iff_countsKept_race : Fits 1 firstRaceRun ∧ Fits 1 waiterRun ∧
    (Always step WaitersExact (init 1) firstRaceRun ∧ Along step ClearsFree (init 1) firstRaceRun ↔
      Along step (fun s e _ => CountsKept s e) (init 1) firstRaceRun) ∧
    Always step WaitersExact (init 1) waiterRun ∧ Along step ClearsFree (init 1) waiterRun :=
  ⟨by decide, by decide, (waitersExact_iff_countsKept (by decide)).1,
    (waitersExact_iff_countsKept (by decide)).1.mpr countsKept_waiterRun⟩

theorem first_race_uncounted : ¬ ∀ N es, Fits N es →
    Always step WaitersExact (init N) es ∧ Along step ClearsFree (init N) es := by
  intro h
  obtain ⟨tg, htg, hex⟩ := (h 1 firstRaceRun (by decide)).1.last _ _ _ rfl
  cases htg
  obtain ⟨T, hT, hn⟩ := hex { thId := 1, type := .process, lockId := 10 } (by decide) (by decide)
  have hempty : T = ∅ := Finset.card_eq_zero.mp (Int.ofNat.inj hn.symm)
  have h2 := (hT 2).mpr (by decide)
  rw [hempty] at h2
  simp at h2

end Sys

end LearningC
