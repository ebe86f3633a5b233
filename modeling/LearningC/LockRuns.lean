import LearningC.LockTable
import LearningC.Runs

/-!
# Steps of threads that lock

What one step does to who holds and who acquires which mutex, and what every run of
at most `N` mutexes keeps of the table and of the graph.
-/

namespace LearningC

open TaskGraph Runs

namespace Sys

/-! ## Who holds and who acquires after a step -/

section
variable {s s' : Sys} {e : Event} {t l : Nat}

theorem step_next (h : step s e = some s') : s.Enabled e ∧ s' = s.next e :=
  Runs.guarded_some h

theorem phase_next (s : Sys) (e : Event) : (s.next e).phase = Function.update s.phase e.thread e.target := by
  cases e <;> rfl

theorem phase_of_next {p : Phase} (hp : e.target ≠ p) {u : Nat} (hu : (s.next e).phase u = p) :
    u ≠ e.thread ∧ s.phase u = p := by
  rw [phase_next] at hu
  by_cases ht : u = e.thread
  · rw [ht, Function.update_self] at hu
    exact absurd hu hp
  · rw [Function.update_of_ne ht] at hu
    exact ⟨ht, hu⟩

theorem holds_lockBefore (he : s.Enabled (.lockBefore t l)) (h m : Nat) :
    (s.next (.lockBefore t l)).Holds h m ↔ s.Holds h m := by
  have hp : s.phase t = .idle := he
  unfold Holds next
  by_cases e : h = t
  · subst e; simp [hp]
  · simp [e]

theorem holds_grant (he : s.Enabled (.grant t l)) (h m : Nat) :
    (s.next (.grant t l)).Holds h m ↔ s.Holds h m := by
  have hp : s.phase t = .waiting l := he.1
  have ho : s.owner l = none := he.2
  unfold Holds next
  by_cases e : h = t
  · subst e
    by_cases e' : m = l
    · subst e'; simp [ho]
    · simp [e', hp, Ne.symm e']
  · by_cases e' : m = l
    · subst e'; simp [ho, Ne.symm e]
    · simp [e, e']

theorem holds_lockAfter (ho : s.owner l = some t) (he : s.Enabled (.lockAfter t l)) (h m : Nat) :
    (s.next (.lockAfter t l)).Holds h m ↔ s.Holds h m ∨ (h = t ∧ m = l) := by
  have hp : s.phase t = .granted l := he
  unfold Holds next
  by_cases e : h = t
  · subst e
    by_cases e' : m = l
    · subst e'; simp [ho]
    · simp [hp, e', Ne.symm e']
  · simp [e]

theorem holds_unlock (he : s.Enabled (.unlock t l)) (h m : Nat) :
    (s.next (.unlock t l)).Holds h m ↔ s.Holds h m ∧ m ≠ l := by
  have hp : s.phase t = .idle := he.1
  have ho : s.owner l = some t := he.2
  unfold Holds next
  by_cases e' : m = l
  · subst e'; simp
  · by_cases e : h = t
    · subst e; simp [e', hp]
    · simp [e, e']

theorem holds_unlockAfter (he : s.Enabled (.unlockAfter t l)) (h m : Nat) :
    (s.next (.unlockAfter t l)).Holds h m ↔ s.Holds h m := by
  have hp : s.phase t = .released l := he
  unfold Holds next
  by_cases e : h = t
  · subst e; simp [hp]
  · simp [e]

theorem acquiring_lockBefore (he : s.Enabled (.lockBefore t l)) (h m : Nat) :
    (s.next (.lockBefore t l)).Acquiring h m ↔ s.Acquiring h m ∨ (h = t ∧ m = l) := by
  have hp : s.phase t = .idle := he
  unfold Acquiring next
  by_cases e : h = t
  · subst e; simp [hp, eq_comm]
  · simp [e]

theorem acquiring_grant (he : s.Enabled (.grant t l)) (h m : Nat) :
    (s.next (.grant t l)).Acquiring h m ↔ s.Acquiring h m := by
  have hp : s.phase t = .waiting l := he.1
  unfold Acquiring next
  by_cases e : h = t
  · subst e; simp [hp]
  · simp [e]

theorem acquiring_lockAfter (he : s.Enabled (.lockAfter t l)) (h m : Nat) :
    (s.next (.lockAfter t l)).Acquiring h m ↔ s.Acquiring h m ∧ h ≠ t := by
  unfold Acquiring next
  by_cases e : h = t
  · subst e; simp
  · simp [e]

theorem acquiring_unlock (he : s.Enabled (.unlock t l)) (h m : Nat) :
    (s.next (.unlock t l)).Acquiring h m ↔ s.Acquiring h m := by
  have hp : s.phase t = .idle := he.1
  unfold Acquiring next
  by_cases e : h = t
  · subst e; simp [hp]
  · simp [e]

theorem acquiring_unlockAfter (he : s.Enabled (.unlockAfter t l)) (h m : Nat) :
    (s.next (.unlockAfter t l)).Acquiring h m ↔ s.Acquiring h m := by
  have hp : s.phase t = .released l := he
  unfold Acquiring next
  by_cases e : h = t
  · subst e; simp [hp]
  · simp [e]

end

/-! ## What every run keeps -/

/-- The mutexes that the events are about are not null, and `N` slots are enough for them. -/
def Fits (N : Nat) (es : List Event) : Prop :=
  (∀ e ∈ es, e.lock ≠ 0) ∧ (es.map Event.lock).toFinset.card ≤ N

instance (N : Nat) (es : List Event) : Decidable (Fits N es) :=
  inferInstanceAs (Decidable ((∀ e ∈ es, e.lock ≠ 0) ∧ (es.map Event.lock).toFinset.card ≤ N))

structure Ok (ms : Finset Nat) (s : Sys) : Prop where
  table : ∀ tg, s.tg = some tg → TableOk ms tg
  graph : ∀ tg, s.tg = some tg → ThreadGraph tg
  owns : ∀ t l, s.phase t = .granted l → s.owner l = some t
  owned : ∀ t l, s.owner l = some t → l ≠ 0

theorem Ok.init {ms : Finset Nat} {N : Nat} (h : ms.card ≤ N) : Ok ms (init N) := by
  constructor
  · intro tg e
    cases e
    exact TableOk.init h
  · intro tg e
    cases e
    exact threadGraph_of_empty rfl
  · intro t l e
    cases e
  · intro t l e
    cases e

section
variable {ms : Finset Nat} {s s' : Sys} {t l : Nat} {tg : TaskGraph}

theorem Ok.bind (hok : Ok ms s) {f : TaskGraph → Option TaskGraph} {phase : Nat → Phase}
    (hf : ∀ tg, s.tg = some tg → ∀ tg', f tg = some tg' → TableOk ms tg' ∧ ThreadGraph tg')
    (howns : ∀ t l, phase t = .granted l → s.owner l = some t) :
    Ok ms { tg := s.tg.bind f, owner := s.owner, phase := phase } := by
  have key : ∀ tg', s.tg.bind f = some tg' → TableOk ms tg' ∧ ThreadGraph tg' := by
    intro tg' e
    obtain ⟨tg, htg, he⟩ := Option.bind_eq_some_iff.mp e
    exact hf tg htg tg' he
  exact ⟨fun tg' e => (key tg' e).1, fun tg' e => (key tg' e).2, howns, hok.owned⟩

theorem Ok.grant (hok : Ok ms s) (he : s.Enabled (.grant t l)) (hl : l ≠ 0) : Ok ms (s.next (.grant t l)) := by
  have ho : s.owner l = none := he.2
  refine ⟨hok.table, hok.graph, ?_, ?_⟩
  · intro u m hu
    unfold next at hu ⊢
    by_cases e : u = t
    · subst e
      have : l = m := by simpa using hu
      simp [this]
    · have hum := hok.owns u m (by simpa [e] using hu)
      have : m ≠ l := fun e' => by rw [e', ho] at hum; cases hum
      simpa [this] using hum
  · intro u m hu
    unfold next at hu
    by_cases e : m = l
    · rw [e]
      exact hl
    · exact hok.owned u m (by simpa [e] using hu)

theorem Ok.unlock (hok : Ok ms s) (he : s.Enabled (.unlock t l)) : Ok ms (s.next (.unlock t l)) := by
  have ho : s.owner l = some t := he.2
  refine ⟨hok.table, hok.graph, ?_, ?_⟩
  · intro u m hu
    obtain ⟨hut, hu⟩ := phase_of_next (by simp [Event.target]) hu
    have hum := hok.owns u m hu
    have hml : m ≠ l := fun e => hut (by rw [e, ho] at hum; exact (Option.some.inj hum).symm)
    simpa [next, hml] using hum
  · intro u m hu
    unfold next at hu
    by_cases e : m = l
    · simp [e] at hu
    · exact hok.owned u m (by simpa [e] using hu)

theorem Ok.step (h0 : 0 ∉ ms) {e : Event} (hok : Ok ms s) (hl : e.lock ∈ ms) (hs : s.step e = some s') :
    Ok ms s' := by
  obtain ⟨he, rfl⟩ := step_next hs
  have hne : e.lock ≠ 0 := fun e0 => h0 (e0 ▸ hl)
  -- a thread that leaves a hook, or waits, has not been granted anything
  have howns : ∀ {e : Event}, (∀ l, e.target ≠ .granted l) → ∀ u m, (s.next e).phase u = .granted m →
      s.owner m = some u := fun ht u m hu => hok.owns u m (phase_of_next (ht m) hu).2
  cases e with
  | lockBefore t l =>
    refine hok.bind (fun tg htg tg' heq => ?_) (howns (e := .lockBefore t l) (by simp [Event.target]))
    exact ⟨(hok.table tg htg).of_lockBefore hne heq, threadGraph_lockBefore (hok.graph tg htg) heq⟩
  | grant t l => exact hok.grant he hne
  | lockAfter t l =>
    refine hok.bind (fun tg htg tg' heq => ?_) (howns (e := .lockAfter t l) (by simp [Event.target]))
    exact ⟨(hok.table tg htg).of_lockAfter hl hne heq, threadGraph_lockAfter (hok.graph tg htg) heq⟩
  | unlock t l => exact hok.unlock he
  | unlockAfter t l =>
    refine hok.bind (fun tg htg tg' heq => ?_) (howns (e := .unlockAfter t l) (by simp [Event.target]))
    exact ⟨(hok.table tg htg).of_unlockAfter heq, threadGraph_unlockAfter (hok.graph tg htg) heq⟩

/-! ## The steps of the hooks, case by case -/

variable (hok : Ok ms s) (htg : s.tg = some tg)
include hok htg

theorem Ok.lockBefore_cases (hl : l ≠ 0) :
    (tg.entry l = none ∧ (s.next (.lockBefore t l)).tg = some tg) ∨
    ∃ slot tg', tg.entry l = some slot ∧ (s.next (.lockBefore t l)).tg = some tg' ∧
      tg'.vertexList = (tg.waitEdge t slot.thId).vertexList ∧ ∀ m ≠ 0, tg'.entry m =
        if m = l then some { slot with degress := slot.degress + 1 } else tg.entry m := by
  unfold next
  rw [htg]
  cases hent : tg.entry l with
  | none => exact Or.inl ⟨rfl, lockBefore_none hent⟩
  | some slot =>
    obtain ⟨tg', heq, -, hrest⟩ := (hok.table tg htg).lockBefore_some (t := t) hl hent
    exact Or.inr ⟨slot, tg', rfl, heq, hrest⟩

theorem Ok.lockAfter_cases (hl : l ∈ ms) (h0 : l ≠ 0) :
    (∃ slot tg', tg.entry l = none ∧ tg.emptySlot l = some slot ∧ (s.next (.lockAfter t l)).tg = some tg' ∧
      tg'.vertexList = tg.vertexList ∧ ∀ m ≠ 0, tg'.entry m =
        if m = l then some { slot with thId := t, lockId := l } else if m = slot.lockId then none else tg.entry m) ∨
    ∃ slot tg', tg.entry l = some slot ∧ (s.next (.lockAfter t l)).tg = some tg' ∧
      tg'.vertexList = (tg.dropEdge t slot.thId).vertexList ∧ ∀ m ≠ 0, tg'.entry m =
        if m = l then some { slot with thId := t, degress := slot.degress - 1 } else tg.entry m := by
  unfold next
  rw [htg]
  cases hent : tg.entry l with
  | none =>
    obtain ⟨slot, tg', hempty, heq, -, hrest⟩ := (hok.table tg htg).lockAfter_none (t := t) hl h0 hent
    exact Or.inl ⟨slot, tg', rfl, hempty, heq, hrest⟩
  | some slot =>
    obtain ⟨tg', heq, -, hrest⟩ := (hok.table tg htg).lockAfter_some (t := t) h0 hent
    exact Or.inr ⟨slot, tg', rfl, heq, hrest⟩

theorem Ok.unlockAfter_cases :
    (tg.entry l = none ∧ (s.next (.unlockAfter t l)).tg = none) ∨
    ∃ slot tg', tg.entry l = some slot ∧ (s.next (.unlockAfter t l)).tg = some tg' ∧
      tg'.vertexList = tg.vertexList ∧ ∀ m ≠ 0, tg'.entry m =
        if m = l ∧ slot.degress = 0 then none else tg.entry m := by
  unfold next
  rw [htg]
  cases hent : tg.entry l with
  | none => exact Or.inl ⟨rfl, unlockAfter_none (t := t) hent⟩
  | some slot =>
    obtain ⟨tg', heq, -, hrest⟩ := (hok.table tg htg).unlockAfter (t := t) hent
    exact Or.inr ⟨slot, tg', rfl, heq, hrest⟩

end

/-! ## Room in vertex_list -/

/-- `vertex_list` has room for the two threads of an edge. -/
def Room (tg : TaskGraph) (t v : Nat) : Prop :=
  (insert (processPair t).key (insert (processPair v).key tg.keys.toFinset)).card ≤ MAX

def WithinMax (s : Sys) : Prop := ∀ tg, s.tg = some tg → tg.vertexNum ≤ MAX

/-- The threads of the edge that `lock_before` adds find room. -/
def HasRoom (s : Sys) : Event → Prop
  | .lockBefore t l => ∀ tg slot, s.tg = some tg → tg.entry l = some slot → Room tg t slot.thId
  | _ => True

section
variable {ms : Finset Nat} {s s' : Sys} {e : Event} {t v : Nat} {tg tg' : TaskGraph}

theorem vertexNum_congr (h : tg'.vertexList = tg.vertexList) : tg'.vertexNum = tg.vertexNum := by
  unfold vertexNum
  rw [h]

theorem vertexNum_waitEdge_le (hw : ThreadGraph tg) : (tg.waitEdge t v).vertexNum ≤ MAX ↔ Room tg t v := by
  have hkeys : (tg.waitEdge t v).keys.toFinset =
      insert (processPair t).key (insert (processPair v).key tg.keys.toFinset) := by
    ext a
    rw [List.mem_toFinset, mem_keys_waitEdge, Finset.mem_insert, Finset.mem_insert, List.mem_toFinset]
    tauto
  rw [(hw.waitEdge t v).vertexNum_eq, hkeys, Room]

theorem vertexNum_dropEdge (tg : TaskGraph) (t v : Nat) : (tg.dropEdge t v).vertexNum = tg.vertexNum := by
  have h := congrArg List.length (keys_dropEdge tg t v)
  rwa [keys, keys, List.length_map, List.length_map] at h

/-- The vertices of the graph after a step, where there is one. -/
theorem vertexNum_next (he : ∀ t l, e ≠ .lockBefore t l) (h' : (s.next e).tg = some tg') :
    ∃ tg, s.tg = some tg ∧ tg'.vertexNum = tg.vertexNum := by
  cases e with
  | lockBefore t l => exact absurd rfl (he t l)
  | grant t l => exact ⟨tg', h', rfl⟩
  | unlock t l => exact ⟨tg', h', rfl⟩
  | lockAfter t l =>
    obtain ⟨tg, htg, heq⟩ := Option.bind_eq_some_iff.mp h'
    rcases lockAfter_vertices heq with hv | ⟨v, hv⟩
    · exact ⟨tg, htg, vertexNum_congr hv⟩
    · exact ⟨tg, htg, (vertexNum_congr hv).trans (vertexNum_dropEdge tg t v)⟩
  | unlockAfter t l =>
    obtain ⟨tg, htg, heq⟩ := Option.bind_eq_some_iff.mp h'
    exact ⟨tg, htg, vertexNum_congr (unlockAfter_vertices heq)⟩

theorem withinMax_step (h0 : 0 ∉ ms) (hok : Ok ms s) (h : WithinMax s) (hl : e.lock ∈ ms) (hs : s.step e = some s') :
    WithinMax s' ↔ HasRoom s e := by
  obtain ⟨-, rfl⟩ := step_next hs
  by_cases he : ∃ t l, e = .lockBefore t l
  · obtain ⟨t, l, rfl⟩ := he
    have hne : l ≠ 0 := fun e0 => h0 (e0 ▸ hl)
    cases htg : s.tg with
    | none =>
      have hnone : (s.next (.lockBefore t l)).tg = none := congrArg (fun o => o.bind (TaskGraph.lockBefore t l)) htg
      refine iff_of_true (fun tg' h' => ?_) fun tg slot h' => ?_
      · cases hnone.symm.trans h'
      · cases htg.symm.trans h'
    | some tg =>
      rcases hok.lockBefore_cases htg (t := t) hne with ⟨hnone, htg'⟩ | ⟨slot, tg', hslot, htg', hv, -⟩
      · refine iff_of_true (fun tg' h' => ?_) fun tg₁ slot h₁ hslot => ?_
        · cases htg'.symm.trans h'
          exact h tg htg
        · cases htg.symm.trans h₁
          cases hnone.symm.trans hslot
      · have hiff := vertexNum_waitEdge_le (t := t) (v := slot.thId) (hok.graph tg htg)
        rw [← vertexNum_congr hv] at hiff
        refine ⟨fun hw tg₁ slot₁ h₁ hs₁ => ?_, fun hr tg₁ h₁ => ?_⟩
        · cases htg.symm.trans h₁
          cases hslot.symm.trans hs₁
          exact hiff.mp (hw tg' htg')
        · cases htg'.symm.trans h₁
          exact hiff.mpr (hr tg slot htg hslot)
  · refine iff_of_true (fun tg' h' => ?_) ?_
    · obtain ⟨tg, htg, hnum⟩ := vertexNum_next (fun t l e => he ⟨t, l, e⟩) h'
      rw [hnum]
      exact h tg htg
    · cases e with
      | lockBefore t l => exact absurd ⟨t, l, rfl⟩ he
      | _ => trivial

end

/-! ## Runs -/

section
variable {N : Nat} {es : List Event} (h : Fits N es)
include h

theorem Fits.zero_notMem : 0 ∉ (es.map Event.lock).toFinset := by
  intro hm
  obtain ⟨e, he, e0⟩ := List.mem_map.mp (List.mem_toFinset.mp hm)
  exact h.1 e he e0

omit h in
theorem lock_mem_toFinset : ∀ e ∈ es, e.lock ∈ (es.map Event.lock).toFinset :=
  fun e he => List.mem_toFinset.mpr (List.mem_map.mpr ⟨e, he, rfl⟩)

theorem along_iff_of_step {K L : Sys → Event → Sys → Prop} {I : Sys → Prop} (hI : I (init N))
    (hstep : ∀ ms s e s', 0 ∉ ms → Ok ms s → I s → e.lock ∈ ms → step s e = some s' →
      (K s e s' ↔ L s e s') ∧ (K s e s' → I s')) :
    Along step K (init N) es ↔ Along step L (init N) es := by
  refine along_iff (I := fun s => Ok (es.map Event.lock).toFinset s ∧ I s) (fun s e s' hI hl hs => ?_)
    lock_mem_toFinset ⟨Ok.init h.2, hI⟩
  obtain ⟨hkl, hk⟩ := hstep _ s e s' h.zero_notMem hI.1 hI.2 hl hs
  exact ⟨hkl, fun hK => ⟨hI.1.step h.zero_notMem hl hs, hk hK⟩⟩

theorem always_iff_of_step {P : Sys → Prop} {L : Sys → Event → Prop} {I : Sys → Prop} (hP : P (init N))
    (hI : I (init N)) (hstep : ∀ ms s e s', 0 ∉ ms → Ok ms s → I s → e.lock ∈ ms → step s e = some s' →
      (P s' ↔ L s e) ∧ (P s' → I s')) :
    Always step P (init N) es ↔ Along step (fun s e _ => L s e) (init N) es := by
  have hiff := along_iff_of_step (K := fun _ _ s' => P s') (L := fun s e _ => L s e) h hI hstep
  exact ⟨fun ha => hiff.mp ha.2, fun hl => ⟨hP, hiff.mpr hl⟩⟩

theorem always_of_step {P : Sys → Prop} {L : Sys → Event → Prop} {I : Sys → Prop} (hI : I (init N))
    (hP : ∀ ms s, Ok ms s → I s → P s)
    (hstep : ∀ ms s e s', 0 ∉ ms → Ok ms s → I s → e.lock ∈ ms → step s e = some s' → L s e → I s')
    (hL : Along step (fun s e _ => L s e) (init N) es) : Always step P (init N) es := by
  refine always_of_along (I := fun s => Ok (es.map Event.lock).toFinset s ∧ I s) (fun s e s' hI hl hs hLs => ?_)
    (fun s hI => hP _ s hI.1 hI.2) lock_mem_toFinset ⟨Ok.init h.2, hI⟩ hL
  exact ⟨hI.1.step h.zero_notMem hl hs, hstep _ s e s' h.zero_notMem hI.1 hI.2 hl hs hLs⟩

/-- A run stays within `vertex_list` exactly when every edge finds room. -/
theorem withinMax_iff_hasRoom :
    Always step WithinMax (init N) es ↔ Along step (fun s e _ => HasRoom s e) (init N) es := by
  have hinit : WithinMax (init N) := by
    intro tg htg
    cases htg
    exact Nat.zero_le _
  apply always_iff_of_step h hinit hinit
  intro ms s e s' h0 hok hI hl hs
  exact ⟨withinMax_step h0 hok hI hl hs, id⟩

end

/-- Thread `2` waits for the mutex of thread `1`, and gets it. -/
def waiterRun : List Event :=
  [.lockBefore 1 10, .grant 1 10, .lockAfter 1 10, .lockBefore 2 10, .unlock 1 10, .unlockAfter 1 10, .grant 2 10,
    .lockAfter 2 10]

end Sys

end LearningC
