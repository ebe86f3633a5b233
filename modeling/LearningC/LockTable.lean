import LearningC.HookGraph
import Mathlib.Data.Finset.Card

/-!
# The lock table as a partial map

Each hook is one change of the graph and one change of a slot. Read by mutex, a table
without repeated mutexes is a partial map (`entry`), and each hook updates it.
-/

namespace LearningC

namespace TaskGraph

/-- The slot that `search_lock` finds. -/
def entry (tg : TaskGraph) (lock : Nat) : Option Pair := KeyedList.find Pair.lockId tg.lockList lock

def emptySlot (tg : TaskGraph) (lock : Nat) : Option Pair :=
  (tg.searchEmptyLock lock).bind fun idx => tg.lockList[idx]?

/-! ## The hooks in two parts -/

theorem searchLock_bind (tg : TaskGraph) (l : Nat) :
    ((tg.searchLock l).bind fun idx => tg.lockList[idx]?) = tg.entry l :=
  KeyedList.findIdx_find Pair.lockId tg.lockList l

theorem searchLock_of_entry {tg : TaskGraph} {l : Nat} {slot : Pair} (h : tg.entry l = some slot) :
    ∃ idx, tg.searchLock l = some idx ∧ tg.lockList[idx]? = some slot := by
  rw [← searchLock_bind] at h
  exact Option.bind_eq_some_iff.mp h

theorem searchLock_of_none {tg : TaskGraph} {l : Nat} (h : tg.entry l = none) : tg.searchLock l = none := by
  cases hs : tg.searchLock l with
  | none => rfl
  | some idx =>
    obtain ⟨hi, -⟩ := List.findIdx?_eq_some_iff_getElem.mp hs
    rw [← searchLock_bind, hs, Option.bind_some, List.getElem?_eq_getElem hi] at h
    cases h

section
variable {tg : TaskGraph} {t l : Nat}

theorem lockBefore_none (h : tg.entry l = none) : lockBefore t l tg = some tg := by
  unfold lockBefore
  rw [searchLock_of_none h]

theorem lockBefore_some {slot : Pair} (h : tg.entry l = some slot) :
    ∃ idx, tg.lockList[idx]? = some slot ∧ lockBefore t l tg =
      some ((tg.waitEdge t slot.thId).modifyLock idx fun slot => { slot with degress := slot.degress + 1 }) := by
  obtain ⟨idx, hs, hi⟩ := searchLock_of_entry h
  refine ⟨idx, hi, ?_⟩
  unfold lockBefore
  rw [hs]
  simp only [hi, Option.map_some]
  rw [← waitEdge_modifyLock]
  simp only [waitEdge, addVertex_modifyLock]

theorem lockAfter_none (h : tg.entry l = none) : lockAfter t l tg = (tg.searchEmptyLock l).map fun idx =>
    tg.modifyLock idx fun slot => { slot with thId := t, lockId := l } := by
  unfold lockAfter
  rw [searchLock_of_none h]

theorem lockAfter_some {slot : Pair} (h : tg.entry l = some slot) :
    ∃ idx, tg.lockList[idx]? = some slot ∧ lockAfter t l tg = some ((tg.dropEdge t slot.thId).modifyLock idx
      fun slot => { slot with thId := t, degress := slot.degress - 1 }) := by
  obtain ⟨idx, hs, hi⟩ := searchLock_of_entry h
  refine ⟨idx, hi, ?_⟩
  unfold lockAfter
  rw [hs]
  simp only [hi, Option.map_some]
  have hd := dropEdge_modifyLock tg idx (fun slot => { slot with degress := slot.degress - 1 }) t slot.thId
  unfold dropEdge at hd ⊢
  rw [hd]
  simp only [modifyLock, List.modify_modify_eq]
  rfl

theorem unlockAfter_none (h : tg.entry l = none) : unlockAfter t l tg = none := by
  unfold unlockAfter
  rw [searchLock_of_none h]
  rfl

theorem unlockAfter_some {slot : Pair} (h : tg.entry l = some slot) :
    ∃ idx, tg.lockList[idx]? = some slot ∧ unlockAfter t l tg = some (if slot.degress = 0 then
      tg.modifyLock idx fun slot => { slot with thId := 0, lockId := 0 } else tg) := by
  obtain ⟨idx, hs, hi⟩ := searchLock_of_entry h
  refine ⟨idx, hi, ?_⟩
  unfold unlockAfter
  rw [hs, Option.bind_some, hi, Option.map_some]

/-! ## The graph after each hook -/

section
variable {tg' : TaskGraph}

theorem lockBefore_vertices (h : lockBefore t l tg = some tg') :
    tg' = tg ∨ ∃ v, tg'.vertexList = (tg.waitEdge t v).vertexList := by
  cases he : tg.entry l with
  | none =>
    cases (lockBefore_none he).symm.trans h
    exact Or.inl rfl
  | some slot =>
    obtain ⟨idx, -, heq⟩ := lockBefore_some (t := t) he
    cases heq.symm.trans h
    exact Or.inr ⟨slot.thId, rfl⟩

theorem lockAfter_vertices (h : lockAfter t l tg = some tg') :
    tg'.vertexList = tg.vertexList ∨ ∃ v, tg'.vertexList = (tg.dropEdge t v).vertexList := by
  cases he : tg.entry l with
  | none =>
    rw [lockAfter_none he] at h
    obtain ⟨idx, -, rfl⟩ := Option.map_eq_some_iff.mp h
    exact Or.inl rfl
  | some slot =>
    obtain ⟨idx, -, heq⟩ := lockAfter_some (t := t) he
    cases heq.symm.trans h
    exact Or.inr ⟨slot.thId, rfl⟩

theorem unlockAfter_vertices (h : unlockAfter t l tg = some tg') : tg'.vertexList = tg.vertexList := by
  cases he : tg.entry l with
  | none => cases (unlockAfter_none he).symm.trans h
  | some slot =>
    obtain ⟨idx, -, heq⟩ := unlockAfter_some (t := t) he
    cases heq.symm.trans h
    split <;> rfl

end

end

section
variable {tg tg' : TaskGraph} {t l : Nat} (h : ThreadGraph tg)
include h

theorem threadGraph_lockBefore (heq : lockBefore t l tg = some tg') : ThreadGraph tg' := by
  rcases lockBefore_vertices heq with rfl | ⟨v, hv⟩
  · exact h
  · exact (h.waitEdge t v).of_vertexList hv

theorem threadGraph_lockAfter (heq : lockAfter t l tg = some tg') : ThreadGraph tg' := by
  rcases lockAfter_vertices heq with hv | ⟨v, hv⟩
  · exact h.of_vertexList hv
  · exact (h.dropEdge t v).of_vertexList hv

theorem threadGraph_unlockAfter (heq : unlockAfter t l tg = some tg') : ThreadGraph tg' :=
  h.of_vertexList (unlockAfter_vertices heq)

end

/-! ## Tables without repeated mutexes -/

/-- A table for the mutexes `ms`: no mutex has two slots, and only slots of a mutex
have waiters. -/
structure TableOk (ms : Finset Nat) (tg : TaskGraph) : Prop where
  distinct : KeyedList.Distinct Pair.lockId 0 tg.lockList
  used : ∀ slot ∈ tg.lockList, slot.lockId = 0 ∨ slot.lockId ∈ ms
  unused : ∀ slot ∈ tg.lockList, slot.lockId = 0 → slot.degress = 0
  size : ms.card ≤ tg.lockNum

theorem TableOk.init {ms : Finset Nat} {n : Nat} (h : ms.card ≤ n) : TableOk ms (init n) := by
  have hslot : ∀ slot ∈ (TaskGraph.init n).lockList, slot = { thId := 0, type := .process } :=
    fun slot hs => List.eq_of_mem_replicate hs
  constructor
  · intro i j a b hi _ _ hz
    rw [hslot a (List.mem_of_getElem? hi)] at hz
    exact absurd rfl hz
  · intro slot hs
    rw [hslot slot hs]; exact Or.inl rfl
  · intro slot hs _
    rw [hslot slot hs]
  · simpa [TaskGraph.lockNum, TaskGraph.init] using h

section
variable {ms : Finset Nat} {tg : TaskGraph}

theorem TableOk.of_lockList {tg' : TaskGraph} (h : TableOk ms tg) (e : tg'.lockList = tg.lockList) :
    TableOk ms tg' := by
  obtain ⟨h₁, h₂, h₃, h₄⟩ := h
  constructor
  · rwa [e]
  · rwa [e]
  · rwa [e]
  · unfold lockNum at h₄ ⊢
    rwa [e]

theorem TableOk.modifyLock (h : TableOk ms tg) {idx : Nat} {slot : Pair} (hi : tg.lockList[idx]? = some slot)
    (f : Pair → Pair) (hused : (f slot).lockId = 0 ∨ (f slot).lockId ∈ ms)
    (hunused : (f slot).lockId = 0 → (f slot).degress = 0)
    (hnew : (f slot).lockId = 0 ∨ ∀ (j : Nat) b, tg.lockList[j]? = some b → b.lockId = (f slot).lockId → j = idx) :
    TableOk ms (tg.modifyLock idx f) := by
  have hmem : ∀ b ∈ (tg.modifyLock idx f).lockList, b = f slot ∨ b ∈ tg.lockList := by
    intro b hb
    obtain ⟨j, hj⟩ := List.mem_iff_getElem?.mp hb
    unfold TaskGraph.modifyLock at hj
    rw [List.getElem?_modify] at hj
    obtain ⟨b', hb', rfl⟩ := Option.map_eq_some_iff.mp hj
    by_cases hij : idx = j
    · subst hij
      rw [hi] at hb'
      cases hb'
      exact Or.inl (if_pos rfl)
    · rw [if_neg hij]
      exact Or.inr (List.mem_of_getElem? hb')
  constructor
  · exact h.distinct.modify hi f hnew
  · intro b hb
    rcases hmem b hb with rfl | hb
    · exact hused
    · exact h.used b hb
  · intro b hb
    rcases hmem b hb with rfl | hb
    · exact hunused
    · exact h.unused b hb
  · simpa [lockNum, TaskGraph.modifyLock] using h.size

theorem TableOk.entry_modifyLock (h : TableOk ms tg) {idx : Nat} {slot : Pair} (hi : tg.lockList[idx]? = some slot)
    (f : Pair → Pair)
    (hnew : (f slot).lockId = 0 ∨ ∀ (j : Nat) b, tg.lockList[j]? = some b → b.lockId = (f slot).lockId → j = idx)
    {m : Nat} (hm : m ≠ 0) : (tg.modifyLock idx f).entry m =
      if (f slot).lockId = m then some (f slot) else if slot.lockId = m then none else tg.entry m :=
  h.distinct.find_modify hi f hnew hm

theorem TableOk.update (h : TableOk ms tg) {idx : Nat} {slot : Pair} (hi : tg.lockList[idx]? = some slot)
    (h0 : slot.lockId ≠ 0) (f : Pair → Pair) (hf : (f slot).lockId = slot.lockId) :
    TableOk ms (tg.modifyLock idx f) ∧ ∀ m ≠ 0, (tg.modifyLock idx f).entry m =
      if m = slot.lockId then some (f slot) else tg.entry m := by
  have hnew : ∀ (j : Nat) b, tg.lockList[j]? = some b → b.lockId = (f slot).lockId → j = idx := by
    intro j b hj e
    have e' : b.lockId = slot.lockId := e.trans hf
    exact h.distinct j idx b slot hj hi e' (e' ▸ h0)
  refine ⟨h.modifyLock hi f ?_ (fun e => absurd (hf ▸ e) h0) (Or.inr hnew), fun m hm => ?_⟩
  · rw [hf]; exact h.used slot (List.mem_of_getElem? hi)
  · rw [h.entry_modifyLock hi f (Or.inr hnew) hm, hf]
    by_cases e : slot.lockId = m
    · simp [e]
    · simp [e, Ne.symm e]

theorem lockId_of_entry {l : Nat} {slot : Pair} (h : tg.entry l = some slot) : slot.lockId = l :=
  (KeyedList.mem_of_find h).2

theorem TableOk.forall_slots (h : TableOk ms tg) (P : Pair → Prop) :
    (∀ slot ∈ tg.lockList, slot.lockId ≠ 0 → P slot) ↔ ∀ l ≠ 0, ∀ slot, tg.entry l = some slot → P slot := by
  constructor
  · intro hP l hl slot he
    exact hP slot (KeyedList.mem_of_find he).1 (lockId_of_entry he ▸ hl)
  · intro hP slot hs hl
    obtain ⟨idx, hi⟩ := List.mem_iff_getElem?.mp hs
    exact hP slot.lockId hl slot (h.distinct.find_of_getElem hi hl)

theorem degress_of_emptySlot {l : Nat} {slot : Pair} (h : tg.emptySlot l = some slot) : slot.degress = 0 := by
  obtain ⟨idx, hs, hi⟩ := Option.bind_eq_some_iff.mp h
  obtain ⟨hlt, hd, -⟩ := List.findIdx?_eq_some_iff_getElem.mp hs
  rw [List.getElem?_eq_getElem hlt] at hi
  cases hi
  simpa using hd

theorem TableOk.emptySlot (h : TableOk ms tg) {l : Nat} (hl : l ∈ ms) (he : tg.entry l = none) :
    ∃ idx slot, tg.searchEmptyLock l = some idx ∧ tg.lockList[idx]? = some slot ∧ slot.degress = 0 := by
  cases hs : tg.searchEmptyLock l with
  | some idx =>
    obtain ⟨hlt, hd, -⟩ := List.findIdx?_eq_some_iff_getElem.mp hs
    exact ⟨idx, _, rfl, List.getElem?_eq_getElem hlt, by simpa using hd⟩
  | none =>
    exfalso
    have hdeg : ∀ slot ∈ tg.lockList, slot.degress ≠ 0 := by
      intro slot hm e
      have := List.findIdx?_eq_none_iff.mp hs slot hm
      simp [e] at this
    have hne : ∀ slot ∈ tg.lockList, slot.lockId ≠ 0 := fun slot hm e => hdeg slot hm (h.unused slot hm e)
    have hnd : (tg.lockList.map Pair.lockId).Nodup := by
      rw [List.nodup_iff_injective_getElem]
      intro i j hij
      simp only [List.getElem_map] at hij
      have hi : i < tg.lockList.length := by simpa using i.2
      have hj : j < tg.lockList.length := by simpa using j.2
      exact Fin.ext (h.distinct i j _ _ (List.getElem?_eq_getElem hi) (List.getElem?_eq_getElem hj) hij
        (hne _ (List.getElem_mem hi)))
    have hsub : (tg.lockList.map Pair.lockId).toFinset ⊆ ms.erase l := by
      intro m hm
      obtain ⟨slot, hslot, rfl⟩ := List.mem_map.mp (List.mem_toFinset.mp hm)
      refine Finset.mem_erase.mpr ⟨fun e => ?_, (h.used slot hslot).resolve_left (hne slot hslot)⟩
      exact (KeyedList.find_eq_none Pair.lockId).mp he slot hslot e
    have hcard := Finset.card_le_card hsub
    rw [List.toFinset_card_of_nodup hnd, List.length_map, Finset.card_erase_of_mem hl] at hcard
    have := h.size
    have := Finset.card_pos.mpr ⟨l, hl⟩
    unfold lockNum at *
    omega

/-! ## One lemma for each hook -/

variable {t l : Nat} (h : TableOk ms tg)
include h

theorem TableOk.lockBefore_some (hl : l ≠ 0) {slot : Pair} (he : tg.entry l = some slot) :
    ∃ tg', TaskGraph.lockBefore t l tg = some tg' ∧ TableOk ms tg' ∧
      tg'.vertexList = (tg.waitEdge t slot.thId).vertexList ∧ ∀ m ≠ 0, tg'.entry m =
        if m = l then some { slot with degress := slot.degress + 1 } else tg.entry m := by
  obtain ⟨idx, hi, heq⟩ := TaskGraph.lockBefore_some (t := t) he
  have hid := lockId_of_entry he
  have hw : TableOk ms (tg.waitEdge t slot.thId) := h.of_lockList (lockList_waitEdge _ _ _)
  rw [← lockList_waitEdge tg t slot.thId] at hi
  obtain ⟨hok, hent⟩ := hw.update hi (hid ▸ hl) (fun slot => { slot with degress := slot.degress + 1 }) rfl
  refine ⟨_, heq, hok, rfl, fun m hm => ?_⟩
  rw [hent m hm]
  unfold entry
  rw [lockList_waitEdge]
  subst hid
  rfl

theorem TableOk.lockAfter_some (hl : l ≠ 0) {slot : Pair} (he : tg.entry l = some slot) :
    ∃ tg', TaskGraph.lockAfter t l tg = some tg' ∧ TableOk ms tg' ∧
      tg'.vertexList = (tg.dropEdge t slot.thId).vertexList ∧ ∀ m ≠ 0, tg'.entry m =
        if m = l then some { slot with thId := t, degress := slot.degress - 1 } else tg.entry m := by
  obtain ⟨idx, hi, heq⟩ := TaskGraph.lockAfter_some (t := t) he
  have hid := lockId_of_entry he
  have hw : TableOk ms (tg.dropEdge t slot.thId) := h.of_lockList (lockList_dropEdge _ _ _)
  rw [← lockList_dropEdge tg t slot.thId] at hi
  obtain ⟨hok, hent⟩ := hw.update hi (hid ▸ hl) (fun slot => { slot with thId := t, degress := slot.degress - 1 }) rfl
  refine ⟨_, heq, hok, rfl, fun m hm => ?_⟩
  rw [hent m hm]
  unfold entry
  rw [lockList_dropEdge]
  subst hid
  rfl

theorem TableOk.lockAfter_none (hl : l ∈ ms) (h0 : l ≠ 0) (he : tg.entry l = none) :
    ∃ slot tg', tg.emptySlot l = some slot ∧ TaskGraph.lockAfter t l tg = some tg' ∧ TableOk ms tg' ∧
      tg'.vertexList = tg.vertexList ∧ ∀ m ≠ 0, tg'.entry m =
        if m = l then some { slot with thId := t, lockId := l } else if m = slot.lockId then none else tg.entry m := by
  obtain ⟨idx, slot, hs, hi, hd⟩ := h.emptySlot hl he
  have hnew : ∀ (j : Nat) b, tg.lockList[j]? = some b → b.lockId = l → j = idx :=
    fun j b hj e => absurd e ((KeyedList.find_eq_none Pair.lockId).mp he b (List.mem_of_getElem? hj))
  refine ⟨slot, tg.modifyLock idx fun slot => { slot with thId := t, lockId := l }, ?_, ?_, ?_, rfl, fun m hm => ?_⟩
  · unfold TaskGraph.emptySlot
    rw [hs, Option.bind_some, hi]
  · rw [TaskGraph.lockAfter_none he, hs, Option.map_some]
  · exact h.modifyLock hi _ (Or.inr hl) (fun e => absurd e h0) (Or.inr hnew)
  · rw [h.entry_modifyLock hi _ (Or.inr hnew) hm]
    by_cases e₁ : l = m
    · simp [e₁]
    · by_cases e₂ : slot.lockId = m
      · simp [e₁, e₂, Ne.symm e₁]
      · simp [e₁, e₂, Ne.symm e₁, Ne.symm e₂]

theorem TableOk.unlockAfter {slot : Pair} (he : tg.entry l = some slot) :
    ∃ tg', TaskGraph.unlockAfter t l tg = some tg' ∧ TableOk ms tg' ∧ tg'.vertexList = tg.vertexList ∧
      ∀ m ≠ 0, tg'.entry m = if m = l ∧ slot.degress = 0 then none else tg.entry m := by
  obtain ⟨idx, hi, heq⟩ := unlockAfter_some (t := t) he
  have hid := lockId_of_entry he
  by_cases hd : slot.degress = 0
  · rw [if_pos hd] at heq
    refine ⟨_, heq, h.modifyLock hi _ (Or.inl rfl) (fun _ => hd) (Or.inl rfl), rfl, fun m hm => ?_⟩
    rw [h.entry_modifyLock hi _ (Or.inl rfl) hm, if_neg (Ne.symm hm), hid]
    by_cases e : l = m
    · simp [e, hd]
    · simp [e, Ne.symm e]
  · rw [if_neg hd] at heq
    exact ⟨tg, heq, h, rfl, fun m _ => by simp [hd]⟩

theorem TableOk.of_lockBefore {tg' : TaskGraph} (hl : l ≠ 0) (heq : TaskGraph.lockBefore t l tg = some tg') :
    TableOk ms tg' := by
  cases he : tg.entry l with
  | none =>
    cases (TaskGraph.lockBefore_none he).symm.trans heq
    exact h
  | some slot =>
    obtain ⟨tg₁, heq₁, hok, -⟩ := h.lockBefore_some (t := t) hl he
    cases heq₁.symm.trans heq
    exact hok

theorem TableOk.of_lockAfter {tg' : TaskGraph} (hl : l ∈ ms) (h0 : l ≠ 0)
    (heq : TaskGraph.lockAfter t l tg = some tg') : TableOk ms tg' := by
  cases he : tg.entry l with
  | none =>
    obtain ⟨slot, tg₁, -, heq₁, hok, -⟩ := h.lockAfter_none (t := t) hl h0 he
    cases heq₁.symm.trans heq
    exact hok
  | some slot =>
    obtain ⟨tg₁, heq₁, hok, -⟩ := h.lockAfter_some (t := t) h0 he
    cases heq₁.symm.trans heq
    exact hok

theorem TableOk.of_unlockAfter {tg' : TaskGraph} (heq : TaskGraph.unlockAfter t l tg = some tg') : TableOk ms tg' := by
  cases he : tg.entry l with
  | none => cases (TaskGraph.unlockAfter_none he).symm.trans heq
  | some slot =>
    obtain ⟨tg₁, heq₁, hok, -⟩ := h.unlockAfter (t := t) he
    cases heq₁.symm.trans heq
    exact hok

end

end TaskGraph

end LearningC
