import LearningC.Adjacency
import LearningC.Hook
import Mathlib.Data.Finset.Card

/-!
# What the hooks do to the graph

`lock_before` adds an edge to the thread in the slot (`waitEdge`) and `lock_after`
removes one (`dropEdge`). Both leave the lock table alone.
-/

namespace LearningC

namespace TaskGraph

/-- What `lock_before` does to the graph when `v` is the thread in the slot. -/
def waitEdge (tg : TaskGraph) (t v : Nat) : TaskGraph :=
  let tg := (tg.addVertex (processPair t)).addVertex (processPair v)
  if tg.verifyEdge (processPair t) (processPair v) then tg else tg.addEdge (processPair t) (processPair v)

/-- What `lock_after` does to the graph when `v` is the thread in the slot. -/
def dropEdge (tg : TaskGraph) (t v : Nat) : TaskGraph :=
  if tg.verifyEdge (processPair t) (processPair v) then tg.removeEdge (processPair t) (processPair v) else tg

/-! ## Graph and table are changed independently -/

section
variable (tg : TaskGraph) (idx : Nat) (f : Pair → Pair)

theorem searchVertex_modifyLock (p : Pair) : (tg.modifyLock idx f).searchVertex p = tg.searchVertex p := rfl

theorem addVertex_modifyLock (p : Pair) : (tg.modifyLock idx f).addVertex p = (tg.addVertex p).modifyLock idx f := by
  unfold addVertex
  rw [searchVertex_modifyLock]
  split <;> rfl

theorem verifyEdge_modifyLock (u v : Pair) : (tg.modifyLock idx f).verifyEdge u v = tg.verifyEdge u v := rfl

theorem addEdge_modifyLock (u v : Pair) : (tg.modifyLock idx f).addEdge u v = (tg.addEdge u v).modifyLock idx f := by
  unfold addEdge
  simp only [addVertex_modifyLock, searchVertex_modifyLock]
  cases ((tg.addVertex u).addVertex v).searchVertex u <;> rfl

theorem removeEdge_modifyLock (u v : Pair) :
    (tg.modifyLock idx f).removeEdge u v = (tg.removeEdge u v).modifyLock idx f := by
  unfold removeEdge
  simp only [searchVertex_modifyLock]
  cases tg.searchVertex u <;> cases tg.searchVertex v <;> rfl

theorem waitEdge_modifyLock (t v : Nat) : (tg.modifyLock idx f).waitEdge t v = (tg.waitEdge t v).modifyLock idx f := by
  unfold waitEdge
  simp only [addVertex_modifyLock, addEdge_modifyLock, verifyEdge_modifyLock]
  split <;> rfl

theorem dropEdge_modifyLock (t v : Nat) : (tg.modifyLock idx f).dropEdge t v = (tg.dropEdge t v).modifyLock idx f := by
  unfold dropEdge
  simp only [removeEdge_modifyLock, verifyEdge_modifyLock]
  split <;> rfl

theorem lockList_addVertex (p : Pair) : (tg.addVertex p).lockList = tg.lockList := by
  unfold addVertex; split <;> rfl

theorem lockList_addEdge (u v : Pair) : (tg.addEdge u v).lockList = tg.lockList := by
  unfold addEdge
  cases h : ((tg.addVertex u).addVertex v).searchVertex u <;> simp [h, modifyVertex, lockList_addVertex]

theorem lockList_removeEdge (u v : Pair) : (tg.removeEdge u v).lockList = tg.lockList := by
  unfold removeEdge; split <;> rfl

theorem lockList_waitEdge (t v : Nat) : (tg.waitEdge t v).lockList = tg.lockList := by
  unfold waitEdge
  simp only
  split <;> simp only [lockList_addEdge, lockList_addVertex]

theorem lockList_dropEdge (t v : Nat) : (tg.dropEdge t v).lockList = tg.lockList := by
  unfold dropEdge
  split
  · exact lockList_removeEdge tg _ _
  · rfl

end

/-! ## Adjacency lists -/

section
variable {tg tg' : TaskGraph} (h : tg'.vertexList = tg.vertexList)
include h

theorem keys_congr : tg'.keys = tg.keys := by
  unfold keys; rw [h]

theorem adj_congr (a : Key) : tg'.adj a = tg.adj a := by
  unfold adj; rw [h]

end

theorem mem_keys_waitEdge (tg : TaskGraph) (t v : Nat) (a : Key) :
    a ∈ (tg.waitEdge t v).keys ↔ a ∈ tg.keys ∨ a = (processPair t).key ∨ a = (processPair v).key := by
  unfold waitEdge
  simp only
  split
  · rw [mem_keys_addVertex, mem_keys_addVertex, or_assoc]
  · rw [mem_keys_addEdge, mem_keys_addVertex, mem_keys_addVertex]
    tauto

theorem adj_waitEdge (tg : TaskGraph) (t v : Nat) (a : Key) : (tg.waitEdge t v).adj a =
    if a = (processPair t).key ∧ t ≠ v ∧ ∀ cnt ∈ tg.adj (processPair t).key, cnt.thId ≠ v
    then tg.adj a ++ [processPair v] else tg.adj a := by
  have hverify : ((tg.addVertex (processPair t)).addVertex (processPair v)).verifyEdge (processPair t)
      (processPair v) = true ↔ t = v ∨ ∃ cnt ∈ tg.adj (processPair t).key, cnt.thId = v := by
    rw [verifyEdge_eq, adj_addVertex, adj_addVertex, mem_keys_addVertex, mem_keys_addVertex]
    simp [processPair]
  unfold waitEdge
  simp only
  by_cases hv : t = v ∨ ∃ cnt ∈ tg.adj (processPair t).key, cnt.thId = v
  · rw [if_pos (hverify.mpr hv), adj_addVertex, adj_addVertex, if_neg]
    intro h
    rcases hv with hv | ⟨cnt, hc, hv⟩
    · exact h.2.1 hv
    · exact h.2.2 cnt hc hv
  · rw [if_neg (fun h => hv (hverify.mp h)), adj_addEdge, adj_addVertex, adj_addVertex]
    push Not at hv
    by_cases ha : a = (processPair t).key
    · rw [if_pos ha, if_pos ⟨ha, hv⟩]
    · rw [if_neg ha, if_neg fun h => ha h.1]

theorem processPair_key {t u : Nat} : (processPair t).key = (processPair u).key ↔ t = u := by
  simp [processPair, Pair.key]

theorem adj_dropEdge_of_ne (tg : TaskGraph) (t v : Nat) {a : Key} (ha : a ≠ (processPair t).key) :
    (tg.dropEdge t v).adj a = tg.adj a := by
  unfold dropEdge
  split
  · rw [adj_removeEdge, if_neg fun h => ha h.1]
  · rfl

theorem mem_adj_dropEdge {tg : TaskGraph} {t v : Nat} {a : Key} {cnt : Pair} (h : cnt ∈ (tg.dropEdge t v).adj a) :
    cnt ∈ tg.adj a := by
  unfold dropEdge at h
  split at h
  · rw [adj_removeEdge] at h
    split at h
    · exact List.mem_of_mem_eraseP h
    · exact h
  · exact h

theorem keys_dropEdge (tg : TaskGraph) (t v : Nat) : (tg.dropEdge t v).keys = tg.keys := by
  unfold dropEdge
  split
  · exact keys_removeEdge tg _ _
  · rfl

end TaskGraph

/-! ## Graphs of threads -/

/-- A well-formed graph whose edges all lead to threads. -/
structure ThreadGraph (tg : TaskGraph) : Prop extends WellFormed tg where
  process : ∀ a, ∀ cnt ∈ tg.adj a, cnt.type = .process

theorem threadGraph_of_empty {tg : TaskGraph} (h : tg.vertexList = []) : ThreadGraph tg := by
  constructor
  · exact wellFormed_of_empty h
  · simp [TaskGraph.adj, KeyedList.find, h]

section
variable {tg : TaskGraph} (h : ThreadGraph tg)
include h

theorem ThreadGraph.of_vertexList {tg' : TaskGraph} (e : tg'.vertexList = tg.vertexList) : ThreadGraph tg' := by
  refine ⟨⟨?_, ?_⟩, ?_⟩
  · rw [TaskGraph.keys_congr e]
    exact h.distinct
  · intro a pair hp
    rw [TaskGraph.adj_congr e] at hp
    rw [TaskGraph.keys_congr e]
    exact h.closed a pair hp
  · intro a cnt hc
    rw [TaskGraph.adj_congr e] at hc
    exact h.process a cnt hc

theorem ThreadGraph.waitEdge (t v : Nat) : ThreadGraph (tg.waitEdge t v) := by
  constructor
  · unfold TaskGraph.waitEdge
    have hv := (h.toWellFormed.addVertex (processPair t)).addVertex (processPair v)
    simp only
    split
    · exact hv
    · exact hv.addEdge _ _
  · intro a cnt hc
    rw [TaskGraph.adj_waitEdge] at hc
    split at hc
    · rcases List.mem_append.mp hc with hc | hc
      · exact h.process a cnt hc
      · rw [List.mem_singleton.mp hc]; rfl
    · exact h.process a cnt hc

theorem ThreadGraph.dropEdge (t v : Nat) : ThreadGraph (tg.dropEdge t v) := by
  constructor
  · unfold TaskGraph.dropEdge
    split
    · exact h.toWellFormed.removeEdge _ _
    · exact h.toWellFormed
  · exact fun a cnt hc => h.process a cnt (TaskGraph.mem_adj_dropEdge hc)

theorem ThreadGraph.key_of_thId {a : Key} {cnt : Pair} (hc : cnt ∈ tg.adj a) {v : Nat} (e : cnt.thId = v) :
    cnt.key = (processPair v).key := by
  unfold Pair.key
  rw [h.process a cnt hc, e]
  rfl

theorem ThreadGraph.vertexNum_eq : tg.vertexNum = tg.keys.toFinset.card := by
  rw [List.toFinset_card_of_nodup h.distinct]
  exact (List.length_map _).symm

namespace TaskGraph

theorem adj_dropEdge (t v : Nat) : (tg.dropEdge t v).adj (processPair t).key =
    (tg.adj (processPair t).key).eraseP fun cnt => cnt.thId == v := by
  have hsame : (∀ cnt ∈ tg.adj (processPair t).key, cnt.thId ≠ v) →
      ((tg.adj (processPair t).key).eraseP fun cnt => cnt.thId == v) = tg.adj (processPair t).key :=
    fun hne => List.eraseP_of_forall_not fun cnt hc => by simpa using hne cnt hc
  unfold TaskGraph.dropEdge
  by_cases hv : tg.verifyEdge (processPair t) (processPair v) = true
  · rw [if_pos hv, adj_removeEdge]
    by_cases hk : (processPair v).key ∈ tg.keys
    · rw [if_pos ⟨rfl, hk⟩]; rfl
    · rw [if_neg fun h => hk h.2, hsame]
      intro cnt hc e
      exact hk (h.key_of_thId hc e ▸ h.closed _ cnt hc)
  · rw [if_neg hv, hsame]
    intro cnt hc e
    apply hv
    rw [verifyEdge_eq]
    refine ⟨?_, Or.inr ⟨cnt, hc, e⟩⟩
    by_cases hk : (processPair t).key ∈ tg.keys
    · exact hk
    · rw [adj_of_notMem hk] at hc
      cases hc

theorem edge_waitEdge {t v : Nat} (hne : t ≠ v) :
    (tg.waitEdge t v).Edge (processPair t).key (processPair v).key := by
  rw [edge_iff (h.waitEdge t v).distinct, adj_waitEdge]
  by_cases hold : ∀ cnt ∈ tg.adj (processPair t).key, cnt.thId ≠ v
  · rw [if_pos ⟨rfl, hne, hold⟩]
    exact ⟨processPair v, by simp, rfl⟩
  · rw [if_neg fun h => hold h.2.2]
    push Not at hold
    obtain ⟨cnt, hc, e⟩ := hold
    exact ⟨cnt, hc, h.key_of_thId hc e⟩

theorem edge_waitEdge_of_edge (t v : Nat) {a b : Key} (hab : tg.Edge a b) : (tg.waitEdge t v).Edge a b := by
  obtain ⟨cnt, hc, e⟩ := (edge_iff h.distinct a b).mp hab
  rw [edge_iff (h.waitEdge t v).distinct, adj_waitEdge]
  refine ⟨cnt, ?_, e⟩
  split
  · exact List.mem_append_left _ hc
  · exact hc

theorem edge_dropEdge_of_ne (t v : Nat) {a b : Key} (ha : a ≠ (processPair t).key) (hab : tg.Edge a b) :
    (tg.dropEdge t v).Edge a b := by
  rw [edge_iff (h.dropEdge t v).distinct, adj_dropEdge_of_ne tg t v ha]
  exact (edge_iff h.distinct a b).mp hab

end TaskGraph

end

end LearningC
