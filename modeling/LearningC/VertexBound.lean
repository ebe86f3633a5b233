import LearningC.LockRuns
import Mathlib.Data.Finset.Lattice.Basic

/-!
# How many vertices the hooks add

`add_vertex` writes behind the last vertex of an array of `MAX` and compares no index, and
nothing takes a vertex away. The vertices are the threads that `lock_before` has met on a
recorded mutex, as its caller or in the slot.
-/

namespace LearningC

open Runs

namespace TaskGraph

/-- The indices of `vertex_list` at which `add_vertex` writes. -/
def addVertexWrites (pair : Pair) (tg : TaskGraph) : List Nat :=
  if tg.searchVertex pair = none then [tg.vertexNum] else []

/-- Those of the two calls that `add_edge` begins with. -/
def addEdgeWrites (u v : Pair) (tg : TaskGraph) : List Nat :=
  tg.addVertexWrites u ++ (tg.addVertex u).addVertexWrites v

def lockBeforeWrites (threadId lock : Nat) (tg : TaskGraph) : List Nat :=
  match (tg.searchLock lock).bind fun idx => tg.lockList[idx]? with
  | none => []
  | some slot =>
    let u := processPair threadId
    let v := processPair slot.thId
    tg.addVertexWrites u ++ (tg.addVertex u).addVertexWrites v ++
      let tg := (tg.addVertex u).addVertex v
      if tg.verifyEdge u v then [] else tg.addEdgeWrites u v

/-- The threads that `lock_before` meets on a recorded mutex. -/
def contenders (threadId lock : Nat) (tg : TaskGraph) : Finset Nat :=
  match (tg.searchLock lock).bind fun idx => tg.lockList[idx]? with
  | none => ∅
  | some slot => {threadId, slot.thId}

/-- The vertices are these threads. -/
structure Contended (C : Finset Nat) (tg : TaskGraph) : Prop where
  graph : ThreadGraph tg
  vertices : ∀ a, a ∈ tg.keys ↔ ∃ t ∈ C, a = (processPair t).key

/-! ## Writes and the number of vertices -/

section
variable (tg : TaskGraph) (p u v : Pair) (i : Nat)

theorem vertexNum_addVertex :
    (tg.addVertex p).vertexNum = if tg.searchVertex p = none then tg.vertexNum + 1 else tg.vertexNum := by
  unfold addVertex vertexNum
  split
  · exact List.length_append
  · rfl

theorem vertexNum_addEdge : (tg.addEdge u v).vertexNum = ((tg.addVertex u).addVertex v).vertexNum := by
  unfold addEdge vertexNum
  simp only
  split
  · exact List.length_modify ..
  · rfl

theorem le_addVertex : tg.vertexNum ≤ (tg.addVertex p).vertexNum := by
  rw [vertexNum_addVertex]
  split <;> omega

theorem mem_addVertexWrites : i ∈ tg.addVertexWrites p ↔ tg.vertexNum ≤ i ∧ i < (tg.addVertex p).vertexNum := by
  rw [vertexNum_addVertex]
  unfold addVertexWrites
  split
  · rw [List.mem_singleton]
    omega
  · simp only [List.not_mem_nil, false_iff]
    omega

theorem mem_addEdgeWrites : i ∈ tg.addEdgeWrites u v ↔ tg.vertexNum ≤ i ∧ i < (tg.addEdge u v).vertexNum := by
  have hu := le_addVertex tg u
  have hv := le_addVertex (tg.addVertex u) v
  unfold addEdgeWrites
  rw [List.mem_append, mem_addVertexWrites, mem_addVertexWrites, vertexNum_addEdge]
  omega

end

section
variable {tg tg' : TaskGraph} {t l : Nat} {slot : Pair} {C : Finset Nat}

theorem lockBeforeWrites_none (h : tg.entry l = none) : tg.lockBeforeWrites t l = [] := by
  unfold lockBeforeWrites
  rw [searchLock_bind, h]

theorem contenders_none (h : tg.entry l = none) : tg.contenders t l = ∅ := by
  unfold contenders
  rw [searchLock_bind, h]

theorem contenders_some (h : tg.entry l = some slot) : tg.contenders t l = {t, slot.thId} := by
  unfold contenders
  rw [searchLock_bind, h]

/-- `lock_before` writes at the indices by which `vertex_num` grows. -/
theorem mem_lockBeforeWrites (h : tg.entry l = some slot) (i : Nat) :
    i ∈ tg.lockBeforeWrites t l ↔ tg.vertexNum ≤ i ∧ i < (tg.waitEdge t slot.thId).vertexNum := by
  have hadd := mem_addEdgeWrites tg (processPair t) (processPair slot.thId) i
  rw [vertexNum_addEdge] at hadd
  have hle := Nat.le_trans (le_addVertex tg (processPair t)) (le_addVertex _ (processPair slot.thId))
  unfold lockBeforeWrites waitEdge
  rw [searchLock_bind, h]
  simp only
  rw [List.mem_append]
  show i ∈ tg.addEdgeWrites _ _ ∨ _ ↔ _
  rw [hadd]
  split
  · simp only [List.not_mem_nil, or_false]
  · have hmore := le_addVertex ((tg.addVertex (processPair t)).addVertex (processPair slot.thId)) (processPair t)
    have hmore' := le_addVertex (((tg.addVertex (processPair t)).addVertex (processPair slot.thId)).addVertex
      (processPair t)) (processPair slot.thId)
    rw [mem_addEdgeWrites, vertexNum_addEdge]
    omega

/-! ## The vertices as threads -/

theorem Contended.vertexNum (h : Contended C tg) : tg.vertexNum = C.card := by
  have hkeys : tg.keys.toFinset = C.image fun t => (processPair t).key := by
    ext a
    rw [List.mem_toFinset, h.vertices, Finset.mem_image]
    exact exists_congr fun t => and_congr_right fun _ => eq_comm
  have hinj : Function.Injective fun t => (processPair t).key := fun t u e => processPair_key.mp e
  rw [h.graph.vertexNum_eq, hkeys, Finset.card_image_of_injective C hinj]

theorem Contended.of_vertices (h : Contended C tg) (e : tg'.vertexList = tg.vertexList) : Contended C tg' where
  graph := h.graph.of_vertexList e
  vertices a := by
    rw [keys_congr e]
    exact h.vertices a

theorem Contended.dropEdge (h : Contended C tg) (t v : Nat) : Contended C (tg.dropEdge t v) where
  graph := h.graph.dropEdge t v
  vertices a := by
    rw [keys_dropEdge]
    exact h.vertices a

theorem Contended.waitEdge (h : Contended C tg) (t v : Nat) : Contended (C ∪ {t, v}) (tg.waitEdge t v) where
  graph := h.graph.waitEdge t v
  vertices a := by
    rw [mem_keys_waitEdge, h.vertices]
    constructor
    · rintro (⟨u, hu, rfl⟩ | rfl | rfl)
      · exact ⟨u, Finset.mem_union_left _ hu, rfl⟩
      · exact ⟨t, by simp, rfl⟩
      · exact ⟨v, by simp, rfl⟩
    · rintro ⟨u, hu, rfl⟩
      rcases Finset.mem_union.mp hu with hu | hu
      · exact Or.inl ⟨u, hu, rfl⟩
      · rcases Finset.mem_insert.mp hu with rfl | hu
        · exact Or.inr (Or.inl rfl)
        · rw [Finset.mem_singleton.mp hu]
          exact Or.inr (Or.inr rfl)

/-- `lock_before` on a recorded mutex: its two threads, and where it writes. -/
theorem Contended.lockBefore (h : Contended C tg) (t : Nat) (he : tg.entry l = some slot) :
    ∃ tg', TaskGraph.lockBefore t l tg = some tg' ∧ Contended (C ∪ {t, slot.thId}) tg' ∧
      ∀ i ∈ tg.lockBeforeWrites t l, i < (C ∪ {t, slot.thId}).card := by
  obtain ⟨idx, -, heq⟩ := lockBefore_some (t := t) he
  have hcon := h.waitEdge t slot.thId
  refine ⟨_, heq, hcon.of_vertices rfl, fun i hi => ?_⟩
  rw [← hcon.vertexNum]
  exact ((mem_lockBeforeWrites he i).mp hi).2

end

end TaskGraph

open TaskGraph

namespace Sys

/-! ## Runs -/

/-- The indices of `vertex_list` that the hook of the event writes. -/
def vertexWrites (s : Sys) : Event → List Nat
  | .lockBefore t l => s.tg.elim [] (lockBeforeWrites t l)
  | _ => []

def contenders (s : Sys) : Event → Finset Nat
  | .lockBefore t l => s.tg.elim ∅ (TaskGraph.contenders t l)
  | _ => ∅

def allContenders : Sys → List Event → Finset Nat
  | _, [] => ∅
  | s, e :: es => (step s e).elim ∅ fun s' => s.contenders e ∪ allContenders s' es

def VerticesFit (s : Sys) (e : Event) (s' : Sys) : Prop :=
  (∀ i ∈ s.vertexWrites e, i < MAX) ∧ ∀ tg, s'.tg = some tg → tg.vertexNum ≤ MAX

def Known (C : Finset Nat) (s : Sys) : Prop := ∀ tg, s.tg = some tg → Contended C tg

section
variable {s s' : Sys} {e : Event} {C : Finset Nat}

theorem Known.quiet (h : Known C s') (hC : C.card ≤ MAX) (hw : s.vertexWrites e = []) (hc : s.contenders e = ∅) :
    Known (C ∪ s.contenders e) s' ∧ (VerticesFit s e s' ↔ (C ∪ s.contenders e).card ≤ MAX) := by
  rw [hc, Finset.union_empty]
  refine ⟨h, iff_of_true ⟨fun i hi => ?_, fun tg htg => ?_⟩ hC⟩
  · rw [hw] at hi
    exact absurd hi List.not_mem_nil
  · rw [(h tg htg).vertexNum]
    exact hC

theorem Known.lockBefore (h : Known C s) (hC : C.card ≤ MAX) (t l : Nat) :
    Known (C ∪ s.contenders (.lockBefore t l)) (s.next (.lockBefore t l)) ∧
      (VerticesFit s (.lockBefore t l) (s.next (.lockBefore t l)) ↔
        (C ∪ s.contenders (.lockBefore t l)).card ≤ MAX) := by
  have hbind : (s.next (.lockBefore t l)).tg = s.tg.bind (TaskGraph.lockBefore t l) := rfl
  cases htg : s.tg with
  | none =>
    rw [htg, Option.bind_none] at hbind
    refine Known.quiet (fun tg' h' => ?_) hC ?_ ?_
    · cases hbind.symm.trans h'
    · simp only [vertexWrites, htg, Option.elim_none]
    · simp only [contenders, htg, Option.elim_none]
  | some tg =>
    have hcon := h tg htg
    have hwrites : s.vertexWrites (.lockBefore t l) = tg.lockBeforeWrites t l := by
      simp only [vertexWrites, htg, Option.elim_some]
    have hmet : s.contenders (.lockBefore t l) = tg.contenders t l := by
      simp only [contenders, htg, Option.elim_some]
    rw [htg, Option.bind_some] at hbind
    cases he : tg.entry l with
    | none =>
      rw [lockBefore_none he] at hbind
      refine Known.quiet (fun tg' h' => ?_) hC ?_ ?_
      · cases hbind.symm.trans h'
        exact hcon
      · rw [hwrites, lockBeforeWrites_none he]
      · rw [hmet, contenders_none he]
    | some slot =>
      obtain ⟨tg', heq, hnew, hlt⟩ := hcon.lockBefore t he
      rw [heq] at hbind
      rw [hmet, contenders_some he]
      refine ⟨fun tg₁ h₁ => ?_, fun hfit => ?_, fun hcard => ⟨fun i hi => ?_, fun tg₁ h₁ => ?_⟩⟩
      · cases hbind.symm.trans h₁
        exact hnew
      · rw [← hnew.vertexNum]
        exact hfit.2 tg' hbind
      · exact Nat.lt_of_lt_of_le (hlt i (hwrites ▸ hi)) hcard
      · cases hbind.symm.trans h₁
        rw [hnew.vertexNum]
        exact hcard

theorem Known.step (h : Known C s) (hC : C.card ≤ MAX) (hs : s.step e = some s') :
    Known (C ∪ s.contenders e) s' ∧ (VerticesFit s e s' ↔ (C ∪ s.contenders e).card ≤ MAX) := by
  obtain ⟨-, rfl⟩ := step_next hs
  cases e with
  | lockBefore t l => exact h.lockBefore hC t l
  | grant t l => exact Known.quiet h hC rfl rfl
  | unlock t l => exact Known.quiet h hC rfl rfl
  | lockAfter t l =>
    refine Known.quiet (fun tg' h' => ?_) hC rfl rfl
    obtain ⟨tg, htg, heq⟩ := Option.bind_eq_some_iff.mp h'
    rcases lockAfter_vertices heq with hv | ⟨v, hv⟩
    · exact (h tg htg).of_vertices hv
    · exact ((h tg htg).dropEdge t v).of_vertices hv
  | unlockAfter t l =>
    refine Known.quiet (fun tg' h' => ?_) hC rfl rfl
    obtain ⟨tg, htg, heq⟩ := Option.bind_eq_some_iff.mp h'
    exact (h tg htg).of_vertices (unlockAfter_vertices heq)

theorem Known.along (es : List Event) : ∀ {C : Finset Nat} {s : Sys}, Known C s → C.card ≤ MAX →
    (Along Sys.step VerticesFit s es ↔ (C ∪ allContenders s es).card ≤ MAX) := by
  induction es with
  | nil =>
    intro C s _ hC
    rw [allContenders, Finset.union_empty]
    exact iff_of_true trivial hC
  | cons e es ih =>
    intro C s h hC
    unfold allContenders
    cases hs : s.step e with
    | none =>
      rw [Option.elim_none, Finset.union_empty]
      refine iff_of_true (fun s' hs' => ?_) hC
      cases hs.symm.trans hs'
    | some s' =>
      obtain ⟨hknown, hfit⟩ := h.step hC hs
      rw [Option.elim_some, ← Finset.union_assoc]
      constructor
      · intro ha
        obtain ⟨hk, hrest⟩ := ha s' hs
        exact (ih hknown (hfit.mp hk)).mp hrest
      · intro hcard
        -- the threads met so far are among all of them
        have hC' : (C ∪ s.contenders e).card ≤ MAX :=
          Nat.le_trans (Finset.card_le_card Finset.subset_union_left) hcard
        exact Runs.along_cons hs (hfit.mpr hC') ((ih hknown hC').mpr hcard)

theorem known_init (lockNum : Nat) : Known ∅ (init lockNum) := by
  intro tg htg
  cases htg
  refine ⟨threadGraph_of_empty rfl, fun a => ?_⟩
  simp [TaskGraph.keys, TaskGraph.init]

theorem subset_allContenders (es' : List Event) :
    ∀ (es : List Event) (s : Sys) {s' : Sys}, run Sys.step s es = some s' → allContenders s' es' ⊆ allContenders s (es ++ es')
  | [], _, _, hr => by
    cases hr
    exact Finset.Subset.refl _
  | e :: es, s, _, hr => by
    obtain ⟨s₁, hs, hr⟩ := Option.bind_eq_some_iff.mp hr
    rw [List.cons_append, allContenders, hs, Option.elim_some]
    exact (subset_allContenders es' es s₁ hr).trans Finset.subset_union_right

/-- Threads that come to lock a recorded mutex, one after another. -/
theorem mem_allContenders_queue {l : Nat} (hl : l ≠ 0) :
    ∀ (ts : List Nat) (s : Sys) (tg : TaskGraph) (slot : Pair), ts.Nodup → (∀ t ∈ ts, s.phase t = .idle) →
    s.tg = some tg → TableOk {l} tg → tg.entry l = some slot → ∀ t ∈ ts, t ∈ allContenders s (ts.map fun t => .lockBefore t l)
  | [], _, _, _, _, _, _, _, _, _, ht => absurd ht List.not_mem_nil
  | u :: ts, s, tg, slot, hnodup, hidle, htg, hok, he, t, ht => by
    obtain ⟨hu, hnodup⟩ := List.nodup_cons.mp hnodup
    obtain ⟨tg', heq, hok', -, hent⟩ := hok.lockBefore_some (t := u) hl he
    have hs : s.step (.lockBefore u l) = some (s.next (.lockBefore u l)) := if_pos (hidle u List.mem_cons_self)
    rw [List.map_cons, allContenders, hs, Option.elim_some]
    rcases List.mem_cons.mp ht with rfl | ht
    · apply Finset.mem_union_left
      simp only [contenders, htg, Option.elim_some, contenders_some he]
      exact Finset.mem_insert_self _ _
    · apply Finset.mem_union_right
      refine mem_allContenders_queue hl ts _ tg' _ hnodup (fun w hw => ?_) ?_ hok' ((hent l hl).trans (if_pos rfl)) t ht
      · have hne : w ≠ u := fun e => hu (e ▸ hw)
        exact (Function.update_of_ne hne _ _).trans (hidle w (List.mem_cons_of_mem u hw))
      · show s.tg.bind (TaskGraph.lockBefore u l) = some tg'
        rw [htg, Option.bind_some, heq]

/-- Thread 1 locks mutex 1, and `n` other threads come to lock it. -/
def crowdRun (n : Nat) : List Event :=
  [.lockBefore 1 1, .grant 1 1, .lockAfter 1 1] ++ (List.range' 2 n).map fun t => .lockBefore t 1

theorem fits_crowdRun (n : Nat) : Fits 1 (crowdRun n) := by
  have hlock : ∀ e ∈ crowdRun n, e.lock = 1 := by
    intro e he
    rcases List.mem_append.mp he with he | he
    · simp only [List.mem_cons, List.not_mem_nil, or_false] at he
      rcases he with rfl | rfl | rfl
      all_goals rfl
    · obtain ⟨t, -, rfl⟩ := List.mem_map.mp he
      rfl
  refine ⟨fun e he => by rw [hlock e he]; decide, Finset.card_le_one.mpr fun a ha b hb => ?_⟩
  obtain ⟨e, he, rfl⟩ := List.mem_map.mp (List.mem_toFinset.mp ha)
  obtain ⟨e', he', rfl⟩ := List.mem_map.mp (List.mem_toFinset.mp hb)
  rw [hlock e he, hlock e' he']

theorem contenders_crowdRun (n : Nat) : (List.range' 2 n).toFinset ⊆ allContenders (init 1) (crowdRun n) := by
  have htable : TableOk {1} (TaskGraph.init 1) := TableOk.init (Nat.le_refl 1)
  obtain ⟨slot, tg, -, heq, hok, -, hent⟩ :=
    htable.lockAfter_none (t := 1) (Finset.mem_singleton_self 1) Nat.one_ne_zero rfl
  intro t ht
  refine subset_allContenders _ [.lockBefore 1 1, .grant 1 1, .lockAfter 1 1] (init 1) rfl ?_
  -- thread 1 is outside the hooks again
  refine mem_allContenders_queue Nat.one_ne_zero _ _ tg _ List.nodup_range' (fun u _ => ?_) heq hok
    ((hent 1 Nat.one_ne_zero).trans (if_pos rfl)) t (List.mem_toFinset.mp ht)
  simp [next, init]

end

/-- **Vertices.** In a run every vertex is written inside `vertex_list`, and `vertex_num`
stays at `MAX` or below, if and only if at most `MAX` threads meet in the whole run. -/
theorem verticesFit_iff_contenders (lockNum : Nat) (es : List Event) :
    Along Sys.step VerticesFit (init lockNum) es ↔ (allContenders (init lockNum) es).card ≤ MAX := by
  rw [(known_init lockNum).along es (Nat.zero_le _), Finset.empty_union]

theorem crowd_overflows : ¬ ∀ (N : Nat) (es : List Event), Fits N es → Along Sys.step VerticesFit (init N) es := by
  intro h
  have hrun := h 1 (crowdRun (MAX + 1)) (fits_crowdRun _)
  rw [(known_init 1).along _ (Nat.zero_le _), Finset.empty_union] at hrun
  have hcard := Finset.card_le_card (contenders_crowdRun (MAX + 1))
  rw [List.toFinset_card_of_nodup List.nodup_range', List.length_range'] at hcard
  omega

end Sys

end LearningC
