import LearningC.EdgeMembership
import LearningC.Multigraph

/-!
# The task graph refines a multigraph of threads

All callers pass pairs of type `PROCESS`, so a vertex is a thread id. Each operation on
`vertex_list` then does to the lists what the multigraph does to the edges.
-/

namespace LearningC

def GraphOp.Process : GraphOp → Prop
  | .addVertex pair => pair.type = .process
  | .addEdge u v | .removeEdge u v => u.type = .process ∧ v.type = .process

/-- The call on thread ids. -/
def GraphOp.abstract : GraphOp → Multigraph.Op Nat
  | .addVertex pair => .mention pair.thId
  | .addEdge u v => .addEdge u.thId v.thId
  | .removeEdge u v => .removeEdge u.thId v.thId

def processKey (thId : Nat) : Key := (.process, thId)

theorem processKey_injective : Function.Injective processKey := fun _ _ h => (Prod.mk.inj h).2

theorem Pair.key_of_process {pair : Pair} (h : pair.type = .process) : pair.key = processKey pair.thId :=
  Prod.ext h rfl

namespace TaskGraph

/-- The vertices of `tg` are the threads of `G` in the same order, with the same lists. -/
structure Represents (tg : TaskGraph) (G : Multigraph Nat) : Prop where
  keys : tg.keys = G.verts.map processKey
  adj : ∀ id, (tg.adj (processKey id)).map Pair.key = (G.succs id).map processKey

section
variable {tg : TaskGraph} {G : Multigraph Nat} {u v pair : Pair}

theorem Represents.mem_keys (h : tg.Represents G) (id : Nat) : processKey id ∈ tg.keys ↔ id ∈ G.verts := by
  rw [h.keys, List.mem_map_of_injective processKey_injective]

theorem Represents.keys_addVertex (h : tg.Represents G) (hp : pair.type = .process) :
    (tg.addVertex pair).keys = (Multigraph.insertLast G.verts pair.thId).map processKey := by
  unfold Multigraph.insertLast
  rw [TaskGraph.keys_addVertex, Pair.key_of_process hp]
  by_cases hmem : pair.thId ∈ G.verts
  · rw [if_pos ((h.mem_keys _).mpr hmem), if_pos hmem, h.keys]
  · rw [if_neg fun hk => hmem ((h.mem_keys _).mp hk), if_neg hmem, h.keys, List.map_append]
    rfl

theorem Represents.addVertex (h : tg.Represents G) (hp : pair.type = .process) :
    (tg.addVertex pair).Represents (G.mention pair.thId) := by
  refine ⟨h.keys_addVertex hp, fun id => ?_⟩
  rw [adj_addVertex]
  exact h.adj id

theorem Represents.addEdge (h : tg.Represents G) (hu : u.type = .process) (hv : v.type = .process) :
    (tg.addEdge u v).Represents (G.addEdge u.thId v.thId) := by
  refine ⟨?_, fun id => ?_⟩
  · rw [keys_addEdge]
    exact (h.addVertex hu).keys_addVertex hv
  · rw [adj_addEdge, Pair.key_of_process hu, Multigraph.succs_addEdge]
    by_cases hid : id = u.thId
    · rw [if_pos (congrArg processKey hid), hid, Function.update_self, List.map_append, List.map_append, h.adj,
        List.map_singleton, List.map_singleton, Pair.key_of_process hv]
    · rw [if_neg fun hk => hid (processKey_injective hk), Function.update_of_ne hid]
      exact h.adj id

theorem Represents.process (h : tg.Represents G) {id : Nat} {cnt : Pair} (hc : cnt ∈ tg.adj (processKey id)) :
    cnt.type = .process := by
  have hmem := List.mem_map_of_mem (f := Pair.key) hc
  rw [h.adj] at hmem
  obtain ⟨id', -, hk⟩ := List.mem_map.mp hmem
  exact (congrArg Prod.fst hk).symm

theorem map_eraseP_key (hv : v.type = .process) : ∀ l : List Pair, (∀ cnt ∈ l, cnt.type = .process) →
    (l.eraseP fun cnt => cnt.thId == v.thId).map Pair.key = (l.map Pair.key).erase v.key
  | [], _ => rfl
  | cnt :: l, hl => by
    have hcnt := Pair.key_of_process (hl cnt List.mem_cons_self)
    have hrest := map_eraseP_key hv l fun c hc => hl c (List.mem_cons_of_mem cnt hc)
    rw [Pair.key_of_process hv] at hrest ⊢
    rw [List.map_cons, hcnt]
    by_cases hid : cnt.thId = v.thId
    · rw [hid, List.erase_cons_head, List.eraseP_cons_of_pos (by simpa using hid)]
    · have hkey : processKey cnt.thId ≠ processKey v.thId := fun hk => hid (processKey_injective hk)
      rw [List.erase_cons_tail (by simpa using hkey), List.eraseP_cons_of_neg (by simpa using hid), List.map_cons, hcnt,
        hrest]

theorem Represents.removeEdge (h : tg.Represents G) (hu : u.type = .process) (hv : v.type = .process) :
    (tg.removeEdge u v).Represents (G.removeEdge u.thId v.thId) := by
  refine ⟨(keys_removeEdge tg u v).trans h.keys, fun id => ?_⟩
  rw [adj_removeEdge, Pair.key_of_process hu, Pair.key_of_process hv, Multigraph.succs_removeEdge]
  by_cases hid : id = u.thId
  · rw [hid, Function.update_self]
    by_cases hmem : v.thId ∈ G.verts
    · rw [if_pos ⟨rfl, (h.mem_keys _).mpr hmem⟩, map_eraseP_key hv _ fun cnt hc => h.process hc, h.adj, Pair.key_of_process hv,
        List.map_erase processKey_injective]
    · rw [if_neg fun hk => hmem ((h.mem_keys _).mp hk.2), h.adj, List.erase_of_not_mem fun hs => hmem (G.target u.thId v.thId hs)]
  · rw [if_neg fun hk => hid (processKey_injective hk.1), Function.update_of_ne hid]
    exact h.adj id

theorem represents_of_empty (h : tg.vertexList = []) : tg.Represents (Multigraph.empty Nat) := by
  refine ⟨?_, fun id => ?_⟩
  · simp [TaskGraph.keys, h, Multigraph.empty]
  · simp [TaskGraph.adj, KeyedList.find, h, Multigraph.empty]

theorem Represents.apply (h : tg.Represents G) {op : GraphOp} (hop : op.Process) :
    (GraphOp.apply tg op).Represents (G.apply op.abstract) := by
  cases op with
  | addVertex pair => exact h.addVertex hop
  | addEdge u v => exact h.addEdge hop.1 hop.2
  | removeEdge u v => exact h.removeEdge hop.1 hop.2

theorem Represents.run : ∀ (ops : List GraphOp) {tg : TaskGraph} {G : Multigraph Nat}, tg.Represents G →
    (∀ op ∈ ops, op.Process) → (ops.foldl GraphOp.apply tg).Represents ((ops.map GraphOp.abstract).foldl Multigraph.apply G)
  | [], _, _, h, _ => h
  | op :: ops, _, _, h, hops =>
    Represents.run ops (h.apply (hops op List.mem_cons_self)) fun o ho => hops o (List.mem_cons_of_mem op ho)

end

/-! ## The calls, one by one -/

/-- `add_edge` appends one `v` to the list of `u`, and changes no other list. -/
def Appends (tg : TaskGraph) (u v : Pair) : Prop :=
  ∀ a, (tg.addEdge u v).adj a = if a = u.key then tg.adj a ++ [v] else tg.adj a

/-- `remove_edge` takes the first `v` from the list of `u` and changes nothing else, if both
are vertices and there is one; otherwise it changes nothing. -/
structure Removes (tg : TaskGraph) (u v : Pair) : Prop where
  first : u.key ∈ tg.keys → v.key ∈ tg.keys → tg.HasEdge u v → ∃ before cnt after,
    tg.adj u.key = before ++ cnt :: after ∧ cnt.key = v.key ∧ (∀ c ∈ before, c.key ≠ v.key) ∧
      (tg.removeEdge u v).adj u.key = before ++ after
  others : ∀ a ≠ u.key, (tg.removeEdge u v).adj a = tg.adj a
  keys : (tg.removeEdge u v).keys = tg.keys
  nothing : ¬ (u.key ∈ tg.keys ∧ v.key ∈ tg.keys ∧ tg.HasEdge u v) → tg.removeEdge u v = tg

section
variable {tg : TaskGraph} {G : Multigraph Nat} {u v : Pair}

theorem modify_eraseP_of_none {P : Pair → Bool} {i : Nat}
    (hno : ∀ ver, tg.vertexList[i]? = some ver → ∀ cnt ∈ ver.next, ¬ P cnt = true) :
    (tg.modifyVertex i fun ver => { ver with next := ver.next.eraseP P }) = tg := by
  have hlist : (tg.vertexList.modify i fun ver => { ver with next := ver.next.eraseP P }) = tg.vertexList := by
    refine List.ext_getElem? fun j => ?_
    rw [List.getElem?_modify]
    by_cases hj : i = j
    · subst hj
      cases hv : tg.vertexList[i]? with
      | none => rfl
      | some ver => simp [List.eraseP_of_forall_not (hno ver hv)]
    · simp [hj]
  unfold modifyVertex
  rw [hlist]

theorem Represents.hasEdge (h : tg.Represents G) (hu : u.type = .process) (hv : v.type = .process) {cnt : Pair}
    (hc : cnt ∈ tg.adj u.key) (hid : cnt.thId = v.thId) : tg.HasEdge u v := by
  rw [Pair.key_of_process hu] at hc
  refine ⟨cnt, by rw [Pair.key_of_process hu]; exact hc, ?_⟩
  rw [Pair.key_of_process (h.process hc), Pair.key_of_process hv, hid]

theorem Represents.removes_nothing (h : tg.Represents G) (hu : u.type = .process) (hv : v.type = .process)
    (hno : ¬ (u.key ∈ tg.keys ∧ v.key ∈ tg.keys ∧ tg.HasEdge u v)) : tg.removeEdge u v = tg := by
  unfold TaskGraph.removeEdge
  cases hsu : tg.searchVertex u with
  | none => rfl
  | some i =>
    cases hsv : tg.searchVertex v with
    | none => rfl
    | some j =>
      refine modify_eraseP_of_none fun ver hver cnt hcnt hid => hno ⟨?_, ?_, ?_⟩
      · by_contra hk
        rw [(searchVertex_none tg u).mpr hk] at hsu
        cases hsu
      · by_contra hk
        rw [(searchVertex_none tg v).mpr hk] at hsv
        cases hsv
      · have hfind := vertex_spec tg u
        rw [hsu, Option.bind_some, hver] at hfind
        have hmem : cnt ∈ tg.adj u.key := by
          unfold TaskGraph.adj
          rw [← hfind]
          exact hcnt
        exact h.hasEdge hu hv hmem (by simpa using hid)

theorem Represents.removes_first (h : tg.Represents G) (hu : u.type = .process) (hv : v.type = .process)
    (hkey : v.key ∈ tg.keys) (hedge : tg.HasEdge u v) : ∃ before cnt after,
      tg.adj u.key = before ++ cnt :: after ∧ cnt.key = v.key ∧ (∀ c ∈ before, c.key ≠ v.key) ∧
        (tg.removeEdge u v).adj u.key = before ++ after := by
  obtain ⟨cnt, hcnt, hid⟩ := hedge.thId
  obtain ⟨first, before, after, hbefore, hfirst, hsplit, herase⟩ :=
    List.exists_of_eraseP (p := fun cnt => cnt.thId == v.thId) hcnt (by simpa using hid)
  have htype : first.type = .process := by
    have hmem : first ∈ tg.adj u.key := by
      rw [hsplit]
      exact List.mem_append_right _ List.mem_cons_self
    rw [Pair.key_of_process hu] at hmem
    exact h.process hmem
  refine ⟨before, first, after, hsplit, ?_, fun c hc hk => hbefore c hc ?_, ?_⟩
  · rw [Pair.key_of_process htype, Pair.key_of_process hv, show first.thId = v.thId by simpa using hfirst]
  · exact beq_iff_eq.mpr (show c.key.2 = v.key.2 from congrArg Prod.snd hk)
  · rw [adj_removeEdge, if_pos ⟨rfl, hkey⟩, herase]

theorem Represents.removes (h : tg.Represents G) (hu : u.type = .process) (hv : v.type = .process) :
    tg.Removes u v where
  first := fun _ hkey hedge => h.removes_first hu hv hkey hedge
  others := fun a ha => by rw [adj_removeEdge, if_neg fun hk => ha hk.1]
  keys := keys_removeEdge tg u v
  nothing := h.removes_nothing hu hv

theorem Represents.restores (h : tg.Represents G) (hu : u.type = .process) (hv : v.type = .process) (id : Nat) :
    ((((tg.addEdge u v).removeEdge u v).adj (processKey id)).map Pair.key).Perm
      ((tg.adj (processKey id)).map Pair.key) := by
  rw [((h.addEdge hu hv).removeEdge hu hv).adj, h.adj]
  exact (G.removeEdge_addEdge u.thId v.thId id).map processKey

end

/-- What holds after the calls `ops` on threads: the graph is the multigraph of these calls, its
vertices are the threads in the order of their first mention, `search_vertex` finds the target
of every edge, and the next call does to the lists what it is named for. -/
structure ThreadLists (tg : TaskGraph) (ops : List GraphOp) : Prop where
  represents : tg.Represents ((ops.map GraphOp.abstract).foldl Multigraph.apply (Multigraph.empty Nat))
  mentioned : tg.keys = (Multigraph.firsts ((ops.map GraphOp.abstract).flatMap Multigraph.Op.mentioned)).map processKey
  distinct : tg.keys.Nodup
  closed : ∀ ver ∈ tg.vertexList, ∀ pair ∈ ver.next, ∃ i, tg.searchVertex pair = some i
  appends : ∀ u v : Pair, u.type = .process → v.type = .process → tg.Appends u v
  removes : ∀ u v : Pair, u.type = .process → v.type = .process → tg.Removes u v
  restores : ∀ u v : Pair, u.type = .process → v.type = .process → ∀ id,
    ((((tg.addEdge u v).removeEdge u v).adj (processKey id)).map Pair.key).Perm ((tg.adj (processKey id)).map Pair.key)

/-- **Refinement.** The adjacency lists of a graph of threads are those of a multigraph. -/
theorem threadLists_run {tg₀ : TaskGraph} {ops : List GraphOp} (h₀ : tg₀.vertexList = [])
    (hops : ∀ op ∈ ops, op.Process) : ThreadLists (ops.foldl GraphOp.apply tg₀) ops := by
  have h := Represents.run ops (represents_of_empty h₀) hops
  have hwell : WellFormed (ops.foldl GraphOp.apply tg₀) := Built.wellFormed ⟨tg₀, ops, h₀, rfl⟩
  refine ⟨h, ?_, hwell.distinct, fun ver hver pair hpair => ?_, fun u v _ _ a => adj_addEdge _ u v a,
    fun u v => h.removes, fun u v => h.restores⟩
  · rw [h.keys, Multigraph.verts_run]
  · exact searchVertex_of_mem (hwell.vertexClosed ver hver pair hpair)

/-- Parallel edges, an edge of a thread to itself, and the removal of one of two equal edges. -/
def parallelOps : List GraphOp :=
  [.addEdge (processPair 2) (processPair 1), .addEdge (processPair 2) (processPair 1),
    .addEdge (processPair 1) (processPair 1), .addVertex (processPair 3), .removeEdge (processPair 2) (processPair 1)]

theorem threadLists_run_parallel :
    (parallelOps.foldl GraphOp.apply (TaskGraph.init 0)).keys = [2, 1, 3].map processKey ∧
      ThreadLists (parallelOps.foldl GraphOp.apply (TaskGraph.init 0)) parallelOps :=
  ⟨by decide, threadLists_run rfl (by simp [parallelOps, GraphOp.Process, processPair])⟩

end TaskGraph

end LearningC
