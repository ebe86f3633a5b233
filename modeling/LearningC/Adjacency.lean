import LearningC.TaskGraph
import LearningC.KeyedList

/-!
# Keys, adjacency lists and edges of a task graph

Each operation is described by the keys it stores and the adjacency list it leaves
under every key; the rest of the development reads the graph through these two.
-/

namespace LearningC

def Vertex.key (ver : Vertex) : Key := ver.pair.key

namespace TaskGraph

def keys (tg : TaskGraph) : List Key := tg.vertexList.map Vertex.key

def adj (tg : TaskGraph) (a : Key) : List Pair :=
  ((KeyedList.find Vertex.key tg.vertexList a).map Vertex.next).getD []

/-- The directed graph stored in `vertex_list`. -/
def Edge (tg : TaskGraph) (a b : Key) : Prop :=
  ∃ ver ∈ tg.vertexList, ver.key = a ∧ ∃ pair ∈ ver.next, pair.key = b

instance (tg : TaskGraph) (a b : Key) : Decidable (tg.Edge a b) :=
  inferInstanceAs (Decidable (∃ ver ∈ tg.vertexList, ver.key = a ∧ ∃ pair ∈ ver.next, pair.key = b))

def HasCycle (tg : TaskGraph) : Prop := ∃ a, Relation.TransGen tg.Edge a a

/-! ## Searching -/

theorem key_beq (ver : Vertex) (pair : Pair) :
    (ver.pair.type == pair.type && ver.pair.thId == pair.thId) = (ver.key == pair.key) := by
  rw [Bool.eq_iff_iff]
  simp [Vertex.key, Pair.key, Prod.ext_iff]

theorem searchVertex_eq (tg : TaskGraph) (pair : Pair) :
    tg.searchVertex pair = tg.vertexList.findIdx? fun ver => ver.key == pair.key := by
  unfold searchVertex
  simp only [key_beq]

theorem searchVertex_congr (tg : TaskGraph) {p q : Pair} (h : p.key = q.key) :
    tg.searchVertex p = tg.searchVertex q := by
  rw [searchVertex_eq, searchVertex_eq, h]

theorem searchVertex_none (tg : TaskGraph) (pair : Pair) :
    tg.searchVertex pair = none ↔ pair.key ∉ tg.keys := by
  rw [searchVertex_eq, List.findIdx?_eq_none_iff]
  unfold keys
  simp

theorem searchVertex_spec {tg : TaskGraph} {pair : Pair} {i : Nat} (h : tg.searchVertex pair = some i) :
    ∃ ver, tg.vertexList[i]? = some ver ∧ ver.key = pair.key := by
  rw [searchVertex_eq, List.findIdx?_eq_some_iff_getElem] at h
  obtain ⟨hi, hk, -⟩ := h
  exact ⟨tg.vertexList[i], List.getElem?_eq_getElem hi, by simpa using hk⟩

theorem searchVertex_lt {tg : TaskGraph} {pair : Pair} {i : Nat} (h : tg.searchVertex pair = some i) :
    i < tg.vertexNum := by
  obtain ⟨ver, hv, -⟩ := searchVertex_spec h
  exact (List.getElem?_eq_some_iff.mp hv).1

theorem searchVertex_inj {tg : TaskGraph} {p q : Pair} {i : Nat} (hp : tg.searchVertex p = some i)
    (hq : tg.searchVertex q = some i) : p.key = q.key := by
  obtain ⟨ver, hv, e⟩ := searchVertex_spec hp
  obtain ⟨ver', hv', e'⟩ := searchVertex_spec hq
  rw [hv] at hv'
  cases hv'
  rw [← e, e']

theorem vertex_spec (tg : TaskGraph) (pair : Pair) :
    ((tg.searchVertex pair).bind fun idx => tg.vertexList[idx]?) =
      KeyedList.find Vertex.key tg.vertexList pair.key := by
  rw [searchVertex_eq, KeyedList.findIdx_find]

theorem adj_of_notMem {tg : TaskGraph} {a : Key} (h : a ∉ tg.keys) : tg.adj a = [] := by
  unfold adj
  have : KeyedList.find Vertex.key tg.vertexList a = none :=
    (KeyedList.find_eq_none _).mpr fun ver hv e => h (List.mem_map.mpr ⟨ver, hv, e⟩)
  rw [this]
  rfl

/-! ## Changing one vertex -/

theorem keys_modifyVertex (tg : TaskGraph) (i : Nat) (f : Vertex → Vertex) (hf : ∀ ver, (f ver).key = ver.key) :
    (tg.modifyVertex i f).keys = tg.keys := by
  unfold keys modifyVertex
  apply List.ext_getElem?
  intro j
  simp only [List.getElem?_map, List.getElem?_modify]
  cases tg.vertexList[j]? with
  | none => rfl
  | some ver =>
    by_cases h : i = j
    · simp [h, hf]
    · simp [h]

theorem adj_modifyVertex (tg : TaskGraph) {u : Pair} {i : Nat} (hi : tg.searchVertex u = some i)
    (f : Vertex → Vertex) (hf : ∀ ver, (f ver).key = ver.key) (g : List Pair → List Pair)
    (hg : ∀ ver, (f ver).next = g ver.next) (b : Key) :
    (tg.modifyVertex i f).adj b = if b = u.key then g (tg.adj b) else tg.adj b := by
  unfold adj modifyVertex
  rw [searchVertex_eq] at hi
  rw [KeyedList.find_modify _ _ b f hf hi]
  by_cases hb : b = u.key
  · have hlt := (List.findIdx?_eq_some_iff_getElem.mp hi).1
    have hv : KeyedList.find Vertex.key tg.vertexList b = some tg.vertexList[i] := by
      rw [hb, ← KeyedList.findIdx_find, hi, Option.bind_some, List.getElem?_eq_getElem hlt]
    rw [if_pos hb, if_pos hb, hv]
    exact hg _
  · simp [hb]

/-! ## The operations -/

theorem keys_addVertex (tg : TaskGraph) (pair : Pair) :
    (tg.addVertex pair).keys = if pair.key ∈ tg.keys then tg.keys else tg.keys ++ [pair.key] := by
  unfold addVertex
  by_cases h : pair.key ∈ tg.keys
  · rw [if_neg (fun e => (searchVertex_none tg pair).mp e h), if_pos h]
  · rw [if_pos ((searchVertex_none tg pair).mpr h), if_neg h]
    simp [keys, Vertex.key]

theorem mem_keys_addVertex (tg : TaskGraph) (pair : Pair) (a : Key) :
    a ∈ (tg.addVertex pair).keys ↔ a ∈ tg.keys ∨ a = pair.key := by
  rw [keys_addVertex]
  by_cases h : pair.key ∈ tg.keys
  · rw [if_pos h]
    exact ⟨Or.inl, fun e => e.elim id fun e => e ▸ h⟩
  · simp [h]

theorem adj_addVertex (tg : TaskGraph) (pair : Pair) (a : Key) : (tg.addVertex pair).adj a = tg.adj a := by
  unfold addVertex
  by_cases h : tg.searchVertex pair = none
  · rw [if_pos h]
    unfold adj KeyedList.find
    rw [List.find?_append]
    cases hf : tg.vertexList.find? fun ver => ver.key == a with
    | some ver => simp
    | none => by_cases e : pair.key = a <;> simp [Vertex.key, e]
  · rw [if_neg h]

theorem searchVertex_addVertices (tg : TaskGraph) (u v : Pair) :
    ∃ i, ((tg.addVertex u).addVertex v).searchVertex u = some i := by
  refine Option.ne_none_iff_exists'.mp fun h => (searchVertex_none _ _).mp h ?_
  rw [mem_keys_addVertex, mem_keys_addVertex]
  exact Or.inl (Or.inr rfl)

theorem keys_addEdge (tg : TaskGraph) (u v : Pair) : (tg.addEdge u v).keys = ((tg.addVertex u).addVertex v).keys := by
  obtain ⟨i, hi⟩ := searchVertex_addVertices tg u v
  unfold addEdge
  simp only [hi]
  exact keys_modifyVertex _ i _ fun _ => rfl

theorem mem_keys_addEdge (tg : TaskGraph) (u v : Pair) (a : Key) :
    a ∈ (tg.addEdge u v).keys ↔ a ∈ tg.keys ∨ a = u.key ∨ a = v.key := by
  rw [keys_addEdge, mem_keys_addVertex, mem_keys_addVertex, or_assoc]

theorem adj_addEdge (tg : TaskGraph) (u v : Pair) (a : Key) :
    (tg.addEdge u v).adj a = if a = u.key then tg.adj a ++ [v] else tg.adj a := by
  obtain ⟨i, hi⟩ := searchVertex_addVertices tg u v
  unfold addEdge
  simp only [hi]
  rw [adj_modifyVertex _ hi (fun ver => { ver with next := ver.next ++ [v] }) (fun _ => rfl) (fun l => l ++ [v])
    (fun _ => rfl), adj_addVertex, adj_addVertex]

theorem keys_removeEdge (tg : TaskGraph) (u v : Pair) : (tg.removeEdge u v).keys = tg.keys := by
  unfold removeEdge
  split
  · exact keys_modifyVertex tg _ _ fun _ => rfl
  · rfl

theorem adj_removeEdge (tg : TaskGraph) (u v : Pair) (a : Key) :
    (tg.removeEdge u v).adj a =
      if a = u.key ∧ v.key ∈ tg.keys then (tg.adj a).eraseP (fun cnt => cnt.thId == v.thId) else tg.adj a := by
  unfold removeEdge
  cases hu : tg.searchVertex u with
  | none =>
    by_cases h : a = u.key ∧ v.key ∈ tg.keys
    · have : tg.adj a = [] := adj_of_notMem (h.1 ▸ (searchVertex_none tg u).mp hu)
      simp [this]
    · simp [h]
  | some i =>
    cases hv : tg.searchVertex v with
    | none => simp [(searchVertex_none tg v).mp hv]
    | some j =>
      have hv' : v.key ∈ tg.keys := by
        by_contra h
        rw [(searchVertex_none tg v).mpr h] at hv
        cases hv
      simp only [hv', and_true]
      exact adj_modifyVertex tg hu
        (fun ver => { ver with next := ver.next.eraseP fun cnt => cnt.thId == v.thId }) (fun _ => rfl)
        (fun l => l.eraseP fun cnt => cnt.thId == v.thId) (fun _ => rfl) a

theorem verifyEdge_eq (tg : TaskGraph) (u v : Pair) :
    tg.verifyEdge u v = true ↔ u.key ∈ tg.keys ∧ (u.thId = v.thId ∨ ∃ cnt ∈ tg.adj u.key, cnt.thId = v.thId) := by
  unfold verifyEdge adj
  rw [vertex_spec]
  by_cases h0 : tg.vertexNum = 0
  · have : tg.keys = [] := by
      unfold keys
      rw [List.eq_nil_of_length_eq_zero h0]
      rfl
    simp [h0, this]
  · rw [if_neg h0]
    cases hf : KeyedList.find Vertex.key tg.vertexList u.key with
    | none =>
      have : u.key ∉ tg.keys := by
        intro h
        obtain ⟨ver, hv, e⟩ := List.mem_map.mp h
        exact (KeyedList.find_eq_none _).mp hf ver hv e
      simp [this]
    | some ver =>
      obtain ⟨hv, hk⟩ := KeyedList.mem_of_find hf
      have hm : u.key ∈ tg.keys := List.mem_map.mpr ⟨ver, hv, hk⟩
      have hid : ver.pair.thId = u.thId := congrArg Prod.snd hk
      simp [hm, hid]

end TaskGraph

/-! ## Well-formed graphs -/

/-- Vertices have different keys and every edge leads to a vertex. -/
structure WellFormed (tg : TaskGraph) : Prop where
  distinct : tg.keys.Nodup
  closed : ∀ a, ∀ pair ∈ tg.adj a, pair.key ∈ tg.keys

theorem WellFormed.addVertex {tg : TaskGraph} (h : WellFormed tg) (pair : Pair) : WellFormed (tg.addVertex pair) := by
  constructor
  · rw [TaskGraph.keys_addVertex]
    by_cases hp : pair.key ∈ tg.keys
    · rw [if_pos hp]; exact h.distinct
    · rw [if_neg hp]
      exact List.Nodup.append h.distinct (List.nodup_singleton _) (by simpa using hp)
  · intro a q hq
    rw [TaskGraph.adj_addVertex] at hq
    exact (TaskGraph.mem_keys_addVertex _ _ _).mpr (Or.inl (h.closed a q hq))

theorem WellFormed.addEdge {tg : TaskGraph} (h : WellFormed tg) (u v : Pair) : WellFormed (tg.addEdge u v) := by
  constructor
  · rw [TaskGraph.keys_addEdge]
    exact ((h.addVertex u).addVertex v).distinct
  · intro a q hq
    rw [TaskGraph.adj_addEdge] at hq
    rw [TaskGraph.mem_keys_addEdge]
    by_cases ha : a = u.key
    · rw [if_pos ha] at hq
      rcases List.mem_append.mp hq with hq | hq
      · exact Or.inl (h.closed a q hq)
      · exact Or.inr (Or.inr (congrArg Pair.key (List.mem_singleton.mp hq)))
    · rw [if_neg ha] at hq
      exact Or.inl (h.closed a q hq)

theorem WellFormed.removeEdge {tg : TaskGraph} (h : WellFormed tg) (u v : Pair) : WellFormed (tg.removeEdge u v) := by
  constructor
  · rw [TaskGraph.keys_removeEdge]
    exact h.distinct
  · intro a q hq
    rw [TaskGraph.adj_removeEdge] at hq
    rw [TaskGraph.keys_removeEdge]
    split at hq
    · exact h.closed a q (List.mem_of_mem_eraseP hq)
    · exact h.closed a q hq

theorem wellFormed_of_empty {tg : TaskGraph} (h : tg.vertexList = []) : WellFormed tg := by
  constructor
  · simp [TaskGraph.keys, h]
  · simp [TaskGraph.adj, KeyedList.find, h]

theorem Built.wellFormed {tg : TaskGraph} (h : Built tg) : WellFormed tg := by
  obtain ⟨tg₀, ops, h₀, rfl⟩ := h
  have key : ∀ (ops : List GraphOp) (tg : TaskGraph), WellFormed tg → WellFormed (ops.foldl GraphOp.apply tg) := by
    intro ops
    induction ops with
    | nil => exact fun _ h => h
    | cons op ops ih =>
      intro tg h
      refine ih _ ?_
      cases op with
      | addVertex pair => exact h.addVertex pair
      | addEdge u v => exact h.addEdge u v
      | removeEdge u v => exact h.removeEdge u v
  exact key ops tg₀ (wellFormed_of_empty h₀)

namespace TaskGraph

/-- Every edge leads to a vertex, also where keys repeat. -/
def Closed (tg : TaskGraph) : Prop := ∀ ver ∈ tg.vertexList, ∀ pair ∈ ver.next, pair.key ∈ tg.keys

/-- The positions that the calls of `DFS` on the list of vertex `i` are made with. -/
def succ (tg : TaskGraph) (i : Nat) : List Nat :=
  (tg.vertexList[i]?.map fun ver => ver.next.filterMap tg.searchVertex).getD []

theorem adj_of_mem {tg : TaskGraph} (h : tg.keys.Nodup) {ver : Vertex} (hv : ver ∈ tg.vertexList) :
    tg.adj ver.key = ver.next := by
  unfold adj
  cases hf : KeyedList.find Vertex.key tg.vertexList ver.key with
  | none => exact absurd rfl ((KeyedList.find_eq_none _).mp hf ver hv)
  | some ver' =>
    obtain ⟨hv', hk⟩ := KeyedList.mem_of_find hf
    have := List.inj_on_of_nodup_map h hv' hv hk
    simp [this]

theorem edge_iff {tg : TaskGraph} (h : tg.keys.Nodup) (a b : Key) :
    tg.Edge a b ↔ ∃ pair ∈ tg.adj a, pair.key = b := by
  constructor
  · rintro ⟨ver, hv, rfl, hp⟩
    rwa [adj_of_mem h hv]
  · rintro ⟨pair, hp, rfl⟩
    have ha : a ∈ tg.keys := by
      by_contra ha
      rw [adj_of_notMem ha] at hp
      cases hp
    obtain ⟨ver, hv, rfl⟩ := List.mem_map.mp ha
    exact ⟨ver, hv, rfl, pair, adj_of_mem h hv ▸ hp, rfl⟩

end TaskGraph

theorem WellFormed.vertexClosed {tg : TaskGraph} (h : WellFormed tg) : tg.Closed := by
  intro ver hv pair hp
  rw [← TaskGraph.adj_of_mem h.distinct hv] at hp
  exact h.closed _ _ hp

namespace TaskGraph

section
variable {tg : TaskGraph}

theorem mem_succ {i j : Nat} : j ∈ tg.succ i ↔
    ∃ ver, tg.vertexList[i]? = some ver ∧ ∃ pair ∈ ver.next, tg.searchVertex pair = some j := by
  unfold succ
  cases tg.vertexList[i]? with
  | none => simp
  | some ver => simp

theorem succ_lt {i j : Nat} (h : j ∈ tg.succ i) : j < tg.vertexNum := by
  obtain ⟨ver, -, pair, -, hs⟩ := mem_succ.mp h
  exact searchVertex_lt hs

theorem searchVertex_of_mem {pair : Pair} (h : pair.key ∈ tg.keys) : ∃ i, tg.searchVertex pair = some i :=
  Option.ne_none_iff_exists'.mp fun e => (searchVertex_none tg pair).mp e h

theorem keys_of_vertex {i : Nat} {ver : Vertex} (h : tg.vertexList[i]? = some ver) : tg.keys[i]? = some ver.key := by
  unfold keys
  rw [List.getElem?_map, h]
  rfl

theorem keys_of_search {pair : Pair} {i : Nat} (h : tg.searchVertex pair = some i) :
    tg.keys[i]? = some pair.key := by
  obtain ⟨ver, hv, e⟩ := searchVertex_spec h
  rw [keys_of_vertex hv, e]

theorem edge_of_succ {i j : Nat} (h : j ∈ tg.succ i) :
    ∃ a b, tg.keys[i]? = some a ∧ tg.keys[j]? = some b ∧ tg.Edge a b := by
  obtain ⟨ver, hv, pair, hp, hs⟩ := mem_succ.mp h
  exact ⟨ver.key, pair.key, keys_of_vertex hv, keys_of_search hs, ver, List.mem_of_getElem? hv, rfl, pair, hp, rfl⟩

theorem succ_of_edge (hc : tg.Closed) {a b : Key} (h : tg.Edge a b) :
    ∃ i j, tg.keys[i]? = some a ∧ tg.keys[j]? = some b ∧ j ∈ tg.succ i := by
  obtain ⟨ver, hv, rfl, pair, hp, rfl⟩ := h
  obtain ⟨i, hi⟩ := List.mem_iff_getElem?.mp hv
  obtain ⟨j, hj⟩ := searchVertex_of_mem (hc ver hv pair hp)
  exact ⟨i, j, keys_of_vertex hi, keys_of_search hj, mem_succ.mpr ⟨ver, hi, pair, hp, hj⟩⟩

end

end TaskGraph

end LearningC
