import LearningC.Adjacency
import LearningC.CheckDeadLock
import LearningC.Fuel
import LearningC.SearchReports

/-!
# `DFS` performs a marking search

`visited`, `path` and `k` represent the marks and the stack of `MarkSearch.Calls`;
`dfs` ends on every graph whose edges lead to vertices, makes the calls of the
abstract search, stays inside `path`, and hands its reports to `print_deadlock`.
-/

namespace LearningC

open MarkSearch Fuel

namespace TaskGraph

def shown (c : Call Nat) : List Int := c.stack.map Int.ofNat

/-- The scratch fields hold the stack `p` and the marks `M` over the vertices of `G`. -/
structure At (G : TaskGraph) (p : List Nat) (M : Set Nat) (tg : TaskGraph) : Prop where
  vertices : tg.vertexList = G.vertexList
  k : tg.k = p.length
  path : (List.range p.length).map (fun i : Nat => tg.path i) = p.map Int.ofNat
  marked : ∀ i < G.vertexNum, tg.visited i = 1 ↔ i ∈ M

section
variable {G tg : TaskGraph} {p : List Nat} {M : Set Nat}

theorem searchVertex_of_vertices (h : tg.vertexList = G.vertexList) (pair : Pair) :
    tg.searchVertex pair = G.searchVertex pair := by
  unfold searchVertex; rw [h]

theorem At.push (h : At G p M tg) (hp : p.length ≤ MAX) (w : Nat) :
    ∃ tg', tg.push w = some tg' ∧ At G (p ++ [w]) M tg' ∧ tg'.deadlock = tg.deadlock ∧
      tg'.printed = tg.printed := by
  have hk : 0 ≤ tg.k ∧ tg.k ≤ (MAX : Int) := by rw [h.k]; omega
  refine ⟨{ tg with path := Function.update tg.path tg.k w, k := tg.k + 1 }, if_pos hk,
    ⟨h.vertices, ?_, ?_, h.marked⟩, rfl, rfl⟩
  · simp [h.k]
  · rw [List.length_append, List.length_singleton, List.range_succ, List.map_append, List.map_append, ← h.path, h.k]
    congr 1
    · apply List.map_congr_left
      intro j hj
      have : (j : Int) ≠ p.length := by have := List.mem_range.mp hj; omega
      simp [Function.update_of_ne this]
    · simp

theorem At.pop {w : Nat} (h : At G (p ++ [w]) M tg) : At G p M tg.pop := by
  refine ⟨h.vertices, ?_, ?_, h.marked⟩
  · show tg.k - 1 = _
    rw [h.k]; simp
  · have e := h.path
    rw [List.length_append, List.length_singleton, List.range_succ, List.map_append, List.map_append] at e
    exact (List.append_inj' e rfl).1

theorem At.report (h : At G p M tg) : At G p M tg.report := ⟨h.vertices, h.k, h.path, h.marked⟩

theorem At.shownPath {w : Nat} (h : At G (p ++ [w]) M tg) : tg.shownPath = shown (p, w) := by
  unfold TaskGraph.shownPath shown Call.stack
  rw [← h.path, h.k, List.length_append, List.length_singleton, List.range_succ, List.map_append]
  simp

theorem At.mark (h : At G p M tg) (w : Nat) : At G p (insert w M) (tg.mark w) := by
  refine ⟨h.vertices, h.k, h.path, fun i hi => ?_⟩
  unfold TaskGraph.mark
  by_cases e : i = w
  · simp [e]
  · simp [e, h.marked i hi]

end

def dfsNext (fuel : Nat) (tg : TaskGraph) (pair : Pair) : Option TaskGraph :=
  (tg.searchVertex pair).bind fun idx => (dfs fuel idx tg).map pop

theorem dfs_hit {fuel idx : Nat} {tg : TaskGraph} {ver : Vertex} (hv : tg.vertexList[idx]? = some ver)
    (h : tg.visited idx = 1) :
    dfs (fuel + 1) idx tg = (tg.push idx).map report := by
  simp only [dfs, hv, h, if_true]

theorem dfs_mark {fuel idx : Nat} {tg : TaskGraph} {ver : Vertex} (hv : tg.vertexList[idx]? = some ver)
    (h : tg.visited idx ≠ 1) :
    dfs (fuel + 1) idx tg = ((tg.mark idx).push idx).bind fun tg => ver.next.foldlM (dfsNext fuel) tg := by
  simp only [dfs, hv, h, if_false]
  rfl

theorem searches_next {G : TaskGraph} (hc : G.Closed) {idx : Nat} {ver : Vertex} (hv : G.vertexList[idx]? = some ver) :
    ver.next.map G.searchVertex = (G.succ idx).map some := by
  have hs : G.succ idx = ver.next.filterMap G.searchVertex := by
    unfold succ; rw [hv]; rfl
  rw [hs]
  have key : ∀ l : List Pair, (∀ pair ∈ l, pair.key ∈ G.keys) →
      l.map G.searchVertex = (l.filterMap G.searchVertex).map some := by
    intro l
    induction l with
    | nil => intro _; rfl
    | cons pair l ih =>
      intro hl
      obtain ⟨i, hi⟩ := searchVertex_of_mem (hl pair List.mem_cons_self)
      simp [hi, ih fun q hq => hl q (List.mem_cons_of_mem pair hq)]
  exact key _ (hc ver (List.mem_of_getElem? hv))

theorem length_le_of_nodup {p : List Nat} {n : Nat} (hp : p.Nodup) (hlt : ∀ v ∈ p, v < n) : p.length ≤ n := by
  have := (List.subperm_of_subset hp fun v hv => List.mem_range.mpr (hlt v hv)).length_le
  rwa [List.length_range] at this

/-- The call on a marked vertex, which reports, and `tg->k--` after it. -/
theorem dfsNext_hit {G tg : TaskGraph} {p : List Nat} {M : Set Nat} {w : Nat} {pair : Pair} (htg : At G p M tg)
    (hlen : p.length ≤ MAX) (hs : G.searchVertex pair = some w) (hw : w ∈ M) :
    ∃ tg', Ends (fun fuel => dfsNext fuel tg pair) tg' ∧ At G p M tg' ∧ tg'.deadlock = 1 ∧
      tg'.printed = tg.printed ++ [shown (p, w)] := by
  have hwn := searchVertex_lt hs
  have hv : tg.vertexList[w]? = some G.vertexList[w] := by
    rw [htg.vertices]
    exact List.getElem?_eq_getElem hwn
  obtain ⟨tg₁, hpush, h₁, -, hpr₁⟩ := htg.push hlen w
  refine ⟨tg₁.report.pop, ?_, h₁.report.pop, rfl, ?_⟩
  · unfold dfsNext
    rw [searchVertex_of_vertices htg.vertices, hs]
    refine Ends.map _ (Ends.succ ((Ends.pure _).congr fun fuel => ?_))
    rw [dfs_hit hv ((htg.marked w hwn).mpr hw), hpush]
    rfl
  · show tg₁.printed ++ [tg₁.shownPath] = _
    rw [hpr₁, h₁.shownPath]

/-- **`DFS` makes the calls of the abstract search**, over the rest of an adjacency list. -/
theorem dfs_of_calls {G : TaskGraph} (hc : G.Closed) (hn : G.vertexNum ≤ MAX) {p l : List Nat} {M M' : Set Nat}
    {T R : List (Call Nat)} (h : Calls G.succ p l M T R M') :
    ∀ (pairs : List Pair), pairs.map G.searchVertex = l.map some → (∀ v ∈ p, v ∈ M) → p.Nodup →
      (∀ v ∈ p, v < G.vertexNum) → ∀ tg, At G p M tg →
      ∃ tg', Ends (fun fuel => pairs.foldlM (dfsNext fuel) tg) tg' ∧ At G p M' tg' ∧
        tg'.deadlock = (if R = [] then tg.deadlock else 1) ∧ tg'.printed = tg.printed ++ R.map shown := by
  induction h with
  | nil =>
    intro pairs hl _ _ _ tg htg
    have : pairs = [] := by simpa using hl
    subst this
    exact ⟨tg, Ends.pure tg, htg, by simp⟩
  | @hit p w l M T R M' hw _ ih =>
    intro pairs hl hpM hp hlt tg htg
    obtain ⟨pair, pairs, rfl, hs, hl⟩ := List.map_eq_cons_iff.mp hl
    obtain ⟨tg₁, he₁, h₁, hd₁, hpr₁⟩ := dfsNext_hit htg ((length_le_of_nodup hp hlt).trans hn) hs hw
    obtain ⟨tg', he, h', hd, hpr⟩ := ih pairs hl hpM hp hlt tg₁ h₁
    refine ⟨tg', Ends.foldlM_cons he₁ he, h', ?_, ?_⟩
    · rw [hd, hd₁, ite_self, if_neg (List.cons_ne_nil _ _)]
    · rw [hpr, hpr₁, List.append_assoc]
      rfl
  | @mark p w l M M₁ M' T₁ T₂ R₁ R₂ hw hcalls _ ih₁ ih₂ =>
    intro pairs hl hpM hp hlt tg htg
    obtain ⟨pair, pairs, rfl, hs, hl⟩ := List.map_eq_cons_iff.mp hl
    have hwn := searchVertex_lt hs
    have hv : G.vertexList[w]? = some G.vertexList[w] := List.getElem?_eq_getElem hwn
    have hv' : tg.vertexList[w]? = some G.vertexList[w] := by rw [htg.vertices]; exact hv
    have hnot : tg.visited w ≠ 1 := fun e => hw ((htg.marked w hwn).mp e)
    obtain ⟨tg₁, hpush, h₁, hd₁, hpr₁⟩ := (htg.mark w).push ((length_le_of_nodup hp hlt).trans hn) w
    have hwp : w ∉ p := fun e => hw (hpM w e)
    have hpM' : ∀ v ∈ p ++ [w], v ∈ insert w M := List.forall_mem_append.mpr
      ⟨fun v hv => Set.mem_insert_of_mem w (hpM v hv), List.forall_mem_singleton.mpr (Set.mem_insert w M)⟩
    have hp' : (p ++ [w]).Nodup := List.Nodup.append hp (List.nodup_singleton w) (by simpa using hwp)
    have hlt' : ∀ v ∈ p ++ [w], v < G.vertexNum :=
      List.forall_mem_append.mpr ⟨hlt, List.forall_mem_singleton.mpr hwn⟩
    obtain ⟨tg₂, he₂, h₂, hd₂, hpr₂⟩ := ih₁ G.vertexList[w].next (searches_next hc hv) hpM' hp' hlt' tg₁ h₁
    have hpM₁ : ∀ v ∈ p, v ∈ M₁ := fun v hv => (hcalls.marks v).mpr (Or.inl (Set.mem_insert_of_mem w (hpM v hv)))
    obtain ⟨tg', he, h', hd, hpr⟩ := ih₂ pairs hl hpM₁ hp hlt tg₂.pop h₂.pop
    refine ⟨tg', Ends.foldlM_cons ?_ he, h', ?_, ?_⟩
    · unfold dfsNext
      rw [searchVertex_of_vertices htg.vertices, hs]
      refine Ends.map _ (Ends.succ (he₂.congr fun fuel => ?_))
      rw [dfs_mark hv' hnot, hpush]
      rfl
    · rw [hd]
      show (if R₂ = [] then tg₂.deadlock else 1) = _
      rw [hd₂, hd₁]
      cases R₁ <;> cases R₂ <;> simp [TaskGraph.mark]
    · rw [hpr]
      show tg₂.printed ++ _ = _
      rw [hpr₂, hpr₁, List.map_append, ← List.append_assoc]
      rfl

/-! ## `search_for_cycle` -/

theorem pop_injective : Function.Injective pop := by
  intro tg tg' h
  cases tg; cases tg'
  simp only [pop, TaskGraph.mk.injEq] at h
  obtain ⟨h₁, h₂, h₃, h₄, h₅, h₆, h₇⟩ := h
  simp only [TaskGraph.mk.injEq]
  exact ⟨h₁, h₂, h₃, h₄, by omega, h₆, h₇⟩

/-- Vertex `i` is marked and at the bottom of `path`, as every call of `DFS` finds it. -/
structure Rooted (G : TaskGraph) (i : Nat) (tg : TaskGraph) : Prop where
  vertices : tg.vertexList = G.vertexList
  path : tg.path 0 = i
  marked : tg.visited i = 1

section
variable {G tg : TaskGraph} {i : Nat}

theorem Rooted.reset (h : Rooted G i tg) : At G [i] {i} (tg.resetSearch i) := by
  refine ⟨h.vertices, rfl, ?_, fun j hj => ?_⟩
  · simp [resetSearch, h.path]
  · unfold resetSearch
    by_cases e : j = i
    · simp [e, h.marked]
    · have hj' : j < tg.vertexNum := by rw [TaskGraph.vertexNum, h.vertices]; exact hj
      simp [e, hj']

theorem At.rooted {M : Set Nat} (h : At G [i] M tg) (hi : i < G.vertexNum) (hM : i ∈ M) : Rooted G i tg :=
  ⟨h.vertices, by simpa using h.path, (h.marked i hi).mpr hM⟩

def searchNext (idx fuel : Nat) (tg : TaskGraph) (pair : Pair) : Option TaskGraph :=
  ((tg.resetSearch idx).searchVertex pair).bind fun i => dfs fuel i (tg.resetSearch idx)

theorem dfs_from_root (hc : G.Closed) (hn : G.vertexNum ≤ MAX) (hi : i < G.vertexNum) {s : Nat} {M' : Set Nat}
    {T R : List (Call Nat)} (h : Calls G.succ [i] [s] {i} T R M') {pair : Pair}
    (hs : G.searchVertex pair = some s) (htg : Rooted G i tg) :
    ∃ tg', Ends (fun fuel => searchNext i fuel tg pair) tg' ∧ Rooted G i tg' ∧
      tg'.deadlock = (if R = [] then tg.deadlock else 1) ∧ tg'.printed = tg.printed ++ R.map shown := by
  obtain ⟨tg₁, he, h₁, hd, hpr⟩ := dfs_of_calls hc hn h [pair] (by simp [hs]) (by simp) (by simp)
    (by simpa using hi) (tg.resetSearch i) htg.reset
  have he' : Ends (fun fuel => (searchNext i fuel tg pair).map pop) tg₁ := by
    refine he.congr fun fuel => ?_
    rw [List.foldlM_cons]
    show (dfsNext fuel (tg.resetSearch i) pair).bind some = _
    rw [Option.bind_fun_some, dfsNext, searchNext]
    cases (tg.resetSearch i).searchVertex pair <;> rfl
  obtain ⟨tg', hend, rfl⟩ := Ends.of_map pop_injective he'
  have hr := h₁.rooted hi ((h.marks i).mpr (Or.inl rfl))
  exact ⟨tg', hend, ⟨hr.vertices, hr.path, hr.marked⟩, hd, hpr⟩

theorem search_loop (hc : G.Closed) (hn : G.vertexNum ≤ MAX) (hi : i < G.vertexNum) {l : List Nat}
    {R : List (Call Nat)} (h : Scan G.succ i l R) :
    ∀ (pairs : List Pair), pairs.map G.searchVertex = l.map some → ∀ tg, Rooted G i tg →
      ∃ tg', Ends (fun fuel => pairs.foldlM (searchNext i fuel) tg) tg' ∧ Rooted G i tg' ∧
        tg'.deadlock = (if R = [] then tg.deadlock else 1) ∧ tg'.printed = tg.printed ++ R.map shown := by
  induction h with
  | nil =>
    intro pairs hl tg htg
    have : pairs = [] := by simpa using hl
    subst this
    exact ⟨tg, Ends.pure tg, htg, by simp⟩
  | @cons s l T R M' R' hs _ ih =>
    intro pairs hl tg htg
    obtain ⟨pair, pairs, rfl, hsv, hl⟩ := List.map_eq_cons_iff.mp hl
    obtain ⟨tg₁, he₁, h₁, hd₁, hpr₁⟩ := dfs_from_root hc hn hi hs hsv htg
    obtain ⟨tg', he, h', hd, hpr⟩ := ih pairs hl tg₁ h₁
    refine ⟨tg', Ends.foldlM_cons he₁ he, h', ?_, ?_⟩
    · rw [hd, hd₁]
      cases R <;> cases R' <;> simp
    · rw [hpr, hpr₁, List.map_append, List.append_assoc]

/-- **`search_for_cycle`** ends and reports what the searches from its vertex report. -/
theorem search_of_scan (hc : G.Closed) (hn : G.vertexNum ≤ MAX) (hi : i < G.vertexNum) {R : List (Call Nat)}
    (h : Scan G.succ i (G.succ i) R) (htg : tg.vertexList = G.vertexList) :
    ∃ tg', Ends (fun fuel => searchForCycle fuel i tg) tg' ∧ tg'.vertexList = G.vertexList ∧
      tg'.deadlock = (if R = [] then tg.deadlock else 1) ∧ tg'.printed = tg.printed ++ R.map shown := by
  have hv : G.vertexList[i]? = some G.vertexList[i] := List.getElem?_eq_getElem hi
  let tg₀ : TaskGraph := { tg.mark i with path := Function.update tg.path 0 i, k := 1 }
  have hpush : push { tg.mark i with k := 0 } i = some tg₀ := if_pos ⟨le_refl _, by simp⟩
  have h₀ : Rooted G i tg₀ := ⟨htg, by simp [tg₀], by simp [tg₀, mark]⟩
  obtain ⟨tg', he, h', hd, hpr⟩ := search_loop hc hn hi h _ (searches_next hc hv) tg₀ h₀
  refine ⟨tg', he.congr fun fuel => ?_, h'.vertices, hd, hpr⟩
  unfold searchForCycle
  rw [htg, hv]
  simp only [hpush, Option.bind_some]
  rfl

end

/-! ## `check_dead_lock` -/

def Quiet (G : TaskGraph) (i : Nat) : Prop := Scan G.succ i (G.succ i) []

theorem scan_total (G : TaskGraph) (i : Nat) : ∃ R, Scan G.succ i (G.succ i) R := by
  have hU : ∀ v, ∀ w ∈ G.succ v, w ∈ Finset.range G.vertexNum := fun v w hw => Finset.mem_range.mpr (succ_lt hw)
  exact Scan.total (Finset.range G.vertexNum) (fun v _ => hU v) i (G.succ i) (hU i)

/-- What a run of `check_dead_lock` from `tg` can leave: nothing was reported from any
vertex, or the first vertex with reports stopped it. -/
inductive Verdict (G tg tg' : TaskGraph) : Prop
  | quiet : (∀ i < G.vertexNum, Quiet G i) → tg'.deadlock = 0 → tg'.printed = tg.printed → Verdict G tg tg'
  | found {i : Nat} {R : List (Call Nat)} : i < G.vertexNum → (∀ j < i, Quiet G j) →
      Scan G.succ i (G.succ i) R → R ≠ [] → tg'.deadlock = 1 → tg'.printed = tg.printed ++ R.map shown →
      Verdict G tg tg'

section
variable {G : TaskGraph} (hc : G.Closed) (hn : G.vertexNum ≤ MAX)

def checkNext (fuel : Nat) (tg : TaskGraph) (i : Nat) : Option TaskGraph :=
  if tg.deadlock = 1 then some tg else searchForCycle fuel i tg

theorem check_stopped {tg : TaskGraph} (h : tg.deadlock = 1) (l : List Nat) :
    Ends (fun fuel => l.foldlM (checkNext fuel) tg) tg := by
  induction l with
  | nil => exact Ends.pure tg
  | cons i l ih =>
    refine Ends.foldlM_cons ((Ends.pure tg).congr fun fuel => ?_) ih
    rw [checkNext, if_pos h]

include hc hn in
theorem check_loop : ∀ (k m : Nat), m + k = G.vertexNum → (∀ j < m, Quiet G j) → ∀ tg : TaskGraph,
    tg.vertexList = G.vertexList → tg.deadlock = 0 →
    ∃ tg', Ends (fun fuel => (List.range' m k).foldlM (checkNext fuel) tg) tg' ∧ Verdict G tg tg' ∧
      tg'.vertexList = G.vertexList
  | 0, m, hm, hq, tg, htg, hd => ⟨tg, Ends.pure tg, .quiet (fun i hi => hq i (by omega)) hd rfl, htg⟩
  | k + 1, m, hm, hq, tg, htg, hd => by
    obtain ⟨R, hR⟩ := scan_total G m
    obtain ⟨tg₁, he₁, h₁, hd₁, hpr₁⟩ := search_of_scan hc hn (by omega) hR htg
    have hstep : Ends (fun fuel => checkNext fuel tg m) tg₁ := by
      refine he₁.congr fun fuel => ?_
      rw [checkNext, if_neg (by omega)]
    by_cases hnil : R = []
    · subst hnil
      rw [if_pos rfl, hd] at hd₁
      have hq' : ∀ j < m + 1, Quiet G j := by
        intro j hj
        rcases Nat.lt_succ_iff_lt_or_eq.mp hj with hj | rfl
        · exact hq j hj
        · exact hR
      obtain ⟨tg', he, hv, h'⟩ := check_loop k (m + 1) (by omega) hq' tg₁ h₁ hd₁
      refine ⟨tg', Ends.foldlM_cons hstep he, ?_, h'⟩
      have e : tg₁.printed = tg.printed := by simpa using hpr₁
      cases hv with
      | quiet hall hd' hpr => exact .quiet hall hd' (hpr.trans e)
      | found hi hj hs hne hd' hpr => exact .found hi hj hs hne hd' (by rw [hpr, e])
    · rw [if_neg hnil] at hd₁
      exact ⟨tg₁, Ends.foldlM_cons hstep (check_stopped hd₁ _), .found (by omega) hq hR hnil hd₁ hpr₁, h₁⟩

include hc hn in
/-- **`check_dead_lock`** ends on every graph of at most `MAX` vertices. -/
theorem check_ends (tg : TaskGraph) (htg : tg.vertexList = G.vertexList) :
    ∃ tg', Ends (fun fuel => checkDeadLock fuel tg) tg' ∧ Verdict G tg tg' ∧ tg'.vertexList = G.vertexList := by
  obtain ⟨tg', he, hv, h'⟩ := check_loop hc hn G.vertexNum 0 (by omega) (by simp) { tg with deadlock := 0 } htg rfl
  refine ⟨tg', he.congr fun fuel => ?_, ?_, h'⟩
  · unfold checkDeadLock vertexNum
    rw [List.range_eq_range', htg]
    rfl
  · cases hv with
    | quiet hall hd hpr => exact .quiet hall hd hpr
    | found hi hj hs hne hd hpr => exact .found hi hj hs hne hd hpr

end

/-! ## More fuel keeps the result -/

theorem dfs_mono : ∀ (n idx : Nat) (tg tg' : TaskGraph), dfs n idx tg = some tg' → dfs (n + 1) idx tg = some tg'
  | 0, _, _, _, h => by cases h
  | n + 1, idx, tg, tg', h => by
    cases hv : tg.vertexList[idx]? with
    | none => simp [dfs, hv] at h
    | some ver =>
      by_cases hvis : tg.visited idx = 1
      · rw [dfs_hit hv hvis] at h ⊢
        exact h
      · rw [dfs_mark hv hvis] at h ⊢
        obtain ⟨tg₁, hpush, hl⟩ := Option.bind_eq_some_iff.mp h
        refine Option.bind_eq_some_iff.mpr ⟨tg₁, hpush, foldlM_some ?_ _ _ _ hl⟩
        intro tg pair tg' hnext
        obtain ⟨i, hi, hd⟩ := Option.bind_eq_some_iff.mp hnext
        obtain ⟨tg₂, hd, e⟩ := Option.map_eq_some_iff.mp hd
        exact Option.bind_eq_some_iff.mpr ⟨i, hi, Option.map_eq_some_iff.mpr ⟨tg₂, dfs_mono n i tg tg₂ hd, e⟩⟩

theorem searchForCycle_mono (i : Nat) (tg : TaskGraph) : Mono fun fuel => searchForCycle fuel i tg := by
  unfold searchForCycle
  cases tg.vertexList[i]? with
  | none => exact Mono.const none
  | some ver =>
    refine Mono.bind (Mono.const _) fun tg => Mono.foldlM (fun tg pair => ?_) _ _
    exact Mono.bind (Mono.const _) fun j n tg' => dfs_mono n j _ tg'

theorem checkDeadLock_mono (tg : TaskGraph) : Mono fun fuel => tg.checkDeadLock fuel := by
  refine Mono.foldlM (fun tg i => ?_) _ _
  by_cases h : tg.deadlock = 1
  · simpa only [h, if_true] using Mono.const (some tg)
  · simpa only [h, if_false] using searchForCycle_mono i tg

end TaskGraph

end LearningC
