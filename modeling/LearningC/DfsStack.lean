import LearningC.DfsCalls

/-!
# The path of a search

`search_for_cycle` ends, a call of `DFS` leaves its index on `path` and everything below it
as it was, and a path that is printed is a walk from the start of the search.
-/

namespace LearningC

open MarkSearch Fuel

namespace TaskGraph

/-- Vertex `b` is the target of an edge of vertex `a`. -/
def Joined (tg : TaskGraph) (a b : Int) : Prop :=
  ∃ i j : Nat, a = i ∧ b = j ∧ ∃ ver ver', tg.vertexList[i]? = some ver ∧ tg.vertexList[j]? = some ver' ∧
    ∃ pair ∈ ver.next, pair.key = ver'.key

/-- A printed path that starts at `idx` and follows edges. -/
structure WalkFrom (tg : TaskGraph) (idx : Nat) (path : List Int) : Prop where
  start : path.head? = some (idx : Int)
  edges : path.IsChain tg.Joined

/-- `tg'` has the entries of `path` that `tg` has below `k` and outside the array. -/
structure KeepsPath (tg tg' : TaskGraph) : Prop where
  below : ∀ j < tg.k, tg'.path j = tg.path j
  outside : ∀ j, j < 0 ∨ (MAX : Int) < j → tg'.path j = tg.path j

section
variable {tg tg' tg'' : TaskGraph} {idx : Nat}

theorem joined_of_succ {i j : Nat} (h : j ∈ tg.succ i) : tg.Joined i j := by
  obtain ⟨ver, hv, pair, hp, hs⟩ := mem_succ.mp h
  obtain ⟨ver', hv', hk⟩ := searchVertex_spec hs
  exact ⟨i, j, rfl, rfl, ver, ver', hv, hv', pair, hp, hk.symm⟩

theorem walkFrom_shown {c : Call Nat} (hw : c.stack.IsChain (Adj tg.succ)) (hi : c.stack.head? = some idx) :
    tg.WalkFrom idx (shown c) := by
  refine ⟨?_, ?_⟩
  · unfold shown
    rw [List.head?_map, hi]
    rfl
  · exact List.isChain_map_of_isChain Int.ofNat (fun i j hij => joined_of_succ hij) hw

/-! ## One call -/

theorem KeepsPath.refl (tg : TaskGraph) : KeepsPath tg tg := ⟨fun _ _ => rfl, fun _ _ => rfl⟩

theorem KeepsPath.trans (h : KeepsPath tg tg') (hk : tg.k ≤ tg'.k) (h' : KeepsPath tg' tg'') : KeepsPath tg tg'' where
  below := fun j hj => (h'.below j (by omega)).trans (h.below j hj)
  outside := fun j hj => (h'.outside j hj).trans (h.outside j hj)

theorem push_spec (h : tg.push idx = some tg') :
    0 ≤ tg.k ∧ tg.k ≤ MAX ∧ tg'.k = tg.k + 1 ∧ KeepsPath tg tg' := by
  unfold push at h
  by_cases hk : 0 ≤ tg.k ∧ tg.k ≤ MAX
  · rw [if_pos hk] at h
    cases h
    refine ⟨hk.1, hk.2, rfl, fun j hj => ?_, fun j hj => ?_⟩
    · exact Function.update_of_ne (by omega) _ _
    · exact Function.update_of_ne (by omega) _ _
  · rw [if_neg hk] at h
    cases h

theorem foldlM_keepsPath {f : TaskGraph → Pair → Option TaskGraph}
    (hf : ∀ tg pair tg', f tg pair = some tg' → tg'.k = tg.k ∧ KeepsPath tg tg') :
    ∀ (pairs : List Pair) (tg tg' : TaskGraph), pairs.foldlM f tg = some tg' → tg'.k = tg.k ∧ KeepsPath tg tg'
  | [], tg, tg', h => by
    cases h
    exact ⟨rfl, KeepsPath.refl tg⟩
  | pair :: pairs, tg, tg', h => by
    obtain ⟨tg₁, hstep, hrest⟩ := Option.bind_eq_some_iff.mp h
    obtain ⟨hk₁, h₁⟩ := hf tg pair tg₁ hstep
    obtain ⟨hk', h'⟩ := foldlM_keepsPath hf pairs tg₁ tg' hrest
    exact ⟨hk'.trans hk₁, h₁.trans (Int.le_of_eq hk₁.symm) h'⟩

/-- **A call of `DFS`** leaves `k` one higher and `path` as it was below its entry. -/
theorem dfs_keepsPath : ∀ (fuel idx : Nat) (tg tg' : TaskGraph), dfs fuel idx tg = some tg' →
    tg'.k = tg.k + 1 ∧ KeepsPath tg tg'
  | 0, _, _, _, h => by cases h
  | fuel + 1, idx, tg, tg', h => by
    cases hv : tg.vertexList[idx]? with
    | none => simp [dfs, hv] at h
    | some ver =>
      by_cases hvis : tg.visited idx = 1
      · rw [dfs_hit hv hvis] at h
        obtain ⟨tg₁, hpush, rfl⟩ := Option.map_eq_some_iff.mp h
        obtain ⟨-, -, hk, hkeep⟩ := push_spec hpush
        exact ⟨hk, hkeep.below, hkeep.outside⟩
      · rw [dfs_mark hv hvis] at h
        obtain ⟨tg₁, hpush, hloop⟩ := Option.bind_eq_some_iff.mp h
        obtain ⟨-, -, hk, hkeep⟩ := push_spec hpush
        have hnext : ∀ tg pair tg', dfsNext fuel tg pair = some tg' → tg'.k = tg.k ∧ KeepsPath tg tg' := by
          intro tg pair tg' hnext
          obtain ⟨i, -, hd⟩ := Option.bind_eq_some_iff.mp hnext
          obtain ⟨tg₂, hcall, rfl⟩ := Option.map_eq_some_iff.mp hd
          obtain ⟨hk₂, hkeep₂⟩ := dfs_keepsPath fuel i tg tg₂ hcall
          exact ⟨by show tg₂.k - 1 = tg.k; omega, hkeep₂.below, hkeep₂.outside⟩
        obtain ⟨hk', hkeep'⟩ := foldlM_keepsPath hnext ver.next tg₁ tg' hloop
        have hmark : KeepsPath (tg.mark idx) tg' := hkeep.trans (by omega) hkeep'
        exact ⟨hk'.trans hk, hmark.below, hmark.outside⟩

/-! ## A search -/

theorem resetSearch_outside {j : Int} (hj : j < 0 ∨ (MAX : Int) < j) : (tg.resetSearch idx).path j = tg.path j := by
  unfold resetSearch
  exact if_neg (by omega)

theorem searchForCycle_outside {fuel : Nat} (h : searchForCycle fuel idx tg = some tg') (j : Int)
    (hj : j < 0 ∨ (MAX : Int) < j) : tg'.path j = tg.path j := by
  have hnext : ∀ tg pair tg', searchNext idx fuel tg pair = some tg' → tg'.path j = tg.path j := by
    intro tg pair tg' hnext
    obtain ⟨i, -, hd⟩ := Option.bind_eq_some_iff.mp hnext
    exact ((dfs_keepsPath fuel i _ tg' hd).2.outside j hj).trans (resetSearch_outside hj)
  have hloop : ∀ (pairs : List Pair) (tg tg' : TaskGraph), pairs.foldlM (searchNext idx fuel) tg = some tg' →
      tg'.path j = tg.path j := by
    intro pairs
    induction pairs with
    | nil =>
      intro tg tg' h
      cases h
      rfl
    | cons pair pairs ih =>
      intro tg tg' h
      obtain ⟨tg₁, hstep, hrest⟩ := Option.bind_eq_some_iff.mp h
      exact (ih tg₁ tg' hrest).trans (hnext tg pair tg₁ hstep)
  unfold searchForCycle at h
  cases hv : tg.vertexList[idx]? with
  | none =>
    rw [hv] at h
    cases h
  | some ver =>
    rw [hv] at h
    obtain ⟨tg₁, hpush, hrest⟩ := Option.bind_eq_some_iff.mp h
    exact (hloop ver.next tg₁ tg' hrest).trans ((push_spec hpush).2.2.2.outside j hj)

end

/-- **The path of a search.** On a graph of at most `MAX` vertices whose edges lead to
vertices, `search_for_cycle` ends; all that it prints are walks from its start, and it
writes inside `path`. Every call of `DFS` that returns leaves `k` one higher and `path` as
it was below its entry. -/
theorem searchForCycle_walks {tg : TaskGraph} (hc : tg.Closed) (hn : tg.vertexNum ≤ MAX) {idx : Nat}
    (hi : idx < tg.vertexNum) :
    (∃ tg', Ends (fun fuel => searchForCycle fuel idx tg) tg' ∧
      (∃ paths, tg'.printed = tg.printed ++ paths ∧ ∀ path ∈ paths, tg.WalkFrom idx path) ∧
      ∀ j, j < 0 ∨ (MAX : Int) < j → tg'.path j = tg.path j) ∧
    ∀ fuel i tg₁ tg₂, dfs fuel i tg₁ = some tg₂ → tg₂.k = tg₁.k + 1 ∧ KeepsPath tg₁ tg₂ := by
  refine ⟨?_, dfs_keepsPath⟩
  obtain ⟨R, hR⟩ := scan_total tg idx
  obtain ⟨tg', hends, -, -, hprinted⟩ := search_of_scan hc hn hi hR rfl
  refine ⟨tg', hends, ⟨R.map shown, hprinted, fun path hpath => ?_⟩, ?_⟩
  · obtain ⟨c, hcR, rfl⟩ := List.mem_map.mp hpath
    obtain ⟨hwalk, hstart⟩ := hR.report_walk (fun s hs => hs) c hcR
    exact walkFrom_shown hwalk hstart
  · obtain ⟨n, hfuel⟩ := hends
    exact searchForCycle_outside (hfuel n (Nat.le_refl n))

theorem searchForCycle_walks_main :
    (∃ tg', Ends (fun fuel => searchForCycle fuel 0 mainGraph) tg' ∧
      (∃ paths, tg'.printed = mainGraph.printed ++ paths ∧ ∀ path ∈ paths, mainGraph.WalkFrom 0 path) ∧
      ∀ j, j < 0 ∨ (MAX : Int) < j → tg'.path j = mainGraph.path j) ∧
    ∀ fuel i tg₁ tg₂, dfs fuel i tg₁ = some tg₂ → tg₂.k = tg₁.k + 1 ∧ KeepsPath tg₁ tg₂ :=
  searchForCycle_walks (by unfold Closed; decide) (by decide) (by decide)

end TaskGraph

end LearningC
