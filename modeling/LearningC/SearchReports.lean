import LearningC.MarkSearch
import Mathlib.Data.List.Chain

/-!
# What the reports of a marking search say about the graph

A search from a root is quiet exactly when what it reaches is a tree (`Tree`), and
every report closes a cycle on its own stack exactly when no two edges enter one
vertex from outside (`Fork`). Both are conditions on the edges alone, so neither
depends on the order in which successors are called.
-/

namespace MarkSearch

variable {V : Type*} {succ : V → List V}

/-- From `s` the edges form a tree that never enters `i`. -/
def Tree [DecidableEq V] (succ : V → List V) (i s : V) : Prop :=
  s ≠ i ∧ ∀ x, Relation.ReflTransGen (Adj succ) s x → ∀ w ∈ succ x, w ≠ i ∧ w ≠ s ∧
    (succ x).count w = 1 ∧ ∀ y, Relation.ReflTransGen (Adj succ) s y → w ∈ succ y → y = x

/-- Two different edges enter `w` from vertices that `s` reaches without passing
`i` or `w`. -/
def Fork [DecidableEq V] (succ : V → List V) (i s w : V) : Prop :=
  s ≠ i ∧ w ≠ i ∧ w ≠ s ∧ ∃ x y, Avoiding succ {i, w} s x ∧ Avoiding succ {i, w} s y ∧
    w ∈ succ x ∧ w ∈ succ y ∧ (x ≠ y ∨ 2 ≤ (succ x).count w)

/-- A cycle can be reached from `i`. -/
def ReachesCycle (succ : V → List V) (i : V) : Prop :=
  ∃ v, Relation.ReflTransGen (Adj succ) i v ∧ Relation.TransGen (Adj succ) v v

/-- Where every vertex has at most one successor, a search is one walk and never forks. -/
theorem not_fork_of_one [DecidableEq V] (hone : ∀ v, (succ v).length ≤ 1) (i s w : V) : ¬ Fork succ i s w := by
  have hunique : ∀ {v a b : V}, a ∈ succ v → b ∈ succ v → a = b := by
    intro v a b ha hb
    obtain ⟨c, hc⟩ := List.length_eq_one_iff.mp (Nat.le_antisymm (hone v) (List.length_pos_of_mem ha))
    rw [hc, List.mem_singleton] at ha hb
    rw [ha, hb]
  -- whoever steps to `w` cannot go on without it
  have hstop : ∀ {x y : V}, w ∈ succ x → Avoiding succ {i, w} x y → x = y := by
    intro x y hx hxy
    rcases Relation.ReflTransGen.cases_head hxy with rfl | ⟨v, ⟨hv, hav⟩, -⟩
    · rfl
    · rw [hunique hv hx] at hav
      exact absurd (Set.mem_insert_of_mem i (Set.mem_singleton w)) hav
  rintro ⟨-, -, -, x, y, hx, hy, hwx, hwy, hxy | hxy⟩
  · rcases Relation.ReflTransGen.total_of_right_unique (fun _ _ _ ha hb => hunique ha.1 hb.1) hx hy with h | h
    · exact hxy (hstop hwx h)
    · exact hxy (hstop hwy h).symm
  · have := hone x
    have := List.count_le_length (a := w) (l := succ x)
    omega

/-! ## One successor of the root -/

section
variable {i s : V} {T R : List (Call V)} {M' : Set V} (h : Calls succ [i] [s] {i} T R M')
include h

theorem Calls.reach {t : Call V} (ht : t ∈ T) : Relation.ReflTransGen (Adj succ) s t.2 := by
  refine h.tree_induction (P := fun t => Relation.ReflTransGen (Adj succ) s t.2)
    (fun _ => .refl) ?_ t ht
  intro t _ ih w hw _
  exact ih.tail hw

theorem Calls.avoiding {t : Call V} (ht : t ∈ T) {w : V} (hw : w ∉ t.stack) :
    Avoiding succ {i, w} s t.2 := by
  refine h.tree_induction (P := fun t => w ∉ t.stack → Avoiding succ {i, w} s t.2)
    (fun _ _ => .refl) ?_ t ht hw
  intro t _ ih v hv htv hw
  have hw' : w ∉ t.stack ∧ w ≠ v := by
    rwa [Call.stack, List.mem_append, List.mem_singleton, not_or] at hw
  refine (ih hw'.1).tail ⟨hv, ?_⟩
  rintro (e | e)
  · exact h.root_notMem htv e
  · exact hw'.2 (Set.mem_singleton_iff.mp e).symm

/-- Below a vertex of the stack there is a walk to it from the root, and from it
to the marked vertex. -/
theorem Calls.stack_walk (hs : s ∈ succ i) {t : Call V} (ht : t ∈ T) :
    ∀ v ∈ t.stack, Relation.ReflTransGen (Adj succ) i v ∧ Relation.ReflTransGen (Adj succ) v t.2 := by
  refine h.tree_induction (P := fun t => ∀ v ∈ t.stack,
    Relation.ReflTransGen (Adj succ) i v ∧ Relation.ReflTransGen (Adj succ) v t.2) ?_ ?_ t ht
  · intro _ v hv
    simp only [Call.stack, List.cons_append, List.nil_append, List.mem_cons, List.not_mem_nil, or_false] at hv
    rcases hv with rfl | rfl
    · exact ⟨.refl, .single hs⟩
    · exact ⟨.single hs, .refl⟩
  · intro t _ ih w hw _ v hv
    rcases List.mem_append.mp hv with hv | hv
    · exact ⟨(ih v hv).1, (ih v hv).2.tail hw⟩
    · rw [List.mem_singleton] at hv; subst hv
      exact ⟨(ih t.2 (by simp [Call.stack])).1.tail hw, .refl⟩

theorem Calls.ne_root {t : Call V} (ht : t ∈ T) : s ≠ i :=
  h.tree_induction (P := fun _ => s ≠ i) (fun hs => h.root_notMem hs) (fun _ _ ih _ _ _ => ih) t ht

theorem Calls.quiet_first (hR : R = []) : ([i], s) ∈ T := by
  subst hR
  have := (h.mem_iff ([i], s)).mpr (Or.inl rfl)
  simpa using this

theorem Calls.quiet_next (hR : R = []) {t : Call V} (ht : t ∈ T) {w : V} (hw : w ∈ succ t.2) :
    (t.stack, w) ∈ T := by
  subst hR
  have := (h.mem_iff (t.stack, w)).mpr (Or.inr ⟨t, ht, rfl, hw⟩)
  simpa using this

theorem Calls.quiet_marks (hR : R = []) {v : V} (hv : Relation.ReflTransGen (Adj succ) s v) :
    ∃ t ∈ T, t.2 = v := by
  induction hv with
  | refl => exact ⟨_, h.quiet_first hR, rfl⟩
  | tail _ hw ih =>
    obtain ⟨t, ht, rfl⟩ := ih
    exact ⟨_, h.quiet_next hR ht hw, rfl⟩

theorem Calls.quiet_longer (hR : R = []) {t : Call V} (ht : t ∈ T) {v : V}
    (hv : Relation.TransGen (Adj succ) t.2 v) : ∃ t' ∈ T, t'.2 = v ∧ t.stack.length < t'.stack.length := by
  induction hv with
  | single hw => exact ⟨_, h.quiet_next hR ht hw, rfl, by simp [Call.stack]⟩
  | tail _ hw ih =>
    obtain ⟨t', ht', rfl, hl⟩ := ih
    refine ⟨_, h.quiet_next hR ht' hw, rfl, hl.trans ?_⟩
    simp [Call.stack]

theorem Calls.quiet_acyclic (hR : R = []) {v : V} (hv : Relation.ReflTransGen (Adj succ) s v) :
    v ≠ i ∧ ¬ Relation.TransGen (Adj succ) v v := by
  obtain ⟨t, ht, rfl⟩ := h.quiet_marks hR hv
  refine ⟨h.root_notMem ht, fun hc => ?_⟩
  obtain ⟨t', ht', e, hl⟩ := h.quiet_longer hR ht hc
  rw [h.eq_of_vertex ht' ht e] at hl
  exact lt_irrefl _ hl

theorem Calls.parent {t : Call V} (ht : t ∈ T) :
    t = ([i], s) ∨ ∃ t' ∈ T, t = (t'.stack, t.2) ∧ t.2 ∈ succ t'.2 := by
  rcases (h.mem_iff t).mp (Or.inl ht) with e | ⟨t', ht', e₁, e₂⟩
  · exact Or.inl e
  · exact Or.inr ⟨t', ht', Prod.ext e₁ rfl, e₂⟩

/-- When every report is on its stack, the marking call of a vertex reached without
passing `w` has a stack without `w`. -/
theorem Calls.marks_avoiding (hgood : ∀ r ∈ R, r.2 ∈ r.1) (hsi : s ≠ i) {w : V} (hwi : w ≠ i) (hws : w ≠ s)
    {v : V} (hv : Avoiding succ {i, w} s v) : ∃ t ∈ T, t.2 = v ∧ w ∉ t.stack := by
  induction hv with
  | refl =>
    refine ⟨([i], s), ?_, rfl, by simp [Call.stack, hwi, hws]⟩
    rcases (h.mem_iff ([i], s)).mpr (Or.inl rfl) with hT | hR
    · exact hT
    · exact absurd (List.mem_singleton.mp (hgood _ hR)) hsi
  | @tail x v _ hxv ih =>
    obtain ⟨t, ht, rfl, hwt⟩ := ih
    obtain ⟨hv, hav⟩ := hxv
    simp only [Set.mem_insert_iff, Set.mem_singleton_iff, not_or] at hav
    rcases (h.mem_iff (t.stack, v)).mpr (Or.inr ⟨t, ht, rfl, hv⟩) with hT | hR
    · refine ⟨_, hT, rfl, ?_⟩
      rw [Call.stack, List.mem_append, List.mem_singleton]
      rintro (hm | hm)
      · exact hwt hm
      · exact hav.2 hm.symm
    · rcases h.on_stack ht v (hgood _ hR) with e | ⟨t', ht', e, hp⟩
      · exact absurd e hav.1
      · exact ⟨t', ht', e, fun hm => hwt (hp.subset hm)⟩

variable [DecidableEq V]

theorem Calls.quiet_tree (hR : R = []) : Tree succ i s := by
  have hs := h.quiet_first hR
  refine ⟨h.root_notMem hs, fun x hx w hw => ?_⟩
  obtain ⟨t, ht, rfl⟩ := h.quiet_marks hR hx
  have htw := h.quiet_next hR ht hw
  refine ⟨h.root_notMem htw, ?_, ?_, ?_⟩
  · rintro rfl
    have e := h.eq_of_vertex hs htw rfl
    exact h.root_ne_stack ht (Prod.mk.inj e).1
  · have hc := h.count_next ht w
    rw [hR, List.count_nil, Nat.add_zero] at hc
    have h₁ := List.nodup_iff_count_le_one.mp h.nodup (t.stack, w)
    have h₂ := List.count_pos_iff.mpr hw
    omega
  · intro y hy hwy
    obtain ⟨t', ht', rfl⟩ := h.quiet_marks hR hy
    have e := h.eq_of_vertex (h.quiet_next hR ht' hwy) htw rfl
    rw [Call.stack_inj (Prod.mk.inj e).1]

theorem Calls.count_both {t : Call V} (ht : t ∈ T) {w : V} (hT : (t.stack, w) ∈ T) (hR : (t.stack, w) ∈ R) :
    2 ≤ (succ t.2).count w := by
  have := h.count_next ht w
  have := List.count_pos_iff.mpr hT
  have := List.count_pos_iff.mpr hR
  omega

theorem Calls.first_once (hT : ([i], s) ∈ T) : ([i], s) ∉ R := by
  intro hR
  have := h.count_first
  have := List.count_pos_iff.mpr hT
  have := List.count_pos_iff.mpr hR
  omega

theorem Calls.quiet_of_tree (ht : Tree succ i s) : R = [] := by
  obtain ⟨hsi, htree⟩ := ht
  refine List.eq_nil_iff_forall_not_mem.mpr fun r hr => ?_
  have hparent : ∀ t ∈ T, t.2 = s → t = ([i], s) := by
    intro t ht e
    rcases h.parent ht with e' | ⟨t', ht', -, hm⟩
    · exact e'
    · exact absurd e (htree _ (h.reach ht') _ hm).2.1
  rcases (h.mem_iff r).mp (Or.inr hr) with rfl | ⟨t, ht, e₁, hw⟩
  · rcases h.reported hr with e | ⟨t, ht, e⟩
    · exact hsi e
    · have := hparent t ht e; subst this
      exact h.first_once ht hr
  · obtain ⟨hwi, hws, hone, huniq⟩ := htree _ (h.reach ht) _ hw
    have er : r = (t.stack, r.2) := Prod.ext e₁ rfl
    rcases h.reported hr with e | ⟨t', ht', e⟩
    · exact hwi e
    · rcases h.parent ht' with e' | ⟨t'', ht'', e', hm⟩
      · exact hws (by rw [← e, e'])
      · rw [e] at hm e'
        have et := h.eq_of_vertex ht'' ht (huniq _ (h.reach ht'') hm)
        rw [et] at e'
        rw [er] at hr
        have := h.count_both ht (e' ▸ ht') hr
        omega

/-! ## Reports that close a cycle on their own stack -/

theorem Calls.good_of_no_fork (hno : ∀ w, ¬ Fork succ i s w) : ∀ r ∈ R, r.2 ∈ r.1 := by
  intro r hr
  by_contra hbad
  rcases (h.mem_iff r).mp (Or.inr hr) with rfl | ⟨t, ht, e₁, hw⟩
  · rcases h.reported hr with e | ⟨t, ht, e⟩
    · exact hbad (List.mem_singleton.mpr e)
    · rcases h.parent ht with e' | ⟨t', ht', e', -⟩
      · subst e'; exact h.first_once ht hr
      · -- `s` is already on every stack of the search
        rw [e'] at ht
        have := h.notMem_below ht
        exact this (e ▸ h.first_stack ht')
  · have er : r = (t.stack, r.2) := Prod.ext e₁ rfl
    rw [e₁] at hbad
    have hri : r.2 ≠ i := fun e => hbad (e ▸ List.mem_append_left _ ((h.root_stack ht).subset (by simp)))
    have hrs : r.2 ≠ s := fun e => hbad (e ▸ h.first_stack ht)
    rcases h.reported hr with e | ⟨t', ht', e⟩
    · exact hri e
    rcases h.parent ht' with e' | ⟨t'', ht'', e', hm⟩
    · exact hrs (by rw [← e, e'])
    rw [e] at hm e'
    have hbelow : r.2 ∉ t''.stack := by
      have := h.notMem_below ht'
      rwa [e'] at this
    refine hno r.2 ⟨h.ne_root ht, hri, hrs, t.2, t''.2, h.avoiding ht hbad, h.avoiding ht'' hbelow, hw, hm, ?_⟩
    by_cases hxy : t.2 = t''.2
    · right
      have et := h.eq_of_vertex ht ht'' hxy
      rw [← et] at e'
      rw [er] at hr
      exact h.count_both ht (e' ▸ ht') hr
    · exact Or.inl hxy

theorem Calls.no_fork_of_good (hgood : ∀ r ∈ R, r.2 ∈ r.1) (w : V) : ¬ Fork succ i s w := by
  rintro ⟨hsi, hwi, hws, x, y, hx, hy, hwx, hwy, hxy⟩
  obtain ⟨t, ht, rfl, hwt⟩ := h.marks_avoiding hgood hsi hwi hws hx
  obtain ⟨t', ht', rfl, hwt'⟩ := h.marks_avoiding hgood hsi hwi hws hy
  -- both edges into `w` lead to marking calls, which are the same call
  have key : ∀ u ∈ T, w ∉ u.stack → w ∈ succ u.2 → (u.stack, w) ∉ R ∧ (u.stack, w) ∈ T := by
    intro u hu hwu hm
    have hR : (u.stack, w) ∉ R := fun hR => hwu (hgood _ hR)
    rcases (h.mem_iff (u.stack, w)).mpr (Or.inr ⟨u, hu, rfl, hm⟩) with hT | hR'
    · exact ⟨hR, hT⟩
    · exact absurd hR' hR
  obtain ⟨hR, hT⟩ := key t ht hwt hwx
  obtain ⟨-, hT'⟩ := key t' ht' hwt' hwy
  have e := h.eq_of_vertex hT hT' rfl
  have et := Call.stack_inj (Prod.mk.inj e).1
  rcases hxy with hxy | hxy
  · exact hxy (by rw [et])
  · have hc := h.count_next ht w
    rw [List.count_eq_zero.mpr hR] at hc
    have := List.nodup_iff_count_le_one.mp h.nodup (t.stack, w)
    omega

end

/-! ## Reports are walks -/

section
variable {p l : List V} {M M' : Set V} {T R : List (Call V)}

theorem isChain_concat {u w : V} (h : (p ++ [u]).IsChain (Adj succ)) (hw : w ∈ succ u) :
    (p ++ [u] ++ [w]).IsChain (Adj succ) := by
  refine h.append (List.isChain_singleton w) fun x hx y hy => ?_
  cases (List.getLast?_concat ..).symm.trans hx
  cases hy
  exact hw

theorem Calls.report_walk (h : Calls succ p l M T R M') (hp : ∀ w ∈ l, (p ++ [w]).IsChain (Adj succ)) :
    ∀ r ∈ R, r.stack.IsChain (Adj succ) ∧ p <+: r.1 := by
  induction h with
  | nil => simp
  | @hit p w l M T R M' _ _ ih =>
    intro r hr
    rcases List.mem_cons.mp hr with rfl | hr
    · exact ⟨hp w List.mem_cons_self, List.prefix_rfl⟩
    · exact ih (fun v hv => hp v (List.mem_cons_of_mem w hv)) r hr
  | @mark p w l M M₁ M' T₁ T₂ R₁ R₂ _ _ _ ih₁ ih₂ =>
    intro r hr
    rcases List.mem_append.mp hr with hr | hr
    · obtain ⟨hchain, hprefix⟩ := ih₁ (fun v hv => isChain_concat (hp w List.mem_cons_self) hv) r hr
      exact ⟨hchain, (List.prefix_append p [w]).trans hprefix⟩
    · exact ih₂ (fun v hv => hp v (List.mem_cons_of_mem w hv)) r hr

end

/-! ## All successors of a root -/

/-- The searches from `i` through the vertices of `l`, each with fresh marks, report `R`. -/
inductive Scan (succ : V → List V) (i : V) : List V → List (Call V) → Prop
  | nil : Scan succ i [] []
  | cons {s l T R M' R'} : Calls succ [i] [s] {i} T R M' → Scan succ i l R' → Scan succ i (s :: l) (R ++ R')

theorem Scan.total (U : Finset V) (hU : ∀ v ∈ U, ∀ w ∈ succ v, w ∈ U) (i : V) :
    ∀ l : List V, (∀ w ∈ l, w ∈ U) → ∃ R, Scan succ i l R
  | [], _ => ⟨[], .nil⟩
  | s :: l, hl => by
    obtain ⟨R', h'⟩ := Scan.total U hU i l fun w hw => hl w (List.mem_cons_of_mem s hw)
    obtain ⟨T, R, M', h⟩ := Calls.total U hU _ [i] [s] {i} (Nat.le_refl _)
      fun w hw => hl w (by rw [List.mem_singleton.mp hw]; exact List.mem_cons_self)
    exact ⟨_, .cons h h'⟩

theorem Scan.unique {i : V} {l : List V} {R₁ R₂ : List (Call V)} (h₁ : Scan succ i l R₁) (h₂ : Scan succ i l R₂) :
    R₁ = R₂ := by
  induction h₁ generalizing R₂ with
  | nil =>
    cases h₂
    rfl
  | cons hcalls _ ih =>
    cases h₂ with
    | cons hcalls' hrest =>
      obtain ⟨-, rfl, -⟩ := hcalls.unique hcalls'
      rw [ih hrest]

section
variable {i : V} {l : List V} {R : List (Call V)}

theorem Scan.quiet_acyclic (h : Scan succ i l R) (hR : R = []) : ∀ s ∈ l, ∀ v,
    Relation.ReflTransGen (Adj succ) s v → v ≠ i ∧ ¬ Relation.TransGen (Adj succ) v v := by
  induction h with
  | nil => intro s hs; cases hs
  | cons h _ ih =>
    obtain ⟨h₁, h₂⟩ := List.append_eq_nil_iff.mp hR
    intro s hs v hv
    rcases List.mem_cons.mp hs with rfl | hs
    · exact h.quiet_acyclic h₁ hv
    · exact ih h₂ s hs v hv

theorem Scan.report_walk (h : Scan succ i l R) (hl : ∀ s ∈ l, s ∈ succ i) :
    ∀ r ∈ R, r.stack.IsChain (Adj succ) ∧ r.stack.head? = some i := by
  induction h with
  | nil => simp
  | @cons s l T R M' R' hcalls _ ih =>
    intro r hr
    rcases List.mem_append.mp hr with hr | hr
    · have hchain : ∀ w ∈ [s], ([i] ++ [w]).IsChain (Adj succ) := by
        intro w hw
        rw [List.mem_singleton.mp hw]
        exact isChain_concat (p := []) (List.isChain_singleton i) (hl s List.mem_cons_self)
      obtain ⟨hwalk, rest, hprefix⟩ := hcalls.report_walk hchain r hr
      refine ⟨hwalk, ?_⟩
      unfold Call.stack
      rw [← hprefix]
      rfl
    · exact ih (fun v hv => hl v (List.mem_cons_of_mem s hv)) r hr

/-- **A cycle that can be reached is reported.** -/
theorem Scan.reports_of_reaches (h : Scan succ i (succ i) R) (hc : ReachesCycle succ i) : R ≠ [] := by
  intro hR
  obtain ⟨v, hiv, hvv⟩ := hc
  rcases Relation.ReflTransGen.cases_head hiv with rfl | ⟨s, hs, hsv⟩
  · obtain ⟨s, hs, hsi⟩ := Relation.TransGen.head'_iff.mp hvv
    exact (h.quiet_acyclic hR s hs i hsi).1 rfl
  · exact (h.quiet_acyclic hR s hs v hsv).2 hvv

theorem Scan.cycle_of_good (h : Scan succ i l R) (hl : ∀ s ∈ l, s ∈ succ i) {r : Call V} (hr : r ∈ R)
    (hgood : r.2 ∈ r.1) : ReachesCycle succ i := by
  induction h with
  | nil => cases hr
  | @cons s l T R M' R' h _ ih =>
    rcases List.mem_append.mp hr with hr | hr
    · have hs := hl s List.mem_cons_self
      rcases (h.mem_iff r).mp (Or.inr hr) with rfl | ⟨t, ht, e, hw⟩
      · have e := List.mem_singleton.mp hgood
        exact ⟨i, .refl, .single (e ▸ hs)⟩
      · obtain ⟨h₁, h₂⟩ := h.stack_walk hs ht r.2 (e ▸ hgood)
        exact ⟨r.2, h₁, .tail' h₂ hw⟩
    · exact ih (fun s' hs' => hl s' (List.mem_cons_of_mem s hs')) hr

variable [DecidableEq V]

theorem Scan.quiet_iff (h : Scan succ i l R) : R = [] ↔ ∀ s ∈ l, Tree succ i s := by
  induction h with
  | nil => simp
  | cons h _ ih =>
    rw [List.append_eq_nil_iff, ih, List.forall_mem_cons]
    exact and_congr_left fun _ => ⟨h.quiet_tree, h.quiet_of_tree⟩

theorem Scan.good_iff (h : Scan succ i l R) : (∀ r ∈ R, r.2 ∈ r.1) ↔ ∀ s ∈ l, ∀ w, ¬ Fork succ i s w := by
  induction h with
  | nil => simp
  | cons h _ ih =>
    rw [List.forall_mem_append, ih, List.forall_mem_cons]
    exact and_congr_left fun _ => ⟨h.no_fork_of_good, h.good_of_no_fork⟩

end

/-! ## Trees in two graphs -/

section
variable {W : Type*} {succ₁ : V → List V} {succ₂ : W → List W} (C : V → W → Prop)

theorem reach_transport (hstep : ∀ x y, C x y → ∀ w ∈ succ₁ x, ∃ w', C w w' ∧ w' ∈ succ₂ y) {s x : V} {s' : W}
    (hs : C s s') (hx : Relation.ReflTransGen (Adj succ₁) s x) :
    ∃ x', C x x' ∧ Relation.ReflTransGen (Adj succ₂) s' x' := by
  induction hx with
  | refl => exact ⟨s', hs, .refl⟩
  | tail _ hw ih =>
    obtain ⟨x', hC, hx'⟩ := ih
    obtain ⟨w', hC', hw'⟩ := hstep _ _ hC _ hw
    exact ⟨w', hC', hx'.tail hw'⟩

theorem Tree.transport [DecidableEq V] [DecidableEq W]
    (hstep : ∀ x y, C x y → ∀ w ∈ succ₁ x, ∃ w', C w w' ∧ w' ∈ succ₂ y ∧ (succ₁ x).count w = (succ₂ y).count w')
    (hinj : ∀ x y z, C x z → C y z → x = y) (hfun : ∀ x y z, C x y → C x z → y = z)
    {i s : V} {i' s' : W} (hs : C s s') (hi : ∀ z, C i z → z = i') (h : Tree succ₂ i' s') : Tree succ₁ i s := by
  have hstep' : ∀ x y, C x y → ∀ w ∈ succ₁ x, ∃ w', C w w' ∧ w' ∈ succ₂ y :=
    fun x y hC w hw => (hstep x y hC w hw).imp fun _ h => ⟨h.1, h.2.1⟩
  refine ⟨fun e => h.1 (hi s' (e ▸ hs)), fun x hx w hw => ?_⟩
  obtain ⟨x', hC, hx'⟩ := reach_transport C hstep' hs hx
  obtain ⟨w', hw', hm, hcount⟩ := hstep x x' hC w hw
  obtain ⟨hwi, hws, hone, huniq⟩ := h.2 x' hx' w' hm
  refine ⟨?_, ?_, hcount.trans hone, ?_⟩
  · rintro rfl
    exact hwi (hi w' hw')
  · rintro rfl
    exact hws (hfun _ _ _ hw' hs)
  · intro y hy hwy
    obtain ⟨y', hCy, hy'⟩ := reach_transport C hstep' hs hy
    obtain ⟨w'', hw'', hm', -⟩ := hstep y y' hCy w hwy
    rw [hfun _ _ _ hw'' hw'] at hm'
    rw [huniq y' hy' hm'] at hCy
    exact hinj _ _ _ hCy hC

end

end MarkSearch
