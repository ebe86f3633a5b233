import Mathlib.Data.List.Perm.Basic
import Mathlib.Data.List.Nodup
import Mathlib.Data.Set.Card
import Mathlib.Logic.Relation

/-!
# Depth-first search that reports marked vertices

A call on an unmarked vertex marks it and calls on each of its successors; a call
on a marked vertex reports the stack. Marks are never taken back. `Calls` is the
big-step relation of such a search over any successor lists; every call it makes
is recorded with the stack below it.
-/

namespace MarkSearch

variable {V : Type*} (succ : V → List V)

/-- A call: the stack below it, and the vertex. -/
abbrev Call (V : Type*) := List V × V

def Call.stack (c : Call V) : List V := c.1 ++ [c.2]

/-- The calls made from a vertex that a call has just marked. -/
def Call.next (c : Call V) : List (Call V) := (succ c.2).map fun w => (c.stack, w)

/-- With `p` on the stack and the vertices of `M` marked, calls on the vertices of
`l` mark by the calls `T`, report by the calls `R`, and end with marks `M'`. -/
inductive Calls : List V → List V → Set V → List (Call V) → List (Call V) → Set V → Prop
  | nil {p M} : Calls p [] M [] [] M
  | hit {p w l M T R M'} : w ∈ M → Calls p l M T R M' → Calls p (w :: l) M T ((p, w) :: R) M'
  | mark {p w l M M₁ M' T₁ T₂ R₁ R₂} : w ∉ M →
      Calls (p ++ [w]) (succ w) (insert w M) T₁ R₁ M₁ → Calls p l M₁ T₂ R₂ M' →
      Calls p (w :: l) M ((p, w) :: (T₁ ++ T₂)) (R₁ ++ R₂) M'

variable {succ}

/-! ## What a search does, call by call -/

theorem Calls.marks {p l : List V} {M M' : Set V} {T R : List (Call V)}
    (h : Calls succ p l M T R M') (v : V) : v ∈ M' ↔ v ∈ M ∨ v ∈ T.map Prod.snd := by
  induction h with
  | nil => simp
  | hit _ _ ih => exact ih
  | mark _ _ _ ih₁ ih₂ =>
    rw [ih₂, ih₁]
    simp only [Set.mem_insert_iff, List.map_cons, List.map_append, List.mem_cons, List.mem_append]
    rw [or_assoc, or_assoc, or_left_comm]

theorem Calls.fresh {p l : List V} {M M' : Set V} {T R : List (Call V)}
    (h : Calls succ p l M T R M') : (T.map Prod.snd).Nodup ∧ ∀ v ∈ T.map Prod.snd, v ∉ M := by
  induction h with
  | nil => simp
  | hit _ _ ih => exact ih
  | @mark p w l M M₁ M' T₁ T₂ R₁ R₂ hw h₁ _ ih₁ ih₂ =>
    have hM₁ : ∀ v, v ∈ M₁ ↔ v ∈ insert w M ∨ v ∈ T₁.map Prod.snd := h₁.marks
    simp only [List.map_cons, List.map_append, List.nodup_cons, List.mem_append, List.mem_cons]
    refine ⟨⟨?_, ?_⟩, ?_⟩
    · rintro (h | h)
      · exact ih₁.2 w h (Set.mem_insert w M)
      · exact ih₂.2 w h ((hM₁ w).mpr (Or.inl (Set.mem_insert w M)))
    · refine List.Nodup.append ih₁.1 ih₂.1 fun v hv hv' => ?_
      exact ih₂.2 v hv' ((hM₁ v).mpr (Or.inr hv))
    · rintro v (rfl | h | h) hM
      · exact hw hM
      · exact ih₁.2 v h (Set.mem_insert_of_mem w hM)
      · exact ih₂.2 v h ((hM₁ v).mpr (Or.inl (Set.mem_insert_of_mem w hM)))

theorem Calls.reported_marked {p l : List V} {M M' : Set V} {T R : List (Call V)}
    (h : Calls succ p l M T R M') : ∀ r ∈ R, r.2 ∈ M' := by
  induction h with
  | nil => simp
  | hit hw h ih =>
    intro r hr
    rcases List.mem_cons.mp hr with rfl | hr
    · exact (h.marks _).mpr (Or.inl hw)
    · exact ih r hr
  | mark _ _ h₂ ih₁ ih₂ =>
    intro r hr
    rcases List.mem_append.mp hr with hr | hr
    · exact (h₂.marks _).mpr (Or.inl (ih₁ r hr))
    · exact ih₂ r hr

/-- **Every call is a successor of a marking call**, and each such successor is
called exactly once. -/
theorem Calls.perm {p l : List V} {M M' : Set V} {T R : List (Call V)}
    (h : Calls succ p l M T R M') :
    (T ++ R).Perm (l.map (fun w => (p, w)) ++ T.flatMap (Call.next succ)) := by
  classical
  induction h with
  | nil => simp
  | hit _ _ ih =>
    rw [List.perm_iff_count] at ih ⊢
    intro c
    have := ih c
    simp only [List.count_append, List.map_cons, List.count_cons] at this ⊢
    omega
  | @mark p w l M M₁ M' T₁ T₂ R₁ R₂ hw h₁ _ ih₁ ih₂ =>
    rw [List.perm_iff_count] at ih₁ ih₂ ⊢
    intro c
    have e₁ := ih₁ c
    have e₂ := ih₂ c
    have hn : Call.next succ (p, w) = (succ w).map fun w' => (p ++ [w], w') := rfl
    simp only [List.count_append, List.map_cons, List.count_cons, List.flatMap_cons,
      List.flatMap_append, List.cons_append, hn] at e₁ e₂ ⊢
    omega

theorem Calls.unique {p l : List V} {M M₁ M₂ : Set V} {T₁ T₂ R₁ R₂ : List (Call V)}
    (h₁ : Calls succ p l M T₁ R₁ M₁) (h₂ : Calls succ p l M T₂ R₂ M₂) : T₁ = T₂ ∧ R₁ = R₂ ∧ M₁ = M₂ := by
  induction h₁ generalizing T₂ R₂ M₂ with
  | nil =>
    cases h₂
    exact ⟨rfl, rfl, rfl⟩
  | hit hw _ ih =>
    cases h₂ with
    | hit _ hrest =>
      obtain ⟨rfl, rfl, rfl⟩ := ih hrest
      exact ⟨rfl, rfl, rfl⟩
    | mark hw' => exact absurd hw hw'
  | mark hw _ _ ih ih' =>
    cases h₂ with
    | hit hw' => exact absurd hw' hw
    | mark _ hcalls hrest =>
      obtain ⟨rfl, rfl, rfl⟩ := ih hcalls
      obtain ⟨rfl, rfl, rfl⟩ := ih' hrest
      exact ⟨rfl, rfl, rfl⟩

theorem Calls.total (U : Finset V) (hU : ∀ v ∈ U, ∀ w ∈ succ v, w ∈ U) :
    ∀ (n : Nat) (p l : List V) (M : Set V), Set.ncard {v | v ∈ U ∧ v ∉ M} ≤ n → (∀ w ∈ l, w ∈ U) →
      ∃ T R M', Calls succ p l M T R M' := by
  have hfin : ∀ M : Set V, {v | v ∈ U ∧ v ∉ M}.Finite := fun M => U.finite_toSet.subset fun v hv => hv.1
  intro n
  induction n with
  | zero =>
    intro p l M hn hl
    have hM : ∀ v ∈ U, v ∈ M := by
      intro v hv
      by_contra h
      have := (Set.ncard_eq_zero (hfin M)).mp (Nat.le_zero.mp hn)
      exact (Set.eq_empty_iff_forall_notMem.mp this) v ⟨hv, h⟩
    induction l with
    | nil => exact ⟨_, _, _, .nil⟩
    | cons w l ih =>
      obtain ⟨T, R, M', h⟩ := ih fun v hv => hl v (List.mem_cons_of_mem w hv)
      exact ⟨_, _, _, .hit (hM w (hl w List.mem_cons_self)) h⟩
  | succ n ih =>
    intro p l
    induction l with
    | nil => exact fun M _ _ => ⟨_, _, _, .nil⟩
    | cons w l ihl =>
      intro M hn hl
      have hl' : ∀ v ∈ l, v ∈ U := fun v hv => hl v (List.mem_cons_of_mem w hv)
      by_cases hw : w ∈ M
      · obtain ⟨T, R, M', h⟩ := ihl M hn hl'
        exact ⟨_, _, _, .hit hw h⟩
      · have hwU := hl w List.mem_cons_self
        -- marking `w` leaves one vertex fewer
        have hlt : Set.ncard {v | v ∈ U ∧ v ∉ insert w M} < Set.ncard {v | v ∈ U ∧ v ∉ M} := by
          refine Set.ncard_lt_ncard ⟨fun v hv => ⟨hv.1, fun h => hv.2 (Set.mem_insert_of_mem w h)⟩, ?_⟩ (hfin M)
          intro h
          exact (h ⟨hwU, hw⟩).2 (Set.mem_insert w M)
        obtain ⟨T₁, R₁, M₁, h₁⟩ := ih (p ++ [w]) (succ w) (insert w M) (by omega) (hU w hwU)
        have hle : Set.ncard {v | v ∈ U ∧ v ∉ M₁} ≤ Set.ncard {v | v ∈ U ∧ v ∉ M} :=
          Set.ncard_le_ncard (fun v hv => ⟨hv.1, fun h => hv.2
            ((h₁.marks v).mpr (Or.inl (Set.mem_insert_of_mem w h)))⟩) (hfin M)
        obtain ⟨T₂, R₂, M', h₂⟩ := ihl M₁ (by omega) hl'
        exact ⟨_, _, _, .mark hw h₁ h₂⟩

/-! ## A search from one successor of a root

The root `i` is marked and on the stack; the search calls `s`. -/

def Adj (succ : V → List V) (a b : V) : Prop := b ∈ succ a

/-- Along vertices outside `A` after the first. -/
def Avoiding (succ : V → List V) (A : Set V) : V → V → Prop :=
  Relation.ReflTransGen fun a b => b ∈ succ a ∧ b ∉ A

theorem Call.stack_inj {c c' : Call V} (h : c.stack = c'.stack) : c = c' := by
  unfold Call.stack at h
  obtain ⟨h₁, h₂⟩ := List.append_inj' h rfl
  exact Prod.ext h₁ (List.singleton_inj.mp h₂)

theorem Call.mem_next {c c' : Call V} : c' ∈ c.next succ ↔ c'.1 = c.stack ∧ c'.2 ∈ succ c.2 := by
  unfold Call.next
  simp only [List.mem_map]
  constructor
  · rintro ⟨w, hw, rfl⟩; exact ⟨rfl, hw⟩
  · rintro ⟨h, hw⟩; exact ⟨c'.2, hw, Prod.ext h.symm rfl⟩

section
variable {i s : V} {T R : List (Call V)} {M' : Set V} (h : Calls succ [i] [s] {i} T R M')
include h

theorem Calls.mem_iff (c : Call V) :
    c ∈ T ∨ c ∈ R ↔ c = ([i], s) ∨ ∃ t ∈ T, c.1 = t.stack ∧ c.2 ∈ succ t.2 := by
  rw [← List.mem_append, h.perm.mem_iff]
  simp [Call.mem_next]

theorem Calls.root_notMem {t : Call V} (ht : t ∈ T) : t.2 ≠ i :=
  fun e => h.fresh.2 t.2 (List.mem_map_of_mem ht) e

theorem Calls.eq_of_vertex {t t' : Call V} (ht : t ∈ T) (ht' : t' ∈ T) (e : t.2 = t'.2) : t = t' :=
  List.inj_on_of_nodup_map h.fresh.1 ht ht' e

theorem Calls.nodup : T.Nodup := h.fresh.1.of_map _

theorem Calls.tree_induction {P : Call V → Prop} (h₀ : ([i], s) ∈ T → P ([i], s))
    (h₁ : ∀ t ∈ T, P t → ∀ w ∈ succ t.2, (t.stack, w) ∈ T → P (t.stack, w)) : ∀ t ∈ T, P t := by
  have key : ∀ n (t : Call V), t.1.length = n → t ∈ T → P t := by
    intro n
    induction n using Nat.strong_induction_on with
    | _ n ih =>
      intro t hn ht
      rcases (h.mem_iff t).mp (Or.inl ht) with rfl | ⟨t', ht', e₁, e₂⟩
      · exact h₀ ht
      · have hlt : t'.1.length < n := by rw [← hn, e₁]; simp [Call.stack]
        have et : t = (t'.stack, t.2) := Prod.ext e₁ rfl
        rw [et] at ht ⊢
        exact h₁ t' ht' (ih _ hlt t' rfl ht') t.2 e₂ ht
  exact fun t ht => key _ t rfl ht

theorem Calls.root_stack {t : Call V} (ht : t ∈ T) : [i] <+: t.1 := by
  refine h.tree_induction (P := fun t => [i] <+: t.1) (fun _ => List.prefix_refl _) ?_ t ht
  intro t _ ih w _ _
  exact ih.trans (List.prefix_append _ _)

theorem Calls.root_ne_stack {t : Call V} (ht : t ∈ T) : [i] ≠ t.stack := by
  intro e
  have hl := congrArg List.length e
  rw [Call.stack, List.length_append, List.length_singleton, List.length_singleton] at hl
  have := (h.root_stack ht).length_le
  rw [List.length_singleton] at this
  omega

theorem Calls.first_stack {t : Call V} (ht : t ∈ T) : s ∈ t.stack := by
  refine h.tree_induction (P := fun t => s ∈ t.stack) (fun _ => by simp [Call.stack]) ?_ t ht
  intro t _ ih w _ _
  exact List.mem_append_left _ ih

theorem Calls.on_stack {t : Call V} (ht : t ∈ T) :
    ∀ v ∈ t.stack, v = i ∨ ∃ t' ∈ T, t'.2 = v ∧ t'.stack <+: t.stack := by
  refine h.tree_induction (P := fun t => ∀ v ∈ t.stack, v = i ∨ ∃ t' ∈ T, t'.2 = v ∧ t'.stack <+: t.stack)
    ?_ ?_ t ht
  · intro hs v hv
    simp only [Call.stack, List.cons_append, List.nil_append, List.mem_cons, List.not_mem_nil, or_false] at hv
    rcases hv with rfl | rfl
    · exact Or.inl rfl
    · exact Or.inr ⟨_, hs, rfl, List.prefix_refl _⟩
  · intro t _ ih w _ htw v hv
    rcases List.mem_append.mp hv with hv | hv
    · rcases ih v hv with rfl | ⟨t', ht', e, hp⟩
      · exact Or.inl rfl
      · exact Or.inr ⟨t', ht', e, hp.trans (List.prefix_append _ _)⟩
    · rw [List.mem_singleton] at hv; subst hv
      exact Or.inr ⟨_, htw, rfl, List.prefix_refl _⟩

theorem Calls.notMem_below {t : Call V} (ht : t ∈ T) : t.2 ∉ t.1 := by
  intro hv
  rcases (h.mem_iff t).mp (Or.inl ht) with rfl | ⟨t', ht', e₁, -⟩
  · exact h.root_notMem ht (List.mem_singleton.mp hv)
  · rw [e₁] at hv
    rcases h.on_stack ht' _ hv with e | ⟨t'', ht'', e, hp⟩
    · exact h.root_notMem ht e
    · have := h.eq_of_vertex ht'' ht e
      subst this
      have := hp.length_le
      rw [Call.stack, e₁] at this
      simp at this

theorem Calls.count_next [DecidableEq V] {t : Call V} (ht : t ∈ T) (w : V) :
    T.count (t.stack, w) + R.count (t.stack, w) = (succ t.2).count w := by
  have hc := h.perm.count_eq (t.stack, w)
  have h₀ : ([s].map fun w => ([i], w)).count (t.stack, w) = 0 := by
    rw [List.count_eq_zero]
    intro hm
    simp only [List.map_cons, List.map_nil, List.mem_singleton, Prod.mk.injEq] at hm
    exact h.root_ne_stack ht hm.1.symm
  have h₁ : ∀ l : List (Call V), l.Nodup → (l.flatMap (Call.next succ)).count (t.stack, w) =
      if t ∈ l then (succ t.2).count w else 0 := by
    intro l hl
    induction l with
    | nil => simp
    | cons t' l ih =>
      rw [List.nodup_cons] at hl
      rw [List.flatMap_cons, List.count_append, ih hl.2]
      by_cases e : t' = t
      · subst e
        have : (t'.next succ).count (t'.stack, w) = (succ t'.2).count w :=
          List.count_map_of_injective _ _ (fun a b e => (Prod.mk.inj e).2) w
        simp [this, hl.1]
      · have : (t'.next succ).count (t.stack, w) = 0 := by
          rw [List.count_eq_zero, Call.mem_next]
          exact fun e' => e (Call.stack_inj e'.1.symm)
        simp [this, Ne.symm e]
  rw [List.count_append, List.count_append, h₀, h₁ T h.nodup, if_pos ht, Nat.zero_add] at hc
  exact hc

theorem Calls.count_first [DecidableEq V] : T.count ([i], s) + R.count ([i], s) = 1 := by
  have hc := h.perm.count_eq ([i], s)
  have h₁ : (T.flatMap (Call.next succ)).count ([i], s) = 0 := by
    rw [List.count_eq_zero, List.mem_flatMap]
    rintro ⟨t, ht, hm⟩
    exact h.root_ne_stack ht (Call.mem_next.mp hm).1
  rw [List.count_append, List.count_append, h₁] at hc
  simpa using hc

theorem Calls.reported {r : Call V} (hr : r ∈ R) : r.2 = i ∨ ∃ t ∈ T, t.2 = r.2 := by
  rcases (h.marks r.2).mp (h.reported_marked r hr) with e | e
  · exact Or.inl e
  · exact Or.inr (List.mem_map.mp e)

end

end MarkSearch
