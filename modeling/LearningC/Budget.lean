import LearningC.Runs
import Mathlib.Algebra.BigOperators.Group.Finset.Basic
import Mathlib.Algebra.Group.Action.Defs
import Mathlib.Algebra.Order.BigOperators.Group.Finset
import Mathlib.Algebra.Ring.Nat

/-!
# Runs on a budget

A measure that every step lowers, save for what some events put in, bounds the length of
runs. The measures here are sums of weights over finitely many threads.
-/

namespace Budget

open Runs

variable {ι σ S E : Type*}

/-! ## Weights -/

section
variable [Fintype ι] {w : σ → Nat} {f g : ι → σ} {i : ι} {x : σ}

def total (w : σ → Nat) (f : ι → σ) : Nat := ∑ i, w (f i)

theorem total_le (c : Nat) (h : ∀ i, w (g i) ≤ w (f i) + c) : total w g ≤ total w f + Fintype.card ι * c := by
  have hsum : total w g ≤ ∑ i, (w (f i) + c) := Finset.sum_le_sum fun i _ => h i
  rw [Finset.sum_add_distrib, Finset.sum_const, Finset.card_univ, smul_eq_mul] at hsum
  exact hsum

theorem total_const (x : σ) : total w (fun _ : ι => x) = Fintype.card ι * w x := by
  unfold total
  rw [Finset.sum_const, Finset.card_univ, smul_eq_mul]

theorem total_update [DecidableEq ι] : w (f i) + total w (Function.update f i x) = w x + total w f := by
  have hsplit : ∀ g : ι → σ, w (g i) + ∑ j ∈ Finset.univ.erase i, w (g j) = total w g :=
    fun g => Finset.add_sum_erase Finset.univ (fun j => w (g j)) (Finset.mem_univ i)
  have hrest : ∑ j ∈ Finset.univ.erase i, w (Function.update f i x j) = ∑ j ∈ Finset.univ.erase i, w (f j) := by
    apply Finset.sum_congr rfl
    intro j hj
    rw [Function.update_of_ne (Finset.ne_of_mem_erase hj)]
  have hnew := hsplit (Function.update f i x)
  rw [Function.update_self, hrest] at hnew
  have hold := hsplit f
  omega

end

/-! ## Runs -/

section
variable {step : S → E → Option S} {K : S → E → S → Prop} {I : S → Prop} {U : E → Prop} {measure : S → Nat}
  {gift : E → Nat}

/-- **Budget.** Where every step costs one and an event adds its gift, a run is no longer
than the first measure and all gifts together. -/
theorem length_le (h : ∀ s e s', I s → U e → step s e = some s' → K s e s' → I s' ∧ measure s' + 1 ≤ measure s + gift e) :
    ∀ (es : List E) (s s' : S), (∀ e ∈ es, U e) → I s → Along step K s es → run step s es = some s' →
      es.length + measure s' ≤ measure s + (es.map gift).sum
  | [], s, s', _, _, _, hr => by
    cases hr
    simp
  | e :: es, s, s', hU, hI, hK, hr => by
    obtain ⟨s₁, hs, hr⟩ := Option.bind_eq_some_iff.mp hr
    obtain ⟨hk, hK₁⟩ := hK s₁ hs
    obtain ⟨hI₁, hm⟩ := h s e s₁ hI (hU e List.mem_cons_self) hs hk
    have hrest := length_le h es s₁ s' (fun e' he' => hU e' (List.mem_cons_of_mem e he')) hI₁ hK₁ hr
    rw [List.length_cons, List.map_cons, List.sum_cons]
    omega

theorem sum_map_ite (p : E → Bool) (k : Nat) (es : List E) :
    (es.map fun e => if p e then k else 0).sum = k * es.countP p := by
  induction es with
  | nil => rfl
  | cons e es ih =>
    rw [List.map_cons, List.sum_cons, ih, List.countP_cons]
    split
    · rw [Nat.mul_add, Nat.mul_one, Nat.add_comm]
    · simp

end

end Budget
