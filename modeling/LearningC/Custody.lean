import Mathlib.Algebra.BigOperators.Group.Finset.Basic
import Mathlib.Algebra.Order.Group.Multiset
import Mathlib.Data.Multiset.Range

/-!
# Things in custody

Things are held by a finite set of live holders, or lie on a pile once nobody holds
them. When holders and pile together are all the things there are, each of them once,
no thing has two holders and none is held and on the pile.
-/

namespace Custody

variable {ι τ : Type*}

/-- What a pointer holds. -/
def one : Option τ → Multiset τ
  | none => 0
  | some a => {a}

@[simp] theorem mem_one {p : Option τ} {a : τ} : a ∈ one p ↔ p = some a := by
  cases p with
  | none => simp [one]
  | some b => simp [one, eq_comm]

theorem count_one [DecidableEq τ] (p : Option τ) (a : τ) : (one p).count a = if p = some a then 1 else 0 := by
  cases p with
  | none => rfl
  | some b => simp [one, Multiset.count_singleton, eq_comm]

/-- What the live holders hold together. -/
def held (live : Finset ι) (holds : ι → Multiset τ) : Multiset τ := ∑ i ∈ live, holds i

section
variable {live : Finset ι} {holds holds' : ι → Multiset τ} {gone all : Multiset τ} {i j : ι} {a : τ}

theorem mem_held : a ∈ held live holds ↔ ∃ i ∈ live, a ∈ holds i := by
  unfold held
  rw [Multiset.mem_sum]

theorem held_congr (h : ∀ i ∈ live, holds' i = holds i) : held live holds' = held live holds :=
  Finset.sum_congr rfl h

/-! ## Everything accounted for -/

theorem held_or_gone (h : held live holds + gone = all) (ha : a ∈ all) :
    (∃ i ∈ live, a ∈ holds i) ∨ a ∈ gone := by
  rw [← h, Multiset.mem_add, mem_held] at ha
  exact ha

section
variable (hall : all.Nodup) (h : held live holds + gone = all)
include hall h

theorem nodup_gone : gone.Nodup := Multiset.nodup_of_le (h ▸ Multiset.le_add_left gone _) hall

theorem not_gone (hi : i ∈ live) (ha : a ∈ holds i) : a ∉ gone := by
  rw [← h] at hall
  exact Multiset.disjoint_left.mp (Multiset.nodup_add.mp hall).2.2 (mem_held.mpr ⟨i, hi, ha⟩)

end

/-! ## One holder changes -/

variable [DecidableEq ι]

theorem held_erase (hi : i ∈ live) : holds i + held (live.erase i) holds = held live holds :=
  Finset.add_sum_erase live holds hi

section
variable {σ : Type*} (g : σ → Multiset τ) (f : ι → σ) (x : σ)

theorem held_of_notMem (hi : i ∉ live) :
    held live (fun k => g (Function.update f i x k)) = held live fun k => g (f k) := by
  apply held_congr
  intro k hk
  have hne : k ≠ i := fun e => hi (e ▸ hk)
  rw [Function.update_of_ne hne]

theorem held_insert (hi : i ∉ live) :
    held (insert i live) (fun k => g (Function.update f i x k)) = g x + held live fun k => g (f k) := by
  rw [← held_of_notMem g f x hi]
  unfold held
  rw [Finset.sum_insert hi, Function.update_self]

theorem held_update (hi : i ∈ live) :
    g (f i) + held live (fun k => g (Function.update f i x k)) = g x + held live fun k => g (f k) := by
  have hold : g (f i) + held (live.erase i) (fun k => g (f k)) = held live fun k => g (f k) := held_erase hi
  have hnew : g (Function.update f i x i) + held (live.erase i) (fun k => g (Function.update f i x k)) =
      held live fun k => g (Function.update f i x k) := held_erase hi
  rw [Function.update_self, held_of_notMem g f x (Finset.notMem_erase i live)] at hnew
  rw [← hnew, ← hold]
  exact add_left_comm _ _ _

end

section
variable (hall : all.Nodup) (h : held live holds + gone = all)
include hall h

theorem holder_unique (hi : i ∈ live) (hj : j ∈ live) (ha : a ∈ holds i) (ha' : a ∈ holds j) : i = j := by
  by_contra hne
  have hj' : j ∈ live.erase i := Finset.mem_erase.mpr ⟨Ne.symm hne, hj⟩
  rw [← h, ← held_erase hi] at hall
  have hdisj := (Multiset.nodup_add.mp (Multiset.nodup_add.mp hall).1).2.2
  exact Multiset.disjoint_left.mp hdisj ha (mem_held.mpr ⟨j, hj', ha'⟩)

end

end

end Custody
