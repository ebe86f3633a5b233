import Mathlib.Logic.Function.Basic

/-!
# Mutual exclusion by a lock with an owner

`m` names the owner of the lock, `f` gives the phase of every party, and `H` tells the
phases in which a party holds the lock.
-/

variable {ι α : Type*}

/-- The owner of the lock is the one party whose phase holds it. -/
def Exclusive (H : α → Prop) (m : Option ι) (f : ι → α) : Prop := ∀ i, m = some i ↔ H (f i)

namespace Exclusive

variable {H : α → Prop} {m : Option ι} {f : ι → α} {i j : ι} {a : α}

theorem alone (h : Exclusive H m f) (hi : H (f i)) (hj : H (f j)) : i = j :=
  Option.some.inj (((h i).mpr hi).symm.trans ((h j).mpr hj))

theorem not_of_free (h : Exclusive H none f) (i : ι) : ¬ H (f i) := fun hi => by
  cases (h i).mpr hi

theorem const (ha : ¬ H a) : Exclusive H none fun _ : ι => a :=
  fun _ => iff_of_false (by simp) ha

variable [DecidableEq ι]

theorem update (h : Exclusive H m f) (ha : H a ↔ H (f i)) : Exclusive H m (Function.update f i a) := by
  intro j
  by_cases hj : j = i
  · subst hj
    rw [Function.update_self, ha]
    exact h j
  · rw [Function.update_of_ne hj]
    exact h j

theorem acquire (h : Exclusive H none f) (ha : H a) : Exclusive H (some i) (Function.update f i a) := by
  intro j
  by_cases hj : j = i
  · subst hj
    rw [Function.update_self]
    exact iff_of_true rfl ha
  · rw [Function.update_of_ne hj]
    exact iff_of_false (fun e => hj (Option.some.inj e).symm) (h.not_of_free j)

theorem release (h : Exclusive H m f) (hi : H (f i)) (ha : ¬ H a) : Exclusive H none (Function.update f i a) := by
  intro j
  by_cases hj : j = i
  · subst hj
    rw [Function.update_self]
    exact iff_of_false (by simp) ha
  · rw [Function.update_of_ne hj]
    exact iff_of_false (by simp) fun hj' => hj (h.alone hj' hi)

end Exclusive
