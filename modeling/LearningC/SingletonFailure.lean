import LearningC.Singleton

/-!
# A constructor that throws in getInstance

Between `lock` and `unlock` nothing unlocks `mtx` when the constructor throws, so the thread
leaves with it. A run keeps the mutex with the threads inside exactly when no attempt fails.
-/

namespace LearningC

open Runs

namespace Singleton

/-- The mutex is held by a thread that is still inside `getInstance`, and is free for the
next call when nobody is. -/
structure NotWedged (s : Singleton) : Prop where
  inside : ∀ t, s.mtx = some t → s.phase t ≠ .outside
  retry : (∀ t, s.phase t = .outside) → s.mtx = none

section
variable {s s' : Singleton} {e : GetStep} {t : Nat}

theorem Guarded.notWedged (h : Guarded s) : NotWedged s where
  inside t ht ho := by
    have hh := (h.holder t).mp ht
    rw [ho] at hh
    exact hh
  retry hall := by
    by_contra hm
    obtain ⟨t, ht⟩ := Option.ne_none_iff_exists'.mp hm
    have hh := (h.holder t).mp ht
    rw [hall t] at hh
    exact hh

/-- The mutex goes with the thread. -/
theorem Guarded.wedged (h : Guarded s) (he : s.Enabled (.fail t)) : ¬ NotWedged (s.next (.fail t)) := by
  intro hw
  have hp : s.phase t = .create := he
  have hm : s.mtx = some t := (h.holder t).mpr (by rw [hp]; trivial)
  exact hw.inside t hm (setPhase_self s t .outside)

theorem Guarded.step_iff (h : Guarded s) (hs : s.step e = some s') :
    (NotWedged s' ↔ ∀ t, e ≠ .fail t) ∧ (NotWedged s' → Guarded s') := by
  by_cases hf : ∀ t, e ≠ .fail t
  · have hs' := h.step hf hs
    exact ⟨iff_of_true hs'.notWedged hf, fun _ => hs'⟩
  · obtain ⟨he, rfl⟩ := step_next hs
    obtain ⟨t, ht⟩ := not_forall.mp hf
    obtain rfl := not_not.mp ht
    have hw := h.wedged he
    exact ⟨iff_of_false hw fun hne => hne t rfl, fun hnw => absurd hnw hw⟩

theorem instance_fail (s : Singleton) (t : Nat) : (s.next (.fail t)).instance_ = s.instance_ := rfl

end

/-- **A failed construction.** It never changes `instance`, and the mutex stays with the
threads inside if and only if no construction fails. -/
theorem notWedged_iff_no_failure (es : List GetStep) :
    Along step (fun s e s' => ∀ t, e = .fail t → s'.instance_ = s.instance_) init es ∧
      (Always step NotWedged init es ↔ Along step (fun _ e _ => ∀ t, e ≠ .fail t) init es) := by
  constructor
  · refine along_of_invariant (I := fun _ => True) (fun s e s' _ hs => ⟨?_, trivial⟩) es init trivial
    rintro t rfl
    obtain ⟨-, rfl⟩ := step_next hs
    exact instance_fail s t
  · exact always_iff (I := Guarded) (L := fun _ (e : GetStep) _ => ∀ t, e ≠ .fail t) (U := fun _ => True)
      (fun s e s' h _ hs => h.step_iff hs) (fun _ _ => trivial) guarded_init guarded_init.notWedged

def failingRun : List GetStep := [.call 0, .firstTest 0, .lock 0, .secondTest 0, .fail 0]

theorem failing_wedges : ¬ ∀ es : List GetStep, Always step NotWedged init es := by
  intro h
  have hfree := ((h failingRun).last _ _ _ rfl).retry fun t => by simp [next, setPhase, init]
  cases hfree

end Singleton

end LearningC
