import Mathlib.Logic.Function.Basic

/-!
# Threads around a condition variable

Where the threads of a monitor are with respect to `wait(lock, pred)`, what the two
notifications do to them, and a rule for the absence of lost wakeups.
-/

namespace CondVar

/-- `check` is about to take the mutex and evaluate the predicate; `block` found it false
and holds the mutex until it is `asleep`; `busy` is past the wait; `gone` has returned. -/
inductive Place (π : Type*)
  | check
  | block
  | asleep
  | busy (p : π)
  | gone
  deriving DecidableEq, Repr

/-- A destructor that sets a flag, calls `notify_all` and joins the threads: not begun,
about to notify, or with `k` threads joined. -/
inductive Teardown
  | idle
  | notify
  | join (k : Nat)
  deriving DecidableEq, Repr

def Teardown.joinNext : Teardown → Teardown
  | .join k => .join (k + 1)
  | d => d

variable {ι π : Type*}

def wakeAll (f : ι → Place π) (i : ι) : Place π :=
  match f i with
  | .asleep => .check
  | p => p

/-- `notify_one` on the sleeper that is chosen, or on nobody. -/
def wakeOne [DecidableEq ι] (f : ι → Place π) : Option ι → ι → Place π
  | none => f
  | some i => Function.update f i .check

/-- A thread that will evaluate the predicate without being woken. -/
def Place.Awake : Place π → Prop
  | .check | .busy _ => True
  | _ => False

def Place.task : Place π → Option π
  | .busy p => some p
  | _ => none

/-- What becomes of a thread that takes no step itself: it stays where it is, or is woken. -/
def Stirred (p p' : Place π) : Prop := p' = p ∨ p = .asleep ∧ p' = .check

section
variable {p p' q : Place π}

theorem Stirred.refl (p : Place π) : Stirred p p := Or.inl rfl

theorem Stirred.eq_iff (h : Stirred p p') (hc : q ≠ .check) (ha : q ≠ .asleep) : p' = q ↔ p = q := by
  rcases h with rfl | ⟨rfl, rfl⟩
  · rfl
  · exact iff_of_false (Ne.symm hc) (Ne.symm ha)

theorem Stirred.asleep (h : Stirred p p') (hp : p' = .asleep) : p = .asleep := by
  rcases h with rfl | ⟨rfl, -⟩
  · exact hp
  · rfl

theorem Stirred.awake (h : Stirred p p') (hp : p.Awake) : p'.Awake := by
  rcases h with rfl | ⟨rfl, -⟩
  · exact hp
  · exact hp.elim

theorem Stirred.task (h : Stirred p p') : p'.task = p.task := by
  rcases h with rfl | ⟨rfl, rfl⟩
  · rfl
  · rfl

end

section
variable {f : ι → Place π} {i j : ι} {p q : Place π}

theorem wakeAll_stirs (f : ι → Place π) (i : ι) : Stirred (f i) (wakeAll f i) := by
  unfold wakeAll
  split
  · next h => exact Or.inr ⟨h, rfl⟩
  · exact Or.inl rfl

theorem wakeAll_ne_asleep : wakeAll f i ≠ .asleep := by
  unfold wakeAll
  split
  · simp
  · next h => exact h

variable [DecidableEq ι]

theorem wakeOne_stirs {w : Option ι} (hw : ∀ j, w = some j → f j = .asleep) (i : ι) :
    Stirred (f i) (wakeOne f w i) := by
  cases w with
  | none => exact Or.inl rfl
  | some j =>
    show Stirred (f i) (Function.update f j .check i)
    by_cases e : i = j
    · rw [e, Function.update_self]
      exact Or.inr ⟨hw j rfl, rfl⟩
    · rw [Function.update_of_ne e]
      exact Or.inl rfl

theorem place_of_update (hp : p ≠ q) (h : Function.update f j p i = q) : i ≠ j ∧ f i = q := by
  by_cases e : i = j
  · rw [e, Function.update_self] at h
    exact absurd h hp
  · rw [Function.update_of_ne e] at h
    exact ⟨e, h⟩

end

/-! ## Lost wakeups -/

/-- When the predicate holds, a notification is still to come, or nobody sleeps, or some
thread is going to look. -/
def Attended (pred pending looks : Prop) (f : ι → Place π) : Prop :=
  pred → pending ∨ (∀ i, f i ≠ .asleep) ∨ looks

/-- **No lost wakeup.** A step keeps the threads attended when it puts a thread to sleep
only on a false predicate or before the notification, makes the predicate true only with a
notification to come, issues it only by waking, and loses a looking thread only on a false
predicate. -/
theorem Attended.step {pred pending looks pred' pending' looks' : Prop} {f f' : ι → Place π}
    (h : Attended pred pending looks f) (hsleep : ∀ i, f' i = .asleep → f i = .asleep ∨ ¬ pred' ∨ pending')
    (hset : pred' → pred ∨ pending') (hnotify : pending → pending' ∨ (∀ i, f' i ≠ .asleep) ∨ looks')
    (hlook : looks → looks' ∨ ¬ pred') : Attended pred' pending' looks' f' := by
  intro hp
  rcases hset hp with hp₀ | hn
  · rcases h hp₀ with hn | hs | hl
    · exact hnotify hn
    · by_cases hn : pending'
      · exact Or.inl hn
      · refine Or.inr (Or.inl fun i hi => ?_)
        rcases hsleep i hi with hi | hp' | hn'
        · exact hs i hi
        · exact hp' hp
        · exact hn hn'
    · rcases hlook hl with hl | hp'
      · exact Or.inr (Or.inr hl)
      · exact absurd hp hp'
  · exact Or.inl hn

end CondVar
