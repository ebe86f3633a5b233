import LearningC.Exclusive
import LearningC.Runs
import Mathlib.Logic.Function.Basic

/-!
# The double-checked singleton

`singleton::getInstance` by any number of threads. Each access to `instance`, each
operation on `mtx` and the construction together with its store are steps of their own.
-/

namespace LearningC

open Runs

/-- What a thread does next in `getInstance`. -/
inductive GetPhase
  | outside
  | firstTest
  | lock
  | secondTest
  | create
  | unlock
  | leave
  deriving DecidableEq, Repr

def GetPhase.Holding : GetPhase → Prop
  | .secondTest | .create | .unlock => True
  | _ => False

/-- `constructed` counts the constructors that have run, and numbers the objects;
`returned` lists the results of the calls. -/
structure Singleton where
  instance_ : Option Nat
  mtx : Option Nat
  phase : Nat → GetPhase
  constructed : Nat
  returned : List (Option Nat)

/-- The steps of thread `t`; `fail` is a constructor that throws. -/
inductive GetStep
  | call (t : Nat)
  | firstTest (t : Nat)
  | lock (t : Nat)
  | secondTest (t : Nat)
  | create (t : Nat)
  | fail (t : Nat)
  | unlock (t : Nat)
  | leave (t : Nat)
  deriving DecidableEq, Repr

def GetStep.thread : GetStep → Nat
  | .call t | .firstTest t | .lock t | .secondTest t | .create t | .fail t | .unlock t | .leave t => t

namespace Singleton

def init : Singleton where
  instance_ := none
  mtx := none
  phase := fun _ => .outside
  constructed := 0
  returned := []

def setPhase (t : Nat) (p : GetPhase) (s : Singleton) : Singleton := { s with phase := Function.update s.phase t p }

def Enabled (s : Singleton) : GetStep → Prop
  | .call t => s.phase t = .outside
  | .firstTest t => s.phase t = .firstTest
  | .lock t => s.phase t = .lock ∧ s.mtx = none
  | .secondTest t => s.phase t = .secondTest
  | .create t | .fail t => s.phase t = .create
  | .unlock t => s.phase t = .unlock
  | .leave t => s.phase t = .leave

instance (s : Singleton) : (e : GetStep) → Decidable (s.Enabled e)
  | .call t => inferInstanceAs (Decidable (s.phase t = .outside))
  | .firstTest t => inferInstanceAs (Decidable (s.phase t = .firstTest))
  | .lock t => inferInstanceAs (Decidable (s.phase t = .lock ∧ s.mtx = none))
  | .secondTest t => inferInstanceAs (Decidable (s.phase t = .secondTest))
  | .create t | .fail t => inferInstanceAs (Decidable (s.phase t = .create))
  | .unlock t => inferInstanceAs (Decidable (s.phase t = .unlock))
  | .leave t => inferInstanceAs (Decidable (s.phase t = .leave))

def next (s : Singleton) : GetStep → Singleton
  | .call t => s.setPhase t .firstTest
  | .firstTest t => s.setPhase t (if s.instance_ = none then .lock else .leave)
  | .lock t => { s.setPhase t .secondTest with mtx := some t }
  | .secondTest t => s.setPhase t (if s.instance_ = none then .create else .unlock)
  | .create t =>
    { s.setPhase t .unlock with instance_ := some s.constructed, constructed := s.constructed + 1 }
  | .fail t => s.setPhase t .outside
  | .unlock t => { s.setPhase t .leave with mtx := none }
  | .leave t => { s.setPhase t .outside with returned := s.returned ++ [s.instance_] }

def step (s : Singleton) (e : GetStep) : Option Singleton := if s.Enabled e then some (s.next e) else none

/-- One object at most, which every call returns, and a free mutex when nobody is between
`lock` and `unlock`. -/
structure OneInstance (s : Singleton) : Prop where
  once : s.constructed ≤ 1
  returned : ∀ p ∈ s.returned, p ≠ none ∧ p = s.instance_
  free : (∀ t, ¬ (s.phase t).Holding) → s.mtx = none

/-! ## The invariant -/

structure Guarded (s : Singleton) : Prop where
  holder : ∀ t, s.mtx = some t ↔ (s.phase t).Holding
  created : s.constructed = if s.instance_ = none then 0 else 1
  create : ∀ t, s.phase t = .create → s.instance_ = none
  ready : ∀ t, s.phase t = .unlock ∨ s.phase t = .leave → s.instance_ ≠ none
  returned : ∀ p ∈ s.returned, p ≠ none ∧ p = s.instance_

section
variable {s s' : Singleton} {e : GetStep} {t u : Nat}

theorem step_next (h : s.step e = some s') : s.Enabled e ∧ s' = s.next e :=
  Runs.guarded_some h

theorem phase_of_ne (hu : u ≠ e.thread) : (s.next e).phase u = s.phase u := by
  cases e with
  | _ => exact Function.update_of_ne hu _ _

theorem Guarded.exclusive (h : Guarded s) : Exclusive GetPhase.Holding s.mtx s.phase := h.holder

theorem Guarded.alone (h : Guarded s) (ht : (s.phase t).Holding) (hu : (s.phase u).Holding) : t = u :=
  h.exclusive.alone ht hu

theorem setPhase_self (s : Singleton) (t : Nat) (p : GetPhase) : (s.setPhase t p).phase t = p := Function.update_self _ _ _

theorem Guarded.exclusive_setPhase (h : Guarded s) {p q : GetPhase} (hp : s.phase t = p) (hpq : q.Holding ↔ p.Holding) :
    Exclusive GetPhase.Holding s.mtx (s.setPhase t q).phase :=
  h.exclusive.update (by rw [hp, hpq])

theorem Guarded.holder_next (h : Guarded s) (he : s.Enabled e) (hf : ∀ t, e ≠ .fail t) :
    Exclusive GetPhase.Holding (s.next e).mtx (s.next e).phase := by
  cases e with
  | call t => exact h.exclusive_setPhase he Iff.rfl
  | firstTest t =>
    refine h.exclusive_setPhase he ?_
    split <;> exact Iff.rfl
  | lock t =>
    have hx := h.exclusive
    rw [he.2] at hx
    exact hx.acquire trivial
  | secondTest t =>
    refine h.exclusive_setPhase he ?_
    split <;> exact Iff.rfl
  | create t => exact h.exclusive_setPhase he Iff.rfl
  | fail t => exact absurd rfl (hf t)
  | unlock t =>
    have hp : s.phase t = .unlock := he
    exact h.exclusive.release (by rw [hp]; trivial) id
  | leave t => exact h.exclusive_setPhase he Iff.rfl

theorem Guarded.keeps_instance (h : Guarded s) (he : s.Enabled e) {o : Nat} (ho : s.instance_ = some o) :
    (s.next e).instance_ = some o := by
  cases e with
  | create t => cases (h.create t he).symm.trans ho
  | _ => exact ho

theorem Guarded.created_next (h : Guarded s) (he : s.Enabled e) :
    (s.next e).constructed = if (s.next e).instance_ = none then 0 else 1 := by
  cases e with
  | create t =>
    have hc := h.created
    rw [if_pos (h.create t he)] at hc
    show s.constructed + 1 = if some s.constructed = none then 0 else 1
    rw [hc, if_neg (by simp)]
  | _ => exact h.created

theorem Guarded.create_next (h : Guarded s) (he : s.Enabled e) (hp : (s.next e).phase u = .create) :
    (s.next e).instance_ = none := by
  by_cases hu : u = e.thread
  · subst hu
    cases e with
    | firstTest t | secondTest t =>
      by_contra hn
      have hn' : s.instance_ ≠ none := hn
      simp [next, setPhase, hn', GetStep.thread] at hp
    | _ => cases (setPhase_self s _ _).symm.trans hp
  · rw [phase_of_ne hu] at hp
    cases e with
    | create t =>
      have ht : s.phase t = .create := he
      exact absurd (h.alone (t := u) (u := t) (by rw [hp]; trivial) (by rw [ht]; trivial)) hu
    | _ => exact h.create u hp

theorem Guarded.ready_next (h : Guarded s) (he : s.Enabled e)
    (hp : (s.next e).phase u = .unlock ∨ (s.next e).phase u = .leave) : (s.next e).instance_ ≠ none := by
  by_cases hu : u = e.thread
  · subst hu
    cases e with
    | firstTest t | secondTest t =>
      intro hn
      have hn' : s.instance_ = none := hn
      simp [next, setPhase, hn', GetStep.thread] at hp
    | create t => exact Option.some_ne_none _
    | unlock t => exact h.ready t (Or.inl he)
    | _ =>
      rcases hp with hp | hp
      · cases (setPhase_self s _ _).symm.trans hp
      · cases (setPhase_self s _ _).symm.trans hp
  · rw [phase_of_ne hu] at hp
    obtain ⟨o, ho⟩ := Option.ne_none_iff_exists'.mp (h.ready u hp)
    rw [h.keeps_instance he ho]
    exact Option.some_ne_none o

theorem Guarded.returned_next (h : Guarded s) (he : s.Enabled e) :
    ∀ p ∈ (s.next e).returned, p ≠ none ∧ p = (s.next e).instance_ := by
  cases e with
  | create t =>
    intro p hp
    obtain ⟨hne, heq⟩ := h.returned p hp
    exact absurd (heq.trans (h.create t he)) hne
  | leave t =>
    intro p hp
    rcases List.mem_append.mp hp with hp | hp
    · exact h.returned p hp
    · rw [List.mem_singleton.mp hp]
      exact ⟨h.ready t (Or.inr he), rfl⟩
  | _ => exact h.returned

theorem Guarded.step (h : Guarded s) (hf : ∀ t, e ≠ .fail t) (hs : s.step e = some s') : Guarded s' := by
  obtain ⟨he, rfl⟩ := step_next hs
  exact ⟨h.holder_next he hf, h.created_next he, fun _ => h.create_next he, fun _ => h.ready_next he, h.returned_next he⟩

theorem Guarded.oneInstance (h : Guarded s) : OneInstance s := by
  refine ⟨?_, h.returned, fun hfree => ?_⟩
  · rw [h.created]
    split <;> omega
  · by_contra hm
    obtain ⟨t, ht⟩ := Option.ne_none_iff_exists'.mp hm
    exact hfree t ((h.holder t).mp ht)

theorem guarded_init : Guarded init := by
  refine ⟨fun t => ?_, rfl, fun t ht => ?_, fun t ht => ?_, fun p hp => ?_⟩
  · exact iff_of_false (by simp [init]) id
  · cases ht
  · rcases ht with ht | ht <;> cases ht
  · cases hp

end

/-- **One instance.** While no constructor throws, at most one object is made, every call
returns it, and `instance` keeps it. -/
theorem oneInstance_always {es : List GetStep} (hf : ∀ t, .fail t ∉ es) :
    Always step OneInstance init es ∧
      Along step (fun s _ s' => ∀ o, s.instance_ = some o → s'.instance_ = some o) init es := by
  have hU : ∀ e ∈ es, ∀ t, e ≠ .fail t := fun e he t ht => hf t (ht ▸ he)
  refine ⟨⟨guarded_init.oneInstance, ?_⟩, ?_⟩
  · refine along_of_events (fun s e s' h hU hs => ?_) hU guarded_init
    exact ⟨(h.step hU hs).oneInstance, h.step hU hs⟩
  · refine along_of_events (fun s e s' h hU hs => ?_) hU guarded_init
    refine ⟨fun o ho => ?_, h.step hU hs⟩
    obtain ⟨he, rfl⟩ := step_next hs
    exact h.keeps_instance he ho

/-- Two threads past the first test before the first object is stored. -/
def racingRun : List GetStep :=
  [.call 1, .firstTest 1, .call 2, .firstTest 2, .lock 1, .secondTest 1, .create 1, .unlock 1, .leave 1, .lock 2,
    .secondTest 2, .unlock 2, .leave 2]

theorem oneInstance_always_racing :
    (∃ s, run step init racingRun = some s ∧ s.returned = [some 0, some 0]) ∧ Always step OneInstance init racingRun ∧
      Along step (fun s _ s' => ∀ o, s.instance_ = some o → s'.instance_ = some o) init racingRun :=
  ⟨⟨_, rfl, rfl⟩, oneInstance_always (by simp [racingRun])⟩

end Singleton

end LearningC
