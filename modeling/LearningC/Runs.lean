import Mathlib.Logic.Basic

/-!
# Runs of a step function

`step s e` is the state after event `e`, or `none` where `e` is not enabled. A
property of runs is stated about every step that a list of events takes.
-/

namespace Runs

variable {S E : Type*} (step : S → E → Option S)

def run : S → List E → Option S
  | s, [] => some s
  | s, e :: es => (step s e).bind fun s' => run s' es

/-- Every step that the events take from `s` satisfies `K`. -/
def Along (K : S → E → S → Prop) : S → List E → Prop
  | _, [] => True
  | s, e :: es => ∀ s', step s e = some s' → K s e s' ∧ Along K s' es

/-- Every state that the events reach from `s` satisfies `P`. -/
def Always (P : S → Prop) (s : S) (es : List E) : Prop := P s ∧ Along step (fun _ _ s' => P s') s es

/-- The guard and the effect of a step that is given by a guard. -/
theorem guarded_some {P : Prop} [Decidable P] {s s' : S} (h : (if P then some s else none) = some s') : P ∧ s' = s := by
  obtain ⟨hP, hs⟩ := Option.ite_none_right_eq_some.mp h
  exact ⟨hP, (Option.some.inj hs).symm⟩

variable {step}

theorem Along.imp {K L : S → E → S → Prop} {I : S → Prop} {U : E → Prop}
    (h : ∀ s e s', I s → U e → step s e = some s' → L s e s' → K s e s' ∧ I s') :
    ∀ (es : List E) (s : S), (∀ e ∈ es, U e) → I s → Along step L s es → Along step K s es
  | [], _, _, _, _ => trivial
  | e :: es, s, hU, hI, hL => fun s' hs => by
    obtain ⟨hl, hL'⟩ := hL s' hs
    obtain ⟨hk, hI'⟩ := h s e s' hI (hU e List.mem_cons_self) hs hl
    exact ⟨hk, Along.imp h es s' (fun e' he' => hU e' (List.mem_cons_of_mem e he')) hI' hL'⟩

theorem along_true : ∀ (es : List E) (s : S), Along step (fun _ _ _ => True) s es
  | [], _ => trivial
  | _ :: es, _ => fun s' _ => ⟨trivial, along_true es s'⟩

theorem along_of_events {K : S → E → S → Prop} {I : S → Prop} {U : E → Prop}
    (h : ∀ s e s', I s → U e → step s e = some s' → K s e s' ∧ I s') {es : List E} {s : S} (hU : ∀ e ∈ es, U e)
    (hI : I s) : Along step K s es :=
  Along.imp (fun s e s' hI hU hs _ => h s e s' hI hU hs) es s hU hI (along_true es s)

theorem along_of_invariant {K : S → E → S → Prop} {I : S → Prop}
    (h : ∀ s e s', I s → step s e = some s' → K s e s' ∧ I s') (es : List E) (s : S) (hI : I s) : Along step K s es :=
  along_of_events (U := fun _ => True) (fun s e s' hI _ hs => h s e s' hI hs) (fun _ _ => trivial) hI

theorem always_of_invariant {P I : S → Prop} (h : ∀ s e s', I s → step s e = some s' → I s') (hP : ∀ s, I s → P s)
    {s : S} (hI : I s) (es : List E) : Always step P s es :=
  ⟨hP s hI, along_of_invariant (fun s e s' hI hs => ⟨hP s' (h s e s' hI hs), h s e s' hI hs⟩) es s hI⟩

/-- **Exactness.** If one step satisfies `K` exactly when it satisfies `L`, and then
keeps the invariant, then so do whole runs. -/
theorem along_iff {K L : S → E → S → Prop} {I : S → Prop} {U : E → Prop}
    (h : ∀ s e s', I s → U e → step s e = some s' → (K s e s' ↔ L s e s') ∧ (K s e s' → I s'))
    {es : List E} {s : S} (hU : ∀ e ∈ es, U e) (hI : I s) : Along step K s es ↔ Along step L s es := by
  constructor
  · refine Along.imp (fun s e s' hI hU hs hk => ?_) es s hU hI
    exact ⟨(h s e s' hI hU hs).1.mp hk, (h s e s' hI hU hs).2 hk⟩
  · refine Along.imp (fun s e s' hI hU hs hl => ?_) es s hU hI
    have hk := (h s e s' hI hU hs).1.mpr hl
    exact ⟨hk, (h s e s' hI hU hs).2 hk⟩

theorem always_iff {P : S → Prop} {L : S → E → S → Prop} {I : S → Prop} {U : E → Prop}
    (h : ∀ s e s', I s → U e → step s e = some s' → (P s' ↔ L s e s') ∧ (P s' → I s'))
    {es : List E} {s : S} (hU : ∀ e ∈ es, U e) (hI : I s) (hP : P s) : Always step P s es ↔ Along step L s es := by
  have hiff : Along step (fun _ _ s' => P s') s es ↔ Along step L s es := along_iff h hU hI
  exact ⟨fun ha => hiff.mp ha.2, fun hl => ⟨hP, hiff.mpr hl⟩⟩

/-- An invariant that each step keeps under a condition of its own. -/
theorem always_of_along {P : S → Prop} {L : S → E → S → Prop} {I : S → Prop} {U : E → Prop}
    (h : ∀ s e s', I s → U e → step s e = some s' → L s e s' → I s') (hP : ∀ s, I s → P s)
    {es : List E} {s : S} (hU : ∀ e ∈ es, U e) (hI : I s) (hL : Along step L s es) : Always step P s es := by
  refine ⟨hP s hI, Along.imp (fun s e s' hI hU hs hl => ?_) es s hU hI hL⟩
  have hI' := h s e s' hI hU hs hl
  exact ⟨hP s' hI', hI'⟩

theorem run_append : ∀ (es es' : List E) (s : S),
    run step s (es ++ es') = (run step s es).bind fun s' => run step s' es'
  | [], _, _ => rfl
  | e :: es, es', s => by
    show (step s e).bind _ = ((step s e).bind _).bind _
    rw [Option.bind_assoc]
    exact congrArg _ (funext fun s' => run_append es es' s')

theorem Along.after {K : S → E → S → Prop} {es' : List E} : ∀ (es : List E) (s : S) {s' : S},
    Along step K s (es ++ es') → run step s es = some s' → Along step K s' es'
  | [], _, _, h, hr => by
    cases hr
    exact h
  | e :: es, s, _, h, hr => by
    obtain ⟨s₁, hs, hr⟩ := Option.bind_eq_some_iff.mp hr
    exact Along.after es s₁ (h s₁ hs).2 hr

theorem run_keeps {P : S → Prop} (h : ∀ s e s', P s → step s e = some s' → P s') :
    ∀ (es : List E) (s s' : S), P s → run step s es = some s' → P s'
  | [], _, _, hP, hr => by cases hr; exact hP
  | e :: es, s, s', hP, hr => by
    obtain ⟨s₁, hs, hr⟩ := Option.bind_eq_some_iff.mp hr
    exact run_keeps h es s₁ s' (h s e s₁ hP hs) hr

theorem along_cons {K : S → E → S → Prop} {s s' : S} {e : E} {es : List E} (hs : step s e = some s') (hk : K s e s')
    (h : Along step K s' es) : Along step K s (e :: es) := by
  intro s₁ hs₁
  cases hs.symm.trans hs₁
  exact ⟨hk, h⟩

/-- A condition that can be decided for every step can be decided along a run. -/
instance decidableAlong {K : S → E → S → Prop} [∀ s e s', Decidable (K s e s')] :
    ∀ (s : S) (es : List E), Decidable (Along step K s es)
  | _, [] => isTrue trivial
  | s, e :: es => match h : step s e with
    | none => isTrue fun _ hs => nomatch h.symm.trans hs
    | some s₁ =>
      have := decidableAlong (K := K) s₁ es
      decidable_of_iff (K s e s₁ ∧ Along step K s₁ es)
        ⟨fun hk _ hs => Option.some.inj (h.symm.trans hs) ▸ hk, fun ha => ha s₁ h⟩

/-- **First violation.** A run keeps an invariant while its steps satisfy `K`, or ends
in one of the states that the first other step leads to. -/
theorem along_or_bad {K : S → E → S → Prop} {I B : S → Prop}
    (h : ∀ s e s', I s → step s e = some s' → K s e s' ∧ I s' ∨ ¬ K s e s' ∧ B s')
    (hB : ∀ s e s', B s → step s e = some s' → B s') :
    ∀ (es : List E) (s s' : S), I s → run step s es = some s' →
      Along step K s es ∧ I s' ∨ ¬ Along step K s es ∧ B s'
  | [], s, s', hI, hr => by
    cases hr
    exact Or.inl ⟨trivial, hI⟩
  | e :: es, s, s', hI, hr => by
    obtain ⟨s₁, hs, hr⟩ := Option.bind_eq_some_iff.mp hr
    rcases h s e s₁ hI hs with ⟨hk, hI₁⟩ | ⟨hk, hB₁⟩
    · rcases along_or_bad h hB es s₁ s' hI₁ hr with ⟨ha, hI'⟩ | ⟨ha, hB'⟩
      · refine Or.inl ⟨fun s₂ hs₂ => ?_, hI'⟩
        cases hs.symm.trans hs₂
        exact ⟨hk, ha⟩
      · exact Or.inr ⟨fun ha' => ha (ha' s₁ hs).2, hB'⟩
    · exact Or.inr ⟨fun ha' => hk (ha' s₁ hs).1, run_keeps hB es s₁ s' hB₁ hr⟩

theorem along_and {K L : S → E → S → Prop} : ∀ (es : List E) (s : S),
    Along step (fun s e s' => K s e s' ∧ L s e s') s es ↔ Along step K s es ∧ Along step L s es
  | [], _ => by simp [Along]
  | e :: es, s => by
    constructor
    · intro h
      exact ⟨fun s' hs => ⟨(h s' hs).1.1, ((along_and es s').mp (h s' hs).2).1⟩,
        fun s' hs => ⟨(h s' hs).1.2, ((along_and es s').mp (h s' hs).2).2⟩⟩
    · intro h s' hs
      exact ⟨⟨(h.1 s' hs).1, (h.2 s' hs).1⟩, (along_and es s').mpr ⟨(h.1 s' hs).2, (h.2 s' hs).2⟩⟩

theorem Always.last {P : S → Prop} : ∀ (es : List E) (s s' : S), Always step P s es → run step s es = some s' → P s'
  | [], s, s', h, hr => by cases hr; exact h.1
  | e :: es, s, s', h, hr => by
    obtain ⟨s₁, hs, hr⟩ := Option.bind_eq_some_iff.mp hr
    exact Always.last es s₁ s' (h.2 s₁ hs) hr

end Runs
