import LearningC.DfsCalls

/-!
# The check does not read what it has not written

`visited`, `path`, `k` and `deadlock` are not initialised before a check, and each search
resets only part of `visited`. The verdict and the printed paths depend on `vertex_list`
alone, because a marking search does not depend on anything else and has one outcome.
-/

namespace LearningC

open MarkSearch Fuel

namespace TaskGraph

/-- The runs from `tg₁` to `tg₁'` and from `tg₂` to `tg₂'` end with the same verdict and print the same paths. -/
structure SameCheck (tg₁ tg₁' tg₂ tg₂' : TaskGraph) : Prop where
  deadlock : tg₁'.deadlock = tg₂'.deadlock
  printed : ∃ paths, tg₁'.printed = tg₁.printed ++ paths ∧ tg₂'.printed = tg₂.printed ++ paths

section
variable {G tg₁ tg₁' tg₂ tg₂' : TaskGraph}

theorem not_quiet {i : Nat} {R : List (Call Nat)} (hR : Scan G.succ i (G.succ i) R) (hne : R ≠ []) : ¬ Quiet G i :=
  fun hq => hne (hR.unique hq)

theorem Verdict.same (h₁ : Verdict G tg₁ tg₁') (h₂ : Verdict G tg₂ tg₂') : SameCheck tg₁ tg₁' tg₂ tg₂' := by
  cases h₁ with
  | quiet hall hd hpr =>
    cases h₂ with
    | quiet _ hd' hpr' => exact ⟨hd.trans hd'.symm, [], by simp [hpr], by simp [hpr']⟩
    | found hi _ hR hne _ _ => exact absurd (hall _ hi) (not_quiet hR hne)
  | @found i R hi hq hR hne hd hpr =>
    cases h₂ with
    | quiet hall _ _ => exact absurd (hall i hi) (not_quiet hR hne)
    | @found j R' hj hq' hR' hne' hd' hpr' =>
      have heq : i = j := by
        rcases Nat.lt_trichotomy i j with hlt | heq | hlt
        · exact absurd (hq' i hlt) (not_quiet hR hne)
        · exact heq
        · exact absurd (hq j hlt) (not_quiet hR' hne')
      subst heq
      refine ⟨hd.trans hd'.symm, R.map shown, hpr, ?_⟩
      rw [hR.unique hR']
      exact hpr'

end

/-- **The check reads `vertex_list` only.** From two states with the same vertices it ends
with the same verdict and prints the same paths, and so does a second check after the first. -/
theorem checkDeadLock_scratch {tg₁ tg₂ : TaskGraph} (hv : tg₂.vertexList = tg₁.vertexList) (hc : tg₁.Closed)
    (hn : tg₁.vertexNum ≤ MAX) :
    ∃ tg₁' tg₂', Ends (fun fuel => tg₁.checkDeadLock fuel) tg₁' ∧ Ends (fun fuel => tg₂.checkDeadLock fuel) tg₂' ∧
      SameCheck tg₁ tg₁' tg₂ tg₂' ∧
      ∃ tg₁'', Ends (fun fuel => tg₁'.checkDeadLock fuel) tg₁'' ∧ SameCheck tg₁ tg₁' tg₁' tg₁'' := by
  obtain ⟨tg₁', he₁, hv₁, hsame⟩ := check_ends hc hn tg₁ rfl
  obtain ⟨tg₂', he₂, hv₂, -⟩ := check_ends hc hn tg₂ hv
  obtain ⟨tg₁'', he, hv', -⟩ := check_ends hc hn tg₁' hsame
  exact ⟨tg₁', tg₂', he₁, he₂, hv₁.same hv₂, tg₁'', he, hv₁.same hv'⟩

/-- The graph of `main` in memory that held something else. -/
def dirtyMainGraph : TaskGraph :=
  { mainGraph with visited := fun _ => 1, path := fun i => i, k := 7, deadlock := 1 }

theorem checkDeadLock_scratch_main :
    ∃ tg₁' tg₂', Ends (fun fuel => mainGraph.checkDeadLock fuel) tg₁' ∧
      Ends (fun fuel => dirtyMainGraph.checkDeadLock fuel) tg₂' ∧ SameCheck mainGraph tg₁' dirtyMainGraph tg₂' ∧
      ∃ tg₁'', Ends (fun fuel => tg₁'.checkDeadLock fuel) tg₁'' ∧ SameCheck mainGraph tg₁' tg₁' tg₁'' :=
  checkDeadLock_scratch rfl (by unfold Closed; decide) (by decide)

end TaskGraph

end LearningC
