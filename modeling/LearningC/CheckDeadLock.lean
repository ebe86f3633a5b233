import LearningC.TaskGraph

/-!
# The cycle check of deadlock.cpp

`DFS`, `search_for_cycle` and `check_dead_lock` over the scratch fields of the task
graph. A result is `none` when the recursion is deeper than `fuel` or when an index
lies outside its array.
-/

namespace LearningC

namespace TaskGraph

/-- `tg->path[tg->k++] = idx`, with `path` of `MAX + 1` entries. -/
def push (tg : TaskGraph) (idx : Nat) : Option TaskGraph :=
  if 0 ≤ tg.k ∧ tg.k ≤ MAX then
    some { tg with path := Function.update tg.path tg.k idx, k := tg.k + 1 }
  else none

def mark (tg : TaskGraph) (idx : Nat) : TaskGraph :=
  { tg with visited := Function.update tg.visited idx 1 }

/-- The entries of `path` that `print_deadlock` goes through. -/
def shownPath (tg : TaskGraph) : List Int :=
  (List.range (tg.k - 1).toNat).map (fun i : Nat => tg.path i) ++ [tg.path (max (tg.k - 1) 0)]

def printDeadlock (tg : TaskGraph) : TaskGraph :=
  { tg with printed := tg.printed ++ [tg.shownPath] }

def report (tg : TaskGraph) : TaskGraph := { tg.printDeadlock with deadlock := 1 }

def pop (tg : TaskGraph) : TaskGraph := { tg with k := tg.k - 1 }

def dfs : Nat → Nat → TaskGraph → Option TaskGraph
  | 0, _, _ => none
  | fuel + 1, idx, tg =>
    match tg.vertexList[idx]? with
    | none => none
    | some ver =>
      if tg.visited idx = 1 then
        (tg.push idx).map report
      else
        ((tg.mark idx).push idx).bind fun tg =>
          ver.next.foldlM (fun tg pair => (tg.searchVertex pair).bind fun idx =>
            (dfs fuel idx tg).map pop) tg

/-- The two loops that clear `visited` and `path` before each call of `DFS`. -/
def resetSearch (tg : TaskGraph) (idx : Nat) : TaskGraph :=
  { tg with
    visited := fun i => if i < tg.vertexNum ∧ i ≠ idx then 0 else tg.visited i
    path := fun i => if 1 ≤ i ∧ i ≤ MAX then -1 else tg.path i
    k := 1 }

def searchForCycle (fuel idx : Nat) (tg : TaskGraph) : Option TaskGraph :=
  match tg.vertexList[idx]? with
  | none => none
  | some ver =>
    (push { tg.mark idx with k := 0 } idx).bind fun tg =>
      ver.next.foldlM (fun tg pair =>
        let tg := tg.resetSearch idx
        (tg.searchVertex pair).bind fun i => dfs fuel i tg) tg

def checkDeadLock (fuel : Nat) (tg : TaskGraph) : Option TaskGraph :=
  (List.range tg.vertexNum).foldlM
    (fun tg i => if tg.deadlock = 1 then some tg else searchForCycle fuel i tg) { tg with deadlock := 0 }

end TaskGraph

end LearningC
