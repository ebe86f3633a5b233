import Mathlib.Data.List.Dedup
import Mathlib.Data.List.Induction

/-!
# Directed multigraphs with ordered edges

A multigraph has its vertices in the order in which they were mentioned, and under every
vertex the targets of its edges in the order in which they were added.
-/

/-- Only vertices have edges, and edges lead to vertices. -/
structure Multigraph (V : Type*) where
  verts : List V
  succs : V → List V
  nodup : verts.Nodup
  source : ∀ u, succs u ≠ [] → u ∈ verts
  target : ∀ u, ∀ v ∈ succs u, v ∈ verts

namespace Multigraph

variable {V : Type*}

def empty (V : Type*) : Multigraph V where
  verts := []
  succs := fun _ => []
  nodup := List.nodup_nil
  source := fun _ h => absurd rfl h
  target := fun _ _ h => by cases h

variable [DecidableEq V]

/-- A list extended by an element that it does not have yet. -/
def insertLast (l : List V) (v : V) : List V := if v ∈ l then l else l ++ [v]

theorem mem_insertLast {l : List V} {u v : V} : u ∈ insertLast l v ↔ u ∈ l ∨ u = v := by
  unfold insertLast
  by_cases h : v ∈ l
  · rw [if_pos h]
    exact ⟨Or.inl, fun hu => hu.elim id fun e => e ▸ h⟩
  · rw [if_neg h, List.mem_append, List.mem_singleton]

theorem nodup_insertLast {l : List V} (hl : l.Nodup) (v : V) : (insertLast l v).Nodup := by
  unfold insertLast
  by_cases h : v ∈ l
  · rw [if_pos h]
    exact hl
  · rw [if_neg h]
    exact List.Nodup.append hl (List.nodup_singleton v) (by simpa using h)

/-- The elements of a list in the order of their first occurrences. -/
def firsts (l : List V) : List V := l.reverse.dedup.reverse

theorem firsts_concat (l : List V) (v : V) : firsts (l ++ [v]) = insertLast (firsts l) v := by
  unfold firsts insertLast
  rw [List.reverse_append, List.reverse_singleton, List.singleton_append]
  by_cases h : v ∈ l.reverse
  · rw [List.dedup_cons_of_mem h, if_pos (by simpa using h)]
  · rw [List.dedup_cons_of_notMem h, if_neg (by simpa using h), List.reverse_cons]

/-! ## The operations -/

def mention (v : V) (G : Multigraph V) : Multigraph V where
  verts := insertLast G.verts v
  succs := G.succs
  nodup := nodup_insertLast G.nodup v
  source := fun u h => mem_insertLast.mpr (Or.inl (G.source u h))
  target := fun u w h => mem_insertLast.mpr (Or.inl (G.target u w h))

def addEdge (u v : V) (G : Multigraph V) : Multigraph V where
  verts := insertLast (insertLast G.verts u) v
  succs := Function.update G.succs u (G.succs u ++ [v])
  nodup := nodup_insertLast (nodup_insertLast G.nodup u) v
  source := fun w h => by
    rw [mem_insertLast, mem_insertLast]
    by_cases hw : w = u
    · exact Or.inl (Or.inr hw)
    · rw [Function.update_of_ne hw] at h
      exact Or.inl (Or.inl (G.source w h))
  target := fun w x h => by
    rw [mem_insertLast, mem_insertLast]
    by_cases hw : w = u
    · rw [hw, Function.update_self, List.mem_append, List.mem_singleton] at h
      exact h.imp (fun h => Or.inl (G.target u x h)) id
    · rw [Function.update_of_ne hw] at h
      exact Or.inl (Or.inl (G.target w x h))

/-- The first edge from `u` to `v` is removed, if there is one. -/
def removeEdge (u v : V) (G : Multigraph V) : Multigraph V where
  verts := G.verts
  succs := Function.update G.succs u ((G.succs u).erase v)
  nodup := G.nodup
  source := fun w h => by
    by_cases hw : w = u
    · rw [hw, Function.update_self] at h
      exact hw ▸ G.source u fun hnil => h (by rw [hnil]; rfl)
    · rw [Function.update_of_ne hw] at h
      exact G.source w h
  target := fun w x h => by
    by_cases hw : w = u
    · rw [hw, Function.update_self] at h
      exact G.target u x (List.mem_of_mem_erase h)
    · rw [Function.update_of_ne hw] at h
      exact G.target w x h

inductive Op (V : Type*)
  | mention (v : V)
  | addEdge (u v : V)
  | removeEdge (u v : V)

def Op.mentioned : Op V → List V
  | .mention v => [v]
  | .addEdge u v => [u, v]
  | .removeEdge _ _ => []

def apply (G : Multigraph V) : Op V → Multigraph V
  | .mention v => G.mention v
  | .addEdge u v => G.addEdge u v
  | .removeEdge u v => G.removeEdge u v

/-- The vertices after a run are those mentioned, in the order of their first mention. -/
theorem verts_run (ops : List (Op V)) :
    (ops.foldl apply (empty V)).verts = firsts (ops.flatMap Op.mentioned) := by
  induction ops using List.reverseRecOn with
  | nil => rfl
  | append_singleton ops op ih =>
    rw [List.foldl_concat, List.flatMap_append, List.flatMap_singleton]
    cases op with
    | mention v => exact (congrArg (insertLast · v) ih).trans (firsts_concat _ v).symm
    | addEdge u v =>
      have hsplit : ops.flatMap Op.mentioned ++ [u, v] = ops.flatMap Op.mentioned ++ [u] ++ [v] := by simp
      show insertLast (insertLast _ u) v = firsts (_ ++ [u, v])
      rw [hsplit, firsts_concat, firsts_concat, ih]
    | removeEdge u v => exact ih.trans (congrArg firsts (List.append_nil _).symm)

section
variable (G : Multigraph V) (u v w : V)

@[simp] theorem succs_addEdge : (G.addEdge u v).succs = Function.update G.succs u (G.succs u ++ [v]) := rfl

@[simp] theorem succs_removeEdge : (G.removeEdge u v).succs = Function.update G.succs u ((G.succs u).erase v) := rfl

/-- Removing an edge after adding it leaves the edges as they were, up to order. -/
theorem removeEdge_addEdge : (((G.addEdge u v).removeEdge u v).succs w).Perm (G.succs w) := by
  by_cases hw : w = u
  · rw [hw, succs_removeEdge, Function.update_self, succs_addEdge, Function.update_self]
    have herase := (List.perm_append_singleton v (G.succs u)).erase v
    rw [List.erase_cons_head] at herase
    exact herase
  · rw [succs_removeEdge, Function.update_of_ne hw, succs_addEdge, Function.update_of_ne hw]

end

end Multigraph
