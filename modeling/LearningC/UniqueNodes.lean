import LearningC.Fuel
import Mathlib.Data.List.Nodup
import Mathlib.Logic.Function.Basic

/-!
# Lists of unique_ptr_

Nodes with a `unique_ptr_` to the next node. `delete` of a node runs the destructor of its
member, and so deletes the rest of the list first: with `h = std::move(h->next)` the source of
the assignment is deleted before it is read.
-/

namespace LearningC

open Fuel

/-- A variable, or the member `next` of a node. -/
inductive NodeHandle
  | var (v : Nat)
  | next (o : Nat)
  deriving DecidableEq, Repr

/-- `deleted` has the nodes in the order in which their storage was freed; `fault` tells
whether a deleted node was used. -/
structure UniqueNodes where
  ptr : NodeHandle → Option Nat
  deleted : List Nat
  fault : Bool

namespace UniqueNodes

def setPtr (h : NodeHandle) (p : Option Nat) (s : UniqueNodes) : UniqueNodes :=
  { s with ptr := Function.update s.ptr h p }

/-- An access to a handle; a member is gone with its node. -/
def touch (h : NodeHandle) (s : UniqueNodes) : UniqueNodes :=
  match h with
  | .var _ => s
  | .next o => if o ∈ s.deleted then { s with fault := true } else s

/-- `delete` of a pointer. The destructor of the node runs that of its member, which deletes
what the member points to. -/
def delete : Nat → Option Nat → UniqueNodes → Option UniqueNodes
  | _, none, s => some s
  | 0, some _, _ => none
  | fuel + 1, some o, s =>
    if o ∈ s.deleted then some { s with fault := true }
    else (delete fuel (s.ptr (.next o)) s).map fun s => { s with deleted := s.deleted ++ [o] }

def moveAssign (fuel : Nat) (h p : NodeHandle) (s : UniqueNodes) : Option UniqueNodes :=
  if h ≠ p then do
    let s ← delete fuel (s.ptr h) s
    let s := (s.touch p).touch h
    some ((s.setPtr h (s.ptr p)).setPtr p none)
  else some s

/-! ## Lists -/

/-- From the pointer `p` the nodes of a list that ends in `nullptr`, none of them deleted. -/
def Linked (s : UniqueNodes) : Option Nat → List Nat → Prop
  | p, [] => p = none
  | p, o :: l => p = some o ∧ o ∉ s.deleted ∧ Linked s (s.ptr (.next o)) l

structure OwnsList (s : UniqueNodes) (h : NodeHandle) (l : List Nat) : Prop where
  linked : Linked s (s.ptr h) l
  nodup : l.Nodup

section
variable {s s' : UniqueNodes} {h p : NodeHandle} {l m : List Nat} {q r : Option Nat} {o : Nat}

theorem frame_touch (h : NodeHandle) (s : UniqueNodes) : (s.touch h).ptr = s.ptr ∧ (s.touch h).deleted = s.deleted := by
  unfold touch
  split
  · exact ⟨rfl, rfl⟩
  · split
    · exact ⟨rfl, rfl⟩
    · exact ⟨rfl, rfl⟩

theorem touch_fault (h : NodeHandle) (hf : s.fault = true) : (s.touch h).fault = true := by
  unfold touch
  split
  · exact hf
  · split
    · rfl
    · exact hf

theorem touch_deleted (ho : o ∈ s.deleted) : (s.touch (.next o)).fault = true := by
  simp [touch, ho]

theorem touch_live (hh : ∀ o, h = .next o → o ∉ s.deleted) : s.touch h = s := by
  unfold touch
  split
  · rfl
  · next o => rw [if_neg (hh o rfl)]

theorem OwnsList.ne_next (hl : s.OwnsList h (o :: l)) : h ≠ .next o := by
  rintro rfl
  obtain ⟨hp, -, hrest⟩ := hl.linked
  rw [hp] at hrest
  cases l with
  | nil => cases hrest
  | cons o' l =>
    obtain rfl := Option.some.inj hrest.1
    exact (List.nodup_cons.mp hl.nodup).1 List.mem_cons_self

theorem delete_linked (hl : Linked s q l) (hn : l.Nodup) :
    ∀ fuel ≥ l.length, delete fuel q s = some { s with deleted := s.deleted ++ l.reverse } := by
  induction l generalizing q with
  | nil =>
    intro fuel _
    obtain rfl : q = none := hl
    rw [List.reverse_nil, List.append_nil]
    unfold delete
    rfl
  | cons o l ih =>
    intro fuel hfuel
    obtain ⟨rfl, ho, hl⟩ := hl
    obtain ⟨fuel, rfl⟩ : ∃ k, fuel = k + 1 := Nat.exists_eq_add_one_of_ne_zero (by rintro rfl; simp at hfuel)
    have hrest := ih hl (List.nodup_cons.mp hn).2 fuel (by simpa using hfuel)
    rw [delete, if_neg ho, hrest, List.reverse_cons, ← List.append_assoc]
    rfl

theorem moveAssign_eq (hne : h ≠ p) (hl : s.OwnsList h l) :
    Ends (fun fuel => moveAssign fuel h p s)
      (((({ s with deleted := s.deleted ++ l.reverse }.touch p).touch h).setPtr h (s.ptr p)).setPtr p none) := by
  refine ⟨l.length, fun fuel hfuel => ?_⟩
  have hptr : ((({ s with deleted := s.deleted ++ l.reverse } : UniqueNodes).touch p).touch h).ptr = s.ptr :=
    (frame_touch h _).1.trans (frame_touch p _).1
  show moveAssign fuel h p s = _
  unfold moveAssign
  rw [if_pos hne, delete_linked hl.linked hl.nodup fuel hfuel]
  show some _ = some _
  rw [hptr]

/-- The whole list is deleted, and then the member of its head is read. -/
theorem moveAssign_next (hl : s.OwnsList h (o :: l)) :
    ∃ s', Ends (fun fuel => moveAssign fuel h (.next o) s) s' ∧
      s'.deleted = s.deleted ++ (o :: l).reverse ∧ s'.fault = true := by
  refine ⟨_, moveAssign_eq hl.ne_next hl, ?_, ?_⟩
  · exact (frame_touch h _).2.trans (frame_touch (.next o) _).2
  · apply touch_fault
    apply touch_deleted
    simp

theorem Linked.frame (hl : Linked s q l) (hp : ∀ o ∈ l, s'.ptr (.next o) = s.ptr (.next o))
    (hd : ∀ o ∈ l, o ∉ s'.deleted) : Linked s' q l := by
  induction l generalizing q with
  | nil => exact hl
  | cons o l ih =>
    obtain ⟨rfl, -, hl⟩ := hl
    refine ⟨rfl, hd o List.mem_cons_self, ?_⟩
    rw [hp o List.mem_cons_self]
    exact ih hl (fun o ho => hp o (List.mem_cons_of_mem _ ho)) fun o ho => hd o (List.mem_cons_of_mem _ ho)

theorem Linked.not_deleted (hl : Linked s q l) : ∀ o ∈ l, o ∉ s.deleted := by
  induction l generalizing q with
  | nil => exact fun o ho => absurd ho List.not_mem_nil
  | cons o l ih =>
    intro o' ho'
    rcases List.mem_cons.mp ho' with rfl | ho'
    · exact hl.2.1
    · exact ih hl.2.2 o' ho'

/-- **Handles apart.** From a handle outside the two lists a move assignment deletes exactly
the list of its target, and takes over the list of its source. -/
theorem moveAssign_apart (hne : h ≠ p) (hl : s.OwnsList h l) (hm : s.OwnsList p m) (hdisj : ∀ o ∈ m, o ∉ l)
    (hh : ∀ o, h = .next o → o ∉ s.deleted ++ l ∧ o ∉ m) (hp : ∀ o, p = .next o → o ∉ s.deleted ++ l ∧ o ∉ m) :
    ∃ s', Ends (fun fuel => moveAssign fuel h p s) s' ∧ s'.OwnsList h m ∧ s'.ptr p = none ∧
      s'.deleted = s.deleted ++ l.reverse ∧ s'.fault = s.fault := by
  have htouch : ({ s with deleted := s.deleted ++ l.reverse }.touch p).touch h =
      { s with deleted := s.deleted ++ l.reverse } := by
    rw [touch_live (h := p), touch_live]
    · intro o ho
      simpa using (hh o ho).1
    · intro o ho
      simpa using (hp o ho).1
  have hends := moveAssign_eq hne hl
  rw [htouch] at hends
  refine ⟨_, hends, ⟨?_, hm.nodup⟩, Function.update_self .., rfl, rfl⟩
  have hself : (({ s with deleted := s.deleted ++ l.reverse }.setPtr h (s.ptr p)).setPtr p none).ptr h = s.ptr p :=
    (Function.update_of_ne hne _ _).trans (Function.update_self ..)
  rw [hself]
  refine hm.linked.frame (fun o ho => ?_) fun o ho => ?_
  · have hho : NodeHandle.next o ≠ h := fun e => (hh o e.symm).2 ho
    have hpo : NodeHandle.next o ≠ p := fun e => (hp o e.symm).2 ho
    exact (Function.update_of_ne hpo _ _).trans (Function.update_of_ne hho _ _)
  · show o ∉ s.deleted ++ l.reverse
    have ho' := hm.linked.not_deleted o ho
    have hol := hdisj o ho
    simp [ho', hol]

end

/-- What `h = std::move(h->next)` is for: `h` owns the former tail, and the former head is
deleted. -/
structure AdvancesTo (s : UniqueNodes) (h : NodeHandle) (o : Nat) (l : List Nat) (s' : UniqueNodes) : Prop where
  owns : s'.OwnsList h l
  deleted : s'.deleted = s.deleted ++ [o]
  fault : s'.fault = false

/-- **The next node.** On no list does the assignment of its second node to its owner do what
it is for: it deletes every node, and reads the pointer in a node that it has deleted. -/
theorem moveAssign_next_never {s : UniqueNodes} {h : NodeHandle} {o : Nat} {l : List Nat} (hl : s.OwnsList h (o :: l)) :
    (∃ s', Ends (fun fuel => moveAssign fuel h (.next o) s) s' ∧
      s'.deleted = s.deleted ++ (o :: l).reverse ∧ s'.fault = true) ∧
    ¬ ∃ s', Ends (fun fuel => moveAssign fuel h (.next o) s) s' ∧ AdvancesTo s h o l s' := by
  obtain ⟨s', hends, hdeleted, hfault⟩ := moveAssign_next hl
  refine ⟨⟨s', hends, hdeleted, hfault⟩, ?_⟩
  rintro ⟨s'', hends', hadvances⟩
  obtain rfl := hends.unique hends'
  cases hfault.symm.trans hadvances.fault

def threeNodes : UniqueNodes where
  ptr
    | .var 0 => some 0
    | .next 0 => some 1
    | .next 1 => some 2
    | _ => none
  deleted := []
  fault := false

theorem owns_threeNodes : threeNodes.OwnsList (.var 0) [0, 1, 2] :=
  ⟨⟨rfl, List.not_mem_nil, rfl, List.not_mem_nil, rfl, List.not_mem_nil, rfl⟩, by decide⟩

theorem moveAssign_next_never_three :
    (∃ s', Ends (fun fuel => moveAssign fuel (.var 0) (.next 0) threeNodes) s' ∧
      s'.deleted = [2, 1, 0] ∧ s'.fault = true) ∧
    ¬ ∃ s', Ends (fun fuel => moveAssign fuel (.var 0) (.next 0) threeNodes) s' ∧
      AdvancesTo threeNodes (.var 0) 0 [1, 2] s' :=
  moveAssign_next_never owns_threeNodes

theorem next_lost : ¬ ∀ (s : UniqueNodes) (h : NodeHandle) (o : Nat) (l : List Nat), s.OwnsList h (o :: l) →
    ∃ s', Ends (fun fuel => moveAssign fuel h (.next o) s) s' ∧ AdvancesTo s h o l s' := by
  intro hall
  obtain ⟨s', hends, hadvances⟩ := hall threeNodes (.var 0) 0 [1, 2] owns_threeNodes
  obtain ⟨s'', hends', -, hfault⟩ := moveAssign_next owns_threeNodes
  obtain rfl := hends.unique hends'
  cases hfault.symm.trans hadvances.fault

end UniqueNodes

end LearningC
