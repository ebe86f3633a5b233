import LearningC.RefCounts
import Mathlib.Data.Finset.Option

/-!
# Moves of shared_ptr_

The move operations leave their source as it is, and count one more handle. A move transfers
its object only where there is none: with a list of the handles that were moved from, a
program destroys its objects on time exactly when it moves from empty handles.
-/

namespace LearningC

open Runs

/-- The handle from which an operation moves into a different one. -/
def SharedOp.source : SharedOp → Option Nat
  | .moveConstruct _ p => some p
  | .moveAssign h p => if h ≠ p then some p else none
  | _ => none

/-- The handle to which an operation gives a value, or that it destroys. -/
def SharedOp.target : SharedOp → Option Nat
  | .constructDefault h | .constructFrom h | .makeShared h | .copyConstruct h _ | .moveConstruct h _ | .destroy h => some h
  | .copyAssign h p | .moveAssign h p => if h ≠ p then some h else none

/-- A heap, with the handles that were moved from and have no new value yet. -/
structure MovedHeap where
  heap : SharedHeap
  moved : Finset Nat

namespace MovedHeap

open SharedHeap

def init : MovedHeap := ⟨SharedHeap.init, ∅⟩

def next (s : MovedHeap) (op : SharedOp) : MovedHeap where
  heap := s.heap.next op
  moved := (s.moved.filter fun h => op.target ≠ some h) ∪ op.source.toFinset

def step (s : MovedHeap) (op : SharedOp) : Option MovedHeap := if s.heap.Legal op then some (s.next op) else none

def owners (s : MovedHeap) (o : Nat) : Nat := (s.heap.live.filter fun h => (s.heap.fields h).ptr = some o).card

/-- A move leaves its source empty, and as many owners of the object as there were. -/
def Transfers (s : MovedHeap) (op : SharedOp) (s' : MovedHeap) : Prop :=
  ∀ p, op.source = some p → s'.heap.fields p = ⟨none, none⟩ ∧ s'.heap.useCount p = some 0 ∧
    ∀ o, (s.heap.fields p).ptr = some o → s'.owners o = s.owners o

/-- An object is destroyed, once, when no handle refers to it but some that were moved from. -/
def OnTime (s : MovedHeap) : Prop :=
  ∀ o, s.heap.deletedObjects.count o =
    if o < s.heap.nextObject ∧ ∀ h ∈ s.heap.live, h ∉ s.moved → (s.heap.fields h).ptr ≠ some o then 1 else 0

/-- The source of a move is empty, and no counter comes back to `0` while it has handles. -/
def Harmless (s : MovedHeap) (op : SharedOp) : Prop :=
  (∀ p, op.source = some p → (s.heap.fields p).refCount = none) ∧ ¬ s.heap.Overflows op

structure Emptied (s : MovedHeap) : Prop where
  tallied : Tallied s.heap
  moved : ∀ h ∈ s.moved, (s.heap.fields h).refCount = none

section
variable {s s' : MovedHeap} {op : SharedOp} {h p b : Nat}

/-- Only the target of an operation gets new fields. -/
theorem fields_next (s : SharedHeap) (hh : op.target ≠ some h) : (s.next op).fields h = s.fields h := by
  have hcopy : ∀ (s : SharedHeap) (k p : Nat), k ≠ h → (s.copyConstruct k p).fields h = s.fields h := by
    intro s k p hk
    unfold copyConstruct
    rw [(frame_addRef _ _).2.1]
    exact Function.update_of_ne (Ne.symm hk) _ _
  have hassign : ∀ (k p : Nat), (if k ≠ p then some k else none) ≠ some h → (s.copyAssign k p).fields h = s.fields h := by
    intro k p hk
    unfold copyAssign
    split
    · next hne =>
      rw [if_pos hne] at hk
      have hkh : h ≠ k := fun e => hk (congrArg some e.symm)
      rw [(frame_addRef _ _).2.1]
      exact (Function.update_of_ne hkh _ _).trans (congrFun (frame_release k s).2.1 h)
    · rfl
  have hne : ∀ {k : Nat}, some k ≠ some h → k ≠ h := fun hk e => hk (congrArg some e)
  cases op with
  | constructDefault k => exact Function.update_of_ne (hne hh).symm _ _
  | constructFrom k => exact Function.update_of_ne (hne hh).symm _ _
  | makeShared k => exact Function.update_of_ne (hne hh).symm _ _
  | copyConstruct k p => exact hcopy s k p (hne hh)
  | moveConstruct k p => exact hcopy s k p (hne hh)
  | copyAssign k p => exact hassign k p hh
  | moveAssign k p => exact hassign k p hh
  | destroy k => exact congrFun (frame_release k s).2.1 h

theorem source_ne_target (hl : s.heap.Legal op) (hp : op.source = some p) : op.target ≠ some p := by
  cases op with
  | moveConstruct k q =>
    cases hp
    intro e
    cases e
    exact hl.1 hl.2
  | moveAssign k q =>
    obtain ⟨hne, hq⟩ := Option.ite_none_right_eq_some.mp hp
    cases hq
    show (if k ≠ p then some k else none) ≠ some p
    rw [if_pos hne]
    exact fun e => hne (Option.some.inj e)
  | _ => cases hp

theorem source_live (hl : s.heap.Legal op) (hp : op.source = some p) : p ∈ s.heap.live := by
  cases op with
  | moveConstruct k q =>
    cases hp
    exact hl.2
  | moveAssign k q =>
    obtain ⟨-, hq⟩ := Option.ite_none_right_eq_some.mp hp
    cases hq
    exact hl.2
  | _ => cases hp

theorem live_next (s : SharedHeap) (hh : op.target ≠ some h) (hl : h ∈ s.live) : h ∈ (s.next op).live := by
  have hcopy : ∀ (s : SharedHeap) (k p : Nat), h ∈ s.live → h ∈ (s.copyConstruct k p).live := by
    intro s k p hl
    unfold copyConstruct
    rw [(frame_addRef _ _).1]
    exact Finset.mem_insert_of_mem hl
  have hassign : ∀ k p : Nat, h ∈ (s.copyAssign k p).live := by
    intro k p
    unfold copyAssign
    split
    · rw [(frame_addRef _ _).1]
      exact (frame_release k s).1.symm ▸ hl
    · exact hl
  cases op with
  | constructDefault k => exact Finset.mem_insert_of_mem hl
  | constructFrom k => exact Finset.mem_insert_of_mem hl
  | makeShared k => exact Finset.mem_insert_of_mem hl
  | copyConstruct k p => exact hcopy s k p hl
  | moveConstruct k p => exact hcopy s k p hl
  | copyAssign k p => exact hassign k p
  | moveAssign k p => exact hassign k p
  | destroy k => exact Finset.mem_erase.mpr ⟨fun e => hh (congrArg some e.symm), hl⟩

theorem deletedObjects_addRef (h : Nat) (s : SharedHeap) : (s.addRef h).deletedObjects = s.deletedObjects := by
  unfold addRef
  split
  · rfl
  · split
    · rfl
    · rfl

/-- The counter that overflows is that of the target, and the operation deletes its object. -/
theorem wraps_of_overflows {s : SharedHeap} (hl : s.Legal op) (ho : s.Overflows op) :
    ∃ h ∈ s.live, op.target = some h ∧ s.Wraps h ∧ (s.next op).deletedObjects = (s.release h).deletedObjects := by
  have hassign : ∀ {k p : Nat}, k ≠ p → (s.copyAssign k p).deletedObjects = (s.release k).deletedObjects := by
    intro k p hne
    unfold copyAssign
    rw [if_pos hne, deletedObjects_addRef]
    rfl
  cases op with
  | copyAssign k p => exact ⟨k, hl.1, if_pos ho.1, ho.2, hassign ho.1⟩
  | moveAssign k p => exact ⟨k, hl.1, if_pos ho.1, ho.2, hassign ho.1⟩
  | destroy k => exact ⟨k, hl, rfl, ho, rfl⟩
  | _ => exact ho.elim

theorem mem_moved_next : h ∈ (s.next op).moved ↔ h ∈ s.moved ∧ op.target ≠ some h ∨ op.source = some h := by
  show h ∈ (s.moved.filter fun h => op.target ≠ some h) ∪ op.source.toFinset ↔ _
  rw [Finset.mem_union, Finset.mem_filter, Option.mem_toFinset, Option.mem_def]

theorem Emptied.onTime (h : Emptied s) : OnTime s := by
  intro o
  have hiff : (∀ h ∈ s.heap.live, h ∉ s.moved → (s.heap.fields h).ptr ≠ some o) ↔ s.heap.refs o = 0 := by
    rw [refs_eq_zero]
    constructor
    · intro hall k hk hb
      refine hall k hk (fun hm => ?_) ((h.tallied.paired k hk).trans hb)
      cases (h.moved k hm).symm.trans hb
    · intro hall k hk _ hp
      exact hall k hk ((h.tallied.paired k hk).symm.trans hp)
  rw [h.tallied.tally.deletedObjects, h.tallied.fresh]
  simp only [hiff]

theorem Emptied.transfers (h : Emptied s) (hl : s.heap.Legal op) (hk : Harmless s op) : Transfers s op (s.next op) := by
  intro p hp
  have hempty := hk.1 p hp
  have hnull : (s.heap.fields p).ptr = none := (h.tallied.paired p (source_live hl hp)).trans hempty
  have hnone : ∀ x : SharedPtr, x.ptr = none → x.refCount = none → x = ⟨none, none⟩ := by
    rintro ⟨x, b⟩ rfl rfl
    rfl
  have hfields : (s.next op).heap.fields p = ⟨none, none⟩ :=
    (fields_next s.heap (source_ne_target hl hp)).trans (hnone _ hnull hempty)
  refine ⟨hfields, ?_, fun o ho => ?_⟩
  · unfold useCount
    rw [hfields]
  · cases hnull.symm.trans ho

theorem Emptied.next (h : Emptied s) (hs : s.heap.step op = some (s.heap.next op)) (hk : Harmless s op) :
    Emptied (s.next op) := by
  have hl := (guarded_some hs).1
  refine ⟨h.tallied.step hk.2 hs, fun q hq => ?_⟩
  rcases mem_moved_next.mp hq with ⟨hm, ht⟩ | hp
  · exact (congrArg _ (fields_next s.heap ht)).trans (h.moved q hm)
  · exact (congrArg _ (fields_next s.heap (source_ne_target hl hp))).trans (hk.1 q hp)

theorem exists_other {s : SharedHeap} {n : Nat} (hr : s.refs b = n + 1) (hn : n ≠ 0) :
    ∃ k ∈ s.live, k ≠ h ∧ (s.fields k).refCount = some b := by
  have hcard : 1 < (s.live.filter fun k => (s.fields k).refCount = some b).card := by
    show 1 < s.refs b
    omega
  obtain ⟨k, hk, hne⟩ := Finset.exists_mem_ne hcard h
  obtain ⟨hkl, hkb⟩ := Finset.mem_filter.mp hk
  exact ⟨k, hkl, hne, hkb⟩

theorem Emptied.harmless (h : Emptied s) (hl : s.heap.Legal op) (ht : Transfers s op (s.next op))
    (ho : OnTime (s.next op)) : Harmless s op := by
  have hsource : ∀ p, op.source = some p → (s.heap.fields p).refCount = none := by
    intro p hp
    have hfields := (ht p hp).1
    rw [show (s.next op).heap.fields p = s.heap.fields p from fields_next s.heap (source_ne_target hl hp)] at hfields
    rw [hfields]
  refine ⟨hsource, fun hover => ?_⟩
  obtain ⟨t, htl, htarget, ⟨b, n, hb, hr, hn, hdvd⟩, hdeleted⟩ := wraps_of_overflows hl hover
  obtain ⟨k, hkl, hne, hkb⟩ := exists_other (h := t) hr hn
  have hkt : op.target ≠ some k := fun e => hne (Option.some.inj (e.symm.trans htarget))
  have hkm : k ∉ (s.next op).moved := by
    intro hm
    rcases mem_moved_next.mp hm with ⟨hm, -⟩ | hp
    · cases (h.moved k hm).symm.trans hkb
    · cases (hsource k hp).symm.trans hkb
  have hkp : ((s.next op).heap.fields k).ptr = some b := by
    refine (congrArg SharedPtr.ptr (fields_next s.heap hkt)).trans ?_
    exact (h.tallied.paired k hkl).trans hkb
  have hrelease := h.tallied.tally.release_eq hb ((h.tallied.paired t htl).trans hb) hr
  rw [if_pos hdvd] at hrelease
  -- the object is deleted while `k` still refers to it
  have hmem : b ∈ (s.next op).heap.deletedObjects := by
    show b ∈ (s.heap.next op).deletedObjects
    rw [hdeleted, hrelease]
    exact List.mem_append_right _ List.mem_cons_self
  have hcount := ho b
  rw [if_neg fun hall => hall.2 k (live_next s.heap hkt hkl) hkm hkp] at hcount
  exact List.count_eq_zero.mp hcount hmem

end

theorem emptied_init : Emptied init := ⟨tallied_init, fun h hh => absurd hh (Finset.notMem_empty h)⟩

/-- **Moves.** In a program every move leaves its source empty and as many owners as there
were, and every object is destroyed with the last handle that was not moved from, if and only
if it moves only from empty handles and no counter overflows to `0`. -/
theorem transfers_iff_harmless (ops : List SharedOp) :
    Along step (fun s op s' => Transfers s op s' ∧ OnTime s') init ops ↔
      Along step (fun s op _ => Harmless s op) init ops := by
  refine along_iff (I := Emptied) (U := fun _ => True) (fun s op s' h _ hs => ?_) (fun _ _ => trivial) emptied_init
  obtain ⟨hl, rfl⟩ := guarded_some hs
  have hs' : s.heap.step op = some (s.heap.next op) := if_pos hl
  have hiff : Transfers s op (s.next op) ∧ OnTime (s.next op) ↔ Harmless s op :=
    ⟨fun hk => h.harmless hl hk.1 hk.2, fun hk => ⟨h.transfers hl hk, (h.next hs' hk).onTime⟩⟩
  exact ⟨hiff, fun hk => h.next hs' (hiff.mp hk)⟩

def moveProgram : List SharedOp := [.constructFrom 1, .moveConstruct 3 1]

theorem move_copies : ¬ ∀ ops, Along step (fun s op s' => Transfers s op s' ∧ OnTime s') init ops := by
  intro h
  have hmove := ((h moveProgram _ rfl).2 _ rfl).1.1 1 rfl
  cases hmove.1

end MovedHeap

end LearningC
