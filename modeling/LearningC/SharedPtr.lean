import Mathlib.Algebra.Ring.Nat
import Mathlib.Data.Finset.Card
import Mathlib.Logic.Function.Basic

/-!
# The handles of shared_ptr.cpp

A heap of `shared_ptr_` handles with the objects and control blocks they point to, and
the constructors, assignments and the destructor as the source runs them in one thread.
-/

namespace LearningC

/-- The fields of a `shared_ptr_`; `none` is `nullptr`. -/
structure SharedPtr where
  ptr : Option Nat
  refCount : Option Nat
  deriving DecidableEq, Repr

/-- What a `std::atomic<int>` holds after it is set to `z`. -/
def atomicInt (z : Int) : Int := z.bmod (2 ^ 32)

theorem atomicInt_eq_zero {n : Nat} : atomicInt n = 0 ↔ 2 ^ 32 ∣ n := by
  unfold atomicInt
  rw [← Int.dvd_iff_bmod_eq_zero]
  exact Int.natCast_dvd_natCast

theorem atomicInt_of_le {n : Nat} (h : n ≤ 2 ^ 31 - 1) : atomicInt n = n := by
  unfold atomicInt
  apply Int.bmod_eq_of_le_mul_two
  · omega
  · omega

/-- `counts` has the control blocks that exist, the two lists what `delete` was called
on, and `fault` whether a counter was used that does not exist. -/
structure SharedHeap where
  live : Finset Nat
  fields : Nat → SharedPtr
  counts : Nat → Option Int
  nextObject : Nat
  nextCount : Nat
  deletedObjects : List Nat
  deletedCounts : List Nat
  fault : Bool

namespace SharedHeap

def init : SharedHeap where
  live := ∅
  fields := fun _ => ⟨none, none⟩
  counts := fun _ => none
  nextObject := 0
  nextCount := 0
  deletedObjects := []
  deletedCounts := []
  fault := false

def release (h : Nat) (s : SharedHeap) : SharedHeap :=
  match (s.fields h).refCount with
  | none => s
  | some b => match s.counts b with
    | none => { s with fault := true }
    | some c =>
      let c := atomicInt (c - 1)
      if c = 0 then
        { s with
          counts := Function.update s.counts b none
          deletedObjects := s.deletedObjects ++ (s.fields h).ptr.toList
          deletedCounts := s.deletedCounts ++ [b] }
      else { s with counts := Function.update s.counts b (some c) }

/-- `if(ref_count != nullptr) (*ref_count)++`. -/
def addRef (h : Nat) (s : SharedHeap) : SharedHeap :=
  match (s.fields h).refCount with
  | none => s
  | some b => match s.counts b with
    | none => { s with fault := true }
    | some c => { s with counts := Function.update s.counts b (some (atomicInt (c + 1))) }

def setFields (h : Nat) (x : SharedPtr) (s : SharedHeap) : SharedHeap :=
  { s with fields := Function.update s.fields h x }

def create (h : Nat) (x : SharedPtr) (s : SharedHeap) : SharedHeap :=
  { s.setFields h x with live := insert h s.live }

def constructDefault (h : Nat) (s : SharedHeap) : SharedHeap := s.create h ⟨none, none⟩

/-- The constructor from a pointer that `new T` has just returned. -/
def constructFrom (h : Nat) (s : SharedHeap) : SharedHeap :=
  { s.create h ⟨some s.nextObject, some s.nextCount⟩ with
    counts := Function.update s.counts s.nextCount (some 1)
    nextObject := s.nextObject + 1
    nextCount := s.nextCount + 1 }

/-- `make_shared_` returns a handle made from `new T`. -/
def makeShared (h : Nat) (s : SharedHeap) : SharedHeap := s.constructFrom h

def copyConstruct (h p : Nat) (s : SharedHeap) : SharedHeap := (s.create h (s.fields p)).addRef h

/-- The move constructor leaves its argument as it is. -/
def moveConstruct (h p : Nat) (s : SharedHeap) : SharedHeap := (s.create h (s.fields p)).addRef h

def copyAssign (h p : Nat) (s : SharedHeap) : SharedHeap :=
  if h ≠ p then
    let s := s.release h
    (s.setFields h (s.fields p)).addRef h
  else s

/-- The move assignment leaves its argument as it is. -/
def moveAssign (h p : Nat) (s : SharedHeap) : SharedHeap :=
  if h ≠ p then
    let s := s.release h
    (s.setFields h (s.fields p)).addRef h
  else s

def destroy (h : Nat) (s : SharedHeap) : SharedHeap := { s.release h with live := s.live.erase h }

/-- `none` where the counter that the handle points to does not exist. -/
def useCount (s : SharedHeap) (h : Nat) : Option Int :=
  match (s.fields h).refCount with
  | none => some 0
  | some b => s.counts b

end SharedHeap

/-! ## Programs over handles -/

inductive SharedOp
  | constructDefault (h : Nat)
  | constructFrom (h : Nat)
  | makeShared (h : Nat)
  | copyConstruct (h p : Nat)
  | moveConstruct (h p : Nat)
  | copyAssign (h p : Nat)
  | moveAssign (h p : Nat)
  | destroy (h : Nat)
  deriving DecidableEq, Repr

namespace SharedHeap

/-- Handles are constructed once, used while they live, and destroyed once. -/
def Legal (s : SharedHeap) : SharedOp → Prop
  | .constructDefault h | .constructFrom h | .makeShared h => h ∉ s.live
  | .copyConstruct h p | .moveConstruct h p => h ∉ s.live ∧ p ∈ s.live
  | .copyAssign h p | .moveAssign h p => h ∈ s.live ∧ p ∈ s.live
  | .destroy h => h ∈ s.live

instance (s : SharedHeap) : (op : SharedOp) → Decidable (s.Legal op)
  | .constructDefault h | .constructFrom h | .makeShared h => inferInstanceAs (Decidable (h ∉ s.live))
  | .copyConstruct h p | .moveConstruct h p => inferInstanceAs (Decidable (h ∉ s.live ∧ p ∈ s.live))
  | .copyAssign h p | .moveAssign h p => inferInstanceAs (Decidable (h ∈ s.live ∧ p ∈ s.live))
  | .destroy h => inferInstanceAs (Decidable (h ∈ s.live))

def next (s : SharedHeap) : SharedOp → SharedHeap
  | .constructDefault h => s.constructDefault h
  | .constructFrom h => s.constructFrom h
  | .makeShared h => s.makeShared h
  | .copyConstruct h p => s.copyConstruct h p
  | .moveConstruct h p => s.moveConstruct h p
  | .copyAssign h p => s.copyAssign h p
  | .moveAssign h p => s.moveAssign h p
  | .destroy h => s.destroy h

def step (s : SharedHeap) (op : SharedOp) : Option SharedHeap := if s.Legal op then some (s.next op) else none

end SharedHeap

end LearningC
