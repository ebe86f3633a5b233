import Mathlib.Algebra.Ring.Nat
import Mathlib.Data.Finset.Basic
import Mathlib.Logic.Function.Basic

/-!
# The handles of unique_ptr.cpp

A pool of `unique_ptr_` handles and the objects that `new T` has made for them. The move
assignment compares `this` with `&p`, which the source writes as `this != p`.
-/

namespace LearningC

/-- The argument of the constructor and of `reset`. -/
inductive RawPtr
  | null
  | fresh
  deriving DecidableEq, Repr

/-- `released` has what `release` gave to its caller, `deleted` what `delete` was called
on, each in order. -/
structure UniqueHeap where
  live : Finset Nat
  ptr : Nat → Option Nat
  nextObject : Nat
  released : List Nat
  deleted : List Nat

namespace UniqueHeap

def init : UniqueHeap where
  live := ∅
  ptr := fun _ => none
  nextObject := 0
  released := []
  deleted := []

/-- What the argument points to, after `new T` where there is one. -/
def allocate (s : UniqueHeap) : RawPtr → Option Nat × UniqueHeap
  | .null => (none, s)
  | .fresh => (some s.nextObject, { s with nextObject := s.nextObject + 1 })

def setPtr (h : Nat) (p : Option Nat) (s : UniqueHeap) : UniqueHeap :=
  { s with ptr := Function.update s.ptr h p }

/-- `delete ptr` on the pointer of a handle; nothing happens on `nullptr`. -/
def delete (h : Nat) (s : UniqueHeap) : UniqueHeap := { s with deleted := s.deleted ++ (s.ptr h).toList }

def create (h : Nat) (p : Option Nat) (s : UniqueHeap) : UniqueHeap :=
  { s.setPtr h p with live := insert h s.live }

def construct (h : Nat) (p : RawPtr) (s : UniqueHeap) : UniqueHeap :=
  let (ptr, s) := s.allocate p
  s.create h ptr

def moveConstruct (h p : Nat) (s : UniqueHeap) : UniqueHeap := (s.create h (s.ptr p)).setPtr p none

def moveAssign (h p : Nat) (s : UniqueHeap) : UniqueHeap :=
  if h ≠ p then
    let s := s.delete h
    (s.setPtr h (s.ptr p)).setPtr p none
  else s

def release (h : Nat) (s : UniqueHeap) : UniqueHeap :=
  { s.setPtr h none with released := s.released ++ (s.ptr h).toList }

def reset (h : Nat) (p : RawPtr) (s : UniqueHeap) : UniqueHeap :=
  let (ptr, s) := s.allocate p
  let s := if s.ptr h ≠ none then s.delete h else s
  s.setPtr h ptr

def destroy (h : Nat) (s : UniqueHeap) : UniqueHeap :=
  let s := if s.ptr h ≠ none then s.delete h else s
  { s with live := s.live.erase h }

end UniqueHeap

/-! ## Programs over handles -/

inductive UniqueOp
  | construct (h : Nat) (p : RawPtr)
  | moveConstruct (h p : Nat)
  | moveAssign (h p : Nat)
  | release (h : Nat)
  | reset (h : Nat) (p : RawPtr)
  | destroy (h : Nat)
  deriving DecidableEq, Repr

namespace UniqueHeap

/-- Handles are constructed once, used while they live, and destroyed once. -/
def Legal (s : UniqueHeap) : UniqueOp → Prop
  | .construct h _ => h ∉ s.live
  | .moveConstruct h p => h ∉ s.live ∧ p ∈ s.live
  | .moveAssign h p => h ∈ s.live ∧ p ∈ s.live
  | .release h | .reset h _ | .destroy h => h ∈ s.live

instance (s : UniqueHeap) : (op : UniqueOp) → Decidable (s.Legal op)
  | .construct h _ => inferInstanceAs (Decidable (h ∉ s.live))
  | .moveConstruct h p => inferInstanceAs (Decidable (h ∉ s.live ∧ p ∈ s.live))
  | .moveAssign h p => inferInstanceAs (Decidable (h ∈ s.live ∧ p ∈ s.live))
  | .release h | .reset h _ | .destroy h => inferInstanceAs (Decidable (h ∈ s.live))

def next (s : UniqueHeap) : UniqueOp → UniqueHeap
  | .construct h p => s.construct h p
  | .moveConstruct h p => s.moveConstruct h p
  | .moveAssign h p => s.moveAssign h p
  | .release h => s.release h
  | .reset h p => s.reset h p
  | .destroy h => s.destroy h

def step (s : UniqueHeap) (op : UniqueOp) : Option UniqueHeap := if s.Legal op then some (s.next op) else none

def Holds (s : UniqueHeap) (h o : Nat) : Prop := h ∈ s.live ∧ s.ptr h = some o

end UniqueHeap

end LearningC
