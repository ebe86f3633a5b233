import LearningC.Custody
import LearningC.Runs
import LearningC.UniquePtr
import Mathlib.Tactic.Abel

/-!
# Owners of unique objects

What the live handles hold, what `release` handed out and what was deleted are together
all the objects made, each of them once. No operation makes or loses one.
-/

namespace LearningC

open Runs Custody

namespace UniqueHeap

/-- Every object has one live handle, or was handed out, or was deleted, and without
handles no object is left behind. -/
structure ExactlyOwned (s : UniqueHeap) : Prop where
  places : ∀ o < s.nextObject,
    (∃! h, s.Holds h o) ∧ s.released.count o = 0 ∧ s.deleted.count o = 0 ∨
    (∀ h, ¬ s.Holds h o) ∧ s.released.count o = 1 ∧ s.deleted.count o = 0 ∨
    (∀ h, ¬ s.Holds h o) ∧ s.released.count o = 0 ∧ s.deleted.count o = 1
  allocated : ∀ o, (∃ h, s.Holds h o) ∨ o ∈ s.released ∨ o ∈ s.deleted → o < s.nextObject
  complete : s.live = ∅ → ∀ o < s.nextObject, o ∉ s.released → o ∈ s.deleted

def owned (s : UniqueHeap) : Multiset Nat := held s.live fun h => one (s.ptr h)

/-- The objects that no handle is to delete any more. -/
def gone (s : UniqueHeap) : Multiset Nat := s.released + s.deleted

def Conserved (s : UniqueHeap) : Prop := s.owned + s.gone = Multiset.range s.nextObject

/-! ## What each operation moves -/

section
variable {s s' : UniqueHeap} {h k : Nat} {p : Option Nat} {q : RawPtr} {op : UniqueOp}

theorem toList_eq_one (p : Option Nat) : (p.toList : Multiset Nat) = one p := by
  cases p <;> rfl

theorem owned_setPtr (hl : h ∈ s.live) : one (s.ptr h) + (s.setPtr h p).owned = one p + s.owned :=
  held_update one s.ptr p hl

theorem owned_create (hl : h ∉ s.live) : (s.create h p).owned = one p + s.owned :=
  held_insert one s.ptr p hl

theorem gone_delete : (s.delete h).gone = s.gone + one (s.ptr h) := by
  unfold gone delete
  rw [← Multiset.coe_add, toList_eq_one, add_assoc]

theorem delete_if : (if s.ptr h ≠ none then s.delete h else s) = s.delete h := by
  split
  · rfl
  · next hp =>
    push Not at hp
    unfold delete
    rw [hp, Option.toList_none, List.append_nil]

theorem allocate_spec (s : UniqueHeap) (q : RawPtr) :
    (s.allocate q).2.live = s.live ∧ (s.allocate q).2.ptr = s.ptr ∧ (s.allocate q).2.owned = s.owned ∧
      (s.allocate q).2.gone = s.gone ∧
      Multiset.range (s.allocate q).2.nextObject = one (s.allocate q).1 + Multiset.range s.nextObject := by
  cases q with
  | null => exact ⟨rfl, rfl, rfl, rfl, (zero_add _).symm⟩
  | fresh => exact ⟨rfl, rfl, rfl, rfl, Multiset.range_succ _⟩

theorem Conserved.construct (hc : Conserved s) (hl : h ∉ s.live) : Conserved (s.construct h q) := by
  obtain ⟨hlive, -, howned, hgone, hrange⟩ := allocate_spec s q
  show ((s.allocate q).2.create h (s.allocate q).1).owned + (s.allocate q).2.gone =
    Multiset.range (s.allocate q).2.nextObject
  rw [owned_create (hlive ▸ hl), howned, hgone, hrange, ← hc, add_assoc]

theorem Conserved.moveConstruct (hc : Conserved s) (hl : h ∉ s.live) (hk : k ∈ s.live) :
    Conserved (s.moveConstruct h k) := by
  have hne : k ≠ h := fun e => hl (e ▸ hk)
  have hk' : k ∈ (s.create h (s.ptr k)).live := Finset.mem_insert_of_mem hk
  have hptr : (s.create h (s.ptr k)).ptr k = s.ptr k := Function.update_of_ne hne _ _
  have hset : one (s.ptr k) + (s.moveConstruct h k).owned = one (s.ptr k) + s.owned := by
    have := owned_setPtr (p := none) hk'
    rw [hptr, owned_create hl] at this
    exact this.trans (zero_add _)
  show (s.moveConstruct h k).owned + s.gone = _
  rw [add_left_cancel hset]
  exact hc

theorem Conserved.moveAssign (hc : Conserved s) (hl : h ∈ s.live) (hk : k ∈ s.live) :
    Conserved (s.moveAssign h k) := by
  unfold UniqueHeap.moveAssign
  by_cases hne : h ≠ k
  · rw [if_pos hne]
    have hptr : ((s.delete h).setPtr h (s.ptr k)).ptr k = s.ptr k := Function.update_of_ne (Ne.symm hne) _ _
    have hset : one (s.ptr h) + ((s.delete h).setPtr h (s.ptr k)).owned = one (s.ptr k) + s.owned :=
      owned_setPtr (s := s.delete h) hl
    have hclear : one (s.ptr k) + (((s.delete h).setPtr h (s.ptr k)).setPtr k none).owned =
        ((s.delete h).setPtr h (s.ptr k)).owned := by
      have := owned_setPtr (s := (s.delete h).setPtr h (s.ptr k)) (p := none) hk
      rw [hptr] at this
      exact this.trans (zero_add _)
    have hmoved : one (s.ptr h) + (((s.delete h).setPtr h (s.ptr k)).setPtr k none).owned = s.owned := by
      rw [← hclear, add_left_comm] at hset
      exact add_left_cancel hset
    show (((s.delete h).setPtr h (s.ptr k)).setPtr k none).owned + (s.delete h).gone = Multiset.range s.nextObject
    rw [gone_delete, ← hc, ← hmoved]
    abel
  · rw [if_neg hne]
    exact hc

theorem Conserved.release (hc : Conserved s) (hl : h ∈ s.live) : Conserved (s.release h) := by
  have hset : one (s.ptr h) + (s.release h).owned = s.owned := (owned_setPtr hl).trans (zero_add _)
  have hgone : (s.release h).gone = s.gone + one (s.ptr h) := by
    unfold gone UniqueHeap.release
    rw [← Multiset.coe_add, toList_eq_one]
    exact add_right_comm _ _ _
  show (s.release h).owned + (s.release h).gone = Multiset.range s.nextObject
  rw [hgone, ← hc, ← hset]
  abel

theorem Conserved.reset (hc : Conserved s) (hl : h ∈ s.live) : Conserved (s.reset h q) := by
  obtain ⟨hlive, hptr, howned, hgone, hrange⟩ := allocate_spec s q
  have hset : one (s.ptr h) + (s.reset h q).owned = one (s.allocate q).1 + s.owned := by
    unfold UniqueHeap.reset
    simp only
    rw [delete_if, ← hptr, ← howned]
    exact owned_setPtr (s := (s.allocate q).2.delete h) (hlive ▸ hl)
  have hgone' : (s.reset h q).gone = s.gone + one (s.ptr h) := by
    unfold UniqueHeap.reset
    simp only
    rw [delete_if]
    show ((s.allocate q).2.delete h).gone = _
    rw [gone_delete, hgone, hptr]
  have hnext : (s.reset h q).nextObject = (s.allocate q).2.nextObject := by
    unfold UniqueHeap.reset
    simp only
    rw [delete_if]
    rfl
  unfold Conserved
  rw [hgone', hnext, hrange, ← hc, ← add_assoc (one _) s.owned, ← hset]
  abel

theorem Conserved.destroy (hc : Conserved s) (hl : h ∈ s.live) : Conserved (s.destroy h) := by
  have herase : one (s.ptr h) + (s.destroy h).owned = s.owned := by
    unfold UniqueHeap.destroy
    simp only
    rw [delete_if]
    exact held_erase hl
  have hgone : (s.destroy h).gone = s.gone + one (s.ptr h) := by
    unfold UniqueHeap.destroy
    simp only
    rw [delete_if]
    exact gone_delete
  have hnext : (s.destroy h).nextObject = s.nextObject := by
    unfold UniqueHeap.destroy
    simp only
    rw [delete_if]
    rfl
  unfold Conserved
  rw [hgone, hnext, ← hc, ← herase]
  abel

/-! ## Programs -/

theorem Conserved.step (hc : Conserved s) (hs : s.step op = some s') : Conserved s' := by
  unfold UniqueHeap.step at hs
  by_cases hl : s.Legal op
  · rw [if_pos hl] at hs
    cases hs
    cases op with
    | construct h p => exact hc.construct hl
    | moveConstruct h p => exact hc.moveConstruct hl.1 hl.2
    | moveAssign h p => exact hc.moveAssign hl.1 hl.2
    | release h => exact hc.release hl
    | reset h p => exact hc.reset hl
    | destroy h => exact hc.destroy hl
  · rw [if_neg hl] at hs
    cases hs

theorem holds_iff {o : Nat} : s.Holds h o ↔ h ∈ s.live ∧ o ∈ one (s.ptr h) := by
  rw [mem_one]
  rfl

theorem count_gone (s : UniqueHeap) (o : Nat) : s.gone.count o = s.released.count o + s.deleted.count o := by
  unfold gone
  rw [Multiset.count_add, Multiset.coe_count, Multiset.coe_count]

theorem Conserved.exactlyOwned (hc : Conserved s) : ExactlyOwned s := by
  have hall := Multiset.nodup_range s.nextObject
  have hmem : ∀ o, o ∈ s.gone ↔ o ∈ s.released ∨ o ∈ s.deleted := by
    intro o
    unfold gone
    rw [Multiset.mem_add, Multiset.mem_coe, Multiset.mem_coe]
  refine ⟨fun o ho => ?_, fun o ho => ?_, fun hl o ho hr => ?_⟩
  · rcases held_or_gone hc (Multiset.mem_range.mpr ho) with ⟨h, hl, hp⟩ | hg
    · have hcount : s.gone.count o = 0 := Multiset.count_eq_zero.mpr (not_gone hall hc hl hp)
      rw [count_gone] at hcount
      refine Or.inl ⟨⟨h, holds_iff.mpr ⟨hl, hp⟩, fun k hk => ?_⟩, by omega, by omega⟩
      obtain ⟨hkl, hkp⟩ := holds_iff.mp hk
      exact holder_unique hall hc hkl hl hkp hp
    · have hcount := Multiset.count_eq_one_of_mem (nodup_gone hall hc) hg
      rw [count_gone] at hcount
      have hnone : ∀ h, ¬ s.Holds h o := by
        intro h hh
        obtain ⟨hl, hp⟩ := holds_iff.mp hh
        exact not_gone hall hc hl hp hg
      by_cases hr : s.released.count o = 0
      · exact Or.inr (Or.inr ⟨hnone, hr, by omega⟩)
      · exact Or.inr (Or.inl ⟨hnone, by omega, by omega⟩)
  · rw [← Multiset.mem_range, ← hc, Multiset.mem_add, hmem]
    rcases ho with ⟨h, hh⟩ | ho
    · exact Or.inl (mem_held.mpr ⟨h, holds_iff.mp hh⟩)
    · exact Or.inr ho
  · rcases held_or_gone hc (Multiset.mem_range.mpr ho) with ⟨h, hh, -⟩ | hg
    · rw [hl] at hh
      cases hh
    · exact ((hmem o).mp hg).resolve_left hr

end

/-- **Unique owners.** After every step of every program each object has one live handle,
or was handed out by `release`, or was deleted, and that once. -/
theorem exactlyOwned_always (ops : List UniqueOp) : Always step ExactlyOwned init ops := by
  have h0 : Conserved init := rfl
  exact always_of_invariant (fun _ _ _ hc hs => Conserved.step hc hs) (fun _ hc => hc.exactlyOwned) h0 ops

end UniqueHeap

end LearningC
