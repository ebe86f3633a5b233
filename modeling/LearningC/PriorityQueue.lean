import LearningC.Fuel
import Mathlib.Data.List.Sort
import Mathlib.Data.Multiset.AddSub
import Mathlib.Data.Multiset.Basic
import Mathlib.Data.Multiset.ZeroCons
import Mathlib.Order.Defs.LinearOrder

/-!
# Priority queues

A priority queue as its operations with what they promise: `top` is a maximum of the
queue, and `pop` removes that element.
-/

structure PriorityQueue (α : Type) (lt : α → α → Prop) where
  Carrier : Type
  empty : Carrier
  push : α → Carrier → Carrier
  top : Carrier → Option α
  pop : Carrier → Carrier
  elems : Carrier → Multiset α
  elems_empty : elems empty = 0
  elems_push : ∀ a q, elems (push a q) = a ::ₘ elems q
  top_eq_none : ∀ q, top q = none ↔ elems q = 0
  elems_pop : ∀ q a, top q = some a → elems q = a ::ₘ elems (pop q)
  top_max : ∀ q a, top q = some a → ∀ b ∈ elems q, ¬ lt a b

namespace PriorityQueue

section
variable {α : Type} {lt : α → α → Prop} (Q : PriorityQueue α lt) {q : Q.Carrier} {a : α}

def isEmpty (q : Q.Carrier) : Bool := (Q.top q).isNone

theorem isEmpty_iff : Q.isEmpty q = true ↔ Q.elems q = 0 := by
  unfold isEmpty
  rw [Option.isNone_iff_eq_none]
  exact Q.top_eq_none q

theorem mem_of_top (h : Q.top q = some a) : a ∈ Q.elems q := by
  rw [Q.elems_pop q a h]
  exact Multiset.mem_cons_self a _

end

/-! ## Filling and draining -/

section
open Fuel (Ends)
variable {α : Type} {lt : α → α → Prop} (Q : PriorityQueue α lt)

def pushAll (l : List α) : Q.Carrier := l.foldl (fun q a => Q.push a q) Q.empty

/-- Takes the top and removes it until the queue is empty. -/
def drain : Nat → Q.Carrier → Option (List α)
  | 0, _ => none
  | fuel + 1, q =>
    match Q.top q with
    | none => some []
    | some a => (drain fuel (Q.pop q)).map (a :: ·)

theorem drain_none {q : Q.Carrier} (h : Q.top q = none) (fuel : Nat) : Q.drain (fuel + 1) q = some [] := by
  simp only [drain, h]

theorem drain_some {q : Q.Carrier} {a : α} (h : Q.top q = some a) (fuel : Nat) :
    Q.drain (fuel + 1) q = (Q.drain fuel (Q.pop q)).map (a :: ·) := by
  simp only [drain, h]

theorem elems_foldl_push (l : List α) (q : Q.Carrier) :
    Q.elems (l.foldl (fun q a => Q.push a q) q) = (l : Multiset α) + Q.elems q := by
  induction l generalizing q with
  | nil => rw [List.foldl_nil, Multiset.coe_nil, Multiset.zero_add]
  | cons a l ih =>
    rw [List.foldl_cons, ih, Q.elems_push, ← Multiset.cons_coe, Multiset.add_cons, Multiset.cons_add]

theorem elems_pushAll (l : List α) : Q.elems (Q.pushAll l) = (l : Multiset α) := by
  unfold pushAll
  rw [elems_foldl_push, Q.elems_empty, Multiset.add_zero]

/-- **Draining.** Every element is taken once, and none after a smaller one. -/
theorem drain_ends (k : Nat) : ∀ q : Q.Carrier, (Q.elems q).card = k →
    ∃ l, Ends (fun fuel => Q.drain fuel q) l ∧ (l : Multiset α) = Q.elems q ∧ l.Pairwise fun a b => ¬ lt a b := by
  induction k with
  | zero =>
    intro q hcard
    have hempty : Q.elems q = 0 := Multiset.card_eq_zero.mp hcard
    have htop : Q.top q = none := (Q.top_eq_none q).mpr hempty
    exact ⟨[], Ends.succ ⟨0, fun fuel _ => Q.drain_none htop fuel⟩, hempty.symm, List.Pairwise.nil⟩
  | succ k ih =>
    intro q hcard
    cases htop : Q.top q with
    | none =>
      rw [(Q.top_eq_none q).mp htop, Multiset.card_zero] at hcard
      cases hcard
    | some a =>
      have helems := Q.elems_pop q a htop
      obtain ⟨l, hends, hl, hpair⟩ := ih (Q.pop q) (by
        rw [helems, Multiset.card_cons] at hcard
        exact Nat.succ.inj hcard)
      refine ⟨a :: l, ?_, ?_, List.pairwise_cons.mpr ⟨?_, hpair⟩⟩
      · exact Ends.succ ((hends.map (a :: ·)).congr fun fuel => (Q.drain_some htop fuel).symm)
      · rw [← Multiset.cons_coe, hl, helems]
      · intro b hb
        apply Q.top_max q a htop
        rw [helems, ← hl]
        exact Multiset.mem_cons_of_mem hb

theorem drain_pushAll (events : List α) :
    ∃ l, Ends (fun fuel => Q.drain fuel (Q.pushAll events)) l ∧ l.Perm events ∧ l.Pairwise fun a b => ¬ lt a b := by
  obtain ⟨l, hends, hl, hpair⟩ := Q.drain_ends _ (Q.pushAll events) rfl
  rw [elems_pushAll] at hl
  exact ⟨l, hends, Multiset.coe_eq_coe.mp hl, hpair⟩

end

/-! ## A sorted list -/

section
variable {α K : Type} [LinearOrder K] (key : α → K)

instance : Std.Total fun a b => key a ≤ key b := ⟨fun _ _ => le_total _ _⟩

instance : IsTrans α fun a b => key a ≤ key b := ⟨fun _ _ _ => le_trans⟩

/-- The list in the order of its keys, the smallest one at the top. -/
def sorted : PriorityQueue α fun a b => key b < key a where
  Carrier := { l : List α // l.Pairwise fun a b => key a ≤ key b }
  empty := ⟨[], List.Pairwise.nil⟩
  push a q := ⟨q.val.orderedInsert (fun a b => key a ≤ key b) a, q.property.orderedInsert a _⟩
  top q := q.val.head?
  pop q := ⟨q.val.tail, q.property.tail⟩
  elems q := q.val
  elems_empty := rfl
  elems_push a q := Multiset.coe_eq_coe.mpr (List.perm_orderedInsert _ a q.val)
  top_eq_none q := by
    rw [List.head?_eq_none_iff, Multiset.coe_eq_zero]
  elems_pop q a h := by
    obtain ⟨l, hl⟩ := List.head?_eq_some_iff.mp h
    simp only [hl, List.tail_cons]
    rfl
  top_max q a h b hb := by
    obtain ⟨l, hl⟩ := List.head?_eq_some_iff.mp h
    have hp := q.property
    rw [hl] at hp
    rw [Multiset.mem_coe, hl] at hb
    cases hb with
    | head => exact lt_irrefl _
    | tail _ hb => exact not_lt.mpr (List.rel_of_pairwise_cons hp hb)

end

end PriorityQueue
