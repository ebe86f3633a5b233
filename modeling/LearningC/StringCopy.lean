import LearningC.Fuel
import Mathlib.Data.UInt

/-!
# `strcpy`

The copy loop of `strcpy.cpp` on a memory of bytes. It reads the memory that it
writes: a copy upwards into its own source never sees the terminator.
-/

namespace StringCopy

open Fuel (Ends)

abbrev Memory := Nat → UInt8

/-- The `while` loop, up to the pointers that it ends with. -/
def copyLoop : Nat → Nat → Nat → Memory → Option (Nat × Nat × Memory)
  | 0, _, _, _ => none
  | fuel + 1, dest, src, m =>
    if m src ≠ 0 then copyLoop fuel (dest + 1) (src + 1) (Function.update m dest (m src))
    else some (dest, src, m)

/-- A failed `assert` is `none`. -/
def strcpy (fuel dest src : Nat) (m : Memory) : Option (Nat × Memory) :=
  if dest ≠ 0 ∧ src ≠ 0 then
    (copyLoop fuel dest src m).map fun (d, s, m') => (dest, Function.update m' d (m' s))
  else none

/-- A NUL-terminated string of `n` characters starts at `a`. -/
structure StringAt (m : Memory) (a n : Nat) : Prop where
  nonnull : a ≠ 0
  char : ∀ i < n, m (a + i) ≠ 0
  nul : m (a + n) = 0

/-- What a copy of the `n` characters at `src` returns and leaves in the memory. -/
structure Copied (m : Memory) (dest src n : Nat) (r : Nat × Memory) : Prop where
  returned : r.1 = dest
  chars : ∀ i < n, r.2 (dest + i) = m (src + i)
  nul : r.2 (dest + n) = 0
  frame : ∀ a, ¬ (dest ≤ a ∧ a ≤ dest + n) → r.2 a = m a

section
variable {m : Memory} {dest src n : Nat}

theorem copyLoop_char (fuel : Nat) (h : m src ≠ 0) :
    copyLoop (fuel + 1) dest src m = copyLoop fuel (dest + 1) (src + 1) (Function.update m dest (m src)) :=
  if_pos h

theorem copyLoop_nul (fuel : Nat) (h : m src = 0) : copyLoop (fuel + 1) dest src m = some (dest, src, m) :=
  if_neg (not_not_intro h)

theorem strcpy_eq (fuel : Nat) (hdest : dest ≠ 0) (hsrc : src ≠ 0) :
    strcpy fuel dest src m =
      (copyLoop fuel dest src m).map fun (d, s, m') => (dest, Function.update m' d (m' s)) :=
  if_pos ⟨hdest, hsrc⟩

/-! ## Copies that end -/

/-- The write of one character leaves the rest of the source as it was. -/
theorem StringAt.tail (h : StringAt m src (n + 1)) (hover : ¬ (src < dest ∧ dest ≤ src + (n + 1))) :
    StringAt (Function.update m dest (m src)) (src + 1) n := by
  constructor
  · exact Nat.succ_ne_zero src
  · intro i hi
    rw [Function.update_of_ne (by omega), Nat.add_assoc, Nat.add_comm 1]
    exact h.char (i + 1) (by omega)
  · rw [Function.update_of_ne (by omega), Nat.add_assoc, Nat.add_comm 1]
    exact h.nul

theorem copyLoop_ends (hstr : StringAt m src n) (hover : ¬ (src < dest ∧ dest ≤ src + n)) :
    ∃ m', Ends (fun fuel => copyLoop fuel dest src m) (dest + n, src + n, m') ∧
      (∀ i < n, m' (dest + i) = m (src + i)) ∧ ∀ a, ¬ (dest ≤ a ∧ a < dest + n) → m' a = m a := by
  induction n generalizing m dest src with
  | zero =>
    refine ⟨m, Ends.succ ⟨0, fun fuel _ => copyLoop_nul fuel hstr.nul⟩, ?_, fun _ _ => rfl⟩
    intro i hi
    exact absurd hi (Nat.not_lt_zero i)
  | succ n ih =>
    have hover' : ¬ (src + 1 < dest + 1 ∧ dest + 1 ≤ src + 1 + n) := by omega
    obtain ⟨m', hends, hcopy, hframe⟩ := ih (hstr.tail hover) hover'
    have hfirst : m src ≠ 0 := hstr.char 0 (by omega)
    refine ⟨m', ?_, ?_, ?_⟩
    · rw [Nat.add_right_comm dest, Nat.add_right_comm src] at hends
      exact Ends.succ (hends.congr fun fuel => (copyLoop_char fuel hfirst).symm)
    · intro i hi
      cases i with
      | zero => rw [hframe (dest + 0) (by omega), Nat.add_zero, Nat.add_zero, Function.update_self]
      | succ i =>
        -- The later characters were read behind the bytes written so far.
        have hread := hcopy i (by omega)
        rw [Function.update_of_ne (by omega)] at hread
        rw [Nat.add_comm i, ← Nat.add_assoc, ← Nat.add_assoc]
        exact hread
    · intro a ha
      rw [hframe a (by omega), Function.update_of_ne (by omega)]

theorem strcpy_ends (hstr : StringAt m src n) (hdest : dest ≠ 0)
    (hover : ¬ (src < dest ∧ dest ≤ src + n)) :
    ∃ r, Ends (fun fuel => strcpy fuel dest src m) r ∧ Copied m dest src n r := by
  obtain ⟨m', hends, hcopy, hframe⟩ := copyLoop_ends hstr hover
  have hnul : m' (src + n) = 0 := by
    rw [hframe (src + n) (by omega)]
    exact hstr.nul
  refine ⟨(dest, Function.update m' (dest + n) (m' (src + n))), ?_, ⟨rfl, ?_, ?_, ?_⟩⟩
  · exact (hends.map fun (d, s, m') => (dest, Function.update m' d (m' s))).congr
      fun fuel => (strcpy_eq fuel hdest hstr.nonnull).symm
  · intro i hi
    show Function.update m' (dest + n) (m' (src + n)) (dest + i) = m (src + i)
    rw [Function.update_of_ne (by omega)]
    exact hcopy i hi
  · show Function.update m' (dest + n) (m' (src + n)) (dest + n) = 0
    rw [Function.update_self, hnul]
  · intro a ha
    show Function.update m' (dest + n) (m' (src + n)) a = m a
    rw [Function.update_of_ne (by omega)]
    exact hframe a (by omega)

/-! ## Copies that never end -/

/-- While no byte from `src` up to `dest` is NUL, the byte read is copied to `dest`
before the loop comes to it. -/
theorem copyLoop_never (hlt : src < dest) (hrun : ∀ a, src ≤ a → a < dest → m a ≠ 0) (fuel : Nat) :
    copyLoop fuel dest src m = none := by
  induction fuel generalizing m dest src with
  | zero => rfl
  | succ fuel ih =>
    have hfirst : m src ≠ 0 := hrun src (Nat.le_refl src) hlt
    rw [copyLoop_char fuel hfirst]
    refine ih (Nat.succ_lt_succ hlt) fun a hsrc hdest => ?_
    by_cases h : a = dest
    · rw [h, Function.update_self]
      exact hfirst
    · rw [Function.update_of_ne h]
      exact hrun a (by omega) (by omega)

theorem strcpy_never (hstr : StringAt m src n) (hdest : dest ≠ 0)
    (hover : src < dest ∧ dest ≤ src + n) (fuel : Nat) : strcpy fuel dest src m = none := by
  have hrun : ∀ a, src ≤ a → a < dest → m a ≠ 0 := by
    intro a ha hlt
    obtain ⟨i, rfl⟩ := Nat.exists_eq_add_of_le ha
    exact hstr.char i (by omega)
  rw [strcpy_eq fuel hdest hstr.nonnull, copyLoop_never hover.1 hrun, Option.map_none]

/-! ## Overlapping copies -/

/-- **Overlap.** A copy of a string ends exactly when its target does not begin inside
the string behind its first byte, and then it is the string that was there before. -/
theorem ends_iff_not_over (hstr : StringAt m src n) (hdest : dest ≠ 0) :
    ((∃ r, Ends (fun fuel => strcpy fuel dest src m) r) ↔ ¬ (src < dest ∧ dest ≤ src + n)) ∧
      ∀ r, Ends (fun fuel => strcpy fuel dest src m) r → Copied m dest src n r := by
  by_cases hover : src < dest ∧ dest ≤ src + n
  · have hnone : ∀ r, ¬ Ends (fun fuel => strcpy fuel dest src m) r := by
      intro r ⟨k, hk⟩
      cases (strcpy_never hstr hdest hover k).symm.trans (hk k (Nat.le_refl k))
    exact ⟨⟨fun ⟨r, hr⟩ => absurd hr (hnone r), fun h => absurd hover h⟩, fun r hr => absurd hr (hnone r)⟩
  · obtain ⟨r, hr, hcopied⟩ := strcpy_ends hstr hdest hover
    refine ⟨⟨fun _ => hover, fun _ => ⟨r, hr⟩⟩, fun r' hr' => ?_⟩
    rw [hr'.unique hr]
    exact hcopied

/-- Two characters moved one byte down, over their own source. -/
theorem ends_iff_not_over_down :
    Copied (fun a => if a = 5 then 97 else if a = 6 then 98 else 0) 4 5 2
      (4, Function.update (Function.update (Function.update
        (fun a => if a = 5 then 97 else if a = 6 then 98 else 0) 4 97) 5 98) 6 0) :=
  (ends_iff_not_over (m := fun a => if a = 5 then 97 else if a = 6 then 98 else 0) (n := 2)
    ⟨by decide, by decide, by decide⟩ (by decide)).2 _
    ⟨3, fun fuel h => by
      obtain ⟨k, rfl⟩ := Nat.exists_eq_add_of_le' h
      rfl⟩

end

end StringCopy
