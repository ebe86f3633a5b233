import Mathlib.Data.UInt
import Mathlib.Data.List.TakeWhile

/-!
# Arrays of characters

A local array before and after reads into it, and the text that is printed from it. A
cell is `none` until it is written; printing goes on to the first `NUL`, and has no result
where it comes to such a cell or to the end of the array.
-/

namespace CharArray

abbrev Cells := List (Option UInt8)

def unwritten (n : Nat) : Cells := List.replicate n none

def zeros (n : Nat) : Cells := List.replicate n (some 0)

/-- `memcpy` of the bytes to the start of the array. -/
def fill (chunk : List UInt8) (cells : Cells) : Cells := chunk.map some ++ cells.drop chunk.length

def text : Cells → Option (List UInt8)
  | [] => none
  | none :: _ => none
  | some b :: cells => if b = 0 then some [] else (text cells).map fun bs => b :: bs

def untilNul (chunk : List UInt8) : List UInt8 := chunk.takeWhile (· ≠ 0)

variable {chunk : List UInt8} {cells : Cells} {n : Nat}

theorem text_append (chunk : List UInt8) (cells : Cells) : text (chunk.map some ++ cells) =
    if 0 ∈ chunk then some (untilNul chunk) else (text cells).map fun bs => chunk ++ bs := by
  induction chunk with
  | nil => simp
  | cons b bs ih =>
    rw [List.map_cons, List.cons_append, text, ih]
    by_cases hb : b = 0
    · simp [hb, untilNul]
    · by_cases hbs : 0 ∈ bs
      · simp [hb, hbs, untilNul]
      · simp [hb, hbs, Ne.symm hb, Function.comp_def]

theorem text_unwritten (n : Nat) : text (unwritten n) = none := by
  cases n <;> rfl

theorem text_zeros (n : Nat) : text (zeros n) = if 0 < n then some [] else none := by
  cases n <;> simp [zeros, text, List.replicate_succ]

theorem untilNul_eq (h : 0 ∉ chunk) : untilNul chunk = chunk := by
  unfold untilNul
  rw [List.takeWhile_eq_self_iff]
  intro b hb
  simpa using fun e : b = 0 => h (e ▸ hb)

theorem drop_zeros (k n : Nat) : (zeros n).drop k = zeros (n - k) := List.drop_replicate ..

theorem drop_unwritten (k n : Nat) : (unwritten n).drop k = unwritten (n - k) := List.drop_replicate ..

/-- A chunk in an array of zeros is printed when it has a `NUL` or leaves one. -/
theorem text_fill_zeros (chunk : List UInt8) (n : Nat) :
    text (fill chunk (zeros n)) = if 0 ∈ chunk ∨ chunk.length < n then some (untilNul chunk) else none := by
  unfold fill
  rw [text_append, drop_zeros, text_zeros]
  by_cases hnul : 0 ∈ chunk
  · simp [hnul]
  · by_cases hlt : chunk.length < n
    · rw [if_neg hnul, if_pos (by omega), if_pos (Or.inr hlt), untilNul_eq hnul]
      simp
    · rw [if_neg hnul, if_neg (by omega), if_neg (by simp [hnul, hlt])]
      rfl

theorem text_fill_unwritten (chunk : List UInt8) (n : Nat) :
    text (fill chunk (unwritten n)) = if 0 ∈ chunk then some (untilNul chunk) else none := by
  unfold fill
  rw [text_append, drop_unwritten, text_unwritten]
  simp

theorem take_fill (chunk : List UInt8) (cells : Cells) : (fill chunk cells).take chunk.length = chunk.map some := by
  unfold fill
  rw [List.take_append_of_le_length (by simp)]
  simp

end CharArray
