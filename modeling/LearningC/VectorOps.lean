import LearningC.Custody
import LearningC.Vector
import Mathlib.Tactic.Abel

/-!
# What the operations of vector_ do

A vector holds a list of elements when they are what lives in its buffer, in order, and
its size and capacity agree with them. Every operation takes a vector that holds a list
to one that holds the list it should, leaves all other buffers alone, and neither makes
nor loses a buffer or an element that is not accounted for.
-/

namespace LearningC

open Storage Memory Custody

variable {α : Type}

def ids (cs : List (Cell α)) : Multiset Nat := cs.map Cell.id

def withValue (f : α → α) (c : Cell α) : Cell α := { c with value := f c.value }

@[simp] theorem ids_nil : ids ([] : List (Cell α)) = 0 := rfl

theorem ids_append (cs ds : List (Cell α)) : ids (cs ++ ds) = ids cs + ids ds := by
  unfold ids
  rw [List.map_append, Multiset.coe_add]

theorem coe_snoc (l : List Nat) (a : Nat) : ((l ++ [a] : List Nat) : Multiset Nat) = l + {a} :=
  (Multiset.coe_add l [a]).symm

theorem map_id_modify (f : α → α) (i : Nat) (cs : List (Cell α)) :
    (cs.modify i (withValue f)).map Cell.id = cs.map Cell.id := by
  apply List.ext_getElem?
  intro j
  rw [List.getElem?_map, List.getElem?_map, List.getElem?_modify]
  cases cs[j]? with
  | none => rfl
  | some c =>
    by_cases hij : i = j
    · simp [hij, withValue]
    · simp [hij]

theorem map_value_modify (f : α → α) (i : Nat) (cs : List (Cell α)) :
    (cs.modify i (withValue f)).map Cell.value = (cs.map Cell.value).modify i f := by
  apply List.ext_getElem?
  intro j
  rw [List.getElem?_map, List.getElem?_modify, List.getElem?_modify, List.getElem?_map]
  cases cs[j]? with
  | none => rfl
  | some c =>
    by_cases hij : i = j
    · simp [hij, withValue]
    · simp [hij]

theorem ids_modify (f : α → α) (i : Nat) (cs : List (Cell α)) : ids (cs.modify i (withValue f)) = ids cs :=
  congrArg (fun l : List Nat => (l : Multiset Nat)) (map_id_modify f i cs)

namespace VecState

/-- The vector's elements are `cs`. -/
structure Holds (T : ElementType α) (s : VecState α) (cs : List (Cell α)) : Prop where
  sound : Sound s.mem
  row : Row s.mem s.vec.data cs
  size : s.vec.size = cs.length
  size_le : s.vec.size ≤ s.vec.capacity
  capacity : s.vec.capacity = 0 ∨ ∃ k, s.vec.capacity = 2 ^ k
  fits : s.vec.capacity * T.sizeOf < 2 ^ 63
  null : s.vec.data = none → s.vec.capacity = 0
  buffer : ∀ b, s.vec.data = some b → s.mem.bytes b = some (s.vec.capacity * T.sizeOf)

/-- From `cs` to `cs'`: older buffers other than the vector's own stay as they are, and
what the vector has and what is gone are together what there was and what was made. -/
structure Effect (s : VecState α) (cs : List (Cell α)) (s' : VecState α) (cs' : List (Cell α)) : Prop where
  next_le : s.mem.nextBuffer ≤ s'.mem.nextBuffer
  data : ∀ b, s'.vec.data = some b → s.vec.data = some b ∨ s.mem.nextBuffer ≤ b
  frame : ∀ b < s.mem.nextBuffer, s.vec.data ≠ some b →
    s'.mem.bytes b = s.mem.bytes b ∧ s'.mem.cells b = s.mem.cells b
  buffers : one s'.vec.data + s'.mem.freed + Multiset.range s.mem.nextBuffer =
    one s.vec.data + s.mem.freed + Multiset.range s'.mem.nextBuffer
  objects : ids cs' + s'.mem.destroyed + Multiset.range s.mem.nextObject =
    ids cs + s.mem.destroyed + Multiset.range s'.mem.nextObject

section
variable {T : ElementType α} {s s₁ s₂ : VecState α} {cs cs₁ cs₂ : List (Cell α)} {b : Nat}

theorem Effect.refl (s : VecState α) (cs : List (Cell α)) : Effect s cs s cs where
  next_le := Nat.le_refl _
  data _ h := Or.inl h
  frame _ _ _ := ⟨rfl, rfl⟩
  buffers := rfl
  objects := rfl

theorem account_trans {a b c x y z : Multiset Nat} (h : b + x = a + y) (h' : c + y = b + z) : c + x = a + z := by
  apply add_right_cancel (b := y)
  calc c + x + y = c + y + x := add_right_comm c x y
    _ = b + x + z := by rw [h', add_right_comm]
    _ = a + z + y := by rw [h, add_right_comm]

theorem Effect.trans (h : Effect s cs s₁ cs₁) (h' : Effect s₁ cs₁ s₂ cs₂) : Effect s cs s₂ cs₂ where
  next_le := Nat.le_trans h.next_le h'.next_le
  data b hb := by
    rcases h'.data b hb with hb | hb
    · exact h.data b hb
    · exact Or.inr (Nat.le_trans h.next_le hb)
  frame b hlt hb := by
    have hb₁ : s₁.vec.data ≠ some b := by
      intro e
      rcases h.data b e with h₁ | h₁
      · exact hb h₁
      · omega
    obtain ⟨hbytes, hcells⟩ := h'.frame b (Nat.lt_of_lt_of_le hlt h.next_le) hb₁
    obtain ⟨hbytes', hcells'⟩ := h.frame b hlt hb
    exact ⟨hbytes.trans hbytes', hcells.trans hcells'⟩
  buffers := account_trans h.buffers h'.buffers
  objects := account_trans h.objects h'.objects

theorem holds_null {m : Memory α} (hs : Sound m) : Holds T ⟨m, { data := none, size := 0, capacity := 0 }⟩ [] where
  sound := hs
  row := ⟨fun _ => rfl, fun _ e => by cases e⟩
  size := rfl
  size_le := Nat.le_refl _
  capacity := Or.inl rfl
  fits := by show 0 * T.sizeOf < 2 ^ 63; omega
  null := fun _ => rfl
  buffer := fun _ e => by cases e

theorem Holds.known (h : Holds T s cs) (hb : s.vec.data = some b) : b < s.mem.nextBuffer :=
  h.sound.known b _ (h.buffer b hb)

/-! ## A changed row -/

theorem Holds.setRow (h : Holds T s cs) (hb : s.vec.data = some b) (hlen : cs₁.length ≤ s.vec.capacity)
    {next : Nat} {gone : List Nat}
    (hobj : ids cs₁ + gone + Multiset.range s.mem.nextObject = ids cs + s.mem.destroyed + Multiset.range next)
    (hs₁ : s₁ = ⟨{ s.mem.setRow b (fun j => cs₁[j]?) with nextObject := next, destroyed := gone },
      { s.vec with size := cs₁.length }⟩) : Holds T s₁ cs₁ ∧ Effect s cs s₁ cs₁ := by
  subst hs₁
  have hrows : RowsOnly (fun k => k = b) s.mem
      { s.mem.setRow b (fun j => cs₁[j]?) with nextObject := next, destroyed := gone } :=
    ⟨rfl, rfl, rfl, fun k hk => Function.update_of_ne hk _ _⟩
  constructor
  · exact
      { sound := h.sound.rowsOnly hrows fun k hk => by rw [hk, h.buffer b hb]; exact Option.some_ne_none _
        row := hb ▸ row_of_cells (Function.update_self _ _ _)
        size := rfl
        size_le := hlen
        capacity := h.capacity
        fits := h.fits
        null := h.null
        buffer := h.buffer }
  · exact
      { next_le := Nat.le_refl _
        data := fun _ e => Or.inl e
        frame := fun k _ hk => ⟨rfl, hrows.cells k fun e => hk (e ▸ hb)⟩
        buffers := rfl
        objects := hobj }

/-! ## Calls without growth -/

theorem Holds.hasRoom (h : Holds T s cs) (hb : s.vec.data = some b) {i : Nat} (hi : i < s.vec.capacity) :
    s.mem.hasRoom T.sizeOf b i = true := by
  unfold Memory.hasRoom
  rw [h.buffer b hb]
  exact decide_eq_true (Nat.mul_le_mul_right T.sizeOf hi)

theorem Holds.exists_buffer (h : Holds T s cs) (hpos : 0 < s.vec.capacity) : ∃ b, s.vec.data = some b := by
  cases hd : s.vec.data with
  | none =>
    have := h.null hd
    omega
  | some b => exact ⟨b, rfl⟩

theorem construct_spec (h : Holds T s cs) (hlt : s.vec.size < s.vec.capacity) (x : α) :
    ∃ mem, s.mem.construct T.sizeOf s.vec.data s.vec.size x = some mem ∧
      Holds T ⟨mem, { s.vec with size := s.vec.size + 1 }⟩ (cs ++ [s.mem.fresh x]) ∧
      Effect s cs ⟨mem, { s.vec with size := s.vec.size + 1 }⟩ (cs ++ [s.mem.fresh x]) := by
  obtain ⟨b, hb⟩ := h.exists_buffer (by omega)
  have hrow : Row s.mem (some b) cs := hb ▸ h.row
  have hroom := h.hasRoom hb (h.size ▸ hlt)
  have hlen : (cs ++ [s.mem.fresh x]).length = s.vec.size + 1 := by simp [h.size]
  have hobj : ids (cs ++ [s.mem.fresh x]) + s.mem.destroyed + Multiset.range s.mem.nextObject =
      ids cs + s.mem.destroyed + Multiset.range (s.mem.nextObject + 1) := by
    rw [ids_append, Multiset.range_succ, ← Multiset.singleton_add]
    show ids cs + {s.mem.nextObject} + _ + _ = _
    abel
  obtain ⟨hholds, heffect⟩ := h.setRow hb (by omega) hobj rfl
  rw [hlen] at hholds heffect
  refine ⟨_, ?_, hholds, heffect⟩
  rw [hb, h.size]
  exact construct_row hrow hroom x

theorem popBack_spec (h : Holds T s cs) :
    ∃ s', s.popBack = some s' ∧ Holds T s' cs.dropLast ∧ Effect s cs s' cs.dropLast ∧
      s'.vec.capacity = s.vec.capacity := by
  rcases List.eq_nil_or_concat cs with rfl | ⟨ds, c, rfl⟩
  · have hsize : s.vec.size = 0 := h.size
    refine ⟨s, ?_, h, Effect.refl s _, rfl⟩
    unfold popBack
    rw [hsize]
    rfl
  · rw [List.concat_eq_append] at h ⊢
    have hsize : s.vec.size = ds.length + 1 := by rw [h.size]; simp
    have hle := h.size_le
    obtain ⟨b, hb⟩ := h.exists_buffer (by omega)
    have hrow : Row s.mem (some b) (ds ++ [c]) := hb ▸ h.row
    have hobj : ids ds + ↑(s.mem.destroyed ++ [c.id]) + Multiset.range s.mem.nextObject =
        ids (ds ++ [c]) + s.mem.destroyed + Multiset.range s.mem.nextObject := by
      rw [ids_append, coe_snoc]
      show _ = ids ds + {c.id} + _ + _
      abel
    obtain ⟨hholds, heffect⟩ := h.setRow hb (by omega) hobj rfl
    rw [List.dropLast_concat]
    refine ⟨_, ?_, hholds, heffect, rfl⟩
    unfold popBack
    rw [if_pos (by omega), hsize, Nat.add_sub_cancel, hb, destroy_row hrow]
    rfl

theorem clear_spec (h : Holds T s cs) : ∃ s', s.clear = some s' ∧ Holds T s' [] ∧ Effect s cs s' [] ∧
    s'.vec = { s.vec with size := 0 } := by
  cases hd : s.vec.data with
  | none =>
    have hnil : cs = [] := h.row.null hd
    subst hnil
    have hsize : s.vec.size = 0 := h.size
    have hvec : s.vec = { s.vec with size := 0 } := congrArg (fun n => { s.vec with size := n }) hsize
    refine ⟨s, ?_, h, Effect.refl s _, hvec⟩
    unfold clear
    rw [← hvec, hsize]
    rfl
  | some b =>
    have hrow : Row s.mem (some b) cs := hd ▸ h.row
    have hobj : ids ([] : List (Cell α)) + ↑(s.mem.destroyed ++ cs.map Cell.id) + Multiset.range s.mem.nextObject =
        ids cs + s.mem.destroyed + Multiset.range s.mem.nextObject := by
      rw [← Multiset.coe_add, ids_nil]
      show 0 + (_ + ids cs) + _ = _
      abel
    obtain ⟨hholds, heffect⟩ := h.setRow hd (Nat.zero_le _) hobj rfl
    refine ⟨_, ?_, hholds, heffect, rfl⟩
    have hraw : (fun j => if j < cs.length then none else cs[j]?) = fun j => ([] : List (Cell α))[j]? := by
      funext j
      split
      · rfl
      · exact List.getElem?_eq_none (by omega)
    unfold clear
    rw [hd, h.size, destroyFirst_row hrow cs.length (Nat.le_refl _), List.take_length, hraw]
    rfl

theorem modify_spec (h : Holds T s cs) {i : Nat} (hi : i < cs.length) (f : α → α) :
    ∃ mem, s.mem.modify s.vec.data i f = some mem ∧ Holds T ⟨mem, s.vec⟩ (cs.modify i (withValue f)) ∧
      Effect s cs ⟨mem, s.vec⟩ (cs.modify i (withValue f)) := by
  have hle := h.size_le
  have hsize := h.size
  obtain ⟨b, hb⟩ := h.exists_buffer (by omega)
  have hlen : (cs.modify i (withValue f)).length = s.vec.size := by rw [List.length_modify, h.size]
  have hobj : ids (cs.modify i (withValue f)) + s.mem.destroyed + Multiset.range s.mem.nextObject =
      ids cs + s.mem.destroyed + Multiset.range s.mem.nextObject := by rw [ids_modify]
  obtain ⟨hholds, heffect⟩ := h.setRow hb (by omega) hobj rfl
  rw [hlen] at hholds heffect
  refine ⟨_, ?_, hholds, heffect⟩
  rw [hb]
  exact modify_row (hb ▸ h.row) hi f

/-! ## Destruction -/

theorem dellocate_spec (h : Holds T s []) : ∃ s', s.dellocate = some s' ∧ Holds T s' [] ∧ Effect s [] s' [] ∧
    s'.vec.data = none ∧ ∀ b, s.vec.data = some b → s'.mem.bytes b = none := by
  unfold dellocate
  cases hd : s.vec.data with
  | none => exact ⟨s, rfl, h, Effect.refl s _, hd, fun b e => by cases e⟩
  | some b =>
    have hbytes := h.buffer b hd
    have hsize : s.vec.size = 0 := h.size
    have hfree := free_some hbytes
    refine ⟨_, congrArg (Option.map _) hfree, ?_, ?_, rfl, ?_⟩
    · exact
        { sound := h.sound.free hbytes hfree
          row := ⟨fun _ => rfl, fun k e => by cases e⟩
          size := hsize
          size_le := Nat.le_of_eq hsize
          capacity := Or.inl rfl
          fits := by show 0 * T.sizeOf < 2 ^ 63; omega
          null := fun _ => rfl
          buffer := fun k e => by cases e }
    · exact
        { next_le := Nat.le_refl _
          data := fun k e => by cases e
          frame := fun k _ hk => by
            have hne : k ≠ b := fun e => hk (e ▸ hd)
            exact ⟨Function.update_of_ne hne _ _, Function.update_of_ne hne _ _⟩
          buffers := by
            show 0 + ((s.mem.freed ++ [b] : List Nat) : Multiset Nat) + _ = one s.vec.data + _ + _
            rw [coe_snoc, hd, zero_add, add_comm (s.mem.freed : Multiset Nat)]
            rfl
          objects := rfl }
    · intro k e
      cases e
      exact Function.update_self _ _ _

theorem destructor_spec (h : Holds T s cs) : ∃ s', s.destructor = some s'.mem ∧ Holds T s' [] ∧ Effect s cs s' [] ∧
    s'.vec.data = none := by
  obtain ⟨s₁, hclear, hholds₁, heffect₁, -⟩ := clear_spec h
  obtain ⟨s₂, hdel, hholds₂, heffect₂, hnull, -⟩ := dellocate_spec hholds₁
  refine ⟨s₂, ?_, hholds₂, heffect₁.trans heffect₂, hnull⟩
  unfold destructor
  rw [hclear, Option.bind_some, hdel, Option.map_some]

theorem Holds.elements (h : Holds T s cs) : s.elements = (cs.map Cell.value).map some := by
  unfold VecState.elements
  rw [h.size, List.map_map]
  apply List.ext_getElem?
  intro i
  rw [List.getElem?_map, List.getElem?_map]
  by_cases hi : i < cs.length
  · rw [List.getElem?_range hi, Option.map_some, h.row.read, List.getElem?_eq_getElem hi]
    rfl
  · rw [List.getElem?_eq_none (by simp; omega), List.getElem?_eq_none (by omega)]
    rfl

end

end VecState

end LearningC
