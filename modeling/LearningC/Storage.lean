import Mathlib.Data.List.Basic
import Mathlib.Logic.Function.Basic

/-!
# Raw storage and the objects in it

Buffers come from an allocator and go back to it. An object lives in a slot of a buffer
from its construction to its destruction and has a number of its own. Whatever reaches
for an object or a buffer that is not there has no meaning and gives `none`. A pointer
is a buffer or null, and a row is a list of objects in the first slots of a buffer.
-/

namespace Storage

structure Cell (α : Type*) where
  id : Nat
  value : α
  deriving DecidableEq, Repr

/-- `bytes` has the buffers that are allocated, `freed` and `destroyed` what was given
back and what was destroyed, each in order. -/
structure Memory (α : Type*) where
  bytes : Nat → Option Nat
  cells : Nat → Nat → Option (Cell α)
  nextBuffer : Nat
  nextObject : Nat
  freed : List Nat
  destroyed : List Nat

variable {α : Type*}

namespace Memory

def empty : Memory α where
  bytes := fun _ => none
  cells := fun _ _ => none
  nextBuffer := 0
  nextObject := 0
  freed := []
  destroyed := []

def read (m : Memory α) (p : Option Nat) (i : Nat) : Option (Cell α) := p.bind fun b => m.cells b i

def put (b i : Nat) (c : Option (Cell α)) (m : Memory α) : Memory α :=
  { m with cells := Function.update m.cells b (Function.update (m.cells b) i c) }

/-- Room for an object of `width` bytes in slot `i`. -/
def hasRoom (width : Nat) (b i : Nat) (m : Memory α) : Bool := (m.bytes b).any fun n => (i + 1) * width ≤ n

def fresh (m : Memory α) (x : α) : Cell α := ⟨m.nextObject, x⟩

def construct (width : Nat) (p : Option Nat) (i : Nat) (x : α) (m : Memory α) : Option (Memory α) :=
  p.bind fun b =>
    if m.hasRoom width b i then
      some { m.put b i (some (m.fresh x)) with nextObject := m.nextObject + 1 }
    else none

def destroy (p : Option Nat) (i : Nat) (m : Memory α) : Option (Memory α) :=
  p.bind fun b => (m.cells b i).map fun c => { m.put b i none with destroyed := m.destroyed ++ [c.id] }

/-- Changes the value of an object, which stays the same object. -/
def modify (p : Option Nat) (i : Nat) (f : α → α) (m : Memory α) : Option (Memory α) :=
  p.bind fun b => (m.cells b i).map fun c => m.put b i (some { c with value := f c.value })

def allocate (n : Nat) (m : Memory α) : Nat × Memory α :=
  (m.nextBuffer,
    { m with
      bytes := Function.update m.bytes m.nextBuffer (some n)
      cells := Function.update m.cells m.nextBuffer fun _ => none
      nextBuffer := m.nextBuffer + 1 })

/-- Objects that still live in the buffer are gone without being destroyed. -/
def free (b : Nat) (m : Memory α) : Option (Memory α) :=
  (m.bytes b).map fun _ =>
    { m with
      bytes := Function.update m.bytes b none
      cells := Function.update m.cells b fun _ => none
      freed := m.freed ++ [b] }

/-- Destroys the objects in the first slots, from the first on. -/
def destroyFirst (p : Option Nat) : Nat → Memory α → Option (Memory α)
  | 0, m => some m
  | n + 1, m => (destroyFirst p n m).bind (destroy p n)

/-! ## Rows -/

def setRow (b : Nat) (row : Nat → Option (Cell α)) (m : Memory α) : Memory α :=
  { m with cells := Function.update m.cells b row }

/-- The objects in the buffer of the pointer are these, in the first slots. -/
structure Row (m : Memory α) (p : Option Nat) (cs : List (Cell α)) : Prop where
  null : p = none → cs = []
  cells : ∀ b, p = some b → ∀ i, m.cells b i = cs[i]?

/-- What is not allocated holds no object. -/
structure Sound (m : Memory α) : Prop where
  raw : ∀ b, m.bytes b = none → m.cells b = fun _ => none
  known : ∀ b n, m.bytes b = some n → b < m.nextBuffer
  freed : ∀ b ∈ m.freed, b < m.nextBuffer ∧ m.bytes b = none

section
variable {m m' : Memory α} {p : Option Nat} {cs : List (Cell α)} {b i n width : Nat} {x : α} {c : Cell α} {f : α → α}

theorem Row.read (h : Row m p cs) (i : Nat) : m.read p i = cs[i]? := by
  unfold Memory.read
  cases p with
  | none => rw [h.null rfl, List.getElem?_nil, Option.bind_none]
  | some b => rw [Option.bind_some, h.cells b rfl]

theorem put_row (h : Row m (some b) cs) (i : Nat) (c : Option (Cell α)) :
    m.put b i c = m.setRow b fun j => if j = i then c else cs[j]? := by
  unfold put setRow
  congr 2
  funext j
  by_cases hj : j = i
  · subst hj
    rw [Function.update_self, if_pos rfl]
  · rw [Function.update_of_ne hj, if_neg hj, h.cells b rfl]

theorem row_of_cells (h : m.cells b = fun i => cs[i]?) : Row m (some b) cs where
  null e := by cases e
  cells b' hb i := by
    cases hb
    exact congrFun h i

theorem Row.cells_eq (h : Row m (some b) cs) : m.cells b = fun i => cs[i]? := funext fun i => h.cells b rfl i

theorem getElem?_snoc (cs : List (Cell α)) (c : Cell α) (j : Nat) :
    (cs ++ [c])[j]? = if j = cs.length then some c else cs[j]? := by
  by_cases hj : j = cs.length
  · rw [if_pos hj, hj, List.getElem?_concat_length]
  · rw [if_neg hj, List.getElem?_append]
    split
    · rfl
    · rw [List.getElem?_eq_none (by simp; omega), List.getElem?_eq_none (by omega)]

theorem construct_row (h : Row m (some b) cs) (hroom : m.hasRoom width b cs.length = true) (x : α) :
    m.construct width (some b) cs.length x =
      some { m.setRow b (fun j => (cs ++ [m.fresh x])[j]?) with nextObject := m.nextObject + 1 } := by
  unfold construct
  rw [Option.bind_some, if_pos hroom, put_row h, funext (getElem?_snoc cs _)]

theorem destroy_row (h : Row m (some b) (cs ++ [c])) :
    m.destroy (some b) cs.length =
      some { m.setRow b (fun j => cs[j]?) with destroyed := m.destroyed ++ [c.id] } := by
  have hc : m.cells b cs.length = some c := (h.cells b rfl _).trans List.getElem?_concat_length
  have hrow : (fun j => if j = cs.length then none else (cs ++ [c])[j]?) = fun j => cs[j]? := by
    funext j
    rw [getElem?_snoc]
    split
    · next hj => rw [hj, List.getElem?_eq_none (Nat.le_refl _)]
    · rfl
  unfold destroy
  rw [Option.bind_some, hc, put_row h, hrow]
  rfl

theorem modify_row (h : Row m (some b) cs) (hi : i < cs.length) (f : α → α) :
    m.modify (some b) i f =
      some (m.setRow b fun j => (cs.modify i fun c => { c with value := f c.value })[j]?) := by
  have hc : m.cells b i = some cs[i] := (h.cells b rfl _).trans (List.getElem?_eq_getElem hi)
  have hrow : (fun j => if j = i then some { cs[i] with value := f cs[i].value } else cs[j]?) =
      fun j => (cs.modify i fun c => { c with value := f c.value })[j]? := by
    funext j
    rw [List.getElem?_modify]
    by_cases hj : j = i
    · subst hj
      rw [if_pos rfl, List.getElem?_eq_getElem hi]
      simp
    · simp [hj, Ne.symm hj]
  unfold Memory.modify
  rw [Option.bind_some, hc, Option.map_some, put_row h, hrow]

theorem setRow_self (h : Row m (some b) cs) : m.setRow b (fun j => cs[j]?) = m := by
  unfold setRow
  rw [← h.cells_eq, Function.update_eq_self]

theorem destroyFirst_row (h : Row m (some b) cs) (n : Nat) (hn : n ≤ cs.length) :
    m.destroyFirst (some b) n =
      some { m.setRow b (fun j => if j < n then none else cs[j]?) with
        destroyed := m.destroyed ++ (cs.take n).map Cell.id } := by
  induction n with
  | zero =>
    simp only [Nat.not_lt_zero, if_false, setRow_self h, List.take_zero, List.map_nil, List.append_nil]
    rfl
  | succ n ih =>
    have hcell : (if n < n then none else cs[n]?) = some cs[n] := by
      rw [if_neg (Nat.lt_irrefl n), List.getElem?_eq_getElem hn]
    have hrow : Function.update (fun j => if j < n then none else cs[j]?) n none =
        fun j => if j < n + 1 then none else cs[j]? := by
      funext j
      by_cases hj : j = n
      · rw [hj, Function.update_self, if_pos (Nat.lt_succ_self n)]
      · rw [Function.update_of_ne hj]
        exact if_congr (by omega) rfl rfl
    rw [destroyFirst, ih (by omega), Option.bind_some]
    unfold destroy put setRow
    rw [Option.bind_some]
    simp only [Function.update_self, hcell, Option.map_some, hrow, Function.update_idem, List.append_assoc]
    rw [List.take_succ_eq_append_getElem hn, List.map_append]
    rfl

/-! ## What an operation leaves alone -/

/-- Nothing is allocated or given back, and only the rows of some buffers change. -/
structure RowsOnly (bs : Nat → Prop) (m m' : Memory α) : Prop where
  bytes : m'.bytes = m.bytes
  nextBuffer : m'.nextBuffer = m.nextBuffer
  freed : m'.freed = m.freed
  cells : ∀ b, ¬ bs b → m'.cells b = m.cells b

theorem RowsOnly.trans {bs : Nat → Prop} {m m₁ m₂ : Memory α} (h : RowsOnly bs m m₁) (h' : RowsOnly bs m₁ m₂) :
    RowsOnly bs m m₂ where
  bytes := h'.bytes.trans h.bytes
  nextBuffer := h'.nextBuffer.trans h.nextBuffer
  freed := h'.freed.trans h.freed
  cells b hb := (h'.cells b hb).trans (h.cells b hb)

theorem sound_empty : Sound (empty : Memory α) where
  raw _ _ := rfl
  known _ _ hb := by cases hb
  freed _ hb := by cases hb

theorem Sound.rowsOnly {bs : Nat → Prop} (hs : Sound m) (h : RowsOnly bs m m') (hbs : ∀ b, bs b → m.bytes b ≠ none) :
    Sound m' where
  raw b hb := by
    rw [h.bytes] at hb
    have hnot : ¬ bs b := fun e => hbs b e hb
    rw [h.cells b hnot]
    exact hs.raw b hb
  known b n hb := by
    rw [h.bytes] at hb
    rw [h.nextBuffer]
    exact hs.known b n hb
  freed b hb := by
    rw [h.freed] at hb
    rw [h.bytes, h.nextBuffer]
    exact hs.freed b hb

theorem Sound.allocate (hs : Sound m) (n : Nat) : Sound (m.allocate n).2 where
  raw b hb := by
    by_cases he : b = m.nextBuffer
    · subst he
      exact Function.update_self _ _ _
    · have hb' : m.bytes b = none := (Function.update_of_ne he _ _).symm.trans hb
      exact (Function.update_of_ne he _ _).trans (hs.raw b hb')
  known b k hb := by
    by_cases he : b = m.nextBuffer
    · subst he
      exact Nat.lt_succ_self _
    · have hb' : m.bytes b = some k := (Function.update_of_ne he _ _).symm.trans hb
      exact Nat.lt_succ_of_lt (hs.known b k hb')
  freed b hb := by
    obtain ⟨hlt, hnone⟩ := hs.freed b hb
    exact ⟨Nat.lt_succ_of_lt hlt, (Function.update_of_ne (Nat.ne_of_lt hlt) _ _).trans hnone⟩

theorem free_some (hb : m.bytes b = some n) :
    m.free b = some { m with
      bytes := Function.update m.bytes b none
      cells := Function.update m.cells b fun _ => none
      freed := m.freed ++ [b] } := by
  unfold Memory.free
  rw [hb, Option.map_some]

theorem Sound.free (hs : Sound m) (hb : m.bytes b = some n) (hf : m.free b = some m') : Sound m' := by
  rw [free_some hb] at hf
  cases hf
  refine ⟨fun k hk => ?_, fun k l hk => ?_, fun k hk => ?_⟩
  · by_cases he : k = b
    · subst he
      exact Function.update_self _ _ _
    · have hk' : m.bytes k = none := (Function.update_of_ne he _ _).symm.trans hk
      exact (Function.update_of_ne he _ _).trans (hs.raw k hk')
  · by_cases he : k = b
    · subst he
      exact hs.known k n hb
    · have hk' : m.bytes k = some l := (Function.update_of_ne he _ _).symm.trans hk
      exact hs.known k l hk'
  · by_cases he : k = b
    · subst he
      exact ⟨hs.known k n hb, Function.update_self _ _ _⟩
    · have hk' : k ∈ m.freed := by simpa [he] using hk
      obtain ⟨hlt, hnone⟩ := hs.freed k hk'
      exact ⟨hlt, (Function.update_of_ne he _ _).trans hnone⟩

end

end Memory

end Storage
