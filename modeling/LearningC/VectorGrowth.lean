import LearningC.VectorOps

/-!
# How a vector grows

A full vector gets a buffer of twice the capacity, whose elements are made from the old
ones one after another, and gives the old one back. An argument that is an element of the
vector itself is gone by the time it is read.
-/

namespace LearningC

open Storage Memory Custody

variable {α : Type}

namespace VecState

section
variable {T : ElementType α} {s s₁ s₂ : VecState α} {cs cs₁ cs₂ : List (Cell α)} {b : Nat}

/-! ## Growth -/

/-- The elements in a new buffer. -/
def renumber (k : Nat) (cs : List (Cell α)) : List (Cell α) := cs.mapIdx fun i c => ⟨k + i, c.value⟩

theorem renumber_snoc (k : Nat) (cs : List (Cell α)) (c : Cell α) :
    renumber k (cs ++ [c]) = renumber k cs ++ [⟨k + cs.length, c.value⟩] := by
  unfold renumber
  simp [List.mapIdx_append]

theorem length_renumber (k : Nat) (cs : List (Cell α)) : (renumber k cs).length = cs.length := List.length_mapIdx

theorem values_renumber (k : Nat) (cs : List (Cell α)) : (renumber k cs).map Cell.value = cs.map Cell.value := by
  induction cs using List.reverseRecOn with
  | nil => rfl
  | append_singleton cs c ih => rw [renumber_snoc, List.map_append, List.map_append, ih]; rfl

theorem ids_renumber (k : Nat) (cs : List (Cell α)) :
    ids (renumber k cs) + Multiset.range k = Multiset.range (k + cs.length) := by
  induction cs using List.reverseRecOn with
  | nil => exact zero_add _
  | append_singleton cs c ih =>
    rw [renumber_snoc, ids_append, List.length_append, List.length_singleton, ← Nat.add_assoc,
      Multiset.range_succ, ← ih, ← Multiset.singleton_add]
    show ids (renumber k cs) + {k + cs.length} + _ = _
    abel

/-- After `n` elements: the old buffer still has all of them, the new one its copies. -/
structure Relocated (m : Memory α) (b nb : Nat) (cs : List (Cell α)) (n : Nat) (m' : Memory α)
    (old : List (Cell α)) : Prop where
  oldRow : Row m' (some b) old
  sameIds : old.map Cell.id = cs.map Cell.id
  rest : old.drop n = cs.drop n
  newRow : Row m' (some nb) (renumber m.nextObject (cs.take n))
  rows : RowsOnly (fun k => k = b ∨ k = nb) m m'
  nextObject : m'.nextObject = m.nextObject + n
  destroyed : m'.destroyed = m.destroyed

section
variable {m m' : Memory α} {nb n : Nat} {old : List (Cell α)}

theorem Relocated.getElem? (h : Relocated m b nb cs n m' old) : old[n]? = cs[n]? := by
  have hhead := congrArg (fun l => l[0]?) h.rest
  simpa using hhead

theorem Relocated.construct (h : Relocated m b nb cs n m' old) (hne : nb ≠ b) (hn : n < cs.length)
    (hroom : m.hasRoom T.sizeOf nb n = true) :
    ∃ m₁, m'.construct T.sizeOf (some nb) n cs[n].value = some m₁ ∧ Row m₁ (some b) old ∧
      Row m₁ (some nb) (renumber m.nextObject (cs.take (n + 1))) ∧
      RowsOnly (fun k => k = b ∨ k = nb) m m₁ ∧ m₁.nextObject = m.nextObject + (n + 1) ∧
      m₁.destroyed = m.destroyed := by
  have hlen : (renumber m.nextObject (cs.take n)).length = n := by
    rw [length_renumber, List.length_take]
    omega
  have hroom' : m'.hasRoom T.sizeOf nb (renumber m.nextObject (cs.take n)).length = true := by
    rw [hlen, ← hroom]
    unfold hasRoom
    rw [h.rows.bytes]
  have hsnoc : renumber m.nextObject (cs.take n) ++ [m'.fresh cs[n].value] =
      renumber m.nextObject (cs.take (n + 1)) := by
    rw [List.take_succ_eq_append_getElem hn, renumber_snoc, List.length_take, Nat.min_eq_left (Nat.le_of_lt hn)]
    unfold fresh
    rw [h.nextObject]
  have hrows : RowsOnly (fun k => k = b ∨ k = nb) m'
      { m'.setRow nb (fun j => (renumber m.nextObject (cs.take (n + 1)))[j]?) with nextObject := m'.nextObject + 1 } :=
    ⟨rfl, rfl, rfl, fun k hk => Function.update_of_ne (fun e => hk (Or.inr e)) _ _⟩
  have hcon := construct_row h.newRow hroom' cs[n].value
  rw [hlen, hsnoc] at hcon
  refine ⟨_, hcon, row_of_cells ?_, row_of_cells (Function.update_self _ _ _), h.rows.trans hrows, ?_, h.destroyed⟩
  · exact (Function.update_of_ne (Ne.symm hne) _ _).trans h.oldRow.cells_eq
  · show m'.nextObject + 1 = _
    rw [h.nextObject, Nat.add_assoc]

theorem relocate_spec (h : Relocated m b nb cs n m' old) (hne : nb ≠ b) (hn : n < cs.length)
    (hroom : m.hasRoom T.sizeOf nb n = true) {throws : Option Throw}
    (ht : T.noexceptMove = true ∨ throws ≠ some (.copy n)) :
    ∃ m₁ old₁, relocate T throws (some b) (some nb) n m' = .done m₁ ∧ Relocated m b nb cs (n + 1) m₁ old₁ ∧
      (T.noexceptMove = false → old₁ = old) := by
  obtain ⟨m₁, hcon, hold, hnew, hrows, hnext, hdes⟩ := h.construct hne hn hroom
  have hread : m'.read (some b) n = some cs[n] := by
    rw [h.oldRow.read, h.getElem?, List.getElem?_eq_getElem hn]
  have hlen : old.length = cs.length := by
    have := congrArg List.length h.sameIds
    simpa using this
  have hrest : old.drop (n + 1) = cs.drop (n + 1) := by
    rw [← List.drop_drop, ← List.drop_drop, h.rest]
  unfold relocate
  rw [hread]
  by_cases hmove : T.noexceptMove = true
  · have hmod := modify_row hold (hlen ▸ hn) T.moveOut
    have hmrows : RowsOnly (fun k => k = b ∨ k = nb) m₁
        (m₁.setRow b fun j => (old.modify n (withValue T.moveOut))[j]?) :=
      ⟨rfl, rfl, rfl, fun k hk => Function.update_of_ne (fun e => hk (Or.inl e)) _ _⟩
    have hnew' : Row (m₁.setRow b fun j => (old.modify n (withValue T.moveOut))[j]?) (some nb)
        (renumber m.nextObject (cs.take (n + 1))) :=
      row_of_cells ((Function.update_of_ne hne _ _).trans hnew.cells_eq)
    refine ⟨m₁.setRow b fun j => (old.modify n (withValue T.moveOut))[j]?, old.modify n (withValue T.moveOut), ?_,
      ⟨row_of_cells (Function.update_self _ _ _), (map_id_modify _ _ _).trans h.sameIds, ?_, hnew', hrows.trans hmrows,
        hnext, hdes⟩, fun e => by cases hmove.symm.trans e⟩
    · simp only [hmove, if_true, hcon, Option.bind_some]
      exact congrArg Outcome.ofOption hmod
    · rw [List.drop_modify_of_lt _ _ _ _ (Nat.lt_succ_self n), hrest]
  · have hcopy := ht.resolve_left hmove
    refine ⟨m₁, old, ?_, ⟨hold, h.sameIds, hrest, hnew, hrows, hnext, hdes⟩, fun _ => rfl⟩
    simp only [hmove, if_neg hcopy, hcon]
    rfl

theorem relocateFirst_spec (hrow : Row m (some b) cs) (hnew : Row m (some nb) []) (hne : nb ≠ b)
    {throws : Option Throw} (n : Nat) (hn : n ≤ cs.length) (hroom : ∀ i < n, m.hasRoom T.sizeOf nb i = true)
    (ht : ∀ i < n, T.noexceptMove = true ∨ throws ≠ some (.copy i)) :
    ∃ m' old, relocateFirst T throws (some b) (some nb) n m = .done (m', n) ∧ Relocated m b nb cs n m' old ∧
      (T.noexceptMove = false → old = cs) := by
  induction n with
  | zero => exact ⟨m, cs, rfl, ⟨hrow, rfl, rfl, hnew, ⟨rfl, rfl, rfl, fun _ _ => rfl⟩, rfl, rfl⟩, fun _ => rfl⟩
  | succ n ih =>
    obtain ⟨m₁, old, hfirst, hrel, hsame⟩ := ih (by omega) (fun i hi => hroom i (by omega)) fun i hi => ht i (by omega)
    obtain ⟨m₂, old₂, hone, hrel₂, hsame₂⟩ :=
      relocate_spec hrel hne (by omega) (hroom n (Nat.lt_succ_self n)) (ht n (Nat.lt_succ_self n))
    refine ⟨m₂, old₂, ?_, hrel₂, fun e => (hsame₂ e).trans (hsame e)⟩
    rw [relocateFirst, hfirst]
    show (relocate T throws (some b) (some nb) n m₁).bind _ _ = _
    rw [hone]
    rfl

end

def Refuses (T : ElementType α) (throws : Option Throw) (newCap : Nat) : Prop :=
  throws = some .alloc ∨ 2 ^ 63 ≤ newCap * T.sizeOf % 2 ^ 64

theorem allocate_refused {throws : Option Throw} {newCap : Nat} (hr : Refuses T throws newCap) (m : Memory α) :
    VecState.allocate T throws newCap m = none := if_pos hr

theorem allocate_spec {throws : Option Throw} {newCap : Nat} (hr : ¬ Refuses T throws newCap) (m : Memory α) :
    VecState.allocate T throws newCap m = some (m.allocate (newCap * T.sizeOf % 2 ^ 64)) := if_neg hr

theorem reallocate_refused {throws : Option Throw} {newCap : Nat} (hr : Refuses T throws newCap) :
    reallocate T throws newCap s = .threw s := by
  unfold reallocate
  rw [allocate_refused hr]

theorem reallocate_done {throws : Option Throw} {newCap nb n : Nat} {m₁ m₂ : Memory α} {s₃ s₄ : VecState α}
    (ha : VecState.allocate T throws newCap s.mem = some (nb, m₁))
    (hl : relocateFirst T throws s.vec.data (some nb) s.vec.size m₁ = .done (m₂, n))
    (hc : clear ⟨m₂, s.vec⟩ = some s₃) (hd : s₃.dellocate = some s₄) :
    reallocate T throws newCap s = .done ⟨s₄.mem, { data := some nb, size := n, capacity := newCap }⟩ := by
  unfold reallocate
  rw [ha]
  simp only [hl, hc, Option.bind_some, hd]
  rfl

/-- After all elements, with `n` bytes in the new buffer. -/
structure RelocatedAll (s : VecState α) (cs : List (Cell α)) (n : Nat) (m' : Memory α) (old : List (Cell α)) : Prop where
  oldRow : Row m' s.vec.data old
  sameIds : old.map Cell.id = cs.map Cell.id
  newRow : Row m' (some s.mem.nextBuffer) (renumber s.mem.nextObject cs)
  rows : RowsOnly (fun k => s.vec.data = some k ∨ k = s.mem.nextBuffer) (s.mem.allocate n).2 m'
  nextObject : m'.nextObject = s.mem.nextObject + cs.length
  destroyed : m'.destroyed = s.mem.destroyed

/-- The memory after `allocate`, as the loop over the elements finds it. -/
theorem allocate_rows (h : Holds T s cs) (hd : s.vec.data = some b) {n : Nat} (hroom : cs.length * T.sizeOf ≤ n) :
    Row (s.mem.allocate n).2 (some b) cs ∧ s.mem.nextBuffer ≠ b ∧
      ∀ i < cs.length, (s.mem.allocate n).2.hasRoom T.sizeOf s.mem.nextBuffer i = true := by
  have hne : s.mem.nextBuffer ≠ b := Ne.symm (Nat.ne_of_lt (h.known hd))
  refine ⟨row_of_cells ((Function.update_of_ne (Ne.symm hne) _ _).trans (hd ▸ h.row).cells_eq), hne, fun i hi => ?_⟩
  have hbytes : (s.mem.allocate n).2.bytes s.mem.nextBuffer = some n := Function.update_self _ _ _
  unfold hasRoom
  rw [hbytes]
  exact decide_eq_true (Nat.le_trans (Nat.mul_le_mul_right T.sizeOf hi) hroom)

theorem allocate_newRow (m : Memory α) (n : Nat) : Row (m.allocate n).2 (some m.nextBuffer) [] :=
  row_of_cells (Function.update_self _ _ _)

theorem relocateAll_spec (h : Holds T s cs) {throws : Option Throw} {n : Nat} (hroom : cs.length * T.sizeOf ≤ n)
    (ht : ∀ i < cs.length, T.noexceptMove = true ∨ throws ≠ some (.copy i)) :
    ∃ m' old, relocateFirst T throws s.vec.data (some s.mem.nextBuffer) s.vec.size (s.mem.allocate n).2 =
        .done (m', cs.length) ∧ RelocatedAll s cs n m' old := by
  rw [h.size]
  cases hd : s.vec.data with
  | none =>
    have hnil : cs = [] := h.row.null hd
    subst hnil
    exact ⟨_, [], rfl, ⟨fun _ => rfl, fun b e => by cases hd.symm.trans e⟩, rfl, allocate_newRow s.mem n,
      ⟨rfl, rfl, rfl, fun _ _ => rfl⟩, rfl, rfl⟩
  | some b =>
    obtain ⟨hrow, hne, hfit⟩ := allocate_rows h hd hroom
    obtain ⟨m', old, hloop, hrel, -⟩ :=
      relocateFirst_spec hrow (allocate_newRow s.mem n) hne cs.length (Nat.le_refl _) hfit ht
    have hnewRow := hrel.newRow
    rw [List.take_length] at hnewRow
    refine ⟨m', old, hloop, hd ▸ hrel.oldRow, hrel.sameIds, hnewRow, ?_, hrel.nextObject, hrel.destroyed⟩
    exact ⟨hrel.rows.bytes, hrel.rows.nextBuffer, hrel.rows.freed, fun k hk => hrel.rows.cells k fun e =>
      hk (e.imp (fun e => hd.trans (congrArg some e.symm)) id)⟩

section
variable {n : Nat} {m₂ : Memory α} {old : List (Cell α)} {s₄ : VecState α}

theorem RelocatedAll.nextBuffer (hr : RelocatedAll s cs n m₂ old) : m₂.nextBuffer = s.mem.nextBuffer + 1 :=
  hr.rows.nextBuffer

theorem RelocatedAll.bytes_of_ne (hr : RelocatedAll s cs n m₂ old) {k : Nat} (hk : k ≠ s.mem.nextBuffer) :
    m₂.bytes k = s.mem.bytes k :=
  (congrFun hr.rows.bytes k).trans (Function.update_of_ne hk _ _)

/-- The vector with its old buffer, whose elements may have been moved from. -/
theorem RelocatedAll.holds (hr : RelocatedAll s cs n m₂ old) (h : Holds T s cs) : Holds T ⟨m₂, s.vec⟩ old where
  sound := (h.sound.allocate _).rowsOnly hr.rows fun k hk e => by
    rcases hk with hk | rfl
    · have hk' := (Function.update_of_ne (Nat.ne_of_lt (h.known hk)) _ _).symm.trans e
      rw [h.buffer k hk] at hk'
      cases hk'
    · cases (Function.update_self _ _ _).symm.trans e
  row := hr.oldRow
  size := by
    have hlen := congrArg List.length hr.sameIds
    rw [List.length_map, List.length_map] at hlen
    exact h.size.trans hlen.symm
  size_le := h.size_le
  capacity := h.capacity
  fits := h.fits
  null := h.null
  buffer k hk := (hr.bytes_of_ne (Nat.ne_of_lt (h.known hk))).trans (h.buffer k hk)

theorem RelocatedAll.newHolds {newCap : Nat} (hr : RelocatedAll s cs (newCap * T.sizeOf) m₂ old) (h : Holds T s cs)
    (hcap : cs.length ≤ newCap) (hpow : ∃ k, newCap = 2 ^ k) (hfits : newCap * T.sizeOf < 2 ^ 63)
    (hs : Holds T s₄ []) (he : Effect ⟨m₂, s.vec⟩ old s₄ []) :
    Holds T ⟨s₄.mem, { data := some s.mem.nextBuffer, size := cs.length, capacity := newCap }⟩
      (renumber s.mem.nextObject cs) := by
  have hnext := hr.nextBuffer
  have hnot : s.vec.data ≠ some s.mem.nextBuffer := fun e => Nat.lt_irrefl _ (h.known e)
  obtain ⟨hbytes, hcells⟩ := he.frame s.mem.nextBuffer (by show _ < m₂.nextBuffer; omega) hnot
  exact
    { sound := hs.sound
      row := row_of_cells (hcells.trans hr.newRow.cells_eq)
      size := (length_renumber _ _).symm
      size_le := hcap
      capacity := Or.inr hpow
      fits := hfits
      null := fun e => by cases e
      buffer := fun k e => by
        cases e
        rw [hbytes]
        exact (congrFun hr.rows.bytes _).trans (Function.update_self _ _ _) }

theorem RelocatedAll.effect (hr : RelocatedAll s cs n m₂ old) (he : Effect ⟨m₂, s.vec⟩ old s₄ [])
    (hnull : s₄.vec.data = none) (size capacity : Nat) :
    Effect s cs ⟨s₄.mem, { data := some s.mem.nextBuffer, size, capacity }⟩ (renumber s.mem.nextObject cs) where
  next_le := by
    have hnext := hr.nextBuffer
    have hle : m₂.nextBuffer ≤ s₄.mem.nextBuffer := he.next_le
    show s.mem.nextBuffer ≤ s₄.mem.nextBuffer
    omega
  data k e := by
    cases e
    exact Or.inr (Nat.le_refl _)
  frame k hk hdata := by
    have hnext := hr.nextBuffer
    have hne : k ≠ s.mem.nextBuffer := Nat.ne_of_lt hk
    have hnot : ¬ (s.vec.data = some k ∨ k = s.mem.nextBuffer) := not_or.mpr ⟨hdata, hne⟩
    obtain ⟨hb, hc⟩ := he.frame k (by show k < m₂.nextBuffer; omega) hdata
    rw [hb, hc]
    exact ⟨hr.bytes_of_ne hne, (hr.rows.cells k hnot).trans (Function.update_of_ne hne _ _)⟩
  buffers := by
    have hb := he.buffers
    rw [hnull, hr.rows.freed, hr.nextBuffer, Multiset.range_succ, ← Multiset.singleton_add, ← add_assoc,
      show one (none : Option Nat) + (s₄.mem.freed : Multiset Nat) = s₄.mem.freed from zero_add _,
      add_comm (s₄.mem.freed : Multiset Nat)] at hb
    exact hb
  objects := by
    have hids : ids old = ids cs := congrArg (fun l : List Nat => (l : Multiset Nat)) hr.sameIds
    have ho := he.objects
    rw [ids_nil, zero_add, hr.nextObject, ← ids_renumber, ← add_assoc, hids, hr.destroyed,
      add_comm (s₄.mem.destroyed : Multiset Nat)] at ho
    exact ho

end

theorem reallocate_spec (h : Holds T s cs) {throws : Option Throw} {newCap : Nat} (hr : ¬ Refuses T throws newCap)
    (hbytes : newCap * T.sizeOf < 2 ^ 64) (hcap : cs.length ≤ newCap) (hpow : ∃ k, newCap = 2 ^ k)
    (ht : ∀ i < cs.length, T.noexceptMove = true ∨ throws ≠ some (.copy i)) :
    ∃ s', reallocate T throws newCap s = .done s' ∧ Holds T s' (renumber s.mem.nextObject cs) ∧
      Effect s cs s' (renumber s.mem.nextObject cs) ∧ s'.vec.capacity = newCap ∧
      ∀ b, s.vec.data = some b → s'.mem.bytes b = none := by
  have hmod : newCap * T.sizeOf % 2 ^ 64 = newCap * T.sizeOf := Nat.mod_eq_of_lt hbytes
  have hfits : newCap * T.sizeOf < 2 ^ 63 := by
    have := (not_or.mp hr).2
    omega
  obtain ⟨m₂, old, hloop, hall⟩ :=
    relocateAll_spec h (n := newCap * T.sizeOf) (Nat.mul_le_mul_right T.sizeOf hcap) ht
  -- the old elements are destroyed and their buffer given back only now
  obtain ⟨s₃, hclear, hholds₃, heffect₃, hvec₃⟩ := clear_spec (hall.holds h)
  obtain ⟨s₄, hdel, hholds₄, heffect₄, hnull₄, hfree⟩ := dellocate_spec hholds₃
  have heffect := heffect₃.trans heffect₄
  refine ⟨⟨s₄.mem, { data := some s.mem.nextBuffer, size := cs.length, capacity := newCap }⟩, ?_,
    hall.newHolds h hcap hpow hfits hholds₄ heffect, hall.effect heffect hnull₄ _ _, rfl, fun k hk => ?_⟩
  · exact reallocate_done (hmod ▸ allocate_spec hr s.mem) hloop hclear hdel
  · exact hfree k (by rw [hvec₃]; exact hk)

/-! ## Adding an element -/

/-- The vector is full and `operator new` refuses the new buffer. -/
def OutOfMemory (T : ElementType α) (throws : Option Throw) (s : VecState α) : Prop :=
  s.vec.size = s.vec.capacity ∧ Refuses T throws (newCapacity s.vec.capacity)

/-- The doubled capacity of a buffer of less than 2^63 bytes. -/
theorem newCapacity_fits (T : ElementType α) {capacity : Nat} (hfits : capacity * T.sizeOf < 2 ^ 63) :
    capacity * 2 < 2 ^ 64 ∧ newCapacity capacity * T.sizeOf < 2 ^ 64 := by
  have hlt := T.sizeOf_lt
  have hle : capacity ≤ capacity * T.sizeOf := Nat.le_mul_of_pos_right _ T.sizeOf_pos
  refine ⟨by omega, ?_⟩
  unfold newCapacity
  by_cases hz : capacity = 0
  · rw [if_pos hz]
    omega
  · rw [if_neg hz, Nat.mod_eq_of_lt (by omega), Nat.mul_right_comm]
    omega

theorem newCapacity_spec (h : Holds T s cs) : newCapacity s.vec.capacity * T.sizeOf < 2 ^ 64 ∧
    s.vec.capacity < newCapacity s.vec.capacity ∧
    (s.vec.capacity = 0 ∨ (∃ k, s.vec.capacity = 2 ^ k) → ∃ k, newCapacity s.vec.capacity = 2 ^ k) := by
  obtain ⟨hdouble, hbytes⟩ := newCapacity_fits T h.fits
  refine ⟨hbytes, ?_⟩
  unfold newCapacity
  by_cases hz : s.vec.capacity = 0
  · rw [if_pos hz]
    exact ⟨by omega, fun _ => ⟨0, rfl⟩⟩
  · rw [if_neg hz, Nat.mod_eq_of_lt hdouble]
    refine ⟨by omega, fun hpow => ?_⟩
    obtain ⟨k, hk⟩ := hpow.resolve_left hz
    exact ⟨k + 1, by rw [hk, Nat.pow_succ]⟩

theorem emplaceBack_outOfMemory {throws : Option Throw} (ho : OutOfMemory T throws s) (args : Args (Option Nat) α) :
    emplaceBack T throws args s = .threw s := by
  unfold emplaceBack grow
  rw [if_pos ho.1, reallocate_refused ho.2]
  rfl

/-- After growth there is room, and the elements are as before in a new buffer or in the
old one. -/
theorem grow_spec (h : Holds T s cs) {throws : Option Throw} (ho : ¬ OutOfMemory T throws s)
    (ht : ∀ i < cs.length, T.noexceptMove = true ∨ throws ≠ some (.copy i)) :
    ∃ s' cs', grow T throws s = .done s' ∧ Holds T s' cs' ∧ Effect s cs s' cs' ∧
      cs'.map Cell.value = cs.map Cell.value ∧ s'.vec.size < s'.vec.capacity ∧
      s.vec.capacity ≤ s'.vec.capacity ∧
      (s.vec.size = s.vec.capacity ∧ (∀ b, s.vec.data = some b → s'.mem.bytes b = none) ∨
        s.vec.size ≠ s.vec.capacity ∧ s' = s ∧ cs' = cs) := by
  have hsize := h.size
  have hle := h.size_le
  unfold grow
  by_cases hfull : s.vec.size = s.vec.capacity
  · obtain ⟨hbytes, hlt, hpow⟩ := newCapacity_spec h
    have hr : ¬ Refuses T throws (newCapacity s.vec.capacity) := fun hr => ho ⟨hfull, hr⟩
    obtain ⟨s', hre, hholds, heffect, hcap, hfree⟩ := reallocate_spec h hr hbytes (by omega) (hpow h.capacity) ht
    refine ⟨s', _, by rw [if_pos hfull, hre], hholds, heffect, values_renumber _ _, ?_, by omega, Or.inl ⟨hfull, hfree⟩⟩
    rw [hholds.size, length_renumber]
    omega
  · exact ⟨s, cs, if_neg hfull, h, Effect.refl s cs, rfl, by omega, Nat.le_refl _, Or.inr ⟨hfull, rfl, rfl⟩⟩

theorem constructBack_returns {throws : Option Throw} (ht : ∀ progress, throws ≠ some (.construct progress))
    (args : Args (Option Nat) α) : constructBack T throws args s = .ofOption (append T args s) := by
  unfold constructBack
  split
  · next progress => exact absurd rfl (ht progress)
  · rfl

theorem append_element {p : Option Nat} {i : Nat} {make leave : α → α} {c : Cell α} {mem : Memory α}
    (hread : s.mem.read p i = some c)
    (hc : s.mem.construct T.sizeOf s.vec.data s.vec.size (make c.value) = some mem) :
    append T (.element p i make leave) s =
      (mem.modify p i leave).map fun mem => ⟨mem, { s.vec with size := s.vec.size + 1 }⟩ := by
  unfold append
  simp only [hread, Option.bind_some, hc]

theorem append_dangling {p : Option Nat} {i : Nat} {make leave : α → α} (hread : s.mem.read p i = none) :
    append T (.element p i make leave) s = none := by
  unfold append
  simp only [hread, Option.bind_none]

theorem interrupt_cases {progress : Progress} {args : Args (Option Nat) α} {m m' : Memory α}
    (h : interrupt progress args m = some m') :
    m' = m ∧ (progress = .movedFrom → ∃ x, args = .outside x) ∨
      ∃ p i make leave, progress = .movedFrom ∧ args = .element p i make leave ∧ m.modify p i leave = some m' := by
  cases args with
  | outside x =>
    cases h
    exact Or.inl ⟨rfl, fun _ => ⟨x, rfl⟩⟩
  | element p i make leave =>
    cases progress with
    | unused =>
      cases h
      exact Or.inl ⟨rfl, fun e => by cases e⟩
    | read =>
      obtain ⟨c, -, rfl⟩ := Option.map_eq_some_iff.mp h
      exact Or.inl ⟨rfl, fun e => by cases e⟩
    | movedFrom => exact Or.inr ⟨p, i, make, leave, rfl, rfl, h⟩

theorem emplaceBack_grown {throws : Option Throw} {args : Args (Option Nat) α} (hg : grow T throws s = .done s₁) :
    emplaceBack T throws args s = constructBack T throws args s₁ := by
  unfold emplaceBack
  rw [hg]
  rfl

/-- No constructor throws. -/
def Calm (throws : Option Throw) : Prop := throws = none ∨ throws = some .alloc

theorem Calm.not_construct {throws : Option Throw} (hc : Calm throws) (progress : Progress) :
    throws ≠ some (.construct progress) := by
  rintro rfl
  rcases hc with h | h <;> cases h

theorem Calm.not_copy {throws : Option Throw} (hc : Calm throws) (k : Nat) :
    T.noexceptMove = true ∨ throws ≠ some (.copy k) := by
  right
  rintro rfl
  rcases hc with h | h <;> cases h

section
variable {throws : Option Throw} {i : Nat}

theorem emplaceBack_outside (h : Holds T s cs) (ho : ¬ OutOfMemory T throws s) (hc : Calm throws) (x : α) :
    ∃ s' cs', emplaceBack T throws (.outside x) s = .done s' ∧ Holds T s' cs' ∧ Effect s cs s' cs' ∧
      cs'.map Cell.value = cs.map Cell.value ++ [x] ∧ s.vec.capacity ≤ s'.vec.capacity := by
  obtain ⟨s₁, cs₁, hg, hholds, heffect, hvalues, hlt, hcap, -⟩ := grow_spec h ho fun k _ => hc.not_copy k
  obtain ⟨mem, hcon, hholds', heffect'⟩ := construct_spec hholds hlt x
  refine ⟨_, _, ?_, hholds', heffect.trans heffect', ?_, hcap⟩
  · rw [emplaceBack_grown hg, constructBack_returns hc.not_construct]
    unfold append
    simp only [hcon]
    rfl
  · rw [List.map_append, hvalues]
    rfl

theorem emplaceBack_other (make leave : α → α) (h : Holds T s cs) (ho : ¬ OutOfMemory T throws s) (hc : Calm throws) {b : Nat}
    (hlt : b < s.mem.nextBuffer) (hne : s.vec.data ≠ some b) {c : Cell α} (hread : s.mem.read (some b) i = some c) :
    ∃ s' cs', emplaceBack T throws (.element (some b) i make leave) s =
        .ofOption ((s'.mem.modify (some b) i leave).map fun mem => ⟨mem, s'.vec⟩) ∧
      Holds T s' cs' ∧ Effect s cs s' cs' ∧ cs'.map Cell.value = cs.map Cell.value ++ [make c.value] ∧
      s.vec.capacity ≤ s'.vec.capacity := by
  obtain ⟨s₁, cs₁, hg, hholds, heffect, hvalues, hroom, hcap, -⟩ := grow_spec h ho fun k _ => hc.not_copy k
  obtain ⟨mem, hcon, hholds', heffect'⟩ := construct_spec hholds hroom (make c.value)
  have hread₁ : s₁.mem.read (some b) i = some c := by
    rw [← hread]
    exact congrFun (heffect.frame b hlt hne).2 i
  refine ⟨_, _, ?_, hholds', heffect.trans heffect', ?_, hcap⟩
  · rw [emplaceBack_grown hg, constructBack_returns hc.not_construct, append_element hread₁ hcon]
  · rw [List.map_append, hvalues]
    rfl

theorem emplaceBack_own (make leave : α → α) (h : Holds T s cs) (hroom : s.vec.size ≠ s.vec.capacity) (hc : Calm throws)
    (hi : i < cs.length) :
    ∃ s' cs', emplaceBack T throws (.element s.vec.data i make leave) s = .done s' ∧ Holds T s' cs' ∧
      Effect s cs s' cs' ∧
      cs'.map Cell.value = (cs.map Cell.value ++ [make cs[i].value]).modify i leave ∧
      s.vec.capacity ≤ s'.vec.capacity := by
  have hle := h.size_le
  have hread : s.mem.read s.vec.data i = some cs[i] := by rw [h.row.read, List.getElem?_eq_getElem hi]
  obtain ⟨mem, hcon, hholds, heffect⟩ := construct_spec h (by omega) (make cs[i].value)
  have hi' : i < (cs ++ [s.mem.fresh (make cs[i].value)]).length := by
    rw [List.length_append]
    omega
  obtain ⟨mem', hmod, hholds', heffect'⟩ := modify_spec hholds hi' leave
  refine ⟨_, _, ?_, hholds', heffect.trans heffect', ?_, Nat.le_refl _⟩
  · rw [emplaceBack_grown (if_neg hroom), constructBack_returns hc.not_construct, append_element hread hcon]
    exact congrArg Outcome.ofOption (congrArg (Option.map _) hmod)
  · rw [map_value_modify, List.map_append]
    rfl

/-- An argument in the vector's own buffer, when the vector grows: it is destroyed and
its buffer given back before it is read. -/
theorem emplaceBack_own_growing (make leave : α → α) (h : Holds T s cs) (hfull : s.vec.size = s.vec.capacity)
    (ho : ¬ OutOfMemory T throws s) (hc : Calm throws) :
    emplaceBack T throws (.element s.vec.data i make leave) s = .undefined := by
  obtain ⟨s₁, cs₁, hg, hholds, -, -, -, -, hcase⟩ := grow_spec h ho fun k _ => hc.not_copy k
  rw [emplaceBack_grown hg, constructBack_returns hc.not_construct, append_dangling]
  · rfl
  rcases hcase with ⟨-, hfree⟩ | ⟨hroom, -⟩
  · cases hd : s.vec.data with
    | none => rfl
    | some b => exact congrFun (hholds.sound.raw b (hfree b hd)) i
  · exact absurd hfull hroom

end

/-- The argument of the call is an element of the vector itself, `v`, and the call makes
the vector grow. -/
def SelfGrowth {ι : Type} (T : ElementType α) (v : ι) (s : VecState α) (call : VecCall ι α) : Prop :=
  (∃ i make leave, call.args T = some (.element v i make leave)) ∧ s.vec.size = s.vec.capacity ∧
    ¬ Refuses T call.throws (newCapacity s.vec.capacity)

end

end VecState

/-! ## Calls -/

section
variable {T : ElementType α} {ι π : Type}

theorem VecCall.calm (call : VecCall ι α) : VecState.Calm call.throws := by
  have hoom : ∀ oom : Bool, VecState.Calm (if oom then some .alloc else none) := by
    intro oom
    cases oom
    · exact Or.inl rfl
    · exact Or.inr rfl
  cases call with
  | pushBack obj oom => exact hoom oom
  | pushBackMove obj oom => exact hoom oom
  | emplaceBack args oom => exact hoom oom
  | popBack => exact Or.inl rfl
  | clear => exact Or.inl rfl

theorem VecCall.not_selfGrowth {call : VecCall ι α} {v : ι} {s : VecState α}
    (h : ∀ i make leave, call.args T ≠ some (.element v i make leave)) : ¬ VecState.SelfGrowth T v s call := by
  rintro ⟨⟨i, make, leave, he⟩, -⟩
  exact h i make leave he

theorem Ref.map_copied (f : ι → π) (obj : Ref ι α) : (obj.map f).copied = obj.copied.map f := by
  cases obj <;> rfl

theorem Ref.map_moved (f : ι → π) (obj : Ref ι α) : (obj.map f).moved T = (obj.moved T).map f := by
  cases obj <;> rfl

theorem VecCall.apply_args {call : VecCall ι α} {args : Args ι α} {data : ι → Option Nat}
    (ha : call.args T = some args) (s : VecState α) :
    call.apply T data s = s.emplaceBack T call.throws (args.map data) := by
  cases call with
  | pushBack obj oom =>
    cases ha
    exact congrArg (fun a => s.emplaceBack T _ a) (obj.map_copied data)
  | pushBackMove obj oom =>
    cases ha
    exact congrArg (fun a => s.emplaceBack T _ a) (obj.map_moved data)
  | emplaceBack args oom =>
    cases ha
    rfl
  | popBack => cases ha
  | clear => cases ha

end

end LearningC
