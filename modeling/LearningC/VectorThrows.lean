import LearningC.VectorList

/-!
# Calls of vector_ that throw

The allocation, the copy of an element and the construction of the new element may throw.
A failed copy takes back the elements of the new buffer and the buffer, before the old
one has been touched; the new element is constructed when the vector is complete again.
What that constructor has done to an element of the vector before it throws stays done.
-/

namespace LearningC

open Storage Memory Custody Runs

variable {α : Type}

namespace VecState

/-- Growth fails: there is no new buffer, or the copy of an element throws. -/
def GrowthThrows (T : ElementType α) (throws : Option Throw) (s : VecState α) : Prop :=
  OutOfMemory T throws s ∨
    s.vec.size = s.vec.capacity ∧ T.noexceptMove = false ∧ ∃ k < s.vec.size, throws = some (.copy k)

/-- Size and elements are as before, what was made since and is not an element has been
destroyed once, and no buffer but the vector's own, and those of others, is allocated. -/
structure StrongGuarantee (s s' : VecState α) : Prop where
  size : s'.vec.size = s.vec.size
  elements : s'.elements = s.elements
  kept : ∀ i c, s'.mem.read s'.vec.data i = some c → c.id ∉ s'.mem.destroyed
  destroyed : ∀ e, s.mem.nextObject ≤ e → e < s'.mem.nextObject →
    (∀ i c, s'.mem.read s'.vec.data i = some c → c.id ≠ e) → s'.mem.destroyed.count e = 1
  buffers : ∀ b, s'.mem.bytes b ≠ none ↔ s'.vec.data = some b ∨ s.mem.bytes b ≠ none ∧ s.vec.data ≠ some b

/-- What the call is given exists. -/
def Alive (s : VecState α) : Args (Option Nat) α → Prop
  | .outside _ => True
  | .element p i _ _ => s.mem.read p i ≠ none

/-- The vector grows, and the constructor throws after it has used an element of the old
buffer. -/
def UsesFreed (T : ElementType α) (throws : Option Throw) (args : Args (Option Nat) α) (s : VecState α) : Prop :=
  s.vec.size = s.vec.capacity ∧ ¬ GrowthThrows T throws s ∧ ∃ progress i make leave,
    progress ≠ .unused ∧ throws = some (.construct progress) ∧ args = .element s.vec.data i make leave

/-- The constructor throws after it has changed an element of the vector. -/
def Disturbs (T : ElementType α) (throws : Option Throw) (args : Args (Option Nat) α) (s : VecState α) : Prop :=
  ¬ GrowthThrows T throws s ∧ throws = some (.construct .movedFrom) ∧ ∃ i make leave c,
    args = .element s.vec.data i make leave ∧ s.mem.read s.vec.data i = some c ∧ leave c.value ≠ c.value

/-- The elements are alive, and no number of an object is used before its time. -/
structure Numbered (s : VecState α) (cs : List (Cell α)) : Prop where
  nodup : (ids cs + s.mem.destroyed).Nodup
  lt : ∀ e ∈ ids cs + s.mem.destroyed, e < s.mem.nextObject

/-- What the operations of the class leave behind. -/
def Valid (T : ElementType α) (s : VecState α) : Prop := ∃ cs, Holds T s cs ∧ Numbered s cs

/-- The call throws exactly where an exception is raised. It leaves a valid vector, and the
one it found exactly where no element of it has been changed by the constructor. -/
structure Unwinds (T : ElementType α) (throws : Option Throw) (args : Args (Option Nat) α) (s : VecState α)
    (o : Outcome (VecState α)) : Prop where
  threw : (∃ s', o = .threw s') ↔ GrowthThrows T throws s ∨ ∃ progress, throws = some (.construct progress)
  valid : ∀ s', o = .threw s' → Valid T s'
  strong : ∀ s', o = .threw s' → (StrongGuarantee s s' ↔ ¬ Disturbs T throws args s)

section
variable {T : ElementType α} {s s' : VecState α} {cs cs' : List (Cell α)} {b nb n k : Nat} {m m' : Memory α}
  {throws : Option Throw}

theorem Accounted.numbered (h : Accounted s cs) : Numbered s cs where
  nodup := h.objects ▸ Multiset.nodup_range _
  lt e he := by
    rw [h.objects] at he
    exact Multiset.mem_range.mp he

theorem count_range (n e : Nat) : (Multiset.range n).count e = if e < n then 1 else 0 := by
  split
  · next hlt => exact Multiset.count_eq_one_of_mem (Multiset.nodup_range n) (Multiset.mem_range.mpr hlt)
  · next hge => exact Multiset.count_eq_zero.mpr fun hm => hge (Multiset.mem_range.mp hm)

/-- How often a number is there after a call, by whether it was given out before or in the call. -/
theorem Numbered.account (h : Numbered s cs) (he : Effect s cs s' cs') (e : Nat) :
    ∃ c ≤ 1, (s.mem.nextObject ≤ e → c = 0) ∧ (ids cs' + s'.mem.destroyed).count e +
      (if e < s.mem.nextObject then 1 else 0) = c + if e < s'.mem.nextObject then 1 else 0 := by
  have hobj := congrArg (Multiset.count e) he.objects
  rw [Multiset.count_add, Multiset.count_add _ (ids cs + _), count_range, count_range] at hobj
  refine ⟨(ids cs + s.mem.destroyed).count e, Multiset.nodup_iff_count_le_one.mp h.nodup e, fun hge => ?_, hobj⟩
  refine Multiset.count_eq_zero.mpr fun hm => ?_
  exact Nat.lt_irrefl e (Nat.lt_of_lt_of_le (h.lt e hm) hge)

theorem Numbered.count_le (h : Numbered s cs) (he : Effect s cs s' cs') (e : Nat) :
    (ids cs' + s'.mem.destroyed).count e ≤ 1 := by
  obtain ⟨c, hle, hzero, hc⟩ := h.account he e
  split at hc <;> split at hc <;> omega

theorem Numbered.count_new (h : Numbered s cs) (he : Effect s cs s' cs') {e : Nat} (hge : s.mem.nextObject ≤ e)
    (hlt : e < s'.mem.nextObject) : (ids cs' + s'.mem.destroyed).count e = 1 := by
  obtain ⟨c, -, hzero, hc⟩ := h.account he e
  rw [if_neg (Nat.not_lt.mpr hge), if_pos hlt, hzero hge] at hc
  omega

theorem Numbered.effect (h : Numbered s cs) (he : Effect s cs s' cs') : Numbered s' cs' where
  nodup := Multiset.nodup_iff_count_le_one.mpr fun e => h.count_le he e
  lt e hm := by
    by_contra hge
    obtain ⟨c, hle, hzero, hc⟩ := h.account he e
    have hpos := Multiset.count_pos.mpr hm
    rw [if_neg hge] at hc
    split at hc <;> omega

theorem Effect.bytes_ne_none (h : Holds T s cs) (h' : Holds T s' cs') (he : Effect s cs s' cs') (b : Nat) :
    s'.mem.bytes b ≠ none ↔ s'.vec.data = some b ∨ s.mem.bytes b ≠ none ∧ s.vec.data ≠ some b := by
  constructor
  · intro hb
    by_cases hdata' : s'.vec.data = some b
    · exact Or.inl hdata'
    · obtain ⟨n, hn⟩ := Option.ne_none_iff_exists'.mp hb
      have hbuf := congrArg (Multiset.count b) he.buffers
      simp only [Multiset.count_add] at hbuf
      have hone : (one s'.vec.data).count b = 0 := Multiset.count_eq_zero.mpr fun hm => hdata' (mem_one.mp hm)
      have hfreed : (s'.mem.freed : Multiset Nat).count b = 0 :=
        Multiset.count_eq_zero.mpr fun hm => hb (h'.sound.freed b (Multiset.mem_coe.mp hm)).2
      have hrange : (Multiset.range s'.mem.nextBuffer).count b = 1 :=
        Multiset.count_eq_one_of_mem (Multiset.nodup_range _) (Multiset.mem_range.mpr (h'.sound.known b n hn))
      have hle := Multiset.nodup_iff_count_le_one.mp (Multiset.nodup_range s.mem.nextBuffer) b
      have hdata : s.vec.data ≠ some b := by
        intro hd
        have hpos := Multiset.count_pos.mpr (mem_one.mpr hd)
        omega
      have hlt : b < s.mem.nextBuffer := by
        apply Multiset.mem_range.mp
        apply Multiset.count_pos.mp
        omega
      exact Or.inr ⟨(he.frame b hlt hdata).1 ▸ hb, hdata⟩
  · rintro (hdata | ⟨hb, hdata⟩)
    · rw [h'.buffer b hdata]
      exact Option.some_ne_none _
    · obtain ⟨n, hn⟩ := Option.ne_none_iff_exists'.mp hb
      rw [(he.frame b (h.sound.known b n hn) hdata).1]
      exact hb

theorem mem_ids_of_read (h : Holds T s cs) {i : Nat} {c : Cell α} (hr : s.mem.read s.vec.data i = some c) :
    c.id ∈ ids cs := by
  rw [h.row.read] at hr
  exact Multiset.mem_coe.mpr (List.mem_map_of_mem (List.mem_of_getElem? hr))

theorem read_of_mem_ids (h : Holds T s cs) {e : Nat} (he : e ∈ ids cs) :
    ∃ i c, s.mem.read s.vec.data i = some c ∧ c.id = e := by
  obtain ⟨c, hc, hid⟩ := List.mem_map.mp (Multiset.mem_coe.mp he)
  obtain ⟨i, hi⟩ := List.mem_iff_getElem?.mp hc
  exact ⟨i, c, (h.row.read i).trans hi, hid⟩

/-- A call that only moves the elements to other objects of the same values. -/
theorem strongGuarantee_of_effect (h : Holds T s cs) (hn : Numbered s cs) (h' : Holds T s' cs') (he : Effect s cs s' cs')
    (hv : cs'.map Cell.value = cs.map Cell.value) : StrongGuarantee s s' where
  size := by
    have hlen := congrArg List.length hv
    rw [List.length_map, List.length_map] at hlen
    rw [h'.size, h.size, hlen]
  elements := by rw [h'.elements, h.elements, hv]
  kept i c hr hm := by
    have hle := hn.count_le he c.id
    have hpos := Multiset.count_pos.mpr (mem_ids_of_read h' hr)
    have hpos' := Multiset.count_pos.mpr (Multiset.mem_coe.mpr hm)
    rw [Multiset.count_add] at hle
    omega
  destroyed e hge hlt hnot := by
    have hone := hn.count_new he hge hlt
    have hzero : (ids cs').count e = 0 := by
      refine Multiset.count_eq_zero.mpr fun hm => ?_
      obtain ⟨i, c, hr, hid⟩ := read_of_mem_ids h' hm
      exact hnot i c hr hid
    rw [Multiset.count_add, hzero, Nat.zero_add, Multiset.coe_count] at hone
    exact hone
  buffers := he.bytes_ne_none h h'

/-! ## A copy that throws -/

theorem relocateFirst_threw (hrow : Row m (some b) cs) (hnew : Row m (some nb) []) (hne : nb ≠ b)
    (hroom : ∀ i < cs.length, m.hasRoom T.sizeOf nb i = true) (hcopy : T.noexceptMove = false) (hk : k < cs.length)
    (n : Nat) (hn : k < n) :
    ∃ m', relocateFirst T (some (.copy k)) (some b) (some nb) n m = .threw (m', k) ∧ Relocated m b nb cs k m' cs := by
  induction n with
  | zero => exact absurd hn (Nat.not_lt_zero k)
  | succ n ih =>
    rcases Nat.lt_or_eq_of_le (Nat.le_of_lt_succ hn) with hlt | rfl
    · obtain ⟨m', hthrew, hrel⟩ := ih hlt
      refine ⟨m', ?_, hrel⟩
      rw [relocateFirst, hthrew]
      rfl
    · have hbefore : ∀ i < k, T.noexceptMove = true ∨ (some (Throw.copy k)) ≠ some (.copy i) := by
        intro i hi
        refine Or.inr fun e => ?_
        cases e
        exact Nat.lt_irrefl _ hi
      obtain ⟨m', old, hdone, hrel, hsame⟩ :=
        relocateFirst_spec hrow hnew hne k (Nat.le_of_lt hk) (fun i hi => hroom i (Nat.lt_trans hi hk)) hbefore
      obtain rfl := hsame hcopy
      refine ⟨m', ?_, hrel⟩
      have hread : m'.read (some b) k = some old[k] := by rw [hrel.oldRow.read, List.getElem?_eq_getElem hk]
      have hone : relocate T (some (.copy k)) (some b) (some nb) k m' = .threw m' := by
        unfold relocate
        simp [hread, hcopy]
      rw [relocateFirst, hdone]
      show (relocate T (some (.copy k)) (some b) (some nb) k m').bind _ _ = _
      rw [hone]
      rfl

theorem unwind_spec {ds : List (Cell α)} (hrow : Row m (some nb) ds) (hb : m.bytes nb = some n) :
    unwind nb ds.length m = some { m with
      bytes := Function.update m.bytes nb none
      cells := Function.update m.cells nb fun _ => none
      freed := m.freed ++ [nb]
      destroyed := m.destroyed ++ ds.map Cell.id } := by
  have hdes := destroyFirst_row hrow ds.length (Nat.le_refl _)
  rw [List.take_length] at hdes
  unfold unwind Memory.free
  rw [hdes]
  simp only [Option.bind_some, setRow, hb, Option.map_some, Function.update_idem]

theorem Holds.sameCells (h : Holds T s cs) (hb : m.bytes = s.mem.bytes) (hc : m.cells = s.mem.cells)
    (hn : s.mem.nextBuffer ≤ m.nextBuffer) (hf : ∀ b ∈ m.freed, b < m.nextBuffer ∧ m.bytes b = none) :
    Holds T ⟨m, s.vec⟩ cs where
  sound :=
    { raw := fun b e => by
        rw [hb] at e
        rw [hc]
        exact h.sound.raw b e
      known := fun b n e => by
        rw [hb] at e
        exact Nat.lt_of_lt_of_le (h.sound.known b n e) hn
      freed := hf }
  row := ⟨h.row.null, fun b e i => by rw [hc]; exact h.row.cells b e i⟩
  size := h.size
  size_le := h.size_le
  capacity := h.capacity
  fits := h.fits
  null := h.null
  buffer b e := by rw [hb]; exact h.buffer b e

theorem restored (h : Holds T s cs) (hd : s.vec.data = some b)
    (hrel : Relocated (s.mem.allocate n).2 b s.mem.nextBuffer cs k m' cs) :
    Function.update m'.bytes s.mem.nextBuffer none = s.mem.bytes ∧
      (Function.update m'.cells s.mem.nextBuffer fun _ => none) = s.mem.cells := by
  have hfresh : s.mem.bytes s.mem.nextBuffer = none := by
    by_contra hne
    obtain ⟨n, hn⟩ := Option.ne_none_iff_exists'.mp hne
    exact Nat.lt_irrefl _ (h.sound.known _ n hn)
  constructor
  · funext j
    by_cases hj : j = s.mem.nextBuffer
    · rw [hj, Function.update_self, hfresh]
    · rw [Function.update_of_ne hj, hrel.rows.bytes]
      exact Function.update_of_ne hj _ _
  · funext j
    by_cases hj : j = s.mem.nextBuffer
    · rw [hj, Function.update_self, h.sound.raw _ hfresh]
    · rw [Function.update_of_ne hj]
      by_cases hjb : j = b
      · rw [hjb, hrel.oldRow.cells_eq, (hd ▸ h.row : Row s.mem (some b) cs).cells_eq]
      · rw [hrel.rows.cells j fun e => e.elim hjb hj]
        exact Function.update_of_ne hj _ _

/-- The memory after the catch block: the buffers and the objects in them are those of
before, and one buffer and `k` objects more have come and gone. -/
theorem unwound (h : Holds T s cs) (hd : s.vec.data = some b) (hk : k ≤ cs.length)
    (hrel : Relocated (s.mem.allocate n).2 b s.mem.nextBuffer cs k m' cs) :
    ∃ m, unwind s.mem.nextBuffer k m' = some m ∧ Holds T ⟨m, s.vec⟩ cs ∧ Effect s cs ⟨m, s.vec⟩ cs := by
  have hlen : (renumber s.mem.nextObject (cs.take k)).length = k := by
    rw [length_renumber, List.length_take, Nat.min_eq_left hk]
  have hnb : m'.bytes s.mem.nextBuffer = some n := (congrFun hrel.rows.bytes _).trans (Function.update_self _ _ _)
  have hun := unwind_spec hrel.newRow hnb
  rw [show (renumber (s.mem.allocate n).2.nextObject (cs.take k)).length = k from hlen] at hun
  obtain ⟨hbytes, hcells⟩ := restored h hd hrel
  have hnext : m'.nextBuffer = s.mem.nextBuffer + 1 := hrel.rows.nextBuffer
  refine ⟨_, hun, h.sameCells hbytes hcells (by rw [hnext]; exact Nat.le_succ _) fun j hj => ?_, ?_⟩
  · rcases List.mem_append.mp hj with hj | hj
    · rw [hrel.rows.freed] at hj
      obtain ⟨hlt, hnone⟩ := h.sound.freed j hj
      refine ⟨by rw [hnext]; omega, ?_⟩
      rw [hbytes]
      exact hnone
    · rw [List.mem_singleton.mp hj]
      exact ⟨by rw [hnext]; omega, Function.update_self _ _ _⟩
  · have hfreed : m'.freed = s.mem.freed := hrel.rows.freed
    have hdestroyed : m'.destroyed = s.mem.destroyed := hrel.destroyed
    have hobj : m'.nextObject = s.mem.nextObject + k := hrel.nextObject
    refine ⟨by rw [hnext]; exact Nat.le_succ _, fun _ e => Or.inl e,
      fun j _ _ => ⟨congrFun hbytes j, congrFun hcells j⟩, ?_, ?_⟩
    · show one s.vec.data + ((m'.freed ++ [s.mem.nextBuffer] : List Nat) : Multiset Nat) + _ =
        one s.vec.data + _ + Multiset.range m'.nextBuffer
      rw [hfreed, hnext, coe_snoc, Multiset.range_succ, ← Multiset.singleton_add]
      abel
    · have hids := ids_renumber s.mem.nextObject (cs.take k)
      rw [List.length_take, Nat.min_eq_left hk] at hids
      show ids cs + ((m'.destroyed ++ (renumber s.mem.nextObject (cs.take k)).map Cell.id : List Nat) : Multiset Nat) + _ =
        ids cs + _ + Multiset.range m'.nextObject
      rw [hdestroyed, hobj, ← hids, ← Multiset.coe_add]
      show ids cs + (_ + ids (renumber s.mem.nextObject (cs.take k))) + _ = _
      abel

theorem reallocate_threw (h : Holds T s cs) {newCap : Nat} (hr : ¬ Refuses T (some (.copy k)) newCap)
    (hbytes : newCap * T.sizeOf < 2 ^ 64) (hcap : cs.length ≤ newCap) (hcopy : T.noexceptMove = false)
    (hk : k < cs.length) :
    ∃ s', reallocate T (some (.copy k)) newCap s = .threw s' ∧ Holds T s' cs ∧ Effect s cs s' cs := by
  have hmod : newCap * T.sizeOf % 2 ^ 64 = newCap * T.sizeOf := Nat.mod_eq_of_lt hbytes
  have hle := h.size_le
  have hsize := h.size
  obtain ⟨b, hd⟩ := h.exists_buffer (by omega)
  obtain ⟨hrow, hne, hfit⟩ := allocate_rows h hd (n := newCap * T.sizeOf) (Nat.mul_le_mul_right T.sizeOf hcap)
  obtain ⟨m', hloop, hrel⟩ :=
    relocateFirst_threw hrow (allocate_newRow s.mem _) hne hfit hcopy hk s.vec.size (hsize ▸ hk)
  obtain ⟨m, hun, hholds, heffect⟩ := unwound h hd (Nat.le_of_lt hk) hrel
  refine ⟨⟨m, s.vec⟩, ?_, hholds, heffect⟩
  rw [← hd] at hloop
  unfold reallocate
  rw [allocate_spec hr, hmod]
  simp only [Memory.allocate] at hloop ⊢
  simp only [hloop, hun]

/-! ## A constructor that throws -/

theorem Holds.modifyOther (h : Holds T s cs) {p : Option Nat} {i : Nat} {f : α → α} (hm : s.mem.modify p i f = some m)
    (hp : p ≠ s.vec.data) : Holds T ⟨m, s.vec⟩ cs ∧ ∀ j, m.read s.vec.data j = s.mem.read s.vec.data j := by
  obtain ⟨b, rfl, hb⟩ := Option.bind_eq_some_iff.mp hm
  obtain ⟨c, hc, rfl⟩ := Option.map_eq_some_iff.mp hb
  have hrows : RowsOnly (fun k => k = b) s.mem (s.mem.put b i (some { c with value := f c.value })) :=
    ⟨rfl, rfl, rfl, fun k hk => Function.update_of_ne hk _ _⟩
  have hlive : s.mem.bytes b ≠ none := by
    intro hnone
    rw [h.sound.raw b hnone] at hc
    cases hc
  have hcells : ∀ k, s.vec.data = some k → (s.mem.put b i (some { c with value := f c.value })).cells k = s.mem.cells k :=
    fun k hk => hrows.cells k fun e => hp (e ▸ hk.symm)
  refine ⟨⟨h.sound.rowsOnly hrows fun k hk => hk ▸ hlive, ⟨h.row.null, fun k hk j => ?_⟩, h.size, h.size_le, h.capacity,
    h.fits, h.null, h.buffer⟩, fun j => ?_⟩
  · rw [hcells k hk]
    exact h.row.cells k hk j
  · cases hd : s.vec.data with
    | none => rfl
    | some k => exact congrFun (hcells k hd) j

theorem modify_account {m m' : Memory α} {p : Option Nat} {i : Nat} {f : α → α} (h : m.modify p i f = some m') :
    m'.bytes = m.bytes ∧ m'.nextObject = m.nextObject ∧ m'.destroyed = m.destroyed := by
  obtain ⟨b, -, hb⟩ := Option.bind_eq_some_iff.mp h
  obtain ⟨c, -, rfl⟩ := Option.map_eq_some_iff.mp hb
  exact ⟨rfl, rfl, rfl⟩

theorem StrongGuarantee.modifyOther (h : StrongGuarantee s s') {p : Option Nat} {i : Nat} {f : α → α}
    (hm : s'.mem.modify p i f = some m) (hread : ∀ j, m.read s'.vec.data j = s'.mem.read s'.vec.data j) :
    StrongGuarantee s ⟨m, s'.vec⟩ := by
  obtain ⟨hbytes, hnext, hgone⟩ := modify_account hm
  refine ⟨h.size, ?_, fun j c hr => ?_, fun e hge hlt hnot => ?_, fun b => ?_⟩
  · rw [← h.elements]
    unfold VecState.elements
    simp only [hread]
  · rw [hread] at hr
    show c.id ∉ m.destroyed
    rw [hgone]
    exact h.kept j c hr
  · rw [show (⟨m, s'.vec⟩ : VecState α).mem = m from rfl, hnext] at hlt
    show m.destroyed.count e = 1
    rw [hgone]
    exact h.destroyed e hge hlt fun j c hr => hnot j c ((hread j).trans hr)
  · show m.bytes b ≠ none ↔ _
    rw [hbytes]
    exact h.buffers b

theorem Numbered.modifyOther (h : Numbered s cs) {p : Option Nat} {i : Nat} {f : α → α}
    (hm : s.mem.modify p i f = some m) : Numbered ⟨m, s.vec⟩ cs := by
  obtain ⟨-, hnext, hgone⟩ := modify_account hm
  refine ⟨?_, fun e he => ?_⟩
  · show (ids cs + (m.destroyed : Multiset Nat)).Nodup
    rw [hgone]
    exact h.nodup
  · have he' : e ∈ ids cs + (m.destroyed : Multiset Nat) := he
    rw [hgone] at he'
    show e < m.nextObject
    rw [hnext]
    exact h.lt e he'

theorem Alive.known (h : Holds T s cs) {b i : Nat} (hr : s.mem.read (some b) i ≠ none) : b < s.mem.nextBuffer := by
  have hbytes : s.mem.bytes b ≠ none := by
    intro hnone
    exact hr (congrFun (h.sound.raw b hnone) i)
  obtain ⟨n, hn⟩ := Option.ne_none_iff_exists'.mp hbytes
  exact h.sound.known b n hn

/-- After growth the elements of other vectors are where they were. -/
theorem read_grown (h : Holds T s cs) (he : Effect s cs s' cs') {p : Option Nat} {i : Nat} (hr : s.mem.read p i ≠ none)
    (hp : p ≠ s.vec.data) : s'.mem.read p i = s.mem.read p i ∧ p ≠ s'.vec.data := by
  cases p with
  | none => exact absurd rfl hr
  | some b =>
    have hlt := Alive.known h hr
    refine ⟨congrFun (he.frame b hlt (Ne.symm hp)).2 i, fun e => ?_⟩
    rcases he.data b e.symm with hd | hge
    · exact hp hd.symm
    · exact Nat.lt_irrefl b (Nat.lt_of_lt_of_le hlt hge)

theorem interrupt_of_read {args : Args (Option Nat) α} {progress : Progress}
    (h : ∀ p i make leave, progress ≠ .unused → args = .element p i make leave → m.read p i ≠ none) :
    ∃ m', interrupt progress args m = some m' := by
  cases args with
  | outside x => exact ⟨m, rfl⟩
  | element p i make leave =>
    cases progress with
    | unused => exact ⟨m, rfl⟩
    | read =>
      obtain ⟨c, hc⟩ := Option.ne_none_iff_exists'.mp (h p i make leave (by simp) rfl)
      exact ⟨m, congrArg (Option.map _) hc⟩
    | movedFrom =>
      obtain ⟨c, hc⟩ := Option.ne_none_iff_exists'.mp (h p i make leave (by simp) rfl)
      obtain ⟨b, rfl, hb⟩ := Option.bind_eq_some_iff.mp hc
      exact ⟨_, congrArg (Option.map _) hb⟩

theorem constructBack_threw {args : Args (Option Nat) α} (ht : constructBack T throws args s = .threw s') :
    ∃ progress m, throws = some (.construct progress) ∧ interrupt progress args s.mem = some m ∧ s' = ⟨m, s.vec⟩ := by
  unfold constructBack at ht
  split at ht
  · next progress =>
    split at ht
    · next m hm =>
      cases ht
      exact ⟨progress, m, rfl, hm, rfl⟩
    · cases ht
  · cases ho : append T args s with
    | none =>
      rw [ho] at ht
      cases ht
    | some s₁ =>
      rw [ho] at ht
      cases ht

/-! ## The whole call -/

theorem grow_cases (h : Holds T s cs) (throws : Option Throw) :
    (∃ s' cs', grow T throws s = .done s' ∧ Holds T s' cs' ∧ Effect s cs s' cs' ∧
        cs'.map Cell.value = cs.map Cell.value ∧ ¬ GrowthThrows T throws s ∧
        (s.vec.size = s.vec.capacity ∨ s' = s ∧ cs' = cs)) ∨
      ∃ s', grow T throws s = .threw s' ∧ Holds T s' cs ∧ Effect s cs s' cs ∧ GrowthThrows T throws s := by
  by_cases ho : OutOfMemory T throws s
  · refine Or.inr ⟨s, ?_, h, Effect.refl s cs, Or.inl ho⟩
    unfold grow
    rw [if_pos ho.1, reallocate_refused ho.2]
  · by_cases hc : s.vec.size = s.vec.capacity ∧ T.noexceptMove = false ∧ ∃ k < s.vec.size, throws = some (.copy k)
    · obtain ⟨hfull, hcopy, k, hk, rfl⟩ := hc
      have hsize := h.size
      obtain ⟨hbytes, hlt, -⟩ := newCapacity_spec h
      have hr : ¬ Refuses T (some (.copy k)) (newCapacity s.vec.capacity) := fun hr => ho ⟨hfull, hr⟩
      obtain ⟨s', hre, hholds, heffect⟩ := reallocate_threw h hr hbytes (by omega) hcopy (by omega)
      refine Or.inr ⟨s', ?_, hholds, heffect, Or.inr ⟨hfull, hcopy, k, hk, rfl⟩⟩
      unfold grow
      rw [if_pos hfull, hre]
    · by_cases hfull : s.vec.size = s.vec.capacity
      · have ht : ∀ i < cs.length, T.noexceptMove = true ∨ throws ≠ some (.copy i) := by
          intro i hi
          by_contra hnot
          obtain ⟨hmove, hthrow⟩ := not_or.mp hnot
          exact hc ⟨hfull, Bool.eq_false_iff.mpr hmove, i, h.size ▸ hi, not_not.mp hthrow⟩
        obtain ⟨s', cs', hg, hholds, heffect, hvalues, -⟩ := grow_spec h ho ht
        exact Or.inl ⟨s', cs', hg, hholds, heffect, hvalues, fun hr => hr.elim ho hc, Or.inl hfull⟩
      · exact Or.inl ⟨s, cs, if_neg hfull, h, Effect.refl s cs, rfl, fun hr => hr.elim ho hc, Or.inr ⟨rfl, rfl⟩⟩

section
variable {args : Args (Option Nat) α}

/-- The constructor finds its argument, if the growth has not taken it. -/
theorem interrupt_grown (h : Holds T s cs) (he : Effect s cs s' cs') (hnot : ¬ GrowthThrows T throws s)
    (hcase : s.vec.size = s.vec.capacity ∨ s' = s ∧ cs' = cs) (ha : s.Alive args) (hf : ¬ UsesFreed T throws args s)
    {progress : Progress} (ht : throws = some (.construct progress)) : ∃ m, interrupt progress args s'.mem = some m := by
  apply interrupt_of_read
  intro p i make leave hused hargs
  have hr : s.mem.read p i ≠ none := by
    rw [hargs] at ha
    exact ha
  by_cases hp : p = s.vec.data
  · rcases hcase with hfull | ⟨rfl, -⟩
    · exact absurd ⟨hfull, hnot, progress, i, make, leave, hused, ht, hp ▸ hargs⟩ hf
    · exact hr
  · rw [(read_grown h he hr hp).1]
    exact hr

theorem emplaceBack_threw_iff (h : Holds T s cs) (ha : s.Alive args) (hf : ¬ UsesFreed T throws args s) :
    (∃ s', emplaceBack T throws args s = .threw s') ↔
      GrowthThrows T throws s ∨ ∃ progress, throws = some (.construct progress) := by
  rcases grow_cases h throws with ⟨s₁, cs₁, hg, -, heffect, -, hnot, hcase⟩ | ⟨s₁, hg, -, -, hthrows⟩
  · rw [emplaceBack_grown hg]
    constructor
    · rintro ⟨s', ht⟩
      obtain ⟨progress, m, ht, -, -⟩ := constructBack_threw ht
      exact Or.inr ⟨progress, ht⟩
    · intro hr
      obtain ⟨progress, ht⟩ := hr.resolve_left hnot
      obtain ⟨m, hm⟩ := interrupt_grown h heffect hnot hcase ha hf ht
      refine ⟨⟨m, s₁.vec⟩, ?_⟩
      unfold constructBack
      simp only [ht, hm]
  · refine iff_of_true ⟨s₁, ?_⟩ (Or.inl hthrows)
    unfold emplaceBack
    rw [hg]
    rfl

theorem threw_ownElement (h : Holds T s cs) (hn : Numbered s cs) {i : Nat} {leave : α → α} {c : Cell α}
    (hr : s.mem.read s.vec.data i = some c) (hm : s.mem.modify s.vec.data i leave = some m) :
    Valid T ⟨m, s.vec⟩ ∧ (StrongGuarantee s ⟨m, s.vec⟩ ↔ leave c.value = c.value) := by
  have hget : cs[i]? = some c := (h.row.read i).symm.trans hr
  obtain ⟨hi, hc⟩ := List.getElem?_eq_some_iff.mp hget
  obtain ⟨m₁, hm₁, hholds, heffect⟩ := modify_spec h hi leave
  cases hm₁.symm.trans hm
  have hvalue : (cs.map Cell.value)[i]? = some c.value := by rw [List.getElem?_map, hget, Option.map_some]
  refine ⟨⟨_, hholds, hn.effect heffect⟩, fun hs => ?_, fun hleave => ?_⟩
  · have hsame := hs.elements
    rw [hholds.elements, h.elements, map_value_modify] at hsame
    have hat := congrArg (fun l : List (Option α) => l[i]?) hsame
    simp only [List.getElem?_map, List.getElem?_modify_eq, hget, Option.map_some] at hat
    exact Option.some.inj (Option.some.inj hat)
  · refine strongGuarantee_of_effect h hn hholds heffect ?_
    rw [map_value_modify]
    apply List.ext_getElem?
    intro j
    rw [List.getElem?_modify]
    by_cases hij : i = j
    · subst hij
      rw [hvalue]
      simp [hleave]
    · simp [hij]

theorem threw_constructing (h : Holds T s cs) (hn : Numbered s cs) (hholds : Holds T s' cs') (heffect : Effect s cs s' cs')
    (hvalues : cs'.map Cell.value = cs.map Cell.value) (hnot : ¬ GrowthThrows T throws s)
    (hcase : s.vec.size = s.vec.capacity ∨ s' = s ∧ cs' = cs) (ha : s.Alive args) (hf : ¬ UsesFreed T throws args s)
    {progress : Progress} (ht : throws = some (.construct progress)) (hm : interrupt progress args s'.mem = some m) :
    Valid T ⟨m, s'.vec⟩ ∧ (StrongGuarantee s ⟨m, s'.vec⟩ ↔ ¬ Disturbs T throws args s) := by
  have hstrong := strongGuarantee_of_effect h hn hholds heffect hvalues
  rcases interrupt_cases hm with ⟨rfl, hunmoved⟩ | ⟨p, i, make, leave, rfl, rfl, hmod⟩
  · refine ⟨⟨cs', hholds, hn.effect heffect⟩, iff_of_true hstrong ?_⟩
    rintro ⟨-, hmoved, i, make, leave, c, hargs, -, -⟩
    cases ht.symm.trans hmoved
    obtain ⟨x, hx⟩ := hunmoved rfl
    cases hx.symm.trans hargs
  · by_cases hp : p = s.vec.data
    · subst hp
      rcases hcase with hfull | ⟨rfl, rfl⟩
      · exact absurd ⟨hfull, hnot, _, i, make, leave, by simp, ht, rfl⟩ hf
      · obtain ⟨c, hc⟩ := Option.ne_none_iff_exists'.mp ha
        obtain ⟨hvalid, hiff⟩ := threw_ownElement h hn hc hmod
        refine ⟨hvalid, hiff.trans ⟨?_, fun hd => ?_⟩⟩
        · rintro hleave ⟨-, -, i', make', leave', c', hargs, hc', hne⟩
          cases hargs
          cases hc.symm.trans hc'
          exact hne hleave
        · by_contra hne
          exact hd ⟨hnot, ht, i, make, leave, c, rfl, hc, hne⟩
    · obtain ⟨-, hp'⟩ := read_grown h heffect ha hp
      obtain ⟨hholds', hread⟩ := hholds.modifyOther hmod hp'
      refine ⟨⟨cs', hholds', (hn.effect heffect).modifyOther hmod⟩, iff_of_true (hstrong.modifyOther hmod hread) ?_⟩
      rintro ⟨-, -, i', make', leave', c, hargs, -, -⟩
      cases hargs
      exact hp rfl

theorem emplaceBack_unwinds (h : Holds T s cs) (hn : Numbered s cs) (ha : s.Alive args)
    (hf : ¬ UsesFreed T throws args s) : Unwinds T throws args s (s.emplaceBack T throws args) := by
  have hboth : ∀ s', s.emplaceBack T throws args = .threw s' →
      Valid T s' ∧ (StrongGuarantee s s' ↔ ¬ Disturbs T throws args s) := by
    intro s' ht
    rcases grow_cases h throws with ⟨s₁, cs₁, hg, hholds, heffect, hvalues, hnot, hcase⟩ | ⟨s₁, hg, hholds, heffect, hthrows⟩
    · rw [emplaceBack_grown hg] at ht
      obtain ⟨progress, m, hthrow, hm, rfl⟩ := constructBack_threw ht
      exact threw_constructing h hn hholds heffect hvalues hnot hcase ha hf hthrow hm
    · unfold emplaceBack at ht
      rw [hg] at ht
      cases ht
      exact ⟨⟨cs, hholds, hn.effect heffect⟩,
        iff_of_true (strongGuarantee_of_effect h hn hholds heffect rfl) fun hd => hd.1 hthrows⟩
  exact ⟨emplaceBack_threw_iff h ha hf, fun s' ht => (hboth s' ht).1, fun s' ht => (hboth s' ht).2⟩

end

theorem not_disturbs_copied (obj : Ref (Option Nat) α) : ¬ Disturbs T throws obj.copied s := by
  rintro ⟨-, -, i, make, leave, c, hargs, -, hne⟩
  cases obj with
  | outside x => cases hargs
  | element p j =>
    cases hargs
    exact hne rfl

/-- **Strong guarantee.** Where a call that adds an element does not use one that its own
growth has destroyed, it throws exactly where an exception is raised, and then the vector
has its elements and nothing else is left behind, unless the constructor has changed an
element of the vector. The overload that copies never does. -/
theorem strongGuarantee_iff_undisturbed (hv : Valid T s) (throws : Option Throw) :
    (∀ args, s.Alive args → ¬ UsesFreed T throws args s → Unwinds T throws args s (s.emplaceBack T throws args)) ∧
    (∀ obj, s.Alive obj.copied → ¬ UsesFreed T throws obj.copied s →
      Unwinds T throws obj.copied s (s.pushBack T throws obj) ∧
        ∀ s', s.pushBack T throws obj = .threw s' → StrongGuarantee s s') ∧
    ∀ obj, s.Alive (obj.moved T) → ¬ UsesFreed T throws (obj.moved T) s →
      Unwinds T throws (obj.moved T) s (s.pushBackMove T throws obj) := by
  obtain ⟨cs, h, hn⟩ := hv
  refine ⟨fun args ha hf => emplaceBack_unwinds h hn ha hf, fun obj ha hf => ?_, fun obj ha hf => emplaceBack_unwinds h hn ha hf⟩
  have hunwinds : Unwinds T throws obj.copied s (s.pushBack T throws obj) := emplaceBack_unwinds h hn ha hf
  exact ⟨hunwinds, fun s' ht => (hunwinds.strong s' ht).mpr (not_disturbs_copied obj)⟩

theorem valid_init : Valid T (init : VecState α) := ⟨[], holds_null sound_empty, Accounted.numbered ⟨rfl, rfl⟩⟩

/-- Whatever calls have made of a vector is valid. -/
theorem valid_of_kept {t : Tracked α} (h : t.Kept T) (hs : t.state = some s) : Valid T s := by
  obtain ⟨s', cs, hs', hholds, haccounted, -⟩ := h
  cases hs.symm.trans hs'
  exact ⟨cs, hholds, haccounted.numbered⟩

theorem valid_emplaceBack {x : α} (hv : Valid T s) (hc : Calm throws)
    (hd : s.emplaceBack T throws (.outside x) = .done s') : Valid T s' := by
  obtain ⟨cs, h, hn⟩ := hv
  by_cases ho : OutOfMemory T throws s
  · cases (emplaceBack_outOfMemory ho _).symm.trans hd
  · obtain ⟨s₁, cs₁, hdone, hholds, heffect, -⟩ := emplaceBack_outside h ho hc x
    cases hdone.symm.trans hd
    exact ⟨cs₁, hholds, hn.effect heffect⟩

end

def copiedInt : ElementType Int := { ElementType.int with noexceptMove := false }

/-- A second element, when the copy of the first one throws. -/
theorem strongGuarantee_copy : ∃ s s' : VecState Int, init.emplaceBack copiedInt none (.outside 5) = .done s ∧
    s.emplaceBack copiedInt (some (.copy 0)) (.outside 6) = .threw s' ∧ StrongGuarantee s s' := by
  obtain ⟨s, hdone, hvec⟩ : ∃ s : VecState Int, init.emplaceBack copiedInt none (.outside 5) = .done s ∧
      s.vec = { data := some 0, size := 1, capacity := 1 } := ⟨_, rfl, rfl⟩
  have hv : Valid copiedInt s := valid_emplaceBack valid_init (Or.inl rfl) hdone
  have hraise : GrowthThrows copiedInt (some (.copy 0)) s := by
    unfold GrowthThrows
    rw [hvec]
    exact Or.inr ⟨rfl, rfl, 0, by decide, rfl⟩
  have hunwinds := (strongGuarantee_iff_undisturbed hv (some (.copy 0))).1 (.outside 6) trivial fun hf => hf.2.1 hraise
  obtain ⟨s', hthrew⟩ := hunwinds.threw.mpr (Or.inl hraise)
  exact ⟨s, s', hdone, hthrew, (hunwinds.strong s' hthrew).mpr fun hd => hd.1 hraise⟩

def movedInt : ElementType Int := { copiedInt with moveOut := fun _ => 0 }

/-- `push_back(std::move(v[0]))` with room for it, when the move constructor throws after
it has emptied the element. -/
theorem not_strongGuarantee_moved : ¬ ∀ (T : ElementType Int) (s s' : VecState Int) (throws : Option Throw)
    (obj : Ref (Option Nat) Int), Valid T s → s.Alive (obj.moved T) → s.pushBackMove T throws obj = .threw s' →
      StrongGuarantee s s' := by
  intro h
  have hv₁ := valid_emplaceBack (x := 5) (T := movedInt) valid_init (Or.inl rfl) rfl
  have hv₂ := valid_emplaceBack (x := 6) hv₁ (Or.inl rfl) rfl
  have hv₃ := valid_emplaceBack (x := 7) hv₂ (Or.inl rfl) rfl
  have hs := h movedInt _ _ (some (.construct .movedFrom)) (.element (some 2) 0) hv₃ (Option.some_ne_none _) rfl
  exact absurd hs.elements (by decide)

end VecState

end LearningC
