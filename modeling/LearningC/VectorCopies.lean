import LearningC.Runs
import LearningC.VectorGrowth

/-!
# Several vectors and their copies

Every live vector has a buffer of its own, or none, until one is copied: the class leaves
copying to the compiler, and what the compiler generates copies the pointer.
-/

namespace LearningC

open Storage Memory Custody Runs VecState

variable {α : Type}

structure World (α : Type) where
  mem : Memory α
  live : Finset Nat
  vec : Nat → Vec

/-- Calls on vector `v`, and what makes, copies and destroys vectors. -/
inductive WorldOp (α : Type)
  | construct (v : Nat)
  | call (v : Nat) (call : VecCall Nat α)
  | copyConstruct (v u : Nat)
  | copyAssign (v u : Nat)
  | destroy (v : Nat)

namespace World

variable (T : ElementType α)

def init : World α where
  mem := Memory.empty
  live := ∅
  vec := fun _ => { data := none, size := 0, capacity := 0 }

def state (w : World α) (v : Nat) : VecState α := { mem := w.mem, vec := w.vec v }

def setState (v : Nat) (s : VecState α) (w : World α) : World α :=
  { w with mem := s.mem, vec := Function.update w.vec v s.vec }

def Legal (w : World α) : WorldOp α → Prop
  | .construct v => v ∉ w.live
  | .call v call => v ∈ w.live ∧ ∀ args ∈ call.args T, args.InRange fun u => if u ∈ w.live then (w.vec u).size else 0
  | .copyConstruct v u => v ∉ w.live ∧ u ∈ w.live
  | .copyAssign v u => v ∈ w.live ∧ u ∈ w.live
  | .destroy v => v ∈ w.live

instance (w : World α) : (op : WorldOp α) → Decidable (w.Legal T op)
  | .construct v => inferInstanceAs (Decidable (v ∉ w.live))
  | .call v call => inferInstanceAs (Decidable (v ∈ w.live ∧
      ∀ args ∈ call.args T, args.InRange fun u => if u ∈ w.live then (w.vec u).size else 0))
  | .copyConstruct v u => inferInstanceAs (Decidable (v ∉ w.live ∧ u ∈ w.live))
  | .copyAssign v u => inferInstanceAs (Decidable (v ∈ w.live ∧ u ∈ w.live))
  | .destroy v => inferInstanceAs (Decidable (v ∈ w.live))

def create (v : Nat) (x : Vec) (w : World α) : World α :=
  { w with live := insert v w.live, vec := Function.update w.vec v x }

/-- `vector_() = default`. -/
def construct (v : Nat) (w : World α) : World α := w.create v { data := none, size := 0, capacity := 0 }

def afterCall (v : Nat) (w : World α) : Outcome (VecState α) → Option (World α)
  | .done s | .threw s => some (w.setState v s)
  | .undefined => none

def callOn (v : Nat) (call : VecCall Nat α) (w : World α) : Option (World α) :=
  w.afterCall v (call.apply T (fun u => (w.vec u).data) (w.state v))

/-- The generated copy constructor copies the three members. -/
def copyConstruct (v u : Nat) (w : World α) : World α := w.create v (w.vec u)

/-- And so does the generated assignment. -/
def copyAssign (v u : Nat) (w : World α) : World α := { w with vec := Function.update w.vec v (w.vec u) }

def destroy (v : Nat) (w : World α) : Option (World α) :=
  (w.state v).destructor.map fun mem => { w with mem, live := w.live.erase v }

def next (w : World α) : WorldOp α → Option (World α)
  | .construct v => some (w.construct v)
  | .call v call => w.callOn T v call
  | .copyConstruct v u => some (w.copyConstruct v u)
  | .copyAssign v u => some (w.copyAssign v u)
  | .destroy v => w.destroy v

/-- There is no world any more after undefined behaviour. -/
def step (w : Option (World α)) (op : WorldOp α) : Option (Option (World α)) :=
  w.bind fun w => if w.Legal T op then some (w.next T op) else none

/-! ## Buffers and their owners -/

/-- No two vectors have one buffer, each buffer belongs to one vector or was given back
once, and all were given back once when no vector is left. -/
structure Separate (w : World α) : Prop where
  apart : ∀ u ∈ w.live, ∀ v ∈ w.live, ∀ b, (w.vec u).data = some b → (w.vec v).data = some b → u = v
  once : ∀ b < w.mem.nextBuffer,
    (∃ v ∈ w.live, (w.vec v).data = some b) ∧ w.mem.freed.count b = 0 ∨
      (∀ v ∈ w.live, (w.vec v).data ≠ some b) ∧ w.mem.freed.count b = 1
  complete : w.live = ∅ → ∀ b < w.mem.nextBuffer, w.mem.freed.count b = 1

/-- The vectors that an operation may change: the one it is called on, and the one from
which the argument is moved. -/
def Changes (op : WorldOp α) (v : Nat) : Prop :=
  match op with
  | .call u call => v = u ∨ ∃ i make leave, call.args T = some (.element v i make leave) ∧ leave ≠ id
  | .copyAssign u _ => v = u
  | _ => False

def KeepsOthers (w : World α) (op : WorldOp α) (w' : World α) : Prop :=
  ∀ v ∈ w.live, v ∈ w'.live → ¬ Changes T op v → (w'.state v).elements = (w.state v).elements

/-- Nothing is copied but null pointers, over null pointers, and no call makes a vector
grow from one of its own elements. -/
def Harmless (w : World α) : WorldOp α → Prop
  | .call v call => ¬ SelfGrowth T v (w.state v) call
  | .copyConstruct _ u => (w.vec u).data = none
  | .copyAssign v u => v = u ∨ (w.vec v).data = none ∧ (w.vec u).data = none
  | .construct _ | .destroy _ => True

/-! ## One vector changes -/

/-- Every live vector holds a list, and their buffers and those given back are all the
buffers. -/
structure Kept (T : ElementType α) (w : World α) (cs : Nat → List (Cell α)) : Prop where
  sound : Sound w.mem
  holds : ∀ v ∈ w.live, Holds T (w.state v) (cs v)
  buffers : held w.live (fun v => one (w.vec v).data) + w.mem.freed = Multiset.range w.mem.nextBuffer

section
variable {T : ElementType α} {w w' : World α} {cs : Nat → List (Cell α)} {ds : List (Cell α)} {s' : VecState α}
  {u v b : Nat}

theorem Kept.data_unique (h : Kept T w cs) (hu : u ∈ w.live) (hv : v ∈ w.live) (hbu : (w.vec u).data = some b)
    (hbv : (w.vec v).data = some b) : u = v :=
  holder_unique (Multiset.nodup_range _) h.buffers hu hv (mem_one.mpr hbu) (mem_one.mpr hbv)

theorem Kept.known (h : Kept T w cs) (hv : v ∈ w.live) (hb : (w.vec v).data = some b) : b < w.mem.nextBuffer :=
  (h.holds v hv).known hb

theorem moved {a b f f' x x' r : Multiset Nat} (hmove : a + x' = b + x) (h : b + f' + (x + f) = a + f + r) :
    x' + f' = r := by
  apply add_left_cancel (a := a + f)
  calc a + f + (x' + f') = a + x' + f' + f := by abel
    _ = b + f' + (x + f) := by rw [hmove]; abel
    _ = a + f + r := h

theorem Kept.setState (h : Kept T w cs) (hv : v ∈ w.live) (hs : Holds T s' ds) (he : Effect (w.state v) (cs v) s' ds) :
    Kept T (w.setState v s') (Function.update cs v ds) where
  sound := hs.sound
  holds u hu := by
    by_cases huv : u = v
    · subst huv
      have hstate : (w.setState u s').state u = s' := by
        show VecState.mk s'.mem (Function.update w.vec u s'.vec u) = s'
        rw [Function.update_self]
      rw [hstate, Function.update_self]
      exact hs
    · have hold := h.holds u hu
      have hstate : (w.setState v s').state u = ⟨s'.mem, w.vec u⟩ := by
        show VecState.mk s'.mem (Function.update w.vec v s'.vec u) = _
        rw [Function.update_of_ne huv]
      have hkeep : ∀ b, (w.vec u).data = some b → s'.mem.bytes b = w.mem.bytes b ∧ s'.mem.cells b = w.mem.cells b :=
        fun b hb => he.frame b (h.known hu hb) fun hbv => huv (h.data_unique hu hv hb hbv)
      rw [hstate, Function.update_of_ne huv]
      exact
        { sound := hs.sound
          row := ⟨hold.row.null, fun b hb i => by rw [(hkeep b hb).2]; exact hold.row.cells b hb i⟩
          size := hold.size
          size_le := hold.size_le
          capacity := hold.capacity
          fits := hold.fits
          null := hold.null
          buffer := fun b hb => by rw [(hkeep b hb).1]; exact hold.buffer b hb }
  buffers := by
    have hmove : one (w.vec v).data + held w.live (fun k => one (Function.update w.vec v s'.vec k).data) =
        one s'.vec.data + held w.live fun k => one (w.vec k).data :=
      held_update (fun x => one x.data) w.vec s'.vec hv
    have hb : one s'.vec.data + s'.mem.freed + Multiset.range w.mem.nextBuffer =
        one (w.vec v).data + w.mem.freed + Multiset.range s'.mem.nextBuffer := he.buffers
    show held w.live (fun k => one (Function.update w.vec v s'.vec k).data) + (s'.mem.freed : Multiset Nat) =
      Multiset.range s'.mem.nextBuffer
    rw [← h.buffers] at hb
    exact moved hmove hb

theorem Kept.create (h : Kept T w cs) (hv : v ∉ w.live) {x : Vec} (hx : Holds T ⟨w.mem, x⟩ []) (hnull : x.data = none) :
    Kept T (w.create v x) (Function.update cs v []) where
  sound := h.sound
  holds u hu := by
    by_cases huv : u = v
    · subst huv
      show Holds T ⟨w.mem, Function.update w.vec u x u⟩ _
      rw [Function.update_self, Function.update_self]
      exact hx
    · show Holds T ⟨w.mem, Function.update w.vec v x u⟩ _
      rw [Function.update_of_ne huv, Function.update_of_ne huv]
      exact h.holds u ((Finset.mem_insert.mp hu).resolve_left huv)
  buffers := by
    show held (Insert.insert v w.live) (fun k => one (Function.update w.vec v x k).data) + (w.mem.freed : Multiset Nat) = _
    rw [held_insert (fun x : Vec => one x.data) w.vec x hv, hnull]
    exact (congrArg (· + _) (zero_add _)).trans h.buffers

theorem Kept.erase (h : Kept T w cs) (hv : v ∈ w.live) (hnull : (w.vec v).data = none) :
    Kept T { w with live := w.live.erase v } cs where
  sound := h.sound
  holds u hu := h.holds u (Finset.mem_of_mem_erase hu)
  buffers := by
    have hsplit : one (w.vec v).data + held (w.live.erase v) (fun k => one (w.vec k).data) =
        held w.live fun k => one (w.vec k).data := held_erase hv
    rw [hnull] at hsplit
    have hzero : held (w.live.erase v) (fun k => one (w.vec k).data) = held w.live fun k => one (w.vec k).data :=
      (zero_add _).symm.trans hsplit
    show held (w.live.erase v) (fun k => one (w.vec k).data) + (w.mem.freed : Multiset Nat) = _
    rw [hzero]
    exact h.buffers

/-! ## What follows for the buffers -/

theorem Kept.separate (h : Kept T w cs) : Separate w where
  apart u hu v hv b hbu hbv := h.data_unique hu hv hbu hbv
  once b hb := by
    have hall := Multiset.nodup_range w.mem.nextBuffer
    rcases held_or_gone h.buffers (Multiset.mem_range.mpr hb) with ⟨v, hv, hbv⟩ | hgone
    · refine Or.inl ⟨⟨v, hv, mem_one.mp hbv⟩, ?_⟩
      rw [← Multiset.coe_count]
      exact Multiset.count_eq_zero.mpr (not_gone hall h.buffers hv hbv)
    · refine Or.inr ⟨fun v hv hbv => not_gone hall h.buffers hv (mem_one.mpr hbv) hgone, ?_⟩
      rw [← Multiset.coe_count]
      exact Multiset.count_eq_one_of_mem (nodup_gone hall h.buffers) hgone
  complete hlive b hb := by
    rcases held_or_gone h.buffers (Multiset.mem_range.mpr hb) with ⟨v, hv, -⟩ | hgone
    · rw [hlive] at hv
      cases hv
    · rw [← Multiset.coe_count]
      exact Multiset.count_eq_one_of_mem (nodup_gone (Multiset.nodup_range _) h.buffers) hgone

theorem Kept.elements_eq {cs' : Nat → List (Cell α)} (h : Kept T w cs) (h' : Kept T w' cs') (hv : v ∈ w.live)
    (hv' : v ∈ w'.live) (hcs : (cs' v).map Cell.value = (cs v).map Cell.value) :
    (w'.state v).elements = (w.state v).elements := by
  rw [(h.holds v hv).elements, (h'.holds v hv').elements, hcs]

/-! ## One call -/

theorem setState_self (w : World α) (v : Nat) : w.setState v (w.state v) = w := by
  unfold World.setState state
  rw [Function.update_eq_self]

theorem Kept.called (h : Kept T w cs) (hv : v ∈ w.live) {call : VecCall Nat α} {o : Outcome (VecState α)}
    (ho : o = .done s') (hs : Holds T s' ds) (he : Effect (w.state v) (cs v) s' ds) :
    ∃ w' cs', w.afterCall v o = some w' ∧ Kept T w' cs' ∧ w'.live = w.live ∧
      ∀ u ∈ w.live, ¬ Changes T (.call v call) u → (cs' u).map Cell.value = (cs u).map Cell.value := by
  subst ho
  refine ⟨_, _, rfl, h.setState hv hs he, rfl, fun u _ hu => ?_⟩
  have huv : u ≠ v := fun e => hu (Or.inl e)
  rw [Function.update_of_ne huv]

/-- The argument is an element of another vector, from which it may be moved. -/
theorem Kept.calledOther (h : Kept T w cs) (hv : v ∈ w.live) (hu : u ∈ w.live) (huv : u ≠ v) {call : VecCall Nat α}
    {i : Nat} {make leave : α → α} (hargs : call.args T = some (.element u i make leave)) (hi : i < (cs u).length)
    (ho : ¬ OutOfMemory T call.throws (w.state v)) :
    ∃ w' cs', w.afterCall v ((w.state v).emplaceBack T call.throws (.element (w.vec u).data i make leave)) = some w' ∧
      Kept T w' cs' ∧ w'.live = w.live ∧
      ∀ x ∈ w.live, ¬ Changes T (.call v call) x → (cs' x).map Cell.value = (cs x).map Cell.value := by
  have hholds := h.holds u hu
  have hsize : (w.vec u).size = (cs u).length := hholds.size
  have hle : (w.vec u).size ≤ (w.vec u).capacity := hholds.size_le
  obtain ⟨b, hb⟩ : ∃ b, (w.vec u).data = some b := hholds.exists_buffer (by show 0 < (w.vec u).capacity; omega)
  have hne : (w.state v).vec.data ≠ some b := fun e => huv (h.data_unique hu hv hb e)
  have hread : w.mem.read (some b) i = some (cs u)[i] := by
    rw [← hb, ← List.getElem?_eq_getElem hi]
    exact hholds.row.read i
  obtain ⟨s', ds, hcall, hs, he, -, -⟩ :=
    emplaceBack_other make leave (h.holds v hv) ho call.calm (h.known hu hb) hne hread
  have h₁ := h.setState hv hs he
  have hstate : (w.setState v s').state u = ⟨s'.mem, w.vec u⟩ := by
    show VecState.mk s'.mem (Function.update w.vec v s'.vec u) = _
    rw [Function.update_of_ne huv]
  have hu₁ := h₁.holds u hu
  rw [Function.update_of_ne huv] at hu₁
  have he₁ : Effect ((w.setState v s').state u) (Function.update cs v ds u) ((w.setState v s').state u) (cs u) := by
    rw [Function.update_of_ne huv]
    exact Effect.refl _ _
  obtain ⟨mem, hmod, hs₂, he₂⟩ := modify_spec hu₁ hi leave
  have h₂ := h₁.setState hu hs₂ (he₁.trans he₂)
  rw [hstate] at hmod h₂
  have hmod' : s'.mem.modify (some b) i leave = some mem := hb ▸ hmod
  have hworld : (w.setState v s').setState u ⟨mem, w.vec u⟩ = w.setState v ⟨mem, s'.vec⟩ := by
    show World.mk mem w.live (Function.update (Function.update w.vec v s'.vec) u (w.vec u)) = _
    rw [Function.update_comm (Ne.symm huv), Function.update_eq_self]
    rfl
  refine ⟨w.setState v ⟨mem, s'.vec⟩, _, ?_, hworld ▸ h₂, rfl, fun x _ hx => ?_⟩
  · rw [hb, hcall, hmod']
    rfl
  · have hxv : x ≠ v := fun e => hx (Or.inl e)
    by_cases hxu : x = u
    · subst hxu
      have hid : leave = id := by
        by_contra hid
        exact hx (Or.inr ⟨i, make, leave, hargs, hid⟩)
      rw [Function.update_self, map_value_modify, hid, List.modify_id]
    · rw [Function.update_of_ne hxu, Function.update_of_ne hxv]

theorem Kept.callOn (h : Kept T w cs) (hv : v ∈ w.live) {call : VecCall Nat α}
    (hrange : ∀ args ∈ call.args T, args.InRange fun u => if u ∈ w.live then (w.vec u).size else 0) :
    SelfGrowth T v (w.state v) call ∧ w.callOn T v call = none ∨
    ¬ SelfGrowth T v (w.state v) call ∧ ∃ w' cs', w.callOn T v call = some w' ∧ Kept T w' cs' ∧ w'.live = w.live ∧
      ∀ u ∈ w.live, ¬ Changes T (.call v call) u → (cs' u).map Cell.value = (cs u).map Cell.value := by
  have hholds := h.holds v hv
  unfold World.callOn
  cases hargs : call.args T with
  | none =>
    have hnot : ¬ SelfGrowth T v (w.state v) call := VecCall.not_selfGrowth (by simp [hargs])
    refine Or.inr ⟨hnot, ?_⟩
    cases call with
    | popBack =>
      obtain ⟨s', hpop, hs, he, -⟩ := popBack_spec hholds
      exact h.called hv (congrArg Outcome.ofOption hpop) hs he
    | clear =>
      obtain ⟨s', hclear, hs, he, -⟩ := clear_spec hholds
      exact h.called hv (congrArg Outcome.ofOption hclear) hs he
    | _ => cases hargs
  | some args =>
    have hin := hrange args hargs
    rw [VecCall.apply_args hargs]
    by_cases ho : OutOfMemory T call.throws (w.state v)
    · refine Or.inr ⟨fun hg => hg.2.2 ho.2, w, cs, ?_, h, rfl, fun _ _ _ => rfl⟩
      rw [emplaceBack_outOfMemory ho]
      exact congrArg some (setState_self w v)
    · cases args with
      | outside x =>
        have hnot : ¬ SelfGrowth T v (w.state v) call := VecCall.not_selfGrowth (by simp [hargs])
        obtain ⟨s', ds, hcall, hs, he, -, -⟩ := emplaceBack_outside hholds ho call.calm x
        exact Or.inr ⟨hnot, h.called hv hcall hs he⟩
      | element u i make leave =>
        have hu : u ∈ w.live := by
          by_contra hu
          have hin' : i < if u ∈ w.live then (w.vec u).size else 0 := hin
          rw [if_neg hu] at hin'
          omega
        have hi : i < (cs u).length := by
          have hin' : i < if u ∈ w.live then (w.vec u).size else 0 := hin
          rw [if_pos hu] at hin'
          exact (h.holds u hu).size ▸ hin'
        by_cases huv : u = v
        · subst huv
          by_cases hfull : (w.vec u).size = (w.vec u).capacity
          · refine Or.inl ⟨⟨⟨i, make, leave, hargs⟩, hfull, fun hr => ho ⟨hfull, hr⟩⟩, ?_⟩
            exact congrArg (w.afterCall u) (emplaceBack_own_growing make leave hholds hfull ho call.calm)
          · obtain ⟨s', ds, hcall, hs, he, -, -⟩ :=
              emplaceBack_own make leave hholds hfull call.calm hi
            exact Or.inr ⟨fun hg => hfull hg.2.1, h.called hv hcall hs he⟩
        · have hnot : ¬ SelfGrowth T v (w.state v) call := VecCall.not_selfGrowth (by simp [hargs, huv])
          exact Or.inr ⟨hnot, h.calledOther hv hu huv hargs hi ho⟩

/-! ## One operation -/

theorem Kept.congr {live : Finset Nat} {vec : Nat → Vec} {m : Memory α} (h : Kept T ⟨m, live, vec⟩ cs) {vec' : Nat → Vec}
    (hvec : ∀ v ∈ live, vec' v = vec v) : Kept T ⟨m, live, vec'⟩ cs where
  sound := h.sound
  holds v hv := by
    show Holds T ⟨m, vec' v⟩ (cs v)
    rw [hvec v hv]
    exact h.holds v hv
  buffers := by
    have hheld : held live (fun v => one (vec' v).data) = held live fun v => one (vec v).data :=
      held_congr fun v hv => by rw [hvec v hv]
    show held live (fun v => one (vec' v).data) + (m.freed : Multiset Nat) = _
    rw [hheld]
    exact h.buffers

theorem Kept.nil_of_null (h : Kept T w cs) (hv : v ∈ w.live) (hnull : (w.vec v).data = none) : cs v = [] :=
  (h.holds v hv).row.null hnull

theorem Kept.copyConstruct (h : Kept T w cs) (hv : v ∉ w.live) (hu : u ∈ w.live) (hnull : (w.vec u).data = none) :
    Kept T (w.copyConstruct v u) (Function.update cs v []) := by
  have hx := h.holds u hu
  rw [h.nil_of_null hu hnull] at hx
  exact h.create hv hx hnull

theorem Kept.copyAssign (h : Kept T w cs) (hv : v ∈ w.live) (hu : u ∈ w.live) (hnullv : (w.vec v).data = none)
    (hnullu : (w.vec u).data = none) : Kept T (w.copyAssign v u) (Function.update cs v []) := by
  have hx := h.holds u hu
  rw [h.nil_of_null hu hnullu] at hx
  refine h.setState hv hx ?_
  rw [h.nil_of_null hv hnullv]
  exact
    { next_le := Nat.le_refl _
      data := fun b e => by cases hnullu.symm.trans e
      frame := fun _ _ _ => ⟨rfl, rfl⟩
      buffers := by
        show one (w.vec u).data + _ + _ = one (w.vec v).data + _ + _
        rw [hnullu, hnullv]
        rfl
      objects := rfl }

theorem Kept.destroy (h : Kept T w cs) (hv : v ∈ w.live) :
    ∃ w', w.destroy v = some w' ∧ Kept T w' (Function.update cs v []) ∧ w'.live = w.live.erase v := by
  obtain ⟨s', hdes, hs, he, hnull⟩ := destructor_spec (h.holds v hv)
  have hvec : ((w.setState v s').vec v).data = none := by
    show (Function.update w.vec v s'.vec v).data = none
    rw [Function.update_self, hnull]
  refine ⟨_, congrArg (Option.map _) hdes, ((h.setState hv hs he).erase hv hvec).congr fun u hu => ?_, rfl⟩
  exact (Function.update_of_ne (Finset.ne_of_mem_erase hu) _ _).symm

end

/-! ## Programs -/

/-- The operation has a meaning, keeps the buffers apart and the other vectors as they
are. -/
def Good (T : ElementType α) (w : World α) (op : WorldOp α) (o : Option (World α)) : Prop :=
  ∃ w', o = some w' ∧ Separate w' ∧ KeepsOthers T w op w'

section
variable {T : ElementType α} {w : World α} {cs : Nat → List (Cell α)} {op : WorldOp α}

theorem Kept.next (h : Kept T w cs) (hl : w.Legal T op) (hh : Harmless T w op) :
    ∃ w' cs', w.next T op = some w' ∧ Kept T w' cs' ∧
      ∀ v ∈ w.live, v ∈ w'.live → ¬ Changes T op v → (cs' v).map Cell.value = (cs v).map Cell.value := by
  have hother : ∀ (v : Nat) (ds : List (Cell α)), ∀ u, u ≠ v →
      (Function.update cs v ds u).map Cell.value = (cs u).map Cell.value := by
    intro v ds u hne
    rw [Function.update_of_ne hne]
  cases op with
  | construct v =>
    refine ⟨_, _, rfl, h.create hl (holds_null h.sound) rfl, fun u hu _ _ => hother v _ u ?_⟩
    rintro rfl
    exact hl hu
  | call v call =>
    rcases h.callOn hl.1 hl.2 with ⟨hgrow, -⟩ | ⟨-, w', cs', hcall, hkept, -, hkeep⟩
    · exact absurd hgrow hh
    · exact ⟨w', cs', hcall, hkept, fun u hu _ => hkeep u hu⟩
  | copyConstruct v u =>
    refine ⟨_, _, rfl, h.copyConstruct hl.1 hl.2 hh, fun x hx _ _ => hother v _ x ?_⟩
    rintro rfl
    exact hl.1 hx
  | copyAssign v u =>
    rcases hh with rfl | ⟨hv, hu⟩
    · refine ⟨_, cs, rfl, ?_, fun _ _ _ _ => rfl⟩
      unfold World.copyAssign
      rw [Function.update_eq_self]
      exact h
    · exact ⟨_, _, rfl, h.copyAssign hl.1 hl.2 hv hu, fun x _ _ hx => hother v _ x hx⟩
  | destroy v =>
    obtain ⟨w', hdes, hkept, hlive⟩ := h.destroy hl
    refine ⟨w', _, hdes, hkept, fun u _ hu _ => hother v _ u ?_⟩
    rw [hlive] at hu
    exact Finset.ne_of_mem_erase hu

theorem Kept.not_good (h : Kept T w cs) (hl : w.Legal T op) (hh : ¬ Harmless T w op) : ¬ Good T w op (w.next T op) := by
  rintro ⟨w', hnext, hsep, -⟩
  cases op with
  | construct v => exact hh trivial
  | call v call =>
    rcases h.callOn hl.1 hl.2 with ⟨-, hnone⟩ | ⟨hnot, -⟩
    · cases hnone.symm.trans hnext
    · exact hh hnot
  | copyConstruct v u =>
    cases hnext
    obtain ⟨b, hb⟩ := Option.ne_none_iff_exists'.mp hh
    have huv : u ≠ v := fun e => hl.1 (e ▸ hl.2)
    have hbv : (Function.update w.vec v (w.vec u) v).data = some b := by rw [Function.update_self, hb]
    have hbu : (Function.update w.vec v (w.vec u) u).data = some b := by rw [Function.update_of_ne huv, hb]
    exact huv (hsep.apart u (Finset.mem_insert_of_mem hl.2) v (Finset.mem_insert_self _ _) b hbu hbv)
  | copyAssign v u =>
    cases hnext
    obtain ⟨huv, hnull⟩ := not_or.mp hh
    have hbv : (Function.update w.vec v (w.vec u) v).data = (w.vec u).data := by rw [Function.update_self]
    cases hu : (w.vec u).data with
    | some b =>
      have hbu : (Function.update w.vec v (w.vec u) u).data = some b := by
        rw [Function.update_of_ne (Ne.symm huv), hu]
      exact huv (hsep.apart v hl.1 u hl.2 b (hbv.trans hu) hbu)
    | none =>
      -- the buffer of `v` is forgotten, but was not given back
      obtain ⟨b, hb⟩ := Option.ne_none_iff_exists'.mp fun e => hnull ⟨e, hu⟩
      have hkept : w.mem.freed.count b = 0 := by
        rcases h.separate.once b (h.known hl.1 hb) with ⟨-, hcount⟩ | ⟨hnot, -⟩
        · exact hcount
        · exact absurd hb (hnot v hl.1)
      rcases hsep.once b (h.known hl.1 hb) with ⟨⟨x, hx, hbx⟩, -⟩ | ⟨-, hcount⟩
      · by_cases hxv : x = v
        · subst hxv
          cases (hbv.trans hu).symm.trans hbx
        · have hbx' : (w.vec x).data = some b := (congrArg Vec.data (Function.update_of_ne hxv _ _)).symm.trans hbx
          exact hxv (h.data_unique hx hl.1 hbx' hb)
      · have hcount' : w.mem.freed.count b = 1 := hcount
        omega
  | destroy v => exact hh trivial

end

def StaysGood (T : ElementType α) (o : Option (World α)) (op : WorldOp α) (o' : Option (World α)) : Prop :=
  ∀ w, o = some w → Good T w op o'

def IsHarmless (T : ElementType α) (o : Option (World α)) (op : WorldOp α) : Prop := ∀ w, o = some w → Harmless T w op

theorem kept_init (T : ElementType α) : Kept T init fun _ => [] where
  sound := sound_empty
  holds _ hv := by cases hv
  buffers := rfl

theorem Kept.step {T : ElementType α} {w : World α} {cs : Nat → List (Cell α)} {op : WorldOp α} {o : Option (World α)}
    (h : Kept T w cs) (hs : step T (some w) op = some o) :
    (StaysGood T (some w) op o ↔ IsHarmless T (some w) op) ∧
      (StaysGood T (some w) op o → ∃ w' cs', o = some w' ∧ Kept T w' cs') := by
  unfold World.step at hs
  rw [Option.bind_some] at hs
  split at hs
  · next hl =>
    cases hs
    by_cases hh : Harmless T w op
    · obtain ⟨w', cs', hnext, hkept', hkeep⟩ := h.next hl hh
      have hothers : KeepsOthers T w op w' := fun v hv hv' hc => h.elements_eq hkept' hv hv' (hkeep v hv hv' hc)
      have hgood : StaysGood T (some w) op (w.next T op) := by
        intro w₁ e
        cases e
        exact ⟨w', hnext, hkept'.separate, hothers⟩
      have hharmless : IsHarmless T (some w) op := by
        intro w₁ e
        cases e
        exact hh
      exact ⟨⟨fun _ => hharmless, fun _ => hgood⟩, fun _ => ⟨w', cs', hnext, hkept'⟩⟩
    · have hbad : ¬ StaysGood T (some w) op (w.next T op) := fun hg => h.not_good hl hh (hg w rfl)
      exact ⟨⟨fun hg => absurd hg hbad, fun hn => absurd (hn w rfl) hh⟩, fun hg => absurd hg hbad⟩
  · cases hs

/-- **Buffers of one's own.** In a program every step has a meaning, keeps the buffers
apart and the other vectors as they are, if and only if every step is harmless. -/
theorem staysGood_iff_harmless (T : ElementType α) (ops : List (WorldOp α)) :
    Separate (init : World α) ∧ Along (step T) (StaysGood T) (some init) ops ↔
      Along (step T) (fun o op _ => IsHarmless T o op) (some init) ops := by
  have hiff : Along (step T) (StaysGood T) (some init) ops ↔
      Along (step T) (fun o op _ => IsHarmless T o op) (some init) ops := by
    refine along_iff (I := fun o => ∃ w cs, o = some w ∧ Kept T w cs) (U := fun _ => True) ?_ (fun _ _ => trivial)
      ⟨init, _, rfl, kept_init T⟩
    rintro - op o' ⟨w, cs, rfl, hkept⟩ - hs
    exact hkept.step hs
  exact ⟨fun h => hiff.mp h.2, fun h => ⟨(kept_init T).separate, hiff.mpr h⟩⟩

/-- `vector_<int> v; v.push_back(1); vector_<int> u(v);` -/
theorem copy_shares : ¬ ∀ (T : ElementType Int) (ops : List (WorldOp Int)),
    Separate (init : World Int) ∧ Along (step T) (StaysGood T) (some init) ops := by
  intro h
  obtain ⟨-, hrun⟩ := h ElementType.int [.construct 0, .call 0 (.pushBack (.outside 1) false), .copyConstruct 1 0]
  obtain ⟨-, hrun⟩ := hrun _ rfl
  obtain ⟨-, hrun⟩ := hrun _ rfl
  obtain ⟨hgood, -⟩ := hrun _ rfl
  obtain ⟨w, hw, hsep, -⟩ := hgood _ rfl
  cases hw
  exact absurd (hsep.apart 0 (by decide) 1 (by decide) 0 rfl rfl) (by decide)

end World

end LearningC
