import LearningC.Runs
import LearningC.VectorGrowth

/-!
# The arithmetic of growth

`vector_` checks neither the doubling of its capacity nor the product in `allocate`. What
keeps both below 2^64 is the last allocation, which `operator new` did not refuse. Only
the buffers matter here: calls may throw anywhere, and their arguments may be anything.
-/

namespace LearningC

open Storage Memory Runs

variable {α : Type}

/-- A call, whose argument may be an element behind any pointer. -/
inductive VecOp (α : Type)
  | pushBack (obj : Ref (Option Nat) α)
  | pushBackMove (obj : Ref (Option Nat) α)
  | emplaceBack (args : Args (Option Nat) α)
  | popBack
  | clear

/-- `P` holds of the state that a call returns or throws with. -/
def Outcome.Leaves {σ : Type} (P : σ → Prop) : Outcome σ → Prop
  | .done s | .threw s => P s
  | .undefined => True

namespace VecState

section
variable (T : ElementType α)

def applyOp (throws : Option Throw) (s : VecState α) : VecOp α → Outcome (VecState α)
  | .pushBack obj => s.pushBack T throws obj
  | .pushBackMove obj => s.pushBackMove T throws obj
  | .emplaceBack args => s.emplaceBack T throws args
  | .popBack => .ofOption s.popBack
  | .clear => .ofOption s.clear

/-- A call and the exception that it meets, if any. A call without a meaning ends the run. -/
def step (s : VecState α) (call : VecOp α × Option Throw) : Option (VecState α) :=
  match s.applyOp T call.2 call.1 with
  | .done s' | .threw s' => some s'
  | .undefined => none

end

/-- The bytes of the current buffer, none where there is no buffer. -/
def bufferBytes (s : VecState α) : Nat := (s.vec.data.bind s.mem.bytes).getD 0

/-- The next growth computes its capacity and its bytes without wrapping, and the last one
got a buffer for its capacity. -/
structure NoWrap (T : ElementType α) (s : VecState α) : Prop where
  doubled : s.vec.capacity * 2 < 2 ^ 64
  requested : newCapacity s.vec.capacity * T.sizeOf < 2 ^ 64
  buffer : s.vec.capacity * T.sizeOf ≤ s.bufferBytes

/-- What the last successful allocation leaves for the next one. -/
structure Sized (T : ElementType α) (s : VecState α) : Prop where
  fits : s.vec.capacity * T.sizeOf < 2 ^ 63
  buffer : s.vec.capacity * T.sizeOf ≤ s.bufferBytes
  known : ∀ b, s.vec.data = some b → b < s.mem.nextBuffer

structure SameBuffers (m m' : Memory α) : Prop where
  bytes : m'.bytes = m.bytes
  nextBuffer : m'.nextBuffer = m.nextBuffer

/-! ## Outcomes -/

section
variable {σ τ : Type} {P : σ → Prop} {Q : τ → Prop}

theorem Leaves.bind {o : Outcome σ} {k : σ → Outcome τ} {unwind : σ → τ} (h : o.Leaves P)
    (hk : ∀ s, P s → (k s).Leaves Q) (hunwind : ∀ s, P s → Q (unwind s)) : (o.bind k unwind).Leaves Q := by
  cases o with
  | done s => exact hk s h
  | threw s => exact hunwind s h
  | undefined => trivial

theorem Leaves.ofOption {o : Option σ} (h : ∀ s, o = some s → P s) : (Outcome.ofOption o).Leaves P := by
  cases o with
  | none => trivial
  | some s => exact h s rfl

end

/-! ## Objects come and go in the same buffers -/

section
variable {m m' m'' : Memory α} {p : Option Nat} {i width : Nat} {x : α} {f : α → α}

theorem SameBuffers.refl (m : Memory α) : SameBuffers m m := ⟨rfl, rfl⟩

theorem SameBuffers.trans (h : SameBuffers m m') (h' : SameBuffers m' m'') : SameBuffers m m'' :=
  ⟨h'.bytes.trans h.bytes, h'.nextBuffer.trans h.nextBuffer⟩

theorem construct_buffers (h : m.construct width p i x = some m') : SameBuffers m m' := by
  obtain ⟨b, -, hb⟩ := Option.bind_eq_some_iff.mp h
  obtain ⟨-, rfl⟩ := guarded_some hb
  exact ⟨rfl, rfl⟩

theorem destroy_buffers (h : m.destroy p i = some m') : SameBuffers m m' := by
  obtain ⟨b, -, hb⟩ := Option.bind_eq_some_iff.mp h
  obtain ⟨c, -, rfl⟩ := Option.map_eq_some_iff.mp hb
  exact ⟨rfl, rfl⟩

theorem modify_buffers (h : m.modify p i f = some m') : SameBuffers m m' := by
  obtain ⟨b, -, hb⟩ := Option.bind_eq_some_iff.mp h
  obtain ⟨c, -, rfl⟩ := Option.map_eq_some_iff.mp hb
  exact ⟨rfl, rfl⟩

theorem interrupt_buffers {progress : Progress} {args : Args (Option Nat) α} (h : interrupt progress args m = some m') :
    SameBuffers m m' := by
  rcases interrupt_cases h with ⟨rfl, -⟩ | ⟨p, i, make, leave, -, -, hm⟩
  · exact SameBuffers.refl m'
  · exact modify_buffers hm

theorem destroyFirst_buffers (n : Nat) : ∀ m', m.destroyFirst p n = some m' → SameBuffers m m' := by
  induction n with
  | zero =>
    intro m' h
    cases h
    exact SameBuffers.refl m
  | succ n ih =>
    intro m' h
    obtain ⟨m₁, hfirst, hlast⟩ := Option.bind_eq_some_iff.mp h
    exact (ih m₁ hfirst).trans (destroy_buffers hlast)

section
variable {T : ElementType α} {throws : Option Throw} {data newData : Option Nat}

theorem relocate_buffers (i : Nat) (m : Memory α) : (relocate T throws data newData i m).Leaves (SameBuffers m) := by
  unfold relocate
  split
  · trivial
  · split
    · apply Leaves.ofOption
      intro m' h
      obtain ⟨m₁, hc, hm⟩ := Option.bind_eq_some_iff.mp h
      exact (construct_buffers hc).trans (modify_buffers hm)
    · split
      · exact SameBuffers.refl m
      · exact Leaves.ofOption fun m' h => construct_buffers h

theorem relocateFirst_buffers (n : Nat) (m : Memory α) :
    (relocateFirst T throws data newData n m).Leaves fun r => SameBuffers m r.1 := by
  induction n with
  | zero => exact SameBuffers.refl m
  | succ n ih =>
    refine Leaves.bind ih (fun r hr => ?_) fun r hr => hr
    exact Leaves.bind (relocate_buffers r.2 r.1) (fun m' h => hr.trans h) fun m' h => hr.trans h

end

end

/-! ## Calls -/

section
variable {T : ElementType α} {s s' : VecState α} {throws : Option Throw}

theorem bufferBytes_some {b : Nat} (h : s.vec.data = some b) : s.bufferBytes = (s.mem.bytes b).getD 0 := by
  unfold bufferBytes
  rw [h, Option.bind_some]

theorem Sized.keep (h : Sized T s) {m : Memory α} {size : Nat}
    (hbytes : ∀ b, s.vec.data = some b → m.bytes b = s.mem.bytes b) (hnext : s.mem.nextBuffer ≤ m.nextBuffer) :
    Sized T ⟨m, { s.vec with size }⟩ where
  fits := h.fits
  buffer := by
    refine h.buffer.trans (Nat.le_of_eq ?_)
    cases hd : s.vec.data with
    | none =>
      unfold bufferBytes
      simp only [hd, Option.bind_none]
    | some b => rw [bufferBytes_some hd, bufferBytes_some (s := ⟨m, { s.vec with size }⟩) hd, hbytes b hd]
  known b hb := Nat.lt_of_lt_of_le (h.known b hb) hnext

theorem Sized.same (h : Sized T s) {m : Memory α} (hm : SameBuffers s.mem m) (size : Nat) :
    Sized T ⟨m, { s.vec with size }⟩ :=
  h.keep (fun b _ => congrFun hm.bytes b) hm.nextBuffer.ge

theorem clear_buffers (hc : s.clear = some s') :
    SameBuffers s.mem s'.mem ∧ s'.vec.data = s.vec.data := by
  obtain ⟨m, hm, rfl⟩ := Option.map_eq_some_iff.mp hc
  exact ⟨destroyFirst_buffers _ m hm, rfl⟩

theorem free_bytes {m m' : Memory α} {b : Nat} (h : m.free b = some m') :
    m'.nextBuffer = m.nextBuffer ∧ ∀ c ≠ b, m'.bytes c = m.bytes c := by
  obtain ⟨n, -, rfl⟩ := Option.map_eq_some_iff.mp h
  exact ⟨rfl, fun c hc => Function.update_of_ne hc _ _⟩

theorem dellocate_bytes (hd : s.dellocate = some s') :
    s'.mem.nextBuffer = s.mem.nextBuffer ∧ ∀ c, s.vec.data ≠ some c → s'.mem.bytes c = s.mem.bytes c := by
  unfold dellocate at hd
  split at hd
  · next b hb =>
    obtain ⟨m, hm, rfl⟩ := Option.map_eq_some_iff.mp hd
    obtain ⟨hnext, hbytes⟩ := free_bytes hm
    exact ⟨hnext, fun c hc => hbytes c fun e => hc (e ▸ hb)⟩
  · cases hd
    exact ⟨rfl, fun _ _ => rfl⟩

theorem Sized.noWrap (h : Sized T s) : NoWrap T s :=
  ⟨(newCapacity_fits T h.fits).1, (newCapacity_fits T h.fits).2, h.buffer⟩

/-- The catch block gives back the new buffer, and no other. -/
theorem unwind_bytes {newData newSize : Nat} {m m' : Memory α} (h : unwind newData newSize m = some m') :
    m'.nextBuffer = m.nextBuffer ∧ ∀ c ≠ newData, m'.bytes c = m.bytes c := by
  obtain ⟨m₁, hfirst, hfree⟩ := Option.bind_eq_some_iff.mp h
  have hsame := destroyFirst_buffers _ m₁ hfirst
  obtain ⟨hnext, hbytes⟩ := free_bytes hfree
  exact ⟨hnext.trans hsame.nextBuffer, fun c hc => (hbytes c hc).trans (congrFun hsame.bytes c)⟩

section
variable {n newSize : Nat} {m m' : Memory α}

theorem Sized.newBuffer_threw (h : Sized T s) (hm : SameBuffers (s.mem.allocate n).2 m')
    (hun : unwind s.mem.nextBuffer newSize m' = some m) : Sized T ⟨m, s.vec⟩ := by
  obtain ⟨hnext, hbytes⟩ := unwind_bytes hun
  have hgrown : m'.nextBuffer = s.mem.nextBuffer + 1 := hm.nextBuffer
  refine h.keep (fun b hb => ?_) (by omega)
  have hne : b ≠ s.mem.nextBuffer := Nat.ne_of_lt (h.known b hb)
  rw [hbytes b hne, hm.bytes]
  exact Function.update_of_ne hne _ _

theorem Sized.newBuffer_done (h : Sized T s) {newCap : Nat} (hfits : newCap * T.sizeOf < 2 ^ 63)
    (hm : SameBuffers (s.mem.allocate (newCap * T.sizeOf)).2 m')
    (hs' : ((clear ⟨m', s.vec⟩).bind fun s₁ => s₁.dellocate.map fun s₂ =>
      { s₂ with vec := { data := some s.mem.nextBuffer, size := newSize, capacity := newCap } }) = some s') :
    Sized T s' := by
  obtain ⟨s₁, hclear, hrest⟩ := Option.bind_eq_some_iff.mp hs'
  obtain ⟨s₂, hdel, rfl⟩ := Option.map_eq_some_iff.mp hrest
  obtain ⟨hsame, hdata⟩ := clear_buffers hclear
  obtain ⟨hnext, hbytes⟩ := dellocate_bytes hdel
  have hgrown : s₁.mem.nextBuffer = s.mem.nextBuffer + 1 := (hm.trans hsame).nextBuffer
  have hnot : s₁.vec.data ≠ some s.mem.nextBuffer := fun e =>
    Nat.lt_irrefl _ (h.known _ (hdata.symm.trans e))
  refine ⟨hfits, ?_, fun b hb => ?_⟩
  · have hnew : s₂.mem.bytes s.mem.nextBuffer = some (newCap * T.sizeOf) := by
      rw [hbytes _ hnot, hsame.bytes, hm.bytes]
      exact Function.update_self _ _ _
    rw [bufferBytes_some rfl]
    exact Nat.le_of_eq (by rw [hnew, Option.getD_some])
  · cases hb
    show _ < s₂.mem.nextBuffer
    omega

end

theorem Sized.reallocate (h : Sized T s) {newCap : Nat} (hbytes : newCap * T.sizeOf < 2 ^ 64) :
    (s.reallocate T throws newCap).Leaves (Sized T) := by
  have hmod : newCap * T.sizeOf % 2 ^ 64 = newCap * T.sizeOf := Nat.mod_eq_of_lt hbytes
  by_cases hr : Refuses T throws newCap
  · rw [reallocate_refused hr]
    exact h
  · have hfits : newCap * T.sizeOf < 2 ^ 63 := by
      have := (not_or.mp hr).2
      omega
    unfold VecState.reallocate
    rw [allocate_spec hr, hmod]
    have hloop : (relocateFirst T throws s.vec.data (some s.mem.nextBuffer) s.vec.size
        (s.mem.allocate (newCap * T.sizeOf)).2).Leaves fun r => SameBuffers (s.mem.allocate (newCap * T.sizeOf)).2 r.1 :=
      relocateFirst_buffers s.vec.size _
    simp only [Memory.allocate] at hloop ⊢
    split
    · trivial
    · next m' newSize hl =>
      rw [hl] at hloop
      split
      · next m hun =>
        exact h.newBuffer_threw hloop hun
      · trivial
    · next m' newSize hl =>
      rw [hl] at hloop
      exact Leaves.ofOption fun s' hs' => h.newBuffer_done hfits hloop hs'

theorem Sized.grow (h : Sized T s) : (s.grow T throws).Leaves (Sized T) := by
  unfold VecState.grow
  split
  · exact h.reallocate (newCapacity_fits T h.fits).2
  · exact h

theorem Sized.constructBack (h : Sized T s) (args : Args (Option Nat) α) :
    (s.constructBack T throws args).Leaves (Sized T) := by
  unfold VecState.constructBack
  split
  · split
    · next hi => exact h.same (interrupt_buffers hi) s.vec.size
    · trivial
  · apply Leaves.ofOption
    intro s' hs'
    cases args with
    | outside x =>
      obtain ⟨m, hc, rfl⟩ := Option.map_eq_some_iff.mp hs'
      exact h.same (construct_buffers hc) _
    | element p i make leave =>
      obtain ⟨c, -, hs'⟩ := Option.bind_eq_some_iff.mp hs'
      obtain ⟨m, hc, hs'⟩ := Option.bind_eq_some_iff.mp hs'
      obtain ⟨m', hm, rfl⟩ := Option.map_eq_some_iff.mp hs'
      exact h.same ((construct_buffers hc).trans (modify_buffers hm)) _

theorem Sized.emplaceBack (h : Sized T s) (args : Args (Option Nat) α) :
    (s.emplaceBack T throws args).Leaves (Sized T) :=
  Leaves.bind h.grow (fun _ h => h.constructBack args) fun _ h => h

theorem Sized.popBack (h : Sized T s) : (Outcome.ofOption s.popBack).Leaves (Sized T) := by
  unfold VecState.popBack
  split
  · apply Leaves.ofOption
    intro s' hs'
    obtain ⟨m, hd, rfl⟩ := Option.map_eq_some_iff.mp hs'
    exact h.same (destroy_buffers hd) _
  · exact h

theorem Sized.clear (h : Sized T s) : (Outcome.ofOption s.clear).Leaves (Sized T) := by
  apply Leaves.ofOption
  intro s' hs'
  obtain ⟨m, hd, rfl⟩ := Option.map_eq_some_iff.mp hs'
  exact h.same (destroyFirst_buffers _ m hd) _

theorem Sized.applyOp (h : Sized T s) (op : VecOp α) : (s.applyOp T throws op).Leaves (Sized T) := by
  cases op with
  | pushBack obj => exact h.emplaceBack _
  | pushBackMove obj => exact h.emplaceBack _
  | emplaceBack args => exact h.emplaceBack args
  | popBack => exact h.popBack
  | clear => exact h.clear

theorem Sized.step (h : Sized T s) {call : VecOp α × Option Throw} (hs : s.step T call = some s') : Sized T s' := by
  have hleaves : (s.applyOp T call.2 call.1).Leaves (Sized T) := h.applyOp call.1
  unfold VecState.step at hs
  split at hs
  · next ho =>
    cases hs
    rw [ho] at hleaves
    exact hleaves
  · next ho =>
    cases hs
    rw [ho] at hleaves
    exact hleaves
  · cases hs

end

/-- **No wrapping.** In a run of calls on a new vector, with exceptions anywhere, neither
product of `reallocate` wraps, and the buffer has room for the capacity. -/
theorem noWrap_always (T : ElementType α) (m : Memory α) (calls : List (VecOp α × Option Throw)) :
    Always (step T) (NoWrap T) ⟨m, { data := none, size := 0, capacity := 0 }⟩ calls := by
  have hnew : Sized T ⟨m, { data := none, size := 0, capacity := 0 }⟩ := by
    refine ⟨?_, ?_, fun b hb => ?_⟩
    · rw [Nat.zero_mul]
      exact Nat.two_pow_pos 63
    · rw [Nat.zero_mul]
      exact Nat.zero_le _
    · cases hb
  exact always_of_invariant (fun _ _ _ h hs => h.step hs) (fun _ h => h.noWrap) hnew calls

end VecState

end LearningC
