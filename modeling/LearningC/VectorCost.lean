import LearningC.VectorLimits

/-!
# What the growth of a vector costs

A growth moves or copies every element, but it happens on a full vector only, and then there
is room for as many more. So the elements ever constructed are at most three for each call
that adds one, and the buffers are as many as the doublings.
-/

namespace LearningC

open Storage Memory Runs

variable {α : Type}

def VecOp.adds : VecOp α → Bool
  | .pushBack _ | .pushBackMove _ | .emplaceBack _ => true
  | .popBack | .clear => false

/-- `P` holds of the state that a call returns with, and it does not throw. -/
def Outcome.Returns {σ : Type} (P : σ → Prop) : Outcome σ → Prop
  | .done s => P s
  | .threw _ => False
  | .undefined => True

namespace VecState

/-- `k` objects more, in the same buffers. -/
structure Builds (m : Memory α) (k : Nat) (m' : Memory α) : Prop where
  objects : m'.nextObject = m.nextObject + k
  buffers : m'.nextBuffer = m.nextBuffer

/-- With `adds` calls that add an element. The next growth comes after `limit` of them. -/
structure Cost (adds limit : Nat) (s : VecState α) : Prop where
  size_le : s.vec.size ≤ s.vec.capacity
  added : s.vec.size ≤ adds
  paid : s.vec.capacity = 0 ∧ s.mem.nextObject = 0 ∧ s.mem.nextBuffer = 0 ∨
    ∃ k, s.vec.capacity = 2 ^ k ∧ s.mem.nextBuffer = k + 1 ∧ s.mem.nextObject + 1 ≤ adds + 2 ^ k ∧ 2 ^ k < 2 * limit

/-! ## Objects and buffers -/

section
variable {m m' m'' : Memory α} {p : Option Nat} {i k l width : Nat} {x : α} {f : α → α}

theorem Builds.trans (h : Builds m k m') (h' : Builds m' l m'') : Builds m (k + l) m'' :=
  ⟨by rw [h'.objects, h.objects, Nat.add_assoc], h'.buffers.trans h.buffers⟩

theorem construct_builds (h : m.construct width p i x = some m') : Builds m 1 m' := by
  obtain ⟨b, -, hb⟩ := Option.bind_eq_some_iff.mp h
  obtain ⟨-, rfl⟩ := guarded_some hb
  exact ⟨rfl, rfl⟩

theorem modify_builds (h : m.modify p i f = some m') : Builds m 0 m' := by
  obtain ⟨b, -, hb⟩ := Option.bind_eq_some_iff.mp h
  obtain ⟨c, -, rfl⟩ := Option.map_eq_some_iff.mp hb
  exact ⟨rfl, rfl⟩

theorem interrupt_builds {progress : Progress} {args : Args (Option Nat) α} (h : interrupt progress args m = some m') :
    Builds m 0 m' := by
  rcases interrupt_cases h with ⟨rfl, -⟩ | ⟨p, i, make, leave, -, -, hm⟩
  · exact ⟨rfl, rfl⟩
  · exact modify_builds hm

theorem destroy_builds (h : m.destroy p i = some m') : Builds m 0 m' := by
  obtain ⟨b, -, hb⟩ := Option.bind_eq_some_iff.mp h
  obtain ⟨c, -, rfl⟩ := Option.map_eq_some_iff.mp hb
  exact ⟨rfl, rfl⟩

theorem destroyFirst_builds (n : Nat) : ∀ m', m.destroyFirst p n = some m' → Builds m 0 m' := by
  induction n with
  | zero =>
    intro m' h
    cases h
    exact ⟨rfl, rfl⟩
  | succ n ih =>
    intro m' h
    obtain ⟨m₁, hfirst, hlast⟩ := Option.bind_eq_some_iff.mp h
    exact (ih m₁ hfirst).trans (destroy_builds hlast)

theorem free_builds {b : Nat} (h : m.free b = some m') : Builds m 0 m' := by
  obtain ⟨n, -, rfl⟩ := Option.map_eq_some_iff.mp h
  exact ⟨rfl, rfl⟩

section
variable {T : ElementType α} {throws : Option Throw} {data newData : Option Nat}

theorem Returns.bind {σ τ : Type} {P : σ → Prop} {Q : τ → Prop} {o : Outcome σ} {k : σ → Outcome τ} {unwind : σ → τ}
    (h : o.Returns P) (hk : ∀ s, P s → (k s).Returns Q) : (o.bind k unwind).Returns Q := by
  cases o with
  | done s => exact hk s h
  | threw s => exact h.elim
  | undefined => trivial

theorem Returns.ofOption {σ : Type} {P : σ → Prop} {o : Option σ} (h : ∀ s, o = some s → P s) :
    (Outcome.ofOption o).Returns P := by
  cases o with
  | none => trivial
  | some s => exact h s rfl

theorem relocate_builds (hc : throws ≠ some (.copy i)) (m : Memory α) :
    (relocate T throws data newData i m).Returns (Builds m 1) := by
  unfold relocate
  split
  · trivial
  · split
    · apply Returns.ofOption
      intro m' h
      obtain ⟨m₁, hcon, hmod⟩ := Option.bind_eq_some_iff.mp h
      exact (construct_builds hcon).trans (modify_builds hmod)
    · exact Returns.ofOption fun m' h => construct_builds h

/-- One object for each element. -/
theorem relocateFirst_builds (hc : ∀ k, throws ≠ some (.copy k)) (n : Nat) (m : Memory α) :
    (relocateFirst T throws data newData n m).Returns fun r => r.2 = n ∧ Builds m n r.1 := by
  induction n with
  | zero => exact ⟨rfl, rfl, rfl⟩
  | succ n ih =>
    refine Returns.bind ih fun r hr => Returns.bind (relocate_builds (hc r.2) r.1) fun m' hm => ?_
    exact ⟨congrArg Nat.succ hr.1, hr.2.trans hm⟩

end

end

/-! ## Calls -/

section
variable {T : ElementType α} {s s' : VecState α} {throws : Option Throw} {adds limit : Nat}

theorem clear_builds (h : s.clear = some s') : Builds s.mem 0 s'.mem := by
  obtain ⟨m, hm, rfl⟩ := Option.map_eq_some_iff.mp h
  exact destroyFirst_builds _ m hm

theorem dellocate_builds (h : s.dellocate = some s') : Builds s.mem 0 s'.mem := by
  unfold dellocate at h
  split at h
  · obtain ⟨m, hm, rfl⟩ := Option.map_eq_some_iff.mp h
    exact free_builds hm
  · cases h
    exact ⟨rfl, rfl⟩

/-- What a growth leaves: as many objects more as there are elements, and one buffer. -/
structure Regrown (s : VecState α) (newCap : Nat) (s' : VecState α) : Prop where
  size : s'.vec.size = s.vec.size
  capacity : s'.vec.capacity = newCap
  objects : s'.mem.nextObject = s.mem.nextObject + s.vec.size
  buffers : s'.mem.nextBuffer = s.mem.nextBuffer + 1

theorem reallocate_regrown (hc : ∀ k, throws ≠ some (.copy k)) (newCap : Nat) :
    s.reallocate T throws newCap = .threw s ∨ (s.reallocate T throws newCap).Returns (Regrown s newCap) := by
  by_cases hr : Refuses T throws newCap
  · exact Or.inl (reallocate_refused hr)
  · right
    unfold VecState.reallocate
    rw [allocate_spec hr]
    have hloop : (relocateFirst T throws s.vec.data (some s.mem.nextBuffer) s.vec.size
        (s.mem.allocate (newCap * T.sizeOf % 2 ^ 64)).2).Returns fun r => r.2 = s.vec.size ∧ Builds _ s.vec.size r.1 :=
      relocateFirst_builds hc s.vec.size _
    simp only [Memory.allocate] at hloop ⊢
    split
    · trivial
    · next hl =>
      rw [hl] at hloop
      exact hloop.elim
    · next m' newSize hl =>
      rw [hl] at hloop
      obtain ⟨hsize, hbuilt⟩ := hloop
      apply Returns.ofOption
      intro s' hs'
      obtain ⟨s₁, hclear, hrest⟩ := Option.bind_eq_some_iff.mp hs'
      obtain ⟨s₂, hdel, rfl⟩ := Option.map_eq_some_iff.mp hrest
      have hall := (hbuilt.trans (clear_builds hclear)).trans (dellocate_builds hdel)
      exact ⟨hsize, rfl, hall.objects, hall.buffers⟩

/-- Before the element is added there is room for it. -/
theorem Cost.grow (h : Cost adds adds s) (hs : Sized T s) (hc : ∀ k, throws ≠ some (.copy k)) :
    s.grow T throws = .threw s ∨ (s.grow T throws).Returns fun s' =>
      Cost adds (adds + 1) s' ∧ s'.vec.size < s'.vec.capacity := by
  unfold VecState.grow
  by_cases hfull : s.vec.size = s.vec.capacity
  · rw [if_pos hfull]
    rcases reallocate_regrown hc (newCapacity s.vec.capacity) with hthrew | hdone
    · exact Or.inl hthrew
    · right
      have hdouble := hs.noWrap.doubled
      have hadded := h.added
      cases ho : s.reallocate T throws (newCapacity s.vec.capacity) with
      | undefined => trivial
      | threw s' =>
        rw [ho] at hdone
        exact hdone.elim
      | done s' =>
        rw [ho] at hdone
        obtain ⟨hsize, hcap, hobjects, hbuffers⟩ := hdone
        rcases h.paid with ⟨hzero, hnone, hno⟩ | ⟨k, hk, hbuf, hpaid, hlim⟩
        · have hone : newCapacity s.vec.capacity = 1 := if_pos hzero
          rw [hone] at hcap
          refine ⟨⟨by omega, by omega, Or.inr ⟨0, hcap, by omega, by omega, by omega⟩⟩, by omega⟩
        · have hpos : 0 < 2 ^ k := Nat.two_pow_pos k
          have htwice : newCapacity s.vec.capacity = 2 ^ (k + 1) := by
            unfold newCapacity
            rw [if_neg (by omega), Nat.mod_eq_of_lt hdouble, hk, Nat.pow_succ]
          rw [htwice] at hcap
          have hpow : 2 ^ (k + 1) = 2 ^ k * 2 := Nat.pow_succ 2 k
          refine ⟨⟨by omega, by omega, Or.inr ⟨k + 1, hcap, by omega, by omega, by omega⟩⟩, by omega⟩
  · rw [if_neg hfull]
    have hsize := h.size_le
    right
    refine ⟨⟨hsize, h.added, ?_⟩, by omega⟩
    rcases h.paid with hz | ⟨k, hk, hbuf, hpaid, hlim⟩
    · exact Or.inl hz
    · exact Or.inr ⟨k, hk, hbuf, hpaid, by omega⟩

theorem Cost.waste (h : Cost adds limit s) (hle : limit ≤ adds + 1) : Cost (adds + 1) (adds + 1) s := by
  refine ⟨h.size_le, by have := h.added; omega, ?_⟩
  rcases h.paid with hz | ⟨k, hk, hbuf, hpaid, hlim⟩
  · exact Or.inl hz
  · exact Or.inr ⟨k, hk, hbuf, by omega, by omega⟩

theorem Cost.shrink (h : Cost adds adds s) {m : Memory α} {size : Nat} (hm : Builds s.mem 0 m) (hsize : size ≤ s.vec.size) :
    Cost adds adds ⟨m, { s.vec with size }⟩ := by
  have hobjects : m.nextObject = s.mem.nextObject := hm.objects
  refine ⟨hsize.trans h.size_le, hsize.trans h.added, ?_⟩
  rcases h.paid with ⟨hz, hnone, hno⟩ | ⟨k, hk, hbuf, hpaid, hlim⟩
  · exact Or.inl ⟨hz, hobjects.trans hnone, hm.buffers.trans hno⟩
  · exact Or.inr ⟨k, hk, hm.buffers.trans hbuf, hobjects ▸ hpaid, hlim⟩

theorem Cost.constructBack (h : Cost adds (adds + 1) s) (hroom : s.vec.size < s.vec.capacity)
    (args : Args (Option Nat) α) : (s.constructBack T throws args).Leaves (Cost (adds + 1) (adds + 1)) := by
  have hone : ∀ m', Builds s.mem 1 m' → Cost (adds + 1) (adds + 1) ⟨m', { s.vec with size := s.vec.size + 1 }⟩ := by
    intro m' hm
    refine ⟨hroom, Nat.succ_le_succ h.added, ?_⟩
    rcases h.paid with ⟨hz, -, -⟩ | ⟨k, hk, hbuf, hpaid, hlim⟩
    · omega
    · refine Or.inr ⟨k, hk, hm.buffers.trans hbuf, ?_, hlim⟩
      rw [hm.objects]
      omega
  unfold VecState.constructBack
  split
  · split
    · next hi => exact (h.waste (Nat.le_refl _)).shrink (interrupt_builds hi) (Nat.le_refl s.vec.size)
    · trivial
  · apply Leaves.ofOption
    intro s' hs'
    cases args with
    | outside x =>
      obtain ⟨m, hc, rfl⟩ := Option.map_eq_some_iff.mp hs'
      exact hone m (construct_builds hc)
    | element p i make leave =>
      obtain ⟨c, -, hs'⟩ := Option.bind_eq_some_iff.mp hs'
      obtain ⟨m, hc, hs'⟩ := Option.bind_eq_some_iff.mp hs'
      obtain ⟨m', hm, rfl⟩ := Option.map_eq_some_iff.mp hs'
      exact hone m' ((construct_builds hc).trans (modify_builds hm))

theorem Cost.emplaceBack (h : Cost adds adds s) (hs : Sized T s) (hc : ∀ k, throws ≠ some (.copy k))
    (args : Args (Option Nat) α) : (s.emplaceBack T throws args).Leaves (Cost (adds + 1) (adds + 1)) := by
  unfold VecState.emplaceBack
  rcases h.grow hs hc with hthrew | hdone
  · rw [hthrew]
    exact h.waste (Nat.le_succ _)
  · cases hg : s.grow T throws with
    | undefined => trivial
    | threw s' =>
      rw [hg] at hdone
      exact hdone.elim
    | done s' =>
      rw [hg] at hdone
      exact hdone.1.constructBack hdone.2 args

theorem Cost.applyOp (h : Cost adds adds s) (hs : Sized T s) (hc : ∀ k, throws ≠ some (.copy k)) (op : VecOp α) :
    (s.applyOp T throws op).Leaves (Cost (adds + if op.adds then 1 else 0) (adds + if op.adds then 1 else 0)) := by
  cases op with
  | pushBack obj => exact h.emplaceBack hs hc _
  | pushBackMove obj => exact h.emplaceBack hs hc _
  | emplaceBack args => exact h.emplaceBack hs hc args
  | popBack =>
    show (Outcome.ofOption s.popBack).Leaves (Cost adds adds)
    unfold VecState.popBack
    split
    · apply Leaves.ofOption
      intro s' hs'
      obtain ⟨m, hd, rfl⟩ := Option.map_eq_some_iff.mp hs'
      exact h.shrink (destroy_builds hd) (Nat.sub_le _ _)
    · exact h
  | clear =>
    apply Leaves.ofOption
    intro s' hs'
    obtain ⟨m, hd, rfl⟩ := Option.map_eq_some_iff.mp hs'
    exact h.shrink (destroyFirst_builds _ m hd) (Nat.zero_le _)

theorem leaves_of_step {P : VecState α → Prop} {call : VecOp α × Option Throw} (h : (s.applyOp T call.2 call.1).Leaves P)
    (hs : s.step T call = some s') : P s' := by
  unfold VecState.step at hs
  split at hs
  · next ho =>
    cases hs
    rw [ho] at h
    exact h
  · next ho =>
    cases hs
    rw [ho] at h
    exact h
  · cases hs

end

/-! ## Runs -/

def callAdds (call : VecOp α × Option Throw) : Bool := call.1.adds

theorem cost_run (T : ElementType α) : ∀ (calls : List (VecOp α × Option Throw)) (adds : Nat) (s s' : VecState α),
    (∀ call ∈ calls, ∀ k, call.2 ≠ some (.copy k)) → Cost adds adds s → Sized T s → run (step T) s calls = some s' →
      Cost (adds + calls.countP callAdds) (adds + calls.countP callAdds) s'
  | [], adds, s, s', _, h, _, hr => by
    cases hr
    exact h
  | call :: calls, adds, s, s', hc, h, hs, hr => by
    obtain ⟨s₁, hstep, hr⟩ := Option.bind_eq_some_iff.mp hr
    have h₁ := leaves_of_step (h.applyOp hs (hc call List.mem_cons_self) call.1) hstep
    have hrest := cost_run T calls _ s₁ s' (fun c hcs => hc c (List.mem_cons_of_mem call hcs)) h₁ (hs.step hstep) hr
    have hcount : adds + (call :: calls).countP callAdds = adds + (if call.1.adds then 1 else 0) + calls.countP callAdds := by
      rw [List.countP_cons, Nat.add_assoc, Nat.add_comm (calls.countP callAdds)]
      rfl
    rw [hcount]
    exact hrest

/-- **Amortised growth.** Where no copy throws, a run of calls constructs at most three
elements for each call that adds one, and asks for a buffer about as often as the number of
these calls doubles. -/
theorem growth_amortised (T : ElementType α) {calls : List (VecOp α × Option Throw)} {s : VecState α}
    (hc : ∀ call ∈ calls, ∀ k, call.2 ≠ some (.copy k)) (hr : run (step T) init calls = some s) :
    s.mem.nextObject ≤ 3 * calls.countP callAdds ∧ 2 ^ s.mem.nextBuffer ≤ 4 * calls.countP callAdds + 1 := by
  have hinit : Cost 0 0 (init : VecState α) := ⟨Nat.le_refl 0, Nat.le_refl 0, Or.inl ⟨rfl, rfl, rfl⟩⟩
  have hsized : Sized T (init : VecState α) := by
    refine ⟨?_, Nat.le_of_eq (Nat.zero_mul _), fun b hb => ?_⟩
    · show 0 * T.sizeOf < 2 ^ 63
      rw [Nat.zero_mul]
      exact Nat.two_pow_pos 63
    · cases hb
  have h := cost_run T calls 0 init s hc hinit hsized hr
  rw [Nat.zero_add] at h
  rcases h.paid with ⟨-, hobjects, hbuffers⟩ | ⟨k, -, hbuffers, hpaid, hlim⟩
  · rw [hobjects, hbuffers]
    exact ⟨Nat.zero_le _, Nat.le_add_left 1 _⟩
  · rw [hbuffers, Nat.pow_succ]
    omega

def fiveRun : List (VecOp Int × Option Throw) :=
  [1, 2, 3, 4, 5].map fun x => (.pushBack (.outside x), none)

theorem growth_amortised_five : ∃ s, run (step ElementType.int) init fiveRun = some s ∧ s.mem.nextObject ≤ 3 * 5 ∧
    2 ^ s.mem.nextBuffer ≤ 4 * 5 + 1 := by
  obtain ⟨s, hs⟩ : ∃ s, run (step ElementType.int) init fiveRun = some s := ⟨_, rfl⟩
  have hc : ∀ call ∈ fiveRun, ∀ k, call.2 ≠ some (.copy k) := by
    intro call hcall k
    obtain ⟨x, -, rfl⟩ := List.mem_map.mp hcall
    simp
  exact ⟨s, hs, growth_amortised ElementType.int hc hs⟩

end VecState

end LearningC
