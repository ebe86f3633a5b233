import Mathlib.Logic.Function.Basic

/-!
# Computations with fuel

`Ends f a`: with enough fuel the computation ends in `a`, and more fuel does not
change that. `none` is an unfinished or a failed computation.
-/

namespace Fuel

variable {α β : Type*}

def Ends (f : Nat → Option α) (a : α) : Prop := ∃ n, ∀ fuel ≥ n, f fuel = some a

theorem Ends.pure (a : α) : Ends (fun _ => some a) a := ⟨0, fun _ _ => rfl⟩

theorem Ends.unique {f : Nat → Option α} {a b : α} (ha : Ends f a) (hb : Ends f b) : a = b := by
  obtain ⟨n, hn⟩ := ha
  obtain ⟨m, hm⟩ := hb
  have := (hn (n + m) (by omega)).symm.trans (hm (n + m) (by omega))
  exact Option.some.inj this

theorem Ends.bind {f : Nat → Option α} {g : Nat → α → Option β} {a : α} {b : β} (hf : Ends f a)
    (hg : Ends (fun n => g n a) b) : Ends (fun n => (f n).bind (g n)) b := by
  obtain ⟨n, hn⟩ := hf
  obtain ⟨m, hm⟩ := hg
  refine ⟨n + m, fun fuel h => ?_⟩
  show (f fuel).bind (g fuel) = some b
  rw [hn fuel (by omega), Option.bind_some]
  exact hm fuel (by omega)

theorem Ends.map {f : Nat → Option α} {a : α} (g : α → β) (hf : Ends f a) :
    Ends (fun n => (f n).map g) (g a) := by
  obtain ⟨n, hn⟩ := hf
  refine ⟨n, fun fuel h => ?_⟩
  show (f fuel).map g = some (g a)
  rw [hn fuel h, Option.map_some]

theorem Ends.of_map {f : Nat → Option α} {g : α → β} (hg : Function.Injective g) {b : β}
    (h : Ends (fun n => (f n).map g) b) : ∃ a, Ends f a ∧ g a = b := by
  obtain ⟨n, hn⟩ := h
  obtain ⟨a, -, ha⟩ := Option.map_eq_some_iff.mp (hn n (Nat.le_refl n))
  refine ⟨a, ⟨n, fun fuel hf => ?_⟩, ha⟩
  obtain ⟨a', hf', ha'⟩ := Option.map_eq_some_iff.mp (hn fuel hf)
  rw [hf', hg (ha'.trans ha.symm)]

theorem Ends.succ {f : Nat → Option α} {a : α} (h : Ends (fun n => f (n + 1)) a) : Ends f a := by
  obtain ⟨n, hn⟩ := h
  refine ⟨n + 1, fun fuel hf => ?_⟩
  obtain ⟨m, rfl⟩ : ∃ m, fuel = m + 1 := ⟨fuel - 1, by omega⟩
  exact hn m (by omega)

theorem Ends.congr {f g : Nat → Option α} {a : α} (h : Ends f a) (e : ∀ n, f n = g n) : Ends g a := by
  obtain ⟨n, hn⟩ := h
  exact ⟨n, fun fuel hf => by rw [← e, hn fuel hf]⟩

theorem Ends.foldlM_cons {f : Nat → β → α → Option β} {b b' b'' : β} {a : α} {l : List α}
    (h : Ends (fun n => f n b a) b') (hl : Ends (fun n => l.foldlM (f n) b') b'') :
    Ends (fun n => (a :: l).foldlM (f n) b) b'' :=
  (h.bind hl).congr fun _ => rfl

/-! ## More fuel keeps a result -/

def Mono (f : Nat → Option α) : Prop := ∀ n a, f n = some a → f (n + 1) = some a

theorem Mono.ends {f : Nat → Option α} (hf : Mono f) {n : Nat} {a : α} (h : f n = some a) : Ends f a := by
  refine ⟨n, fun fuel hle => ?_⟩
  induction fuel with
  | zero => obtain rfl : n = 0 := by omega
            exact h
  | succ fuel ih =>
    rcases Nat.lt_or_ge fuel n with hlt | hge
    · obtain rfl : n = fuel + 1 := by omega
      exact h
    · exact hf fuel a (ih hge)

theorem Mono.const (o : Option α) : Mono fun _ => o := fun _ _ h => h

theorem Mono.bind {f : Nat → Option α} {g : Nat → α → Option β} (hf : Mono f)
    (hg : ∀ a, Mono fun n => g n a) : Mono fun n => (f n).bind (g n) := by
  intro n b h
  obtain ⟨a, hfa, hgb⟩ := Option.bind_eq_some_iff.mp h
  exact Option.bind_eq_some_iff.mpr ⟨a, hf n a hfa, hg a n b hgb⟩

theorem foldlM_some {f g : β → α → Option β} (h : ∀ b a b', f b a = some b' → g b a = some b') (l : List α) :
    ∀ b b', l.foldlM f b = some b' → l.foldlM g b = some b' := by
  induction l with
  | nil => exact fun _ _ h => h
  | cons a l ih =>
    intro b b' hf
    obtain ⟨c, hc, hl⟩ := Option.bind_eq_some_iff.mp hf
    exact Option.bind_eq_some_iff.mpr ⟨c, h b a c hc, ih c b' hl⟩

theorem Mono.foldlM {f : Nat → β → α → Option β} (hf : ∀ b a, Mono fun n => f n b a) (l : List α) (b : β) :
    Mono fun n => l.foldlM (f n) b :=
  fun n => foldlM_some (fun b a => hf b a n) l b

/-! ## Loops -/

/-- What each step of a loop keeps, and what is left of a step at its end. -/
theorem foldlM_steps {f : β → α → Option β} {R : β → β → Prop} (hrefl : ∀ s, R s s)
    (htrans : ∀ {s s' s''}, R s s' → R s' s'' → R s s'') (hstep : ∀ s a s', f s a = some s' → R s s') :
    ∀ (l : List α) (s s' : β), l.foldlM f s = some s' →
      R s s' ∧ ∀ a ∈ l, ∃ s₁ s₂, f s₁ a = some s₂ ∧ R s₂ s'
  | [], s, s', hf => by
    cases hf
    exact ⟨hrefl s, fun a ha => absurd ha List.not_mem_nil⟩
  | a :: l, s, s', hf => by
    obtain ⟨s₁, ha, hl⟩ := Option.bind_eq_some_iff.mp hf
    obtain ⟨hR, hall⟩ := foldlM_steps hrefl htrans hstep l s₁ s' hl
    refine ⟨htrans (hstep s a s₁ ha) hR, fun a' ha' => ?_⟩
    rcases List.mem_cons.mp ha' with rfl | ha'
    · exact ⟨s, s₁, ha, hR⟩
    · exact hall a' ha'

end Fuel
