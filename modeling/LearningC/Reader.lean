import Mathlib.Data.List.Forall2

/-!
# Readers

A reader takes one value from the front of some letters. It takes at least one letter and
does not look at the letters it leaves, so where a value ends does not depend on what
follows, and a row of values that is cut off is read as far as it is whole.
-/

structure Reader (β α : Type*) where
  read : List β → Option (α × List β)
  shrinks : ∀ {bs x rest}, read bs = some (x, rest) → rest.length < bs.length
  ignores : ∀ {bs x rest} (more : List β), read bs = some (x, rest) → read (bs ++ more) = some (x, rest ++ more)

namespace Reader

variable {β α γ : Type*}

/-- `w` is all that the reader takes for `x`. -/
def Reads (r : Reader β α) (w : List β) (x : α) : Prop := r.read w = some (x, [])

section
variable {r : Reader β α} {w p bs rest : List β} {x y : α}

theorem read_nil : r.read [] = none := by
  cases h : r.read [] with
  | none => rfl
  | some v => exact absurd (r.shrinks h) (Nat.not_lt_zero _)

theorem Reads.ne_nil (h : Reads r w x) : w ≠ [] := by
  rintro rfl
  cases h.symm.trans read_nil

theorem Reads.append (h : Reads r w x) (rest : List β) : r.read (w ++ rest) = some (x, rest) :=
  r.ignores rest h

/-- Letters that begin a word and have a value of their own are that word. -/
theorem Reads.of_start (h : Reads r w x) {q : List β} (hp : p ++ q = w ++ rest) {left : List β}
    (hr : r.read p = some (y, left)) : y = x ∧ p = w ++ left ∧ left ++ q = rest := by
  have hwhole := r.ignores q hr
  rw [hp, h.append] at hwhole
  cases hwhole
  rw [← List.append_assoc] at hp
  exact ⟨rfl, List.append_cancel_right hp, rfl⟩

end

/-! ## Building readers -/

section
variable (r : Reader β α)

def fail : Reader β α where
  read _ := none
  shrinks h := nomatch h
  ignores _ h := nomatch h

/-- What a first value says about the next one. -/
def bind (k : α → Reader β γ) : Reader β γ where
  read bs := (r.read bs).bind fun v => (k v.1).read v.2
  shrinks h := by
    obtain ⟨v, hv, hk⟩ := Option.bind_eq_some_iff.mp h
    have h₁ := r.shrinks hv
    have h₂ := (k v.1).shrinks hk
    omega
  ignores more h := by
    obtain ⟨v, hv, hk⟩ := Option.bind_eq_some_iff.mp h
    exact Option.bind_eq_some_iff.mpr ⟨(v.1, v.2 ++ more), r.ignores more hv, (k v.1).ignores more hk⟩

/-- A first value may be all there is to read. -/
def ends (f : α → Option γ) : Reader β γ where
  read bs := (r.read bs).bind fun v => (f v.1).map fun y => (y, v.2)
  shrinks h := by
    obtain ⟨v, hv, hk⟩ := Option.bind_eq_some_iff.mp h
    obtain ⟨y, -, hy⟩ := Option.map_eq_some_iff.mp hk
    cases hy
    exact r.shrinks hv
  ignores more h := by
    obtain ⟨v, hv, hk⟩ := Option.bind_eq_some_iff.mp h
    obtain ⟨y, hf, hy⟩ := Option.map_eq_some_iff.mp hk
    cases hy
    exact Option.bind_eq_some_iff.mpr ⟨(v.1, v.2 ++ more), r.ignores more hv, by rw [hf]; rfl⟩

/-- As many letters as a number says, after the number. -/
def counted (len : Reader β Nat) : Reader β (List β) where
  read bs := (len.read bs).bind fun v => if v.1 ≤ v.2.length then some (v.2.take v.1, v.2.drop v.1) else none
  shrinks h := by
    obtain ⟨v, hv, hk⟩ := Option.bind_eq_some_iff.mp h
    obtain ⟨-, hk⟩ := Option.ite_none_right_eq_some.mp hk
    cases hk
    have hlen := len.shrinks hv
    rw [List.length_drop]
    omega
  ignores more h := by
    obtain ⟨v, hv, hk⟩ := Option.bind_eq_some_iff.mp h
    obtain ⟨hle, hk⟩ := Option.ite_none_right_eq_some.mp hk
    cases hk
    refine Option.bind_eq_some_iff.mpr ⟨(v.1, v.2 ++ more), len.ignores more hv, ?_⟩
    rw [if_pos (by rw [List.length_append]; omega), List.take_append_of_le_length hle, List.drop_append_of_le_length hle]

section
variable {r}

theorem Reads.bind {k : α → Reader β γ} {w v : List β} {x : α} {y : γ} (hx : Reads r w x) (hy : Reads (k x) v y) :
    Reads (r.bind k) (w ++ v) y :=
  Option.bind_eq_some_iff.mpr ⟨(x, v), hx.append v, hy⟩

theorem Reads.ends {f : α → Option γ} {w : List β} {x : α} {y : γ} (hx : Reads r w x) (hy : f x = some y) :
    Reads (r.ends f) w y :=
  Option.bind_eq_some_iff.mpr ⟨(x, []), hx, by rw [hy]; rfl⟩

theorem bind_stuck {k : α → Reader β γ} {bs rest : List β} {x : α} (hx : r.read bs = some (x, rest))
    (hk : (k x).read rest = none) : (r.bind k).read bs = none := by
  show (r.read bs).bind _ = none
  rw [hx]
  exact hk

theorem ends_stuck {f : α → Option γ} {bs rest : List β} {x : α} (hx : r.read bs = some (x, rest)) (hf : f x = none) :
    (r.ends f).read bs = none := by
  show (r.read bs).bind _ = none
  rw [hx, Option.bind_some, hf]
  rfl

theorem Reads.counted {len : Reader β Nat} {w s : List β} (h : Reads len w s.length) : Reads (counted len) (w ++ s) s := by
  refine Option.bind_eq_some_iff.mpr ⟨(s.length, s), h.append s, ?_⟩
  rw [if_pos (Nat.le_refl _), List.take_length, List.drop_length]

end

end

/-! ## Rows of values -/

section
variable (r : Reader β α)

/-- Values until the letters end, with fuel for each. -/
def readMany : Nat → List β → Option (List α)
  | _, [] => some []
  | 0, _ :: _ => none
  | fuel + 1, b :: bs => (r.read (b :: bs)).bind fun v => (readMany fuel v.2).map (v.1 :: ·)

def readAll (bs : List β) : Option (List α) := r.readMany bs.length bs

variable {r} {bs rest p q : List β} {x : α} {xs ys : List α}

theorem readMany_fuel : ∀ (n m : Nat) (bs : List β), bs.length ≤ n → bs.length ≤ m → r.readMany n bs = r.readMany m bs
  | n, m, [], _, _ => by cases n <;> cases m <;> rfl
  | 0, _, _ :: _, h, _ => absurd h (Nat.not_succ_le_zero _)
  | _, 0, _ :: _, _, h => absurd h (Nat.not_succ_le_zero _)
  | n + 1, m + 1, b :: bs, hn, hm => by
    show (r.read (b :: bs)).bind _ = (r.read (b :: bs)).bind _
    cases h : r.read (b :: bs) with
    | none => rfl
    | some v =>
      have hlt := r.shrinks h
      rw [List.length_cons] at hn hm hlt
      rw [Option.bind_some, Option.bind_some, readMany_fuel n m v.2 (by omega) (by omega)]

theorem readAll_read (h : r.read bs = some (x, rest)) : r.readAll bs = (r.readAll rest).map (x :: ·) := by
  cases bs with
  | nil => cases read_nil.symm.trans h
  | cons b bs =>
    have hlt := r.shrinks h
    show (r.read (b :: bs)).bind _ = _
    rw [h, Option.bind_some, readMany_fuel bs.length rest.length rest (Nat.le_of_lt_succ hlt) (Nat.le_refl _)]
    rfl

theorem readAll_stuck (hne : bs ≠ []) (h : r.read bs = none) : r.readAll bs = none := by
  cases bs with
  | nil => exact absurd rfl hne
  | cons b bs =>
    show (r.read (b :: bs)).bind _ = _
    rw [h]
    rfl

/-- Where nothing can be read, nothing can be read from a beginning either. -/
theorem nil_of_stuck (h : r.read (p ++ q) = none) (hxs : r.readAll p = some xs) : p = [] := by
  by_contra hne
  cases hr : r.read p with
  | none => cases hxs.symm.trans (readAll_stuck hne hr)
  | some v => cases h.symm.trans (r.ignores q hr)

/-- The first value of a row, and the row that it leaves. -/
theorem readAll_cases (h : r.readAll bs = some xs) : bs = [] ∧ xs = [] ∨
    ∃ x rest ys, r.read bs = some (x, rest) ∧ r.readAll rest = some ys ∧ xs = x :: ys := by
  by_cases hne : bs = []
  · subst hne
    cases h
    exact Or.inl ⟨rfl, rfl⟩
  · cases hr : r.read bs with
    | none => cases h.symm.trans (readAll_stuck hne hr)
    | some v =>
      rw [readAll_read hr] at h
      obtain ⟨ys, hys, rfl⟩ := Option.map_eq_some_iff.mp h
      exact Or.inr ⟨v.1, v.2, ys, rfl, hys, rfl⟩

theorem readAll_forall {P : α → Prop} (h : ∀ bs x rest, r.read bs = some (x, rest) → P x) (hxs : r.readAll bs = some xs) :
    ∀ x ∈ xs, P x := by
  induction xs generalizing bs with
  | nil => simp
  | cons x xs ih =>
    rcases readAll_cases hxs with ⟨-, e⟩ | ⟨y, rest, ys, hread, hrest, e⟩
    · cases e
    · cases e
      exact List.forall_mem_cons.mpr ⟨h _ _ _ hread, ih hrest⟩

theorem readAll_append (h : r.readAll p = some xs) (q : List β) : r.readAll (p ++ q) = (r.readAll q).map (xs ++ ·) := by
  induction xs generalizing p with
  | nil =>
    rcases readAll_cases h with ⟨rfl, -⟩ | ⟨x, rest, ys, -, -, hxs⟩
    · cases hq : r.readAll q <;> simp [hq]
    · cases hxs
  | cons x xs ih =>
    rcases readAll_cases h with ⟨-, hxs⟩ | ⟨y, rest, ys, hread, hrest, hxs⟩
    · cases hxs
    · cases hxs
      rw [readAll_read (r.ignores q hread), ih hrest, Option.map_map]
      rfl

/-- Words one after another are read as their values. -/
theorem readAll_words {code : α → List β} (h : ∀ x ∈ xs, Reads r (code x) x) : r.readAll (xs.flatMap code) = some xs := by
  induction xs with
  | nil => rfl
  | cons x xs ih =>
    rw [List.flatMap_cons, readAll_read ((h x List.mem_cons_self).append _), ih fun y hy => h y (List.mem_cons_of_mem x hy)]
    rfl

/-- **Truncation.** What is read from the beginning of a row of words is a row of its first values. -/
theorem readAll_truncated {code : α → List β} (h : ∀ x ∈ xs, Reads r (code x) x) (hp : p ++ q = xs.flatMap code)
    (hys : r.readAll p = some ys) : ys <+: xs ∧ p = ys.flatMap code := by
  induction ys generalizing p xs with
  | nil =>
    rcases readAll_cases hys with ⟨rfl, -⟩ | ⟨x, rest, zs, -, -, e⟩
    · exact ⟨List.nil_prefix, rfl⟩
    · cases e
  | cons y ys ih =>
    rcases readAll_cases hys with ⟨-, e⟩ | ⟨x, rest, zs, hread, hrest, e⟩
    · cases e
    · cases e
      cases xs with
      | nil =>
        obtain ⟨rfl, -⟩ := List.append_eq_nil_iff.mp hp
        cases read_nil.symm.trans hread
      | cons x xs =>
        rw [List.flatMap_cons] at hp
        obtain ⟨rfl, hp', hq⟩ := (h x List.mem_cons_self).of_start hp hread
        obtain ⟨hpre, hcode⟩ := ih (fun z hz => h z (List.mem_cons_of_mem _ hz)) hq hrest
        refine ⟨List.cons_prefix_cons.mpr ⟨rfl, hpre⟩, ?_⟩
        rw [hp', hcode, List.flatMap_cons]

end

end Reader
