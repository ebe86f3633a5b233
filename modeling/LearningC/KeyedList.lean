import Mathlib.Data.List.Basic

/-!
# Lists searched by a key

The first entry under a key, and what changing one entry does to these searches. A
key may be a null key that marks entries out of use and repeats.
-/

namespace KeyedList

variable {α κ : Type*}

/-- Two positions with the same key other than `z` are one position. -/
def Distinct (key : α → κ) (z : κ) (l : List α) : Prop :=
  ∀ (i j : Nat) (a b : α), l[i]? = some a → l[j]? = some b → key a = key b → key a ≠ z → i = j

theorem Distinct.modify {key : α → κ} {z : κ} {l : List α} (hd : Distinct key z l) {i : Nat} {a : α}
    (hi : l[i]? = some a) (f : α → α)
    (hnew : key (f a) = z ∨ ∀ (j : Nat) b, l[j]? = some b → key b = key (f a) → j = i) :
    Distinct key z (l.modify i f) := by
  intro j m b c hj hm hk hz
  rw [List.getElem?_modify] at hj hm
  obtain ⟨b', hb', rfl⟩ := Option.map_eq_some_iff.mp hj
  obtain ⟨c', hc', rfl⟩ := Option.map_eq_some_iff.mp hm
  by_cases hij : i = j
  · by_cases him : i = m
    · exact hij.symm.trans him
    · subst hij
      rw [hi] at hb'
      cases hb'
      rw [if_pos rfl, if_neg him] at hk
      rw [if_pos rfl] at hz
      rcases hnew with h | h
      · exact absurd h hz
      · exact (h m c' hc' hk.symm).symm
  · by_cases him : i = m
    · subst him
      rw [hi] at hc'
      cases hc'
      rw [if_neg hij, if_pos rfl] at hk
      rw [if_neg hij, hk] at hz
      rcases hnew with h | h
      · exact absurd h hz
      · exact h j b' hb' hk
    · rw [if_neg hij, if_neg him] at hk
      rw [if_neg hij] at hz
      exact hd j m b' c' hb' hc' hk hz

/-! ## Searching -/

section
variable [BEq κ] (key : α → κ)

def find (l : List α) (k : κ) : Option α := l.find? fun a => key a == k

variable [LawfulBEq κ]

theorem find_eq_none {l : List α} {k : κ} : find key l k = none ↔ ∀ a ∈ l, key a ≠ k := by
  unfold find
  simp

variable {key}

theorem mem_of_find {l : List α} {k : κ} {a : α} (h : find key l k = some a) : a ∈ l ∧ key a = k :=
  ⟨List.mem_of_find?_eq_some h, by simpa using List.find?_some h⟩

theorem Distinct.find_of_getElem {z : κ} {l : List α} (hd : Distinct key z l) {i : Nat} {a : α}
    (hi : l[i]? = some a) (hz : key a ≠ z) : find key l (key a) = some a := by
  cases hf : find key l (key a) with
  | none => exact absurd rfl ((find_eq_none key).mp hf a (List.mem_of_getElem? hi))
  | some b =>
    obtain ⟨hb, hk⟩ := mem_of_find hf
    obtain ⟨j, hj⟩ := List.mem_iff_getElem?.mp hb
    have hij : j = i := hd j i b a hj hi hk (hk ▸ hz)
    rw [hij, hi] at hj
    exact hj.symm

theorem Distinct.filter_eq {z : κ} {l : List α} (hd : Distinct key z l) {k : κ} (hk : k ≠ z) :
    (l.filter fun a => key a == k) = (find key l k).toList := by
  unfold find
  induction l with
  | nil => rfl
  | cons a l ih =>
    have hl : Distinct key z l := fun i j b c hb hc e hz => Nat.succ.inj (hd (i + 1) (j + 1) b c hb hc e hz)
    rw [List.filter_cons, List.find?_cons]
    by_cases h : key a = k
    · have hnil : (l.filter fun a => key a == k) = [] := by
        rw [List.filter_eq_nil_iff]
        intro b hb e
        obtain ⟨j, hj⟩ := List.mem_iff_getElem?.mp hb
        have hbk : key b = k := by simpa using e
        exact absurd (hd 0 (j + 1) a b rfl hj (h.trans hbk.symm) (h ▸ hk)) (by simp)
      simp [h, hnil]
    · have hne : (key a == k) = false := by simpa using h
      simp [hne, ih hl]

variable [DecidableEq κ]

theorem findIdx_find (key : α → κ) (l : List α) (k : κ) :
    ((l.findIdx? fun a => key a == k).bind fun idx => l[idx]?) = find key l k := by
  unfold find
  induction l with
  | nil => rfl
  | cons a l ih =>
    rw [List.findIdx?_cons, List.find?_cons]
    by_cases h : key a = k
    · simp [h]
    · have hne : (key a == k) = false := by simpa using h
      simp only [hne, ← ih, Bool.false_eq_true, if_false, Option.bind_map]
      rfl

theorem find_modify (l : List α) (k k' : κ) (f : α → α) (hf : ∀ a, key (f a) = key a) {i : Nat}
    (hi : (l.findIdx? fun a => key a == k) = some i) :
    find key (l.modify i f) k' = if k' = k then (find key l k').map f else find key l k' := by
  unfold find
  induction l generalizing i with
  | nil => cases hi
  | cons a l ih =>
    rw [List.findIdx?_cons] at hi
    by_cases h : key a = k
    · simp only [h, BEq.rfl, if_true, Option.some.injEq] at hi
      subst hi
      rw [List.modify_zero_cons, List.find?_cons, List.find?_cons, hf, h]
      by_cases hk : k = k'
      · simp [hk]
      · have hne : (k == k') = false := by simpa using hk
        simp [hne, Ne.symm hk]
    · rw [if_neg (by simpa using h), Option.map_eq_some_iff] at hi
      obtain ⟨j, hj, rfl⟩ := hi
      rw [List.modify_succ_cons, List.find?_cons, List.find?_cons, ih hj]
      by_cases hk : key a = k'
      · have : k' ≠ k := fun e => h (hk.trans e)
        simp [hk, this]
      · have hne : (key a == k') = false := by simpa using hk
        simp [hne]

theorem Distinct.find_modify {z : κ} {l : List α} (hd : Distinct key z l) {i : Nat} {a : α}
    (hi : l[i]? = some a) (f : α → α)
    (hnew : key (f a) = z ∨ ∀ (j : Nat) b, l[j]? = some b → key b = key (f a) → j = i) {k : κ} (hk : k ≠ z) :
    find key (l.modify i f) k =
      if key (f a) = k then some (f a) else if key a = k then none else find key l k := by
  have hd' := hd.modify hi f hnew
  have hget : ∀ j : Nat, (l.modify i f)[j]? = if i = j then some (f a) else l[j]? := by
    intro j
    rw [List.getElem?_modify]
    by_cases hij : i = j
    · subst hij; simp [hi]
    · simp [hij]
  by_cases h₁ : key (f a) = k
  · rw [if_pos h₁, ← h₁]
    exact hd'.find_of_getElem (i := i) (by rw [hget, if_pos rfl]) (h₁ ▸ hk)
  rw [if_neg h₁]
  by_cases h₂ : key a = k
  · rw [if_pos h₂, find_eq_none]
    intro b hb hbk
    obtain ⟨j, hj⟩ := List.mem_iff_getElem?.mp hb
    rw [hget] at hj
    by_cases hij : i = j
    · rw [if_pos hij] at hj
      cases hj
      exact h₁ hbk
    · rw [if_neg hij] at hj
      exact hij (hd i j a b hi hj (h₂.trans hbk.symm) (h₂ ▸ hk))
  rw [if_neg h₂]
  cases hf : find key l k with
  | none =>
    rw [find_eq_none] at hf ⊢
    intro b hb hbk
    obtain ⟨j, hj⟩ := List.mem_iff_getElem?.mp hb
    rw [hget] at hj
    by_cases hij : i = j
    · rw [if_pos hij] at hj
      cases hj
      exact h₁ hbk
    · rw [if_neg hij] at hj
      exact hf b (List.mem_of_getElem? hj) hbk
  | some b =>
    obtain ⟨hb, rfl⟩ := mem_of_find hf
    obtain ⟨j, hj⟩ := List.mem_iff_getElem?.mp hb
    have hij : i ≠ j := by
      rintro rfl
      rw [hi] at hj
      cases hj
      exact h₂ rfl
    exact hd'.find_of_getElem (i := j) (by rw [hget, if_neg hij, hj]) hk

end

end KeyedList
