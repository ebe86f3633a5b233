import Mathlib.Data.List.Forall2

/-!
# Prefix codes

Words of several kinds, written down one after another. Where what follows a word never
hides where the word ends, a row of words of given kinds can be read in one way only.
-/

namespace PrefixCode

variable {κ ω β : Type*} {W : κ → ω → Prop} {code : ω → List β}

/-- `W k` are the words of kind `k`. Two of one kind that begin the same letters are the same. -/
def PrefixFree (W : κ → ω → Prop) (code : ω → List β) : Prop :=
  ∀ k v w r s, W k v → W k w → code v ++ r = code w ++ s → v = w

theorem PrefixFree.row (h : PrefixFree W code) {ks : List κ} {vs ws : List ω} {r s : List β}
    (hv : List.Forall₂ W ks vs) (hw : List.Forall₂ W ks ws) (heq : vs.flatMap code ++ r = ws.flatMap code ++ s) :
    vs = ws := by
  induction hv generalizing ws with
  | nil =>
    cases hw
    rfl
  | cons hkv _ ih =>
    cases hw with
    | cons hkw hw =>
      rw [List.flatMap_cons, List.flatMap_cons, List.append_assoc, List.append_assoc] at heq
      obtain rfl := h _ _ _ _ _ hkv hkw heq
      rw [ih hw (List.append_cancel_left heq)]

/-- The letters of a row are no beginning of those of another one. -/
theorem PrefixFree.row_of_prefix (h : PrefixFree W code) {ks : List κ} {vs ws : List ω} (hv : List.Forall₂ W ks vs)
    (hw : List.Forall₂ W ks ws) (hp : vs.flatMap code <+: ws.flatMap code) : vs = ws := by
  obtain ⟨r, hr⟩ := hp
  apply h.row hv hw (r := r) (s := [])
  rw [hr, List.append_nil]

end PrefixCode
