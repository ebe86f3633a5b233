import LearningC.Reader
import Mathlib.Algebra.Ring.Nat

/-!
# Varints

Numbers in groups of seven bits, lowest first. Every byte but the last has its high bit
set, so a varint says where it ends.
-/

namespace Varint

/-- At most `k` bytes. -/
def encode : Nat → Nat → List UInt8
  | 0, _ => []
  | k + 1, n => if n < 128 then [UInt8.ofNat n] else UInt8.ofNat (n % 128 + 128) :: encode k (n / 128)

def decode : Nat → List UInt8 → Option (Nat × List UInt8)
  | 0, _ | _ + 1, [] => none
  | k + 1, b :: bs =>
    if b.toNat < 128 then some (b.toNat, bs) else (decode k bs).map fun v => (b.toNat - 128 + 128 * v.1, v.2)

theorem decode_shrinks : ∀ {k : Nat} {bs : List UInt8} {n : Nat} {rest : List UInt8},
    decode k bs = some (n, rest) → rest.length < bs.length
  | 0, _, _, _, h => nomatch h
  | _ + 1, [], _, _, h => nomatch h
  | k + 1, b :: bs, n, rest, h => by
    unfold decode at h
    split at h
    · cases h
      exact Nat.lt_succ_self _
    · obtain ⟨v, hv, e⟩ := Option.map_eq_some_iff.mp h
      cases e
      exact Nat.lt_succ_of_lt (decode_shrinks hv)

theorem decode_ignores : ∀ {k : Nat} {bs : List UInt8} {n : Nat} {rest : List UInt8} (more : List UInt8),
    decode k bs = some (n, rest) → decode k (bs ++ more) = some (n, rest ++ more)
  | 0, _, _, _, _, h => nomatch h
  | _ + 1, [], _, _, _, h => nomatch h
  | k + 1, b :: bs, n, rest, more, h => by
    rw [List.cons_append]
    unfold decode at h ⊢
    split at h
    · next hb =>
      cases h
      rw [if_pos hb]
    · next hb =>
      obtain ⟨v, hv, e⟩ := Option.map_eq_some_iff.mp h
      cases e
      rw [if_neg hb, decode_ignores more hv]
      rfl

def reader (k : Nat) : Reader UInt8 Nat where
  read := decode k
  shrinks := decode_shrinks
  ignores := decode_ignores

/-- **Round trip.** -/
theorem reads_encode : ∀ {k n : Nat}, n < 128 ^ (k + 1) → (reader (k + 1)).Reads (encode (k + 1) n) n
  | k, n, hn => by
    show decode (k + 1) (encode (k + 1) n) = some (n, [])
    unfold encode
    by_cases h : n < 128
    · have hb : (UInt8.ofNat n).toNat = n := by
        rw [UInt8.toNat_ofNat']
        omega
      rw [if_pos h]
      unfold decode
      rw [hb, if_pos h]
    · have hb : (UInt8.ofNat (n % 128 + 128)).toNat = n % 128 + 128 := by
        rw [UInt8.toNat_ofNat']
        omega
      rw [if_neg h]
      unfold decode
      rw [hb, if_neg (by omega)]
      cases k with
      | zero => exact absurd (by simpa using hn) h
      | succ k =>
        have hdiv : n / 128 < 128 ^ (k + 1) := by
          rw [Nat.div_lt_iff_lt_mul (by omega), ← Nat.pow_succ]
          exact hn
        have ih : decode (k + 1) (encode (k + 1) (n / 128)) = some (n / 128, []) := reads_encode hdiv
        rw [ih, Option.map_some]
        congr 2
        omega

end Varint
