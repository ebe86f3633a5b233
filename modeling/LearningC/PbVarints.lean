import LearningC.MessagePb
import LearningC.Varint

/-!
# A runtime for strings and varints

The wire format as far as strings in ASCII and unknown fields that are varints go. Fields
of other kinds do not parse.
-/

namespace LearningC

open PbRuntime

/-- An unknown field with a varint. -/
structure VarintField where
  number : Nat
  value : Nat
  known : 2 ≤ number
  inTag : number < 2 ^ 29
  inValue : value < 2 ^ 64
  deriving DecidableEq, Repr

namespace VarintField

def ofTag (tag value : Nat) : Option VarintField :=
  if h : tag % 8 = 0 ∧ 2 ≤ tag / 8 ∧ tag / 8 < 2 ^ 29 ∧ value < 2 ^ 64 then
    some ⟨tag / 8, value, h.2.1, h.2.2.1, h.2.2.2⟩
  else none

theorem ofTag_self (f : VarintField) : ofTag (f.number * 8) f.value = some f := by
  obtain ⟨number, value, hknown, htag, hvalue⟩ := f
  have hdiv : number * 8 / 8 = number := Nat.mul_div_cancel number (by omega)
  unfold ofTag
  rw [dif_pos ⟨Nat.mul_mod_left number 8, by rw [hdiv]; exact ⟨hknown, htag, hvalue⟩⟩]
  simp only [hdiv]

end VarintField

def asciiVarints : PbRuntime VarintField where
  readTag := Varint.reader 5
  inlineGreedyStringParser := (Reader.counted (Varint.reader 5)).ends fun s => if s.length ≤ maxString then some s else none
  verifyUTF8 s := s.all (· < 128)
  unknownFieldParse tag := (Varint.reader 10).ends (VarintField.ofTag tag)
  writeString number s := Varint.encode 5 (number * 8 + 2) ++ (Varint.encode 5 s.length ++ s)
  stringSize s := (Varint.encode 5 s.length).length + s.length
  serializeUnknownField f := Varint.encode 5 (f.number * 8) ++ Varint.encode 10 f.value
  unknownFieldSize f := (Varint.encode 5 (f.number * 8)).length + (Varint.encode 10 f.value).length

theorem lawful_asciiVarints : asciiVarints.Lawful where
  string s hs := by
    have hlen : s.length < 128 ^ 5 := Nat.lt_of_le_of_lt hs (by decide)
    refine ⟨Varint.encode 5 10, _, rfl, Varint.reads_encode (by decide), ?_⟩
    have hcounted := (Varint.reads_encode hlen).counted
    exact hcounted.ends (f := fun s => if s.length ≤ maxString then some s else none) (if_pos hs)
  short bs s rest h := by
    obtain ⟨v, -, h⟩ := Option.bind_eq_some_iff.mp h
    obtain ⟨y, hy, h⟩ := Option.map_eq_some_iff.mp h
    obtain ⟨hle, e⟩ := Option.ite_none_right_eq_some.mp hy
    cases h
    cases e
    exact hle
  unknown f := by
    have hknown := f.known
    have htag := f.inTag
    have hvalue := f.inValue
    refine ⟨f.number * 8, _, _, rfl, Varint.reads_encode (by omega), ?_, ?_, ?_⟩
    · unfold IsContent
      omega
    · unfold IsEnd
      omega
    · exact (Varint.reads_encode (by omega)).ends f.ofTag_self
  stringSize s := by
    show (Varint.encode 5 10 ++ _).length = _
    rw [List.length_append, List.length_append]
    rfl
  unknownSize f := List.length_append

end LearningC
