import LearningC.MessagePb
import LearningC.Varint

/-!
# Messages on the wire

The bytes of messages are rows of fields, so what `_InternalParse` makes of them follows
from the fields alone: the bytes of several messages parse as their merge, and what is cut
off as a message without its last fields.
-/

namespace LearningC

open PbRuntime

inductive MessageField (U : Type)
  | content (value : List UInt8)
  | unknown (field : U)
  deriving DecidableEq, Repr

namespace Message

variable {U : Type} (rt : PbRuntime U)

/-- One round of `_InternalParse` that goes on to the next. -/
def fieldReader : Reader UInt8 (MessageField U) :=
  rt.readTag.bind fun tag =>
    if IsContent tag then rt.inlineGreedyStringParser.ends fun s => if rt.verifyUTF8 s then some (.content s) else none
    else if IsEnd tag then .fail
    else (rt.unknownFieldParse tag).ends fun field => some (.unknown field)

def apply (m : Message U) : MessageField U → Message U
  | .content value => m.setContent value
  | .unknown field => m.addUnknown field

/-- The fields that `_InternalSerialize` writes. -/
def fields (m : Message U) : List (MessageField U) :=
  (if m.content.length > 0 then [.content m.content] else []) ++ m.unknownFields.map .unknown

def contents (fs : List (MessageField U)) : List (List UInt8) :=
  fs.filterMap fun
    | .content value => some value
    | .unknown _ => none

def unknowns (fs : List (MessageField U)) : List U :=
  fs.filterMap fun
    | .content _ => none
    | .unknown field => some field

def fieldBytes : MessageField U → List UInt8
  | .content value => rt.writeString 1 value
  | .unknown field => rt.serializeUnknownField field

/-- `VerifyUTF8` lets the content pass when it is read. -/
def Readable (m : Message U) : Prop := m.content = [] ∨ rt.verifyUTF8 m.content = true

instance (m : Message U) : Decidable (m.Readable rt) := inferInstanceAs (Decidable (_ ∨ _))

def Fits (m : Message U) : Prop := m.content.length ≤ maxString

instance (m : Message U) : Decidable m.Fits := inferInstanceAs (Decidable (_ ≤ _))

/-- Some field of the bytes is `content`. -/
def HasContent (bytes : List UInt8) : Prop := ∃ fs, (fieldReader rt).readAll bytes = some fs ∧ contents fs ≠ []

section
variable {rt} {m m' : Message U} {ms : List (Message U)} {f : MessageField U} {fs : List (MessageField U)}
  {bs rest a b p q : List UInt8}

/-! ## The loop as a row of fields -/

/-- A round of the loop: it applies the field that is read, or is the last one. -/
theorem parseLoop_round (fuel : Nat) (m : Message U) (b : UInt8) (bs : List UInt8) :
    (∃ f rest, (fieldReader rt).read (b :: bs) = some (f, rest) ∧
      parseLoop rt (fuel + 1) m (b :: bs) = parseLoop rt fuel (m.apply f) rest) ∨
    (fieldReader rt).read (b :: bs) = none ∧ ∀ m', parseLoop rt (fuel + 1) m (b :: bs) ≠ .done m' := by
  rw [parseLoop]
  show (∃ f rest, (rt.readTag.read (b :: bs)).bind _ = some (f, rest) ∧ _) ∨ (rt.readTag.read (b :: bs)).bind _ = none ∧ _
  cases htag : rt.readTag.read (b :: bs) with
  | none => exact Or.inr ⟨rfl, fun m' h => nomatch h⟩
  | some v =>
    obtain ⟨tag, rest⟩ := v
    simp only [Option.bind_some]
    by_cases hc : IsContent tag
    · simp only [if_pos hc]
      show (∃ f rest', (rt.inlineGreedyStringParser.read rest).bind _ = some (f, rest') ∧ _) ∨
        (rt.inlineGreedyStringParser.read rest).bind _ = none ∧ _
      cases hs : rt.inlineGreedyStringParser.read rest with
      | none => exact Or.inr ⟨rfl, fun m' h => nomatch h⟩
      | some v =>
        obtain ⟨str, rest'⟩ := v
        by_cases hv : rt.verifyUTF8 str = true
        · simp only [Option.bind_some, if_pos hv]
          exact Or.inl ⟨_, _, rfl, rfl⟩
        · simp only [Option.bind_some, if_neg hv]
          exact Or.inr ⟨rfl, fun m' h => nomatch h⟩
    · simp only [if_neg hc]
      by_cases he : IsEnd tag
      · simp only [if_pos he]
        exact Or.inr ⟨rfl, fun m' h => nomatch h⟩
      · simp only [if_neg he]
        show (∃ f rest', ((rt.unknownFieldParse tag).read rest).bind _ = some (f, rest') ∧ _) ∨
          ((rt.unknownFieldParse tag).read rest).bind _ = none ∧ _
        cases hu : (rt.unknownFieldParse tag).read rest with
        | none => exact Or.inr ⟨rfl, fun m' h => nomatch h⟩
        | some v => exact Or.inl ⟨_, _, rfl, rfl⟩

theorem parseLoop_done : ∀ (fuel : Nat) (m m' : Message U) (bs : List UInt8),
    parseLoop rt fuel m bs = .done m' ↔ ∃ fs, (fieldReader rt).readMany fuel bs = some fs ∧ fs.foldl apply m = m'
  | fuel, m, m', [] => by
    cases fuel with
    | zero => simp [parseLoop, Reader.readMany]
    | succ fuel => simp [parseLoop, Reader.readMany]
  | 0, m, m', b :: bs => by simp [parseLoop, Reader.readMany]
  | fuel + 1, m, m', b :: bs => by
    show _ ↔ ∃ fs, ((fieldReader rt).read (b :: bs)).bind _ = some fs ∧ _
    rcases parseLoop_round fuel m b bs with ⟨f, rest, hf, hround⟩ | ⟨hf, hround⟩
    · rw [hround, hf, Option.bind_some, parseLoop_done fuel (m.apply f) m' rest]
      constructor
      · rintro ⟨fs, hfs, hm⟩
        exact ⟨f :: fs, by simp only [hfs, Option.map_some], hm⟩
      · rintro ⟨fs, hfs, hm⟩
        obtain ⟨gs, hgs, rfl⟩ := Option.map_eq_some_iff.mp hfs
        exact ⟨gs, hgs, hm⟩
    · rw [hf]
      exact iff_of_false (hround m') fun ⟨fs, hfs, _⟩ => (nomatch hfs)

theorem internalParse_done : m.internalParse rt bs = .done m' ↔
    ∃ fs, (fieldReader rt).readAll bs = some fs ∧ fs.foldl apply m = m' :=
  parseLoop_done bs.length m m' bs

/-! ## The fields of a message -/

theorem internalSerialize_eq (m : Message U) : m.internalSerialize rt = m.fields.flatMap (fieldBytes rt) := by
  unfold internalSerialize fields
  rw [List.flatMap_append, List.flatMap_map]
  congr 1
  split <;> simp [fieldBytes]

theorem foldl_unknown (us : List U) (m : Message U) :
    (us.map MessageField.unknown).foldl apply m = { m with unknownFields := m.unknownFields ++ us } := by
  induction us generalizing m with
  | nil => simp
  | cons u us ih =>
    rw [List.map_cons, List.foldl_cons, ih]
    simp [apply, addUnknown]

theorem foldl_fields (m source : Message U) : source.fields.foldl apply m = m.mergeFrom source := by
  unfold fields mergeFrom
  rw [List.foldl_append, foldl_unknown]
  split <;> rfl

theorem foldl_flatMap_fields (ms : List (Message U)) (m : Message U) :
    (ms.flatMap fields).foldl apply m = ms.foldl mergeFrom m := by
  induction ms generalizing m with
  | nil => rfl
  | cons source ms ih => rw [List.flatMap_cons, List.foldl_append, foldl_fields, ih, List.foldl_cons]

/-- What some fields do to a message: the last content stays, and the others are kept in order. -/
theorem foldl_apply (fs : List (MessageField U)) (m : Message U) : fs.foldl apply m =
    { content := (contents fs).getLast?.getD m.content
      unknownFields := m.unknownFields ++ unknowns fs
      cachedSize := m.cachedSize } := by
  induction fs generalizing m with
  | nil => simp [contents, unknowns]
  | cons f fs ih =>
    rw [List.foldl_cons, ih]
    cases f with
    | content value => simp [apply, setContent, contents, unknowns, List.getLast?_cons]
    | unknown field => simp [apply, addUnknown, contents, unknowns]

/-! ## Words -/

section
variable (hrt : rt.Lawful)
include hrt

theorem reads_content {s : List UInt8} (hlen : s.length ≤ maxString) (hs : rt.verifyUTF8 s = true) :
    (fieldReader rt).Reads (rt.writeString 1 s) (.content s) := by
  obtain ⟨t, w, hw, ht, hstring⟩ := hrt.string s hlen
  rw [hw]
  apply ht.bind
  rw [if_pos ⟨rfl, rfl⟩]
  exact hstring.ends (if_pos hs)

theorem reads_unknown (u : U) : (fieldReader rt).Reads (rt.serializeUnknownField u) (.unknown u) := by
  obtain ⟨tag, t, w, hw, ht, hc, he, hu⟩ := hrt.unknown u
  rw [hw]
  apply ht.bind
  rw [if_neg hc, if_neg he]
  exact hu.ends rfl

theorem reads_field (hfit : m.Fits) (hm : m.Readable rt) (hf : f ∈ m.fields) : (fieldReader rt).Reads (fieldBytes rt f) f := by
  rcases List.mem_append.mp hf with hf | hf
  · obtain ⟨hpos, hf⟩ := List.mem_ite_nil_right.mp hf
    rw [List.mem_singleton.mp hf]
    refine reads_content hrt hfit (hm.resolve_left fun e => ?_)
    rw [e] at hpos
    exact absurd hpos (Nat.lt_irrefl 0)
  · obtain ⟨u, -, rfl⟩ := List.mem_map.mp hf
    exact reads_unknown hrt u

/-- Content that is not valid UTF-8 cannot be read. -/
theorem read_unreadable (hfit : m.Fits) (hm : ¬ m.Readable rt) (rest : List UInt8) :
    m.internalSerialize rt ++ rest ≠ [] ∧ (fieldReader rt).read (m.internalSerialize rt ++ rest) = none := by
  unfold Readable at hm
  obtain ⟨hne, hs⟩ := not_or.mp hm
  obtain ⟨t, w, hw, ht, hstring⟩ := hrt.string m.content hfit
  unfold internalSerialize
  rw [if_pos (List.length_pos_iff.mpr hne), hw, List.append_assoc, List.append_assoc]
  constructor
  · exact fun e => ht.ne_nil (List.append_eq_nil_iff.mp e).1
  · apply Reader.bind_stuck (ht.append _)
    rw [if_pos ⟨rfl, rfl⟩]
    exact Reader.ends_stuck (hstring.append _) (if_neg hs)

end

end

end Message

end LearningC
