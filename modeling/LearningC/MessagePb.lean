import LearningC.Reader
import Mathlib.Data.BitVec

/-!
# The generated class of message.pb.cc

`Message` with its one field `content` and the fields it does not know. What it calls of
the protobuf runtime is a parameter.
-/

namespace LearningC

/-- What `message.pb.cc` calls of the runtime. `U` is a field of an `UnknownFieldSet`. -/
structure PbRuntime (U : Type) where
  readTag : Reader UInt8 Nat
  inlineGreedyStringParser : Reader UInt8 (List UInt8)
  verifyUTF8 : List UInt8 → Bool
  unknownFieldParse : Nat → Reader UInt8 U
  writeString : Nat → List UInt8 → List UInt8
  stringSize : List UInt8 → Nat
  serializeUnknownField : U → List UInt8
  unknownFieldSize : U → Nat

structure Message (U : Type) where
  content : List UInt8
  unknownFields : List U
  cachedSize : Int
  deriving DecidableEq, Repr

/-- How `_InternalParse` ends: at the end of the bytes, after an end group tag or a zero
with the bytes it leaves, or with `nullptr`. -/
inductive ParseEnd (U : Type)
  | done (m : Message U)
  | stopped (tag : Nat) (rest : List UInt8) (m : Message U)
  | failed
  deriving DecidableEq, Repr

namespace PbRuntime

def IsContent (tag : Nat) : Prop := tag / 8 = 1 ∧ tag % 256 = 10

def IsEnd (tag : Nat) : Prop := tag % 8 = 4 ∨ tag = 0

instance (tag : Nat) : Decidable (IsContent tag) := inferInstanceAs (Decidable (_ ∧ _))

instance (tag : Nat) : Decidable (IsEnd tag) := inferInstanceAs (Decidable (_ ∨ _))

/-- `ReadSize` refuses what comes within 16 bytes of the largest `int`. -/
def maxString : Nat := 2 ^ 31 - 1 - 16

/-- What is written is read again, a string has a size that `ReadSize` accepts, and the sizes
are those of what is written. Unknown fields are those of other tags than `content`. -/
structure Lawful {U : Type} (rt : PbRuntime U) : Prop where
  string : ∀ s : List UInt8, s.length ≤ maxString → ∃ t w, rt.writeString 1 s = t ++ w ∧
    rt.readTag.Reads t 10 ∧ rt.inlineGreedyStringParser.Reads w s
  short : ∀ bs s rest, rt.inlineGreedyStringParser.read bs = some (s, rest) → s.length ≤ maxString
  unknown : ∀ u, ∃ tag t w, rt.serializeUnknownField u = t ++ w ∧ rt.readTag.Reads t tag ∧
    ¬ IsContent tag ∧ ¬ IsEnd tag ∧ (rt.unknownFieldParse tag).Reads w u
  stringSize : ∀ s, (rt.writeString 1 s).length = 1 + rt.stringSize s
  unknownSize : ∀ u, (rt.serializeUnknownField u).length = rt.unknownFieldSize u

end PbRuntime

open PbRuntime

namespace Message

variable {U : Type}

def new : Message U where
  content := []
  unknownFields := []
  cachedSize := 0

def setContent (value : List UInt8) (m : Message U) : Message U := { m with content := value }

def addUnknown (field : U) (m : Message U) : Message U := { m with unknownFields := m.unknownFields ++ [field] }

def clear (m : Message U) : Message U := { m with content := [], unknownFields := [] }

def mergeFrom (m source : Message U) : Message U :=
  let m := { m with unknownFields := m.unknownFields ++ source.unknownFields }
  if source.content.length > 0 then m.setContent source.content else m

def copyFrom (m source : Message U) : Message U := m.clear.mergeFrom source

def copy (source : Message U) : Message U :=
  let m : Message U := { (new : Message U) with unknownFields := source.unknownFields }
  if source.content ≠ [] then m.setContent source.content else m

variable (rt : PbRuntime U)

/-- The loop of `_InternalParse`. Each round takes at least one byte. -/
def parseLoop : Nat → Message U → List UInt8 → ParseEnd U
  | _, m, [] => .done m
  | 0, _, _ :: _ => .failed
  | fuel + 1, m, b :: bytes =>
    match rt.readTag.read (b :: bytes) with
    | none => .failed
    | some (tag, rest) =>
      if IsContent tag then
        match rt.inlineGreedyStringParser.read rest with
        | none => .failed
        | some (str, rest) => if rt.verifyUTF8 str then parseLoop fuel (m.setContent str) rest else .failed
      else if IsEnd tag then .stopped tag rest m
      else
        match (rt.unknownFieldParse tag).read rest with
        | none => .failed
        | some (field, rest) => parseLoop fuel (m.addUnknown field) rest

def internalParse (m : Message U) (bytes : List UInt8) : ParseEnd U := parseLoop rt bytes.length m bytes

/-- `VerifyUtf8String` only logs here. -/
def internalSerialize (m : Message U) : List UInt8 :=
  (if m.content.length > 0 then rt.writeString 1 m.content else []) ++ m.unknownFields.flatMap rt.serializeUnknownField

def byteSizeLong (m : Message U) : Nat × Message U :=
  let totalSize := (if m.content.length > 0 then 1 + rt.stringSize m.content else 0) +
    (m.unknownFields.map rt.unknownFieldSize).sum
  (totalSize, { m with cachedSize := (BitVec.ofNat 32 totalSize).toInt })

def parseFromArray (bytes : List UInt8) : Option (Message U) :=
  match (new : Message U).clear.internalParse rt bytes with
  | .done m => some m
  | .stopped _ _ _ | .failed => none

def readCb (input : List UInt8) : Option (List UInt8) := (parseFromArray rt input).map Message.content

def helloWorld : List UInt8 := "Hello, World!".toList.map fun c => UInt8.ofNat c.toNat

def eventCb : List UInt8 := ((new : Message U).setContent helloWorld).internalSerialize rt

end Message

end LearningC
