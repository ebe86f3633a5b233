import LearningC.LittleEndian
import Mathlib.Data.List.AList
import Mathlib.Logic.Function.Basic

/-!
# The serializer of probuf.cpp

`serializeObject` and `deserializeObject` walk over the `fields` of a `MetaClass` and
write or read the member at the offset of each. An `int32_t` is written as its four
bytes, a string as its length, an `int32_t`, and its bytes. Names and types are not
written.
-/

namespace LearningC

inductive FieldType
  | int32
  | string
  deriving DecidableEq, Repr

structure MetaField where
  type : FieldType
  offset : Nat
  deriving DecidableEq, Repr

/-- The hash map, with the calls of `addField` that made it. -/
structure MetaClass where
  fields : AList fun _ : String => MetaField
  added : List (String × MetaField)

namespace MetaClass

def empty : MetaClass where
  fields := ∅
  added := []

/-- `fields[name] = MetaField(type, offset)`. -/
def addField (m : MetaClass) (name : String) (type : FieldType) (offset : Nat) : MetaClass where
  fields := m.fields.insert name { type, offset }
  added := m.added ++ [(name, { type, offset })]

def ofCalls (calls : List (String × MetaField)) : MetaClass :=
  calls.foldl (fun m call => m.addField call.1 call.2.type call.2.offset) empty

end MetaClass

/-- The order in which a loop over `fields` visits the entries. It may depend on how the
map was made. -/
structure Iteration where
  order : MetaClass → List (Σ _ : String, MetaField)
  perm : ∀ m, (order m).Perm m.fields.entries

/-! ## Objects -/

inductive Member
  | int32 (value : BitVec 32)
  | string (value : List UInt8)
  deriving DecidableEq, Repr

def Member.type : Member → FieldType
  | .int32 _ => .int32
  | .string _ => .string

/-- An object in memory, by the offsets of its members. -/
abbrev Object := Nat → Option Member

/-- What the language leaves undefined: a pointer to a member that is not there, a read
behind the end of `data`, and a range whose end lies before its begin. -/
inductive Fault
  | noMember
  | pastEnd
  | reversed
  deriving DecidableEq, Repr

namespace Object

def int32 (object : Object) (offset : Nat) : Except Fault (BitVec 32) :=
  match object offset with
  | some (.int32 value) => .ok value
  | _ => .error .noMember

def string (object : Object) (offset : Nat) : Except Fault (List UInt8) :=
  match object offset with
  | some (.string value) => .ok value
  | _ => .error .noMember

/-- Assigns to the member at `offset`, which is of the type of the new value. -/
def assign (object : Object) (offset : Nat) (value : Member) : Except Fault Object :=
  match object offset with
  | some old => if old.type = value.type then .ok (Function.update object offset (some value)) else .error .noMember
  | none => .error .noMember

end Object

/-! ## Writing -/

/-- The four bytes of an `int32_t`, low byte first. -/
def int32Bytes (value : BitVec 32) : List UInt8 := LittleEndian.bytes 4 value.toNat

def serializeField (object : Object) (data : List UInt8) (metaField : MetaField) : Except Fault (List UInt8) :=
  match metaField.type with
  | .int32 => do
    let value ← object.int32 metaField.offset
    return data ++ int32Bytes value
  | .string => do
    let value ← object.string metaField.offset
    -- `int32_t length = value.size()` drops the upper half of the size
    let length := BitVec.ofNat 32 value.length
    return data ++ int32Bytes length ++ value

def serializeObject (it : Iteration) (object : Object) (metaClass : MetaClass) : Except Fault (List UInt8) :=
  (it.order metaClass).foldlM (fun data field => serializeField object data field.2) []

/-! ## Reading -/

def int32At (data : List UInt8) (offset : Nat) : Except Fault (BitVec 32) :=
  if offset + 4 ≤ data.length then .ok (BitVec.ofNat 32 (LittleEndian.value ((data.drop offset).take 4)))
  else .error .pastEnd

/-- `std::string value(data.begin() + offset, data.begin() + offset + length)`. -/
def stringAt (data : List UInt8) (offset : Nat) (length : BitVec 32) : Except Fault (List UInt8) :=
  if length.toInt < 0 then .error .reversed
  else if offset + length.toNat ≤ data.length then .ok ((data.drop offset).take length.toNat)
  else .error .pastEnd

/-- One field, with the object and the offset after it. -/
def deserializeField (data : List UInt8) (s : Object × Nat) (metaField : MetaField) : Except Fault (Object × Nat) :=
  let (object, offset) := s
  match metaField.type with
  | .int32 => do
    let value ← int32At data offset
    let object ← object.assign metaField.offset (.int32 value)
    return (object, offset + 4)
  | .string => do
    let length ← int32At data offset
    let offset := offset + 4
    let value ← stringAt data offset length
    let object ← object.assign metaField.offset (.string value)
    return (object, offset + length.toNat)

def deserializeObject (it : Iteration) (object : Object) (metaClass : MetaClass) (data : List UInt8) :
    Except Fault (Object × Nat) :=
  (it.order metaClass).foldlM (fun s field => deserializeField data s field.2) (object, 0)

/-! ## Person -/

/-- The offsets of `Person` on a 64-bit machine. -/
def createPersonMetaClass : MetaClass :=
  ((MetaClass.empty.addField "id" .int32 0).addField "name" .string 8).addField "email" .string 40

def person (id : BitVec 32) (name email : List UInt8) : Object
  | 0 => some (.int32 id)
  | 8 => some (.string name)
  | 40 => some (.string email)
  | _ => none

end LearningC
