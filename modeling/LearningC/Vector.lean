import LearningC.Storage
import Mathlib.Algebra.Ring.Nat
import Mathlib.Data.Finset.Basic

/-!
# vector_.cpp

A `vector_` is a pointer to a buffer, a size and a capacity. `emplace_back` grows a full
vector with `reallocate`, which moves or copies the elements into a new buffer, clears
the old one and gives it back. The stray tokens of the class are read as meant: the
catch block calls `~T()` and `emplace_back` returns the new element.
-/

namespace LearningC

open Storage

/-- What the vector needs to know of `T`: its size, whether `std::move_if_noexcept`
moves, and what a move leaves behind in its source. -/
structure ElementType (α : Type) where
  sizeOf : Nat
  noexceptMove : Bool
  moveOut : α → α
  sizeOf_pos : 0 < sizeOf
  sizeOf_lt : sizeOf < 2 ^ 63

def ElementType.int : ElementType Int where
  sizeOf := 4
  noexceptMove := true
  moveOut := id
  sizeOf_pos := by decide
  sizeOf_lt := by decide

/-- How far a constructor has come with its argument when it throws. -/
inductive Progress
  | unused
  | read
  | movedFrom
  deriving DecidableEq, Repr

inductive Throw
  | alloc
  | copy (k : Nat)
  | construct (progress : Progress)
  deriving DecidableEq, Repr

inductive Outcome (σ : Type)
  | done (s : σ)
  | threw (s : σ)
  | undefined

def Outcome.bind {σ τ : Type} (o : Outcome σ) (k : σ → Outcome τ) (unwind : σ → τ) : Outcome τ :=
  match o with
  | .done s => k s
  | .threw s => .threw (unwind s)
  | .undefined => .undefined

def Outcome.ofOption {σ : Type} : Option σ → Outcome σ
  | some s => .done s
  | none => .undefined

structure Vec where
  data : Option Nat
  size : Nat
  capacity : Nat
  deriving DecidableEq, Repr

structure VecState (α : Type) where
  mem : Memory α
  vec : Vec

/-- An argument: an object outside of all vectors, or the element in a slot of `p`. -/
inductive Ref (π α : Type)
  | outside (x : α)
  | element (p : π) (i : Nat)
  deriving DecidableEq, Repr

/-- What `T` is constructed from: something outside that makes it `x`, or an element,
from which `make` makes the value and where `leave` stays behind. -/
inductive Args (π α : Type)
  | outside (x : α)
  | element (p : π) (i : Nat) (make leave : α → α)

namespace Ref

variable {π α : Type}

def copied : Ref π α → Args π α
  | .outside x => .outside x
  | .element p i => .element p i id id

def moved (T : ElementType α) : Ref π α → Args π α
  | .outside x => .outside x
  | .element p i => .element p i id T.moveOut

end Ref

variable {α : Type} (T : ElementType α)

def relocate (throws : Option Throw) (data newData : Option Nat) (i : Nat) (m : Memory α) : Outcome (Memory α) :=
  match m.read data i with
  | none => .undefined
  | some c =>
    if T.noexceptMove then
      .ofOption ((m.construct T.sizeOf newData i c.value).bind fun m => m.modify data i T.moveOut)
    else if throws = some (.copy i) then .threw m
    else .ofOption (m.construct T.sizeOf newData i c.value)

def relocateFirst (throws : Option Throw) (data newData : Option Nat) : Nat → Memory α → Outcome (Memory α × Nat)
  | 0, m => .done (m, 0)
  | n + 1, m =>
    (relocateFirst throws data newData n m).bind
      (fun (m, newSize) =>
        (relocate T throws data newData newSize m).bind (fun m => .done (m, newSize + 1)) fun m => (m, newSize))
      id

/-- Throws when it is out of memory, and always on a request of 2^63 bytes or more. -/
def operatorNew (throws : Option Throw) (bytes : Nat) (m : Memory α) : Option (Nat × Memory α) :=
  if throws = some .alloc ∨ 2 ^ 63 ≤ bytes then none else some (m.allocate bytes)

namespace VecState

def init : VecState α where
  mem := Memory.empty
  vec := { data := none, size := 0, capacity := 0 }

def allocate (throws : Option Throw) (capacity : Nat) (m : Memory α) : Option (Nat × Memory α) :=
  operatorNew throws (capacity * T.sizeOf % 2 ^ 64) m

def clear (s : VecState α) : Option (VecState α) :=
  (s.mem.destroyFirst s.vec.data s.vec.size).map fun mem => { mem, vec := { s.vec with size := 0 } }

def dellocate (s : VecState α) : Option (VecState α) :=
  match s.vec.data with
  | some b => (s.mem.free b).map fun mem => { mem, vec := { s.vec with data := none, capacity := 0 } }
  | none => some s

/-- The catch block of `reallocate`. -/
def unwind (newData newSize : Nat) (m : Memory α) : Option (Memory α) :=
  (m.destroyFirst (some newData) newSize).bind fun m => m.free newData

def reallocate (throws : Option Throw) (newCap : Nat) (s : VecState α) : Outcome (VecState α) :=
  match allocate T throws newCap s.mem with
  | none => .threw s
  | some (newData, mem) =>
    match relocateFirst T throws s.vec.data (some newData) s.vec.size mem with
    | .undefined => .undefined
    | .threw (mem, newSize) =>
      match unwind newData newSize mem with
      | some mem => .threw { s with mem }
      | none => .undefined
    | .done (mem, newSize) =>
      .ofOption ((clear { s with mem }).bind fun s => s.dellocate.map fun s =>
        { s with vec := { data := some newData, size := newSize, capacity := newCap } })

/-- `new (data + size) T(args...)` and `size++`. -/
def append (args : Args (Option Nat) α) (s : VecState α) : Option (VecState α) :=
  let vec := { s.vec with size := s.vec.size + 1 }
  match args with
  | .outside x => (s.mem.construct T.sizeOf s.vec.data s.vec.size x).map fun mem => { mem, vec }
  | .element p i make leave =>
    (s.mem.read p i).bind fun c =>
      (s.mem.construct T.sizeOf s.vec.data s.vec.size (make c.value)).bind fun mem =>
        (mem.modify p i leave).map fun mem => { mem, vec }

/-- What a constructor that throws has done to an element. -/
def interrupt (progress : Progress) (args : Args (Option Nat) α) (m : Memory α) : Option (Memory α) :=
  match args, progress with
  | .outside _, _ | .element _ _ _ _, .unused => some m
  | .element p i _ _, .read => (m.read p i).map fun _ => m
  | .element p i _ leave, .movedFrom => m.modify p i leave

def constructBack (throws : Option Throw) (args : Args (Option Nat) α) (s : VecState α) : Outcome (VecState α) :=
  match throws with
  | some (.construct progress) =>
    match interrupt progress args s.mem with
    | some mem => .threw { s with mem }
    | none => .undefined
  | _ => .ofOption (append T args s)

def newCapacity (capacity : Nat) : Nat := if capacity = 0 then 1 else capacity * 2 % 2 ^ 64

def grow (throws : Option Throw) (s : VecState α) : Outcome (VecState α) :=
  if s.vec.size = s.vec.capacity then reallocate T throws (newCapacity s.vec.capacity) s else .done s

def emplaceBack (throws : Option Throw) (args : Args (Option Nat) α) (s : VecState α) : Outcome (VecState α) :=
  (grow T throws s).bind (constructBack T throws args) id

def pushBack (throws : Option Throw) (obj : Ref (Option Nat) α) (s : VecState α) : Outcome (VecState α) :=
  emplaceBack T throws obj.copied s

def pushBackMove (throws : Option Throw) (obj : Ref (Option Nat) α) (s : VecState α) : Outcome (VecState α) :=
  emplaceBack T throws (obj.moved T) s

def popBack (s : VecState α) : Option (VecState α) :=
  if 0 < s.vec.size then
    (s.mem.destroy s.vec.data (s.vec.size - 1)).map fun mem => { mem, vec := { s.vec with size := s.vec.size - 1 } }
  else some s

def destructor (s : VecState α) : Option (Memory α) := (s.clear.bind dellocate).map VecState.mem

def elements (s : VecState α) : List (Option α) :=
  (List.range s.vec.size).map fun i => (s.mem.read s.vec.data i).map Cell.value

end VecState

/-! ## Calls -/

/-- A call on a vector, whose argument may be an element of a vector `ι` names. `oom`
says that `operator new`, where it is called, has no memory. -/
inductive VecCall (ι α : Type)
  | pushBack (obj : Ref ι α) (oom : Bool)
  | pushBackMove (obj : Ref ι α) (oom : Bool)
  | emplaceBack (args : Args ι α) (oom : Bool)
  | popBack
  | clear

def Ref.map {ι π α : Type} (f : ι → π) : Ref ι α → Ref π α
  | .outside x => .outside x
  | .element p i => .element (f p) i

def Args.map {ι π α : Type} (f : ι → π) : Args ι α → Args π α
  | .outside x => .outside x
  | .element p i make leave => .element (f p) i make leave

def Args.InRange {ι α : Type} (size : ι → Nat) : Args ι α → Prop
  | .outside _ => True
  | .element p i _ _ => i < size p

instance {ι α : Type} (size : ι → Nat) : (args : Args ι α) → Decidable (args.InRange size)
  | .outside _ => inferInstanceAs (Decidable True)
  | .element p i _ _ => inferInstanceAs (Decidable (i < size p))

namespace VecCall

variable {ι : Type}

def args : VecCall ι α → Option (Args ι α)
  | .pushBack obj _ => some obj.copied
  | .pushBackMove obj _ => some (obj.moved T)
  | .emplaceBack args _ => some args
  | .popBack | .clear => none

def throws : VecCall ι α → Option Throw
  | .pushBack _ oom | .pushBackMove _ oom | .emplaceBack _ oom => if oom then some .alloc else none
  | .popBack | .clear => none

def apply (data : ι → Option Nat) (call : VecCall ι α) (s : VecState α) : Outcome (VecState α) :=
  match call with
  | .pushBack obj _ => s.pushBack T call.throws (obj.map data)
  | .pushBackMove obj _ => s.pushBackMove T call.throws (obj.map data)
  | .emplaceBack args _ => s.emplaceBack T call.throws (args.map data)
  | .popBack => .ofOption s.popBack
  | .clear => .ofOption s.clear

end VecCall

end LearningC
