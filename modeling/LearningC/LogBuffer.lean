import LearningC.Runs
import Mathlib.Algebra.Ring.Nat

/-!
# The buffer of a log line

What `Log::write` does to `buff_` between the time stamp and `RetrieveAll`. The formatters
return the length that they would have written, and `HasWritten` takes it for the length that
they wrote: the write position stays inside the buffer exactly when both are the same.
-/

namespace LearningC

open Runs

/-- The numbers of the time stamp: `struct tm`, and `tv_usec`. -/
structure StampTime where
  year : Int32
  mon : Int32
  mday : Int32
  hour : Int32
  min : Int32
  sec : Int32
  usec : Int64

abbrev NegativeReturn := { r : Int // r < 0 }

/-- A call of `write`: the message is `format` with its arguments filled in. -/
structure WriteCall where
  now : StampTime
  level : Int
  message : List Char
  stampError : Option NegativeReturn
  messageError : Option NegativeReturn

/-- How `Append` enlarges a buffer of `size` bytes that needs more. -/
structure Growth where
  grow : Nat → Nat → Nat
  enough : ∀ size needed, needed ≤ grow size needed

/-- Positions count from `Peek()`; `cells` has what has been written for this line. -/
structure LineBuffer where
  size : Nat
  writePos : Int
  cells : Nat → Option Char

/-- `%d` with the digits filled up with zeros to `width`. -/
def printInt (width : Nat) (x : Int) : List Char :=
  let digits := Nat.toDigits 10 x.natAbs
  let sign := if x < 0 then ['-'] else []
  sign ++ List.replicate (width - (sign.length + digits.length)) '0' ++ digits

/-- `"%d-%02d-%02d %02d:%02d:%02d.%06ld "`. -/
def StampTime.print (t : StampTime) : List Char :=
  printInt 0 (t.year + 1900).toInt ++ '-' :: (printInt 2 (t.mon + 1).toInt ++ '-' :: (printInt 2 t.mday.toInt ++
    ' ' :: (printInt 2 t.hour.toInt ++ ':' :: (printInt 2 t.min.toInt ++ ':' :: (printInt 2 t.sec.toInt ++
      '.' :: (printInt 6 t.usec.toInt ++ [' ']))))))

def logLevelTitle : Int → List Char
  | 0 => "[debug]: ".toList
  | 1 => "[info] : ".toList
  | 2 => "[warn] : ".toList
  | 3 => "[error]: ".toList
  | _ => "[info] : ".toList

/-- What `snprintf` stores: as much of the text as fits before the final `'\0'`. -/
def stored (bound : Nat) (text : List Char) : List Char :=
  if bound = 0 then [] else text.take (bound - 1) ++ ['\x00']

def Growth.sizeFor (G : Growth) (size needed : Nat) : Nat := if needed ≤ size then size else G.grow size needed

namespace LineBuffer

/-- After `RetrieveAll`. -/
def cleared (size : Nat) : LineBuffer := ⟨size, 0, fun _ => none⟩

def writableBytes (b : LineBuffer) : Nat := (b.size - b.writePos).toNat

def store (b : LineBuffer) (text : List Char) : LineBuffer :=
  { b with cells := fun i => if b.writePos ≤ i then (text[(i - b.writePos).toNat]?).or (b.cells i) else b.cells i }

def hasWritten (b : LineBuffer) (n : Int) : LineBuffer := { b with writePos := b.writePos + n }

/-- `HasWritten(snprintf(BeginWrite(), bound, ..))`. -/
def print (b : LineBuffer) (bound : Nat) (error : Option NegativeReturn) (text : List Char) : LineBuffer :=
  match error with
  | some r => b.hasWritten r
  | none => (b.store (stored bound text)).hasWritten text.length

def append (G : Growth) (b : LineBuffer) (text : List Char) : LineBuffer :=
  { (b.store text).hasWritten text.length with size := G.sizeFor b.size (b.writePos + text.length).toNat }

end LineBuffer

/-- What `write` puts into the buffer, in its order. -/
inductive LinePart
  | stamp
  | title
  | message
  | newline
  deriving DecidableEq, Repr

namespace WriteCall

variable {G : Growth} {c : WriteCall} {b : LineBuffer} {size : Nat}

def put (G : Growth) (c : WriteCall) (b : LineBuffer) : LinePart → LineBuffer
  | .stamp => b.print 128 c.stampError c.now.print
  | .title => b.append G (logLevelTitle c.level)
  | .message => b.print b.writableBytes c.messageError c.message
  | .newline => b.append G ['\n', '\x00']

def write : List LinePart := [.stamp, .title, .message, .newline]

end WriteCall

/-! ## Lengths -/

theorem length_logLevelTitle (level : Int) : (logLevelTitle level).length = 9 := by
  unfold logLevelTitle
  split <;> rfl

theorem Growth.le_sizeFor (G : Growth) (size needed : Nat) : needed ≤ G.sizeFor size needed := by
  unfold sizeFor
  split
  · assumption
  · exact G.enough size needed

theorem length_printInt {width k : Nat} {x : Int} (hk : 0 < k) (hx : x.natAbs < 10 ^ k) :
    (printInt width x).length ≤ max width (k + 1) := by
  have hdigits : (Nat.toDigits 10 x.natAbs).length ≤ k := (Nat.length_toDigits_le_iff (by decide) hk).mpr hx
  have hsign : (if x < 0 then ['-'] else []).length ≤ 1 := by split <;> simp
  simp only [printInt, List.length_append, List.length_replicate]
  omega

theorem length_printInt_int (width : Nat) (x : Int32) : (printInt width x.toInt).length ≤ max width 11 := by
  apply length_printInt (by decide)
  have hlt := x.toInt_lt
  have hle := x.le_toInt
  omega

theorem length_printInt_long (width : Nat) (x : Int64) : (printInt width x.toInt).length ≤ max width 20 := by
  apply length_printInt (by decide)
  have hlt := x.toInt_lt
  have hle := x.le_toInt
  omega

theorem StampTime.length_print (t : StampTime) : t.print.length ≤ 93 := by
  have h1 := length_printInt_int 0 (t.year + 1900)
  have h2 := length_printInt_int 2 (t.mon + 1)
  have h3 := length_printInt_int 2 t.mday
  have h4 := length_printInt_int 2 t.hour
  have h5 := length_printInt_int 2 t.min
  have h6 := length_printInt_int 2 t.sec
  have h7 := length_printInt_long 6 t.usec
  simp only [StampTime.print, List.length_append, List.length_cons, List.length_nil]
  omega

/-! ## The text in the buffer -/

namespace LineBuffer

/-- The position is behind the text, which has been written for this line. -/
structure Holds (b : LineBuffer) (text : List Char) : Prop where
  writePos : b.writePos = text.length
  cells : ∀ i < text.length, b.cells i = text[i]?

/-- The bytes up to the position, which `RetrieveAllToStr` takes, are in the buffer and have
been written for this line. -/
structure Inside (b : LineBuffer) : Prop where
  writePos : b.writePos ≤ b.size
  written : ∀ i : Nat, i < b.writePos → (b.cells i).isSome

section
variable {G : Growth} {b : LineBuffer} {text more : List Char} {bound : Nat}

theorem holds_cleared (size : Nat) : Holds (cleared size) [] :=
  ⟨rfl, fun _ hi => absurd hi (Nat.not_lt_zero _)⟩

theorem Holds.inside (h : Holds b text) (hsize : text.length ≤ b.size) : Inside b := by
  refine ⟨?_, fun i hi => ?_⟩
  · rw [h.writePos]
    exact Int.ofNat_le.mpr hsize
  · rw [h.writePos] at hi
    have hlt := Int.ofNat_lt.mp hi
    rw [h.cells i hlt, List.getElem?_eq_getElem hlt]
    rfl

theorem Holds.store_cells (h : Holds b text) {i : Nat} (hi : i < (text ++ more).length) :
    (b.store more).cells i = (text ++ more)[i]? := by
  have hpos := h.writePos
  simp only [store]
  by_cases hlt : i < text.length
  · rw [if_neg (by omega), h.cells i hlt, List.getElem?_append_left hlt]
  · rw [List.length_append] at hi
    have hsub : ((i : Int) - b.writePos).toNat = i - text.length := by omega
    have hin : i - text.length < more.length := by omega
    rw [if_pos (by omega), hsub, List.getElem?_append_right (Nat.le_of_not_lt hlt), List.getElem?_eq_getElem hin]
    rfl

theorem Holds.append (h : Holds b text) : Holds (b.append G more) (text ++ more) := by
  refine ⟨?_, fun i hi => h.store_cells hi⟩
  rw [List.length_append, Int.natCast_add, ← h.writePos]
  rfl

theorem Holds.append_size (h : Holds b text) :
    (b.append G more).size = G.sizeFor b.size (text.length + more.length) := by
  have hpos : (b.writePos + more.length).toNat = text.length + more.length := by
    rw [h.writePos]
    rfl
  simp only [LineBuffer.append, hpos]

theorem Holds.append_inside (h : Holds b text) : Inside (b.append G more) := by
  apply h.append.inside
  rw [h.append_size, List.length_append]
  exact G.le_sizeFor _ _

theorem length_stored (bound : Nat) (text : List Char) :
    (stored bound text).length = min bound (text.length + 1) := by
  unfold stored
  split
  · next h0 => simp [h0]
  · simp only [List.length_append, List.length_take, List.length_cons, List.length_nil]
    omega

/-- A text that the bound leaves room for stands in the buffer as far as it was stored. -/
theorem Holds.print (h : Holds b text) (hfit : more.length ≤ bound) :
    Holds (b.print bound none more) (text ++ (stored bound more).take more.length) := by
  have hlen : ((stored bound more).take more.length).length = more.length := by
    rw [List.length_take, length_stored]
    omega
  refine ⟨?_, fun i hi => ?_⟩
  · rw [List.length_append, hlen, Int.natCast_add, ← h.writePos]
    rfl
  · rw [List.length_append, hlen] at hi
    have hall : i < (text ++ stored bound more).length := by
      rw [List.length_append, length_stored]
      omega
    refine (h.store_cells hall).trans ?_
    rw [← List.take_length_add_append, List.getElem?_take_of_lt hi]

theorem stored_of_lt (h : more.length < bound) : (stored bound more).take more.length = more := by
  unfold stored
  have hall : more.take (bound - 1) = more := List.take_of_length_le (by omega)
  rw [if_neg (by omega), hall, List.take_left]

theorem print_error_lt (r : NegativeReturn) : (b.print bound (some r) more).writePos < b.writePos := by
  have hneg := r.2
  show b.writePos + r.1 < b.writePos
  omega

end

end LineBuffer

namespace WriteCall

open LineBuffer

variable {G : Growth} {c : WriteCall} {b b' : LineBuffer} {size : Nat} {text : List Char}

/-- What a part of the line should do: the position does not go back, and stays inside. -/
def Advances (b : LineBuffer) (b' : LineBuffer) : Prop := b.writePos ≤ b'.writePos ∧ Inside b'

/-- The room that the stamp and the title leave for the message. -/
def room (G : Growth) (c : WriteCall) (size : Nat) : Nat :=
  G.sizeFor size (c.now.print.length + 9) - (c.now.print.length + 9)

/-- Neither formatter fails, the stamp fits into the buffer, and the message into the rest. -/
structure Fits (G : Growth) (c : WriteCall) (size : Nat) : Prop where
  stampError : c.stampError = none
  messageError : c.messageError = none
  stamp : c.now.print.length ≤ size
  message : c.message.length ≤ room G c size

theorem advances_print (h : Holds b text) {bound : Nat} {error : Option NegativeReturn} {more : List Char}
    (hbound : more.length ≤ b.size - text.length → more.length ≤ bound) (htext : text.length ≤ b.size) :
    Advances b (b.print bound error more) ↔ error = none ∧ more.length ≤ b.size - text.length := by
  constructor
  · intro ha
    cases error with
    | some r =>
      -- the negative return is added to the position
      exact absurd (print_error_lt r) (Int.not_lt.mpr ha.1)
    | none =>
      have hin : b.writePos + more.length ≤ b.size := ha.2.writePos
      rw [h.writePos] at hin
      exact ⟨rfl, by omega⟩
  · rintro ⟨rfl, hfit⟩
    have hp := h.print (hbound hfit)
    refine ⟨?_, hp.inside ?_⟩
    · show b.writePos ≤ b.writePos + more.length
      omega
    · show (text ++ _).length ≤ b.size
      rw [List.length_append, List.length_take]
      omega

theorem advances_append (h : Holds b text) {more : List Char} : Advances b (b.append G more) := by
  refine ⟨?_, h.append_inside⟩
  show b.writePos ≤ b.writePos + more.length
  omega

theorem holds_stamp (hs : c.stampError = none) : Holds (put G c (cleared size) .stamp) c.now.print := by
  have hlen := c.now.length_print
  have hp : Holds ((cleared size).print 128 none c.now.print) _ := (holds_cleared size).print (by omega)
  rw [stored_of_lt (by omega), List.nil_append] at hp
  unfold put
  rw [hs]
  exact hp

def headed (G : Growth) (c : WriteCall) (size : Nat) : LineBuffer :=
  put G c (put G c (cleared size) .stamp) .title

theorem holds_headed (hs : c.stampError = none) : Holds (headed G c size) (c.now.print ++ logLevelTitle c.level) :=
  (holds_stamp hs).append

theorem headed_size (hs : c.stampError = none) : (headed G c size).size = G.sizeFor size (c.now.print.length + 9) := by
  have hsize : (put G c (cleared size) .stamp).size = size := by
    unfold put
    rw [hs]
    rfl
  have hstamp : Holds (put G c (cleared size) .stamp) c.now.print := holds_stamp hs
  have h : (headed G c size).size = _ := hstamp.append_size
  rw [h, hsize, length_logLevelTitle]

theorem length_header (c : WriteCall) : (c.now.print ++ logLevelTitle c.level).length = c.now.print.length + 9 := by
  rw [List.length_append, length_logLevelTitle]

theorem headed_writableBytes (hs : c.stampError = none) : (headed G c size).writableBytes = room G c size := by
  have hheld : Holds (headed G c size) (c.now.print ++ logLevelTitle c.level) := holds_headed hs
  have hpos := hheld.writePos
  rw [length_header] at hpos
  unfold writableBytes room
  rw [hpos, headed_size hs]
  omega

theorem advances_message (hs : c.stampError = none) :
    Advances (headed G c size) (put G c (headed G c size) .message) ↔
      c.messageError = none ∧ c.message.length ≤ room G c size := by
  have hroom : (headed G c size).size - (c.now.print ++ logLevelTitle c.level).length = room G c size := by
    rw [headed_size hs, length_header]
    rfl
  have hle : (c.now.print ++ logLevelTitle c.level).length ≤ (headed G c size).size := by
    rw [headed_size hs, length_header]
    exact G.le_sizeFor _ _
  unfold put
  rw [← hroom]
  apply advances_print (holds_headed hs) _ hle
  rw [hroom, headed_writableBytes hs]
  exact id

theorem advances_stamp :
    Advances (cleared size) (put G c (cleared size) .stamp) ↔ c.stampError = none ∧ c.now.print.length ≤ size := by
  have hlen := c.now.length_print
  exact advances_print (holds_cleared size) (fun _ => by omega) (Nat.zero_le _)

def StaysInside (G : Growth) (c : WriteCall) (size : Nat) : Prop :=
  Along (fun b part => some (put G c b part)) (fun b _ b' => Advances b b') (cleared size) write

theorem fits_of_staysInside (h : StaysInside G c size) : Fits G c size := by
  obtain ⟨hstamp, h⟩ := h _ rfl
  obtain ⟨-, h⟩ := h _ rfl
  obtain ⟨hmessage, -⟩ := h _ rfl
  obtain ⟨hs, hfit⟩ := advances_stamp.mp hstamp
  obtain ⟨hm, hroom⟩ := (advances_message hs).mp hmessage
  exact ⟨hs, hm, hfit, hroom⟩

/-- A message that leaves no room for its terminator loses its last character to it. -/
theorem holds_message (h : Fits G c size) : Holds (put G c (headed G c size) .message)
    (c.now.print ++ logLevelTitle c.level ++ (stored (room G c size) c.message).take c.message.length) := by
  unfold put
  rw [h.messageError, headed_writableBytes h.stampError]
  exact (holds_headed h.stampError).print h.message

/-- **The write position.** A call of `write` advances it inside the buffer, over bytes that
this call has written, if and only if neither formatter fails, the stamp fits into the buffer
and the message into what the stamp and the title leave. -/
theorem staysInside_iff_fits (G : Growth) (c : WriteCall) (size : Nat) : StaysInside G c size ↔ Fits G c size := by
  refine ⟨fits_of_staysInside, fun h => ?_⟩
  have hstamp : Advances (cleared size) (put G c (cleared size) .stamp) := advances_stamp.mpr ⟨h.stampError, h.stamp⟩
  have hmessage : Advances (headed G c size) (put G c (headed G c size) .message) :=
    (advances_message h.stampError).mpr ⟨h.messageError, h.message⟩
  rintro b₁ ⟨⟩
  refine ⟨hstamp, ?_⟩
  rintro b₂ ⟨⟩
  refine ⟨advances_append (holds_stamp h.stampError), ?_⟩
  rintro b₃ ⟨⟩
  refine ⟨hmessage, ?_⟩
  rintro b₄ ⟨⟩
  exact ⟨advances_append (holds_message h), trivial⟩

/-- The usual 1024 bytes, and a message of 2000 characters. -/
def longMessage : WriteCall where
  now := ⟨125, 0, 1, 0, 0, 0, 0⟩
  level := 1
  message := List.replicate 2000 'x'
  stampError := none
  messageError := none

theorem longMessage_leaves : ¬ ∀ (G : Growth) (c : WriteCall) (size : Nat), StaysInside G c size := by
  intro h
  have hfit := (fits_of_staysInside (h ⟨fun _ needed => needed, fun _ _ => Nat.le_refl _⟩ longMessage 1024)).message
  have hlen : longMessage.now.print.length ≤ 93 := longMessage.now.length_print
  have hmessage : longMessage.message.length = 2000 := List.length_replicate
  unfold room Growth.sizeFor at hfit
  rw [if_pos (by omega)] at hfit
  omega

/-- **A line with room.** The buffer then has the whole line, and nothing else. -/
theorem holds_line (h : Fits G c size) (hroom : c.message.length < room G c size) :
    Holds (write.foldl (put G c) (cleared size))
      (c.now.print ++ logLevelTitle c.level ++ c.message ++ ['\n', '\x00']) := by
  have hm : Holds (put G c (headed G c size) .message) _ := holds_message h
  rw [stored_of_lt hroom] at hm
  exact hm.append

end WriteCall

end LearningC
