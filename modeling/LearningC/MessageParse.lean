import LearningC.MessageWire
import LearningC.PbVarints

/-!
# Parsing messages

What `_InternalParse` gives for the bytes of several messages, for a message after it has
been parsed and written again, and for the first bytes of a message.
-/

namespace LearningC

open PbRuntime

namespace Message

section
variable {U : Type} {rt : PbRuntime U} {m m' m₁ m₂ : Message U} {ms : List (Message U)} {f : MessageField U}
  {fs : List (MessageField U)} {bs rest a b p : List UInt8}

theorem done_inj : ParseEnd.done m = .done m' ↔ m = m' := by simp

theorem parse_of_fields (h : (fieldReader rt).readAll bs = some fs) (m : Message U) :
    m.internalParse rt bs = .done (fs.foldl apply m) :=
  internalParse_done.mpr ⟨fs, h, rfl⟩

/-! ## Several messages -/

section
variable (hrt : rt.Lawful)
include hrt

theorem readAll_fields (hfit : m.Fits) (hm : m.Readable rt) :
    (fieldReader rt).readAll (m.internalSerialize rt) = some m.fields := by
  rw [internalSerialize_eq]
  exact Reader.readAll_words fun f hf => reads_field hrt hfit hm hf

theorem readAll_messages (hfit : ∀ m ∈ ms, m.Fits) (hm : ∀ m ∈ ms, m.Readable rt) :
    (fieldReader rt).readAll (ms.flatMap (internalSerialize rt)) = some (ms.flatMap fields) := by
  induction ms with
  | nil => rfl
  | cons m ms ih =>
    obtain ⟨hfit, hfits⟩ := List.forall_mem_cons.mp hfit
    obtain ⟨hm, hms⟩ := List.forall_mem_cons.mp hm
    rw [List.flatMap_cons, Reader.readAll_append (readAll_fields hrt hfit hm), ih hfits hms]
    rfl

theorem readable_of_readAll (hfit : ∀ m ∈ ms, m.Fits) (h : (fieldReader rt).readAll (ms.flatMap (internalSerialize rt)) = some fs) :
    ∀ m ∈ ms, m.Readable rt := by
  induction ms generalizing fs with
  | nil => simp
  | cons m ms ih =>
    obtain ⟨hfit, hfits⟩ := List.forall_mem_cons.mp hfit
    rw [List.flatMap_cons] at h
    by_cases hm : m.Readable rt
    · rw [Reader.readAll_append (readAll_fields hrt hfit hm)] at h
      obtain ⟨gs, hgs, -⟩ := Option.map_eq_some_iff.mp h
      exact List.forall_mem_cons.mpr ⟨hm, ih hfits hgs⟩
    · obtain ⟨hne, hstuck⟩ := read_unreadable hrt hfit hm (ms.flatMap (internalSerialize rt))
      cases h.symm.trans (Reader.readAll_stuck hne hstuck)

end

/-- **Round trip.** The bytes of some messages parse as their merge, in order, exactly when
all their contents are valid UTF-8: `_InternalSerialize` writes what `_InternalParse` refuses. -/
theorem parse_messages_iff (hrt : rt.Lawful) (m : Message U) (hfit : ∀ m ∈ ms, m.Fits) :
    m.internalParse rt (ms.flatMap (internalSerialize rt)) = .done (ms.foldl mergeFrom m) ↔ ∀ m ∈ ms, m.Readable rt := by
  constructor
  · intro h
    obtain ⟨fs, hfs, -⟩ := internalParse_done.mp h
    exact readable_of_readAll hrt hfit hfs
  · intro hm
    rw [parse_of_fields (readAll_messages hrt hfit hm), foldl_flatMap_fields]

def hiField : VarintField := ⟨3, 300, by decide, by decide, by decide⟩

/-- `"hi"` with an unknown field, and `"o"`. -/
def hiMessages : List (Message VarintField) := [⟨[104, 105], [hiField], 0⟩, ⟨[111], [], 0⟩]

theorem parse_messages_iff_hi : hiMessages.flatMap (internalSerialize asciiVarints) = [10, 2, 104, 105, 24, 172, 2, 10, 1, 111] ∧
    new.internalParse asciiVarints (hiMessages.flatMap (internalSerialize asciiVarints)) = .done ⟨[111], [hiField], 0⟩ ∧
    new.internalParse asciiVarints ([⟨[200], [], 0⟩].flatMap (internalSerialize asciiVarints)) ≠ .done ⟨[200], [], 0⟩ := by
  refine ⟨rfl, (parse_messages_iff lawful_asciiVarints new (by decide)).mpr (by decide), ?_⟩
  exact fun h => absurd ((parse_messages_iff lawful_asciiVarints new (by decide)).mp h) (by decide)

/-! ## Bytes of any kind -/

/-- **Merge.** Bytes that parse after bytes that parse do what `MergeFrom` does, except that
an explicit empty content clears a content that `MergeFrom` keeps. -/
theorem parse_append_merge_iff (ha : m.internalParse rt a = .done m₁) (hb : new.internalParse rt b = .done m₂) :
    m.internalParse rt (a ++ b) = .done (m₁.mergeFrom m₂) ↔ (HasContent rt b → m₂.content = [] → m₁.content = []) := by
  obtain ⟨fs, hfs, rfl⟩ := internalParse_done.mp ha
  obtain ⟨gs, hgs, rfl⟩ := internalParse_done.mp hb
  have hall : (fieldReader rt).readAll (a ++ b) = some (fs ++ gs) := by
    rw [Reader.readAll_append hfs, hgs]
    rfl
  have hcontent : HasContent rt b ↔ contents gs ≠ [] := by
    constructor
    · rintro ⟨gs', hgs', hc⟩
      cases hgs.symm.trans hgs'
      exact hc
    · exact fun hc => ⟨gs, hgs, hc⟩
  rw [parse_of_fields hall, List.foldl_append, done_inj, hcontent]
  generalize fs.foldl apply m = m₁
  rw [foldl_apply gs m₁, foldl_apply gs new]
  cases hl : (contents gs).getLast? with
  | none =>
    have hnil : contents gs = [] := List.getLast?_eq_none_iff.mp hl
    simp [mergeFrom, new, hnil]
  | some value =>
    have hne : contents gs ≠ [] := by
      rintro e
      rw [e] at hl
      cases hl
    by_cases hv : value = []
    · simp [mergeFrom, new, hne, hv, eq_comm]
    · simp [mergeFrom, new, hne, hv, setContent, List.length_pos_iff]

/-- `"hi"`, and then `""` written out: the content is gone, unlike after `MergeFrom`. -/
theorem parse_append_merge_iff_empty : new.internalParse asciiVarints ([10, 2, 104, 105] ++ [10, 0]) = .done new ∧
    new.internalParse asciiVarints ([10, 2, 104, 105] ++ [10, 0]) ≠ .done (mergeFrom ⟨[104, 105], [], 0⟩ new) := by
  refine ⟨rfl, fun h => ?_⟩
  have hmerge := (parse_append_merge_iff rfl rfl).mp h ⟨[.content []], rfl, by simp [contents]⟩ rfl
  cases hmerge

/-! ## Parsed again -/

theorem parseFromArray_done : parseFromArray rt bs = some m ↔ new.internalParse rt bs = .done m := by
  have hclear : (new : Message U).clear = new := rfl
  unfold parseFromArray
  rw [hclear]
  cases new.internalParse rt bs <;> simp

theorem mergeFrom_new (hm : m.cachedSize = 0) : new.mergeFrom m = m := by
  obtain ⟨content, unknownFields, cachedSize⟩ := m
  obtain rfl : cachedSize = 0 := hm
  cases content <;> simp [mergeFrom, new, setContent]

theorem copyFrom_eq (m source : Message U) : m.copyFrom source = { source with cachedSize := m.cachedSize } := by
  obtain ⟨content, unknownFields, cachedSize⟩ := source
  cases content <;> simp [copyFrom, clear, mergeFrom, setContent]

theorem copy_eq (source : Message U) : source.copy = { source with cachedSize := 0 } := by
  obtain ⟨content, unknownFields, cachedSize⟩ := source
  cases content <;> simp [copy, new, setContent]

theorem length_internalSerialize (hrt : rt.Lawful) (m : Message U) :
    (m.internalSerialize rt).length = (m.byteSizeLong rt).1 := by
  have hunknown : ∀ us : List U, (us.flatMap rt.serializeUnknownField).length = (us.map rt.unknownFieldSize).sum := by
    intro us
    induction us with
    | nil => rfl
    | cons u us ih => rw [List.flatMap_cons, List.length_append, ih, hrt.unknownSize, List.map_cons, List.sum_cons]
  unfold internalSerialize byteSizeLong
  rw [List.length_append, hunknown]
  split
  · rw [hrt.stringSize]
  · rfl

/-- `_InternalParse` checks what it reads into `content`. -/
theorem content_of_read (hrt : rt.Lawful) (h : (fieldReader rt).read bs = some (f, rest)) :
    ∀ value, f = .content value → rt.verifyUTF8 value = true ∧ value.length ≤ maxString := by
  obtain ⟨⟨tag, left⟩, -, h⟩ := Option.bind_eq_some_iff.mp h
  by_cases hc : IsContent tag
  · simp only [if_pos hc] at h
    obtain ⟨⟨str, left'⟩, hstr, h⟩ := Option.bind_eq_some_iff.mp h
    obtain ⟨y, hy, h⟩ := Option.map_eq_some_iff.mp h
    obtain ⟨hv, hy⟩ := Option.ite_none_right_eq_some.mp hy
    cases h
    cases hy
    rintro value ⟨⟩
    exact ⟨hv, hrt.short _ _ _ hstr⟩
  · simp only [if_neg hc] at h
    by_cases he : IsEnd tag
    · simp only [if_pos he] at h
      cases h
    · simp only [if_neg he] at h
      obtain ⟨v, -, h⟩ := Option.bind_eq_some_iff.mp h
      obtain ⟨y, hy, h⟩ := Option.map_eq_some_iff.mp h
      cases h
      cases hy
      rintro value ⟨⟩

theorem parsed_readable (hrt : rt.Lawful) (h : parseFromArray rt bs = some m) :
    m.Readable rt ∧ m.Fits ∧ m.cachedSize = 0 := by
  obtain ⟨fs, hfs, rfl⟩ := internalParse_done.mp (parseFromArray_done.mp h)
  have hall := Reader.readAll_forall (fun _ _ _ hr => content_of_read hrt hr) hfs
  rw [foldl_apply]
  cases hl : (contents fs).getLast? with
  | none => exact ⟨Or.inl rfl, Nat.zero_le _, rfl⟩
  | some value =>
    obtain ⟨f, hf, hfv⟩ := List.mem_filterMap.mp (List.mem_of_getLast? hl)
    have hvalue : f = .content value := by
      cases f with
      | content v => rw [Option.some.inj hfv]
      | unknown u => cases hfv
    obtain ⟨hv, hlen⟩ := hall f hf value hvalue
    exact ⟨Or.inr hv, hlen, rfl⟩

/-- **Stability.** Whatever bytes a message has been parsed from, it is written in
`ByteSizeLong` bytes, which parse as the same message. -/
theorem parsed_again (hrt : rt.Lawful) (h : parseFromArray rt bs = some m) :
    (m.internalSerialize rt).length = (m.byteSizeLong rt).1 ∧ parseFromArray rt (m.internalSerialize rt) = some m := by
  obtain ⟨hm, hfit, hsize⟩ := parsed_readable hrt h
  refine ⟨length_internalSerialize hrt m, parseFromArray_done.mpr ?_⟩
  rw [parse_of_fields (readAll_fields hrt hfit hm), foldl_fields, mergeFrom_new hsize]

/-- A varint of two bytes where one does, and the fields in the other order. -/
theorem parse_padded : parseFromArray asciiVarints [24, 172, 2, 10, 130, 0, 104, 105] = some ⟨[104, 105], [hiField], 0⟩ := rfl

theorem parsed_again_padded : parseFromArray asciiVarints [10, 2, 104, 105, 24, 172, 2] = some ⟨[104, 105], [hiField], 0⟩ :=
  (parsed_again lawful_asciiVarints parse_padded).2

/-! ## The first bytes of a message -/

theorem prefix_fields (h : fs <+: m.fields) : ∃ us : List U, fs = us.map .unknown ∨
    m.content.length > 0 ∧ fs = .content m.content :: us.map .unknown := by
  unfold fields at h
  split at h
  · next hpos =>
    rcases List.prefix_cons_iff.mp h with rfl | ⟨gs, rfl, hgs⟩
    · exact ⟨[], Or.inl rfl⟩
    · obtain ⟨us, -, rfl⟩ := List.prefix_map_iff.mp hgs
      exact ⟨us, Or.inr ⟨hpos, rfl⟩⟩
  · obtain ⟨us, -, rfl⟩ := List.prefix_map_iff.mp h
    exact ⟨us, Or.inl rfl⟩

theorem fields_of_start (h : fs <+: m.fields) : (fs.foldl apply new).fields = fs := by
  obtain ⟨us, rfl | ⟨hpos, rfl⟩⟩ := prefix_fields h
  · rw [foldl_unknown]
    simp [fields, new]
  · rw [List.foldl_cons, foldl_unknown]
    simp [fields, apply, setContent, new, hpos]

/-- The fields that are read from the first bytes of a message. -/
theorem readAll_start (hrt : rt.Lawful) (hfit : m.Fits) (hp : p <+: m.internalSerialize rt)
    (h : (fieldReader rt).readAll p = some fs) : fs <+: m.fields ∧ p = fs.flatMap (fieldBytes rt) := by
  obtain ⟨q, hq⟩ := hp
  by_cases hm : m.Readable rt
  · rw [internalSerialize_eq] at hq
    exact Reader.readAll_truncated (fun f hf => reads_field hrt hfit hm hf) hq h
  · -- the content comes first and cannot be read
    obtain ⟨-, hstuck⟩ := read_unreadable hrt hfit hm []
    rw [List.append_nil, ← hq] at hstuck
    obtain rfl := Reader.nil_of_stuck hstuck h
    cases h
    exact ⟨List.nil_prefix, rfl⟩

/-- **Truncation.** The first bytes of a message parse only where they end between two
fields, and then as the message of the fields before. -/
theorem parse_truncated (hrt : rt.Lawful) (hfit : m.Fits) (hp : p <+: m.internalSerialize rt)
    (h : parseFromArray rt p = some m') : p = m'.internalSerialize rt ∧ m'.fields <+: m.fields := by
  obtain ⟨fs, hfs, rfl⟩ := internalParse_done.mp (parseFromArray_done.mp h)
  obtain ⟨hpre, hbytes⟩ := readAll_start hrt hfit hp hfs
  rw [internalSerialize_eq, fields_of_start hpre]
  exact ⟨hbytes, hpre⟩

/-- The first field of two, and what is cut inside the second one. -/
theorem parse_truncated_hi : parseFromArray asciiVarints [10, 2, 104, 105] = some ⟨[104, 105], [], 0⟩ ∧
    [10, 2, 104, 105] = (⟨[104, 105], [], 0⟩ : Message VarintField).internalSerialize asciiVarints ∧
    parseFromArray asciiVarints [10, 2, 104, 105, 24, 172] = none := by
  have hpre : [10, 2, 104, 105] <+: (⟨[104, 105], [hiField], 0⟩ : Message VarintField).internalSerialize asciiVarints :=
    ⟨[24, 172, 2], rfl⟩
  exact ⟨rfl, (parse_truncated lawful_asciiVarints (by decide) hpre rfl).1, rfl⟩

/-- **The demo.** `read_cb` looks at its buffer once. It prints what the client has sent when
all of it has come, no content when nothing has, and nothing at all otherwise. -/
theorem readCb_eventCb (hrt : rt.Lawful) (hutf8 : rt.verifyUTF8 helloWorld = true) (hp : p <+: eventCb rt) :
    readCb rt p = if p = eventCb rt then some helloWorld else if p = [] then some [] else none := by
  have hfit : (new.setContent helloWorld : Message U).Fits := by
    show helloWorld.length ≤ maxString
    decide
  have hm : (new.setContent helloWorld : Message U).Readable rt := Or.inr hutf8
  have hwhole : parseFromArray rt (eventCb rt) = some (new.setContent helloWorld) := by
    apply parseFromArray_done.mpr
    unfold eventCb
    rw [parse_of_fields (readAll_fields hrt hfit hm), foldl_fields, mergeFrom_new rfl]
  by_cases hall : p = eventCb rt
  · rw [if_pos hall, hall]
    unfold readCb
    rw [hwhole]
    rfl
  · rw [if_neg hall]
    by_cases hnil : p = []
    · rw [if_pos hnil, hnil]
      rfl
    · rw [if_neg hnil]
      unfold readCb
      cases h : parseFromArray rt p with
      | none => rfl
      | some m' =>
        -- a part that parses is all of the one field, or nothing
        obtain ⟨fs, hfs, -⟩ := internalParse_done.mp (parseFromArray_done.mp h)
        obtain ⟨hpre, hbytes⟩ := readAll_start hrt hfit hp hfs
        rcases List.prefix_cons_iff.mp (show fs <+: .content helloWorld :: [] from hpre) with rfl | ⟨gs, rfl, hgs⟩
        · exact absurd hbytes hnil
        · rw [List.prefix_nil.mp hgs] at hbytes
          refine absurd ?_ hall
          unfold eventCb
          rw [hbytes, internalSerialize_eq]
          rfl

theorem readCb_eventCb_half : readCb asciiVarints [10, 13, 72, 101, 108, 108, 111] = none :=
  readCb_eventCb lawful_asciiVarints (by decide) ⟨[44, 32, 87, 111, 114, 108, 100, 33], rfl⟩

end

end Message

end LearningC
