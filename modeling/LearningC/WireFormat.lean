import LearningC.Probuf

/-!
# What serializeObject writes and deserializeObject reads

The bytes of an object are those of its members in the order of the loop. Reading them
in the same order, with any bytes before and behind, gives the members back.
-/

namespace LearningC

open LittleEndian

theorem except_bind_ok {ε α β : Type} {x : Except ε α} {k : α → Except ε β} {b : β}
    (h : (x >>= k) = .ok b) : ∃ a, x = .ok a ∧ k a = .ok b := by
  cases x with
  | error e => cases h
  | ok a => exact ⟨a, rfl, h⟩

theorem except_bind_error {ε α β : Type} {x : Except ε α} {k : α → Except ε β} {e : ε}
    (h : (x >>= k) = .error e) : x = .error e ∨ ∃ a, x = .ok a ∧ k a = .error e := by
  cases x with
  | error _ =>
    cases h
    exact Or.inl rfl
  | ok a => exact Or.inr ⟨a, rfl, h⟩

def Member.bytes : Member → List UInt8
  | .int32 value => int32Bytes value
  | .string value => int32Bytes (BitVec.ofNat 32 value.length) ++ value

/-- A string whose length an `int32_t` can hold. -/
def Member.Short : Member → Prop
  | .int32 _ => True
  | .string value => value.length < 2 ^ 31

namespace Object

/-- The object has a member of the right type at the offset of each field. -/
def HasFields (object : Object) (fs : List MetaField) : Prop :=
  ∀ f ∈ fs, ∃ m, object f.offset = some m ∧ m.type = f.type

def ShortStrings (object : Object) (fs : List MetaField) : Prop :=
  ∀ f ∈ fs, ∀ m, object f.offset = some m → m.Short

/-- The bytes of the members at the offsets of some fields. -/
def wire (object : Object) (fs : List MetaField) : List UInt8 :=
  fs.flatMap fun f => (object f.offset).elim [] Member.bytes

/-- `target` with the members of `source` at the offsets of some fields. -/
def overlay (source : Object) (fs : List MetaField) (target : Object) : Object := fun o =>
  if o ∈ fs.map MetaField.offset then source o else target o

end Object

open Object

section
variable {source target object object' : Object} {f : MetaField} {fs : List MetaField} {m old : Member}
  {pre data rest s : List UInt8} {v length : BitVec 32} {o offset offset' : Nat}

theorem wire_cons (hm : object f.offset = some m) : wire object (f :: fs) = m.bytes ++ wire object fs := by
  unfold wire
  rw [List.flatMap_cons, hm]
  rfl

theorem wire_append (object : Object) (fs gs : List MetaField) : wire object (fs ++ gs) = wire object fs ++ wire object gs :=
  List.flatMap_append

/-! ## One value -/

theorem length_int32Bytes (v : BitVec 32) : (int32Bytes v).length = 4 := length_bytes 4 v.toNat

theorem toNat_ofNat_length (hs : s.length < 2 ^ 31) : (BitVec.ofNat 32 s.length).toNat = s.length := by
  rw [BitVec.toNat_ofNat]
  omega

theorem int32At_bytes (pre rest : List UInt8) (v : BitVec 32) :
    int32At (pre ++ (int32Bytes v ++ rest)) pre.length = .ok v := by
  unfold int32At
  have hlen := length_int32Bytes v
  have hv : value (int32Bytes v) = v.toNat := by
    unfold int32Bytes
    rw [value_bytes]
    exact Nat.mod_eq_of_lt v.isLt
  have hin : pre.length + 4 ≤ (pre ++ (int32Bytes v ++ rest)).length := by
    simp only [List.length_append, hlen]
    omega
  have hchunk : (List.drop pre.length (pre ++ (int32Bytes v ++ rest))).take 4 = int32Bytes v := by
    rw [List.drop_left, List.take_left' hlen]
  rw [if_pos hin, hchunk, hv, BitVec.ofNat_toNat, BitVec.setWidth_eq]

theorem stringAt_bytes (pre s rest : List UInt8) (hs : s.length < 2 ^ 31) :
    stringAt (pre ++ (s ++ rest)) pre.length (BitVec.ofNat 32 s.length) = .ok s := by
  unfold stringAt
  have hn := toNat_ofNat_length hs
  have hpos : ¬ (BitVec.ofNat 32 s.length).toInt < 0 := by
    rw [BitVec.toInt_eq_toNat_cond, hn]
    omega
  have hin : pre.length + s.length ≤ (pre ++ (s ++ rest)).length := by
    simp only [List.length_append]
    omega
  rw [if_neg hpos, hn, if_pos hin, List.drop_left, List.take_left' rfl]

theorem length_of_stringAt (h : stringAt data offset length = .ok s) : s.length = length.toNat := by
  unfold stringAt at h
  split at h
  · cases h
  · split at h
    · next hin =>
      cases h
      rw [List.length_take, List.length_drop]
      omega
    · cases h

/-! ## One field -/

theorem serializeField_member (hm : object f.offset = some m) (ht : m.type = f.type) :
    serializeField object data f = .ok (data ++ m.bytes) := by
  unfold serializeField
  cases m with
  | int32 v =>
    rw [← ht]
    simp only [Member.type, Object.int32, hm]
    rfl
  | string s =>
    rw [← ht]
    simp only [Member.type, Object.string, hm]
    exact congrArg _ (List.append_assoc _ _ _)

theorem assign_member (hold : object f.offset = some old) (ht : old.type = m.type) :
    object.assign f.offset m = .ok (Function.update object f.offset (some m)) := by
  unfold assign
  rw [hold]
  exact if_pos ht

theorem assign_ok (h : object.assign offset m = .ok object') : object' = Function.update object offset (some m) := by
  unfold assign at h
  split at h
  · split at h
    · cases h
      rfl
    · cases h
  · cases h

theorem deserializeField_int32 (ht : f.type = .int32) (hv : int32At data offset = .ok v)
    (ha : target.assign f.offset (.int32 v) = .ok object') :
    deserializeField data (target, offset) f = .ok (object', offset + 4) := by
  unfold deserializeField
  simp only [ht, hv]
  show (target.assign f.offset (.int32 v) >>= fun object => Except.ok (object, offset + 4)) = _
  rw [ha]
  rfl

theorem deserializeField_string (ht : f.type = .string) (hl : int32At data offset = .ok length)
    (hv : stringAt data (offset + 4) length = .ok s) (ha : target.assign f.offset (.string s) = .ok object') :
    deserializeField data (target, offset) f = .ok (object', offset + 4 + length.toNat) := by
  unfold deserializeField
  simp only [ht, hl]
  show (stringAt data (offset + 4) length >>= fun value => target.assign f.offset (.string value) >>= fun object =>
    Except.ok (object, offset + 4 + length.toNat)) = _
  rw [hv]
  show (target.assign f.offset (.string s) >>= fun object => Except.ok (object, offset + 4 + length.toNat)) = _
  rw [ha]
  rfl

theorem deserializeField_member (hold : target f.offset = some old) (hto : old.type = f.type)
    (ht : m.type = f.type) (hs : m.Short) (pre rest : List UInt8) :
    deserializeField (pre ++ (m.bytes ++ rest)) (target, pre.length) f =
      .ok (Function.update target f.offset (some m), (pre ++ m.bytes).length) := by
  have hassign := assign_member hold (hto.trans ht.symm)
  rw [List.length_append]
  cases m with
  | int32 v =>
    rw [Member.bytes, length_int32Bytes]
    exact deserializeField_int32 ht.symm (int32At_bytes pre rest v) hassign
  | string s =>
    have hstring := stringAt_bytes (pre ++ int32Bytes (BitVec.ofNat 32 s.length)) s rest hs
    rw [List.append_assoc, List.length_append, length_int32Bytes] at hstring
    have hfield := deserializeField_string ht.symm (int32At_bytes pre (s ++ rest) _) hstring hassign
    rw [toNat_ofNat_length hs] at hfield
    rw [Member.bytes, List.append_assoc, List.length_append, length_int32Bytes, ← Nat.add_assoc]
    exact hfield

theorem deserializeField_ok (h : deserializeField data (object, offset) f = .ok (object', offset')) :
    ∃ m, m.type = f.type ∧ object' = Function.update object f.offset (some m) ∧
      ∃ v, int32At data offset = .ok v ∧ (m = .int32 v ∧ offset' = offset + 4 ∨
        ∃ s, m = .string s ∧ stringAt data (offset + 4) v = .ok s ∧ offset' = offset + 4 + v.toNat) := by
  unfold deserializeField at h
  cases ht : f.type with
  | int32 =>
    simp only [ht] at h
    obtain ⟨v, hv, h⟩ := except_bind_ok h
    obtain ⟨t, ha, h⟩ := except_bind_ok h
    cases h
    exact ⟨.int32 v, rfl, assign_ok ha, v, hv, Or.inl ⟨rfl, rfl⟩⟩
  | string =>
    simp only [ht] at h
    obtain ⟨v, hv, h⟩ := except_bind_ok h
    obtain ⟨s, hs, h⟩ := except_bind_ok h
    obtain ⟨t, ha, h⟩ := except_bind_ok h
    cases h
    exact ⟨.string s, rfl, assign_ok ha, v, hv, Or.inr ⟨s, rfl, hs, rfl⟩⟩

end

/-! ## All fields -/

section
variable {source target : Object} {fs : List MetaField} {data : List UInt8}

theorem serializeFields (hf : source.HasFields fs) (data : List UInt8) :
    fs.foldlM (fun data f => serializeField source data f) data = .ok (data ++ source.wire fs) := by
  induction fs generalizing data with
  | nil =>
    show Except.ok data = .ok (data ++ [])
    rw [List.append_nil]
  | cons f fs ih =>
    obtain ⟨m, hm, ht⟩ := hf f List.mem_cons_self
    have hfs : source.HasFields fs := fun g hg => hf g (List.mem_cons_of_mem f hg)
    rw [List.foldlM_cons, serializeField_member hm ht]
    show fs.foldlM (fun data f => serializeField source data f) (data ++ m.bytes) = _
    rw [ih hfs, wire_cons hm, List.append_assoc]

theorem overlay_cons (source : Object) (f : MetaField) (fs : List MetaField) (target : Object) :
    source.overlay (f :: fs) target = source.overlay fs (Function.update target f.offset (source f.offset)) := by
  funext o
  unfold overlay
  rw [List.map_cons]
  by_cases ho : o ∈ fs.map MetaField.offset
  · rw [if_pos ho, if_pos (List.mem_cons_of_mem _ ho)]
  · by_cases hof : o = f.offset
    · subst hof
      rw [if_neg ho, if_pos List.mem_cons_self, Function.update_self]
    · have hnot : o ∉ f.offset :: fs.map MetaField.offset := by simp [hof, ho]
      rw [if_neg ho, if_neg hnot, Function.update_of_ne hof]

theorem hasFields_update {f : MetaField} {m : Member} (ht : m.type = f.type)
    (hf : target.HasFields fs) (hsame : ∀ g ∈ fs, g.offset = f.offset → g.type = f.type) :
    HasFields (Function.update target f.offset (some m)) fs := by
  intro g hg
  by_cases hof : g.offset = f.offset
  · refine ⟨m, ?_, ht.trans (hsame g hg hof).symm⟩
    rw [hof, Function.update_self]
  · rw [Function.update_of_ne hof]
    exact hf g hg

/-- **Round trip.** What comes before and behind the bytes of the object is not looked at. -/
theorem deserializeFields (hf : source.HasFields fs) (hs : source.ShortStrings fs) (ht : target.HasFields fs)
    (pre rest : List UInt8) :
    fs.foldlM (fun s f => deserializeField (pre ++ (source.wire fs ++ rest)) s f) (target, pre.length) =
      .ok (source.overlay fs target, (pre ++ source.wire fs).length) := by
  induction fs generalizing target pre with
  | nil =>
    show Except.ok (target, pre.length) = .ok (target, (pre ++ []).length)
    rw [List.append_nil]
  | cons f fs ih =>
    obtain ⟨m, hm, htm⟩ := hf f List.mem_cons_self
    obtain ⟨old, hold, hto⟩ := ht f List.mem_cons_self
    have hfs : source.HasFields fs := fun g hg => hf g (List.mem_cons_of_mem f hg)
    have hss : source.ShortStrings fs := fun g hg => hs g (List.mem_cons_of_mem f hg)
    have htf : target.HasFields fs := fun g hg => ht g (List.mem_cons_of_mem f hg)
    -- a second field at the same offset has the same type, since `source` fits both
    have hsame : ∀ g ∈ fs, g.offset = f.offset → g.type = f.type := by
      intro g hg hof
      obtain ⟨m', hm', htm'⟩ := hfs g hg
      rw [hof, hm] at hm'
      cases hm'
      exact htm'.symm.trans htm
    have hone := deserializeField_member hold hto htm (hs f List.mem_cons_self m hm) pre (source.wire fs ++ rest)
    have hrest := ih hfs hss (hasFields_update htm htf hsame) (pre ++ m.bytes)
    rw [wire_cons hm, List.append_assoc, List.foldlM_cons, hone, overlay_cons, hm]
    rw [List.append_assoc, List.append_assoc] at hrest
    exact hrest

end

end LearningC
