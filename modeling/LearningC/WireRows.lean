import LearningC.PrefixCode
import LearningC.WireOrder

/-!
# Which bytes deserializeObject accepts

The loop reads one member after another and believes every length. It stays inside `data`
exactly when `data` begins with a complete member for each field, and what it stores are
these members. They form a prefix code, so the bytes can be read off the members.
-/

namespace LearningC

open LittleEndian Object PrefixCode

/-- A member of the type of the field, with a length that an `int32_t` can hold. -/
def MetaField.Fits (f : MetaField) (m : Member) : Prop := m.type = f.type ∧ m.Short

section
variable {target object object' : Object} {f : MetaField} {fs : List MetaField} {m : Member} {ms : List Member}
  {data s : List UInt8} {v length : BitVec 32} {offset offset' : Nat} {e : Fault}

theorem prefixFree_bytes : PrefixFree MetaField.Fits Member.bytes := by
  have hint : ∀ (v w : BitVec 32) (r s : List UInt8), int32Bytes v ++ r = int32Bytes w ++ s → v = w := by
    intro v w r s h
    have hv := int32At_bytes [] r v
    rw [h] at hv
    exact Except.ok.inj (hv.symm.trans (int32At_bytes [] s w))
  intro f m m' r s hm hm' h
  cases m with
  | int32 v =>
    cases m' with
    | int32 w => rw [hint v w r s h]
    | string y => cases hm.1.trans hm'.1.symm
  | string x =>
    cases m' with
    | int32 w => cases hm.1.trans hm'.1.symm
    | string y =>
      simp only [Member.bytes, List.append_assoc] at h
      have hlen := congrArg BitVec.toNat (hint _ _ _ _ h)
      rw [toNat_ofNat_length hm.2, toNat_ofNat_length hm'.2] at hlen
      rw [hlen] at h
      rw [(List.append_inj (List.append_cancel_left h) hlen).1]

/-! ## One field -/

theorem int32Bytes_value {bs : List UInt8} (h : bs.length = 4) : int32Bytes (BitVec.ofNat 32 (value bs)) = bs := by
  have hmod : value bs = value bs % 256 ^ bs.length := by
    rw [← value_bytes, bytes_value]
  rw [h] at hmod
  unfold int32Bytes
  rw [BitVec.toNat_ofNat, show 2 ^ 32 = 256 ^ 4 from rfl, ← hmod, ← h]
  exact bytes_value bs

theorem drop_eq_take_append (data : List UInt8) (offset n : Nat) :
    data.drop offset = (data.drop offset).take n ++ data.drop (offset + n) := by
  rw [← List.drop_drop, List.take_append_drop]

theorem int32At_ok (h : int32At data offset = .ok v) :
    offset + 4 ≤ data.length ∧ data.drop offset = int32Bytes v ++ data.drop (offset + 4) := by
  unfold int32At at h
  split at h
  · next hin =>
    have hlen : ((data.drop offset).take 4).length = 4 := by
      rw [List.length_take, List.length_drop]
      omega
    cases h
    rw [int32Bytes_value hlen]
    exact ⟨hin, drop_eq_take_append data offset 4⟩
  · cases h

theorem stringAt_ok (h : stringAt data offset length = .ok s) : length.toNat < 2 ^ 31 ∧
    offset + length.toNat ≤ data.length ∧ data.drop offset = s ++ data.drop (offset + length.toNat) := by
  unfold stringAt at h
  split at h
  · cases h
  · next hpos =>
    split at h
    · next hin =>
      rw [BitVec.toInt_eq_toNat_cond] at hpos
      cases h
      exact ⟨by omega, hin, drop_eq_take_append data offset length.toNat⟩
    · cases h

/-- A field that is read takes the bytes of one member. -/
theorem deserializeField_takes (h : deserializeField data (object, offset) f = .ok (object', offset')) :
    ∃ m, f.Fits m ∧ object' = Function.update object f.offset (some m) ∧ offset' = offset + m.bytes.length ∧
      offset' ≤ data.length ∧ data.drop offset = m.bytes ++ data.drop offset' := by
  obtain ⟨m, ht, hupd, v, hv, ⟨rfl, rfl⟩ | ⟨s, rfl, hs, rfl⟩⟩ := deserializeField_ok h
  · obtain ⟨hin, hdrop⟩ := int32At_ok hv
    refine ⟨.int32 v, ⟨ht, trivial⟩, hupd, ?_, hin, hdrop⟩
    rw [Member.bytes, length_int32Bytes]
  · obtain ⟨-, hdrop⟩ := int32At_ok hv
    obtain ⟨hshort, hin, hdrop'⟩ := stringAt_ok hs
    have hlen : s.length = v.toNat := length_of_stringAt hs
    have hprefix : BitVec.ofNat 32 s.length = v := by rw [hlen, BitVec.ofNat_toNat, BitVec.setWidth_eq]
    refine ⟨.string s, ⟨ht, hlen.trans_lt hshort⟩, hupd, ?_, hin, ?_⟩
    · rw [Member.bytes, List.length_append, length_int32Bytes, hlen, Nat.add_assoc]
    · rw [Member.bytes, hprefix, List.append_assoc, ← hdrop', hdrop]

theorem int32At_fault (h : int32At data offset = .error e) : e ≠ .noMember := by
  rintro rfl
  unfold int32At at h
  split at h <;> cases h

theorem stringAt_fault (h : stringAt data offset length = .error e) : e ≠ .noMember := by
  rintro rfl
  unfold stringAt at h
  split at h
  · cases h
  · split at h <;> cases h

/-- An object of the class has a member for the value. -/
theorem deserializeField_fault {old : Member} (hold : target f.offset = some old) (hto : old.type = f.type)
    (h : deserializeField data (target, offset) f = .error e) : e ≠ .noMember := by
  have hassign : ∀ {m : Member} {e : Fault}, m.type = f.type → target.assign f.offset m ≠ .error e := by
    intro m e hm he
    cases (assign_member hold (hto.trans hm.symm)).symm.trans he
  unfold deserializeField at h
  cases hf : f.type with
  | int32 =>
    simp only [hf] at h
    rcases except_bind_error h with hv | ⟨v, -, h⟩
    · exact int32At_fault hv
    · rcases except_bind_error h with ha | ⟨_, -, h⟩
      · exact absurd ha (hassign hf.symm)
      · cases h
  | string =>
    simp only [hf] at h
    rcases except_bind_error h with hv | ⟨v, -, h⟩
    · exact int32At_fault hv
    · rcases except_bind_error h with hs | ⟨s, -, h⟩
      · exact stringAt_fault hs
      · rcases except_bind_error h with ha | ⟨_, -, h⟩
        · exact absurd ha (hassign hf.symm)
        · cases h

/-! ## All fields -/

/-- What the loop has read are members for all fields, and with one field at each offset the
object has them all. -/
theorem deserializeFields_takes (hoff : offset ≤ data.length)
    (h : fs.foldlM (fun s f => deserializeField data s f) (object, offset) = .ok (object', offset')) :
    ∃ ms, List.Forall₂ MetaField.Fits fs ms ∧ offset' = offset + (ms.flatMap Member.bytes).length ∧
      offset' ≤ data.length ∧ data.drop offset = ms.flatMap Member.bytes ++ data.drop offset' ∧
      ((fs.map MetaField.offset).Nodup → List.Forall₂ (fun f m => object' f.offset = some m) fs ms) := by
  induction fs generalizing object offset with
  | nil =>
    cases h
    exact ⟨[], .nil, rfl, hoff, rfl, fun _ => .nil⟩
  | cons f fs ih =>
    rw [List.foldlM_cons] at h
    obtain ⟨⟨object₁, offset₁⟩, h₁, h⟩ := except_bind_ok h
    obtain ⟨m, hfit, hupd, hoff₁, hin₁, hdrop₁⟩ := deserializeField_takes h₁
    obtain ⟨ms, hfits, hoff', hin', hdrop', hhas⟩ := ih hin₁ h
    refine ⟨m :: ms, .cons hfit hfits, ?_, hin', ?_, fun hd => ?_⟩
    · rw [hoff', hoff₁, List.flatMap_cons, List.length_append, Nat.add_assoc]
    · rw [hdrop₁, hdrop', List.flatMap_cons, List.append_assoc]
    · rw [List.map_cons, List.nodup_cons] at hd
      have hkeep : object' f.offset = object₁ f.offset := MetaClass.deserializeFields_frame hd.1 h
      refine .cons ?_ (hhas hd.2)
      rw [hkeep, hupd, Function.update_self]

theorem wire_of_members (h : List.Forall₂ (fun f m => object f.offset = some m) fs ms) :
    object.wire fs = ms.flatMap Member.bytes := by
  induction h with
  | nil => rfl
  | cons hm _ ih => rw [wire_cons hm, ih, List.flatMap_cons]

theorem hasFields_of_members (hfits : List.Forall₂ MetaField.Fits fs ms)
    (h : List.Forall₂ (fun f m => object f.offset = some m) fs ms) : HasFields object fs := by
  induction hfits with
  | nil => simp [HasFields]
  | @cons f m fs ms hfit _ ih =>
    cases h with
    | cons hm h =>
      intro g hg
      rcases List.mem_cons.mp hg with rfl | hg
      · exact ⟨m, hm, hfit.1⟩
      · exact ih h g hg

theorem sameType_of_hasFields (ht : HasFields target (f :: fs)) : ∀ g ∈ fs, g.offset = f.offset → g.type = f.type := by
  intro g hg hof
  obtain ⟨m, hm, htm⟩ := ht f List.mem_cons_self
  obtain ⟨m', hm', htm'⟩ := ht g (List.mem_cons_of_mem f hg)
  rw [hof, hm] at hm'
  cases hm'
  exact htm'.symm.trans htm

theorem deserializeFields_row (hfits : List.Forall₂ MetaField.Fits fs ms) (ht : HasFields target fs)
    (pre rest : List UInt8) :
    ∃ target', fs.foldlM (fun s f => deserializeField (pre ++ (ms.flatMap Member.bytes ++ rest)) s f)
      (target, pre.length) = .ok (target', (pre ++ ms.flatMap Member.bytes).length) := by
  induction hfits generalizing target pre with
  | nil =>
    refine ⟨target, ?_⟩
    rw [List.flatMap_nil, List.append_nil]
    rfl
  | @cons f m fs ms hfit _ ih =>
    obtain ⟨old, hold, hto⟩ := ht f List.mem_cons_self
    have htf : HasFields target fs := fun g hg => ht g (List.mem_cons_of_mem f hg)
    have hone := deserializeField_member hold hto hfit.1 hfit.2 pre (ms.flatMap Member.bytes ++ rest)
    obtain ⟨target', hrest⟩ := ih (hasFields_update hfit.1 htf (sameType_of_hasFields ht)) (pre ++ m.bytes)
    rw [List.append_assoc, List.append_assoc] at hrest
    refine ⟨target', ?_⟩
    rw [List.flatMap_cons, List.append_assoc, List.foldlM_cons, hone]
    exact hrest

theorem deserializeFields_fault (ht : HasFields target fs)
    (h : fs.foldlM (fun s f => deserializeField data s f) (target, offset) = .error e) : e ≠ .noMember := by
  induction fs generalizing target offset with
  | nil => cases h
  | cons f fs ih =>
    obtain ⟨old, hold, hto⟩ := ht f List.mem_cons_self
    rw [List.foldlM_cons] at h
    rcases except_bind_error h with h₁ | ⟨⟨target₁, offset₁⟩, h₁, h⟩
    · exact deserializeField_fault hold hto h₁
    · obtain ⟨m, hfit, hupd, -⟩ := deserializeField_takes h₁
      have htf : HasFields target fs := fun g hg => ht g (List.mem_cons_of_mem f hg)
      rw [hupd] at h
      exact ih (hasFields_update hfit.1 htf (sameType_of_hasFields ht)) h

end

end LearningC
