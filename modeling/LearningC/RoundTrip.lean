import LearningC.WireRows

/-!
# Round trip, limits and canonical form of the serializer

One `MetaClass` reads back what it has written, whatever comes behind it. On other bytes
the decoder stays inside its input only if they begin with a complete member for every
field; what it consumes to the last byte is what it would write.
-/

namespace LearningC

open Object PrefixCode

namespace MetaClass

section
variable {it : Iteration} {m : MetaClass} {source target target' : Object} {data : List UInt8}

/-- **Round trip.** The target gets the members of the source and keeps all others, and the
offset ends behind the bytes of the source, with any `rest` or none behind them. -/
theorem roundTrip (hs : HasFields source m.layout) (hshort : ShortStrings source m.layout)
    (ht : HasFields target m.layout) :
    ∃ data target', serializeObject it source m = .ok data ∧
      (∀ rest, deserializeObject it target m (data ++ rest) = .ok (target', data.length)) ∧
      (∀ f ∈ m.layout, target' f.offset = source f.offset) ∧
      ∀ o, (∀ f ∈ m.layout, o ≠ f.offset) → target' o = target o := by
  have hperm := sequence_perm it m
  have hshort' : ShortStrings source (it.sequence m) := fun f hf => hshort f (hperm.mem_iff.mp hf)
  refine ⟨source.wire (it.sequence m), source.overlay (it.sequence m) target, serializeObject_ok hs, fun rest => ?_,
    fun f hf => ?_, fun o ho => ?_⟩
  · rw [deserializeObject_eq]
    exact deserializeFields (hasFields_sequence.mpr hs) hshort' (hasFields_sequence.mpr ht) [] rest
  · have hmem : f.offset ∈ (it.sequence m).map MetaField.offset := List.mem_map_of_mem (hperm.mem_iff.mpr hf)
    exact if_pos hmem
  · have hnot : o ∉ (it.sequence m).map MetaField.offset := by
      intro hmem
      obtain ⟨f, hf, rfl⟩ := List.mem_map.mp hmem
      exact ho f (hperm.mem_iff.mp hf) rfl
    exact if_neg hnot

/-- A negative number and an empty string, in front of bytes that look like a length. -/
theorem roundTrip_person : ∃ data target', serializeObject newestFirst (person (-1) [] [4, 0, 0, 0]) createPersonMetaClass =
      .ok data ∧
    (∀ rest, deserializeObject newestFirst (person 0 [1] [2]) createPersonMetaClass (data ++ rest) =
      .ok (target', data.length)) ∧
    (∀ f ∈ createPersonMetaClass.layout, target' f.offset = person (-1) [] [4, 0, 0, 0] f.offset) ∧
    ∀ o, (∀ f ∈ createPersonMetaClass.layout, o ≠ f.offset) → target' o = person 0 [1] [2] o :=
  roundTrip (person_hasFields _ _ _) (person_shortStrings _ (by decide) (by decide)) (person_hasFields _ _ _)

/-! ## Other bytes -/

/-- No read behind the end of `data`, and no range whose end lies before its begin. -/
def StaysInside (it : Iteration) (target : Object) (m : MetaClass) (data : List UInt8) : Prop :=
  deserializeObject it target m data ≠ .error .pastEnd ∧ deserializeObject it target m data ≠ .error .reversed

/-- The bytes begin with a complete member for every field, in the order of the loop. -/
def BeginsComplete (it : Iteration) (m : MetaClass) (data : List UInt8) : Prop :=
  ∃ ms, List.Forall₂ MetaField.Fits (it.sequence m) ms ∧ ms.flatMap Member.bytes <+: data

theorem beginsComplete_of_ok {offset : Nat} (h : deserializeObject it target m data = .ok (target', offset)) :
    BeginsComplete it m data := by
  rw [deserializeObject_eq] at h
  obtain ⟨ms, hfits, -, -, hdrop, -⟩ := deserializeFields_takes (Nat.zero_le _) h
  exact ⟨ms, hfits, data.drop offset, hdrop.symm⟩

theorem ok_of_beginsComplete (ht : HasFields target m.layout) (h : BeginsComplete it m data) :
    ∃ s, deserializeObject it target m data = .ok s := by
  obtain ⟨ms, hfits, rest, rfl⟩ := h
  obtain ⟨target', hread⟩ := deserializeFields_row hfits (hasFields_sequence.mpr ht) [] rest
  refine ⟨(target', (ms.flatMap Member.bytes).length), ?_⟩
  rw [deserializeObject_eq]
  exact hread

/-- **Limits.** The decoder stays inside its input exactly on bytes that begin with complete
members. -/
theorem staysInside_iff_beginsComplete (ht : HasFields target m.layout) :
    StaysInside it target m data ↔ BeginsComplete it m data := by
  constructor
  · intro h
    cases hr : deserializeObject it target m data with
    | ok s => exact beginsComplete_of_ok hr
    | error e =>
      have hne : e ≠ .noMember := by
        rw [deserializeObject_eq] at hr
        exact deserializeFields_fault (hasFields_sequence.mpr ht) hr
      unfold StaysInside at h
      rw [hr] at h
      cases e with
      | noMember => exact absurd rfl hne
      | pastEnd => exact absurd rfl h.1
      | reversed => exact absurd rfl h.2
  · intro h
    obtain ⟨s, hs⟩ := ok_of_beginsComplete ht h
    unfold StaysInside
    rw [hs]
    constructor
    · intro e
      cases e
    · intro e
      cases e

/-- What `person 7 [97] []` is written as. -/
def personBytes : List UInt8 := [0, 0, 0, 0, 1, 0, 0, 0, 97, 7, 0, 0, 0]

theorem personBytes_complete : BeginsComplete newestFirst createPersonMetaClass (personBytes ++ [1, 2]) := by
  obtain ⟨target, h⟩ : ∃ target, deserializeObject newestFirst (person 0 [] []) createPersonMetaClass
    (personBytes ++ [1, 2]) = .ok (target, personBytes.length) := ⟨_, rfl⟩
  exact beginsComplete_of_ok h

theorem staysInside_iff_beginsComplete_person :
    (StaysInside newestFirst (person 0 [] []) createPersonMetaClass [255, 255, 255, 255] ↔
      BeginsComplete newestFirst createPersonMetaClass [255, 255, 255, 255]) ∧
    StaysInside newestFirst (person 0 [] []) createPersonMetaClass (personBytes ++ [1, 2]) :=
  ⟨staysInside_iff_beginsComplete (person_hasFields _ _ _),
    (staysInside_iff_beginsComplete (person_hasFields _ _ _)).mpr personBytes_complete⟩

theorem not_staysInside_empty : ¬ ∀ (it : Iteration) (m : MetaClass) (target : Object) (data : List UInt8),
    HasFields target m.layout → StaysInside it target m data := by
  intro h
  have hread : deserializeObject newestFirst (person 0 [] []) createPersonMetaClass [] = .error .pastEnd := rfl
  exact (h newestFirst createPersonMetaClass (person 0 [] []) [] (person_hasFields _ _ _)).1 hread

/-! ## Canonical form -/

theorem exact_row (hd : (m.layout.map MetaField.offset).Nodup)
    (h : deserializeObject it target m data = .ok (target', data.length)) :
    ∃ ms, List.Forall₂ MetaField.Fits (it.sequence m) ms ∧ data = ms.flatMap Member.bytes ∧
      List.Forall₂ (fun f m => target' f.offset = some m) (it.sequence m) ms := by
  rw [deserializeObject_eq] at h
  obtain ⟨ms, hfits, -, -, hdrop, hhas⟩ := deserializeFields_takes (Nat.zero_le _) h
  rw [List.drop_zero, List.drop_length, List.append_nil] at hdrop
  exact ⟨ms, hfits, hdrop, hhas (((sequence_perm it m).map _).nodup_iff.mpr hd)⟩

theorem serializeObject_exact (hd : (m.layout.map MetaField.offset).Nodup)
    (h : deserializeObject it target m data = .ok (target', data.length)) :
    serializeObject it target' m = .ok data := by
  obtain ⟨ms, hfits, hdata, hhas⟩ := exact_row hd h
  have hfields : HasFields target' m.layout := hasFields_sequence.mp (hasFields_of_members hfits hhas)
  rw [serializeObject_ok hfields, wire_of_members hhas, hdata]

end

/-- **Canonical form.** Bytes that are consumed to the last one are what the resulting object
is written as. So two of them that give the same members are the same, and none of them
begins with another one. -/
theorem canonical (it : Iteration) {m : MetaClass} (hd : (m.layout.map MetaField.offset).Nodup) :
    (∀ target target' data, deserializeObject it target m data = .ok (target', data.length) →
      serializeObject it target' m = .ok data) ∧
    ∀ target₁ target₁' data₁ target₂ target₂' data₂,
      deserializeObject it target₁ m data₁ = .ok (target₁', data₁.length) →
      deserializeObject it target₂ m data₂ = .ok (target₂', data₂.length) →
      ((∀ f ∈ m.layout, target₁' f.offset = target₂' f.offset) → data₁ = data₂) ∧ (data₁ <+: data₂ → data₁ = data₂) := by
  refine ⟨fun _ _ _ h => serializeObject_exact hd h, fun target₁ target₁' data₁ target₂ target₂' data₂ h₁ h₂ => ?_⟩
  obtain ⟨ms₁, hfits₁, hdata₁, hhas₁⟩ := exact_row hd h₁
  obtain ⟨ms₂, hfits₂, hdata₂, hhas₂⟩ := exact_row hd h₂
  constructor
  · intro hsame
    have hwire : target₁'.wire (it.sequence m) = target₂'.wire (it.sequence m) := by
      apply List.flatMap_congr
      intro f hf
      rw [hsame f ((sequence_perm it m).mem_iff.mp hf)]
    rw [hdata₁, hdata₂, ← wire_of_members hhas₁, ← wire_of_members hhas₂, hwire]
  · intro hp
    rw [hdata₁, hdata₂] at hp
    rw [hdata₁, hdata₂, prefixFree_bytes.row_of_prefix hfits₁ hfits₂ hp]

/-- What `person 7 [] []` is written as. -/
def namelessBytes : List UInt8 := [0, 0, 0, 0, 0, 0, 0, 0, 7, 0, 0, 0]

theorem canonical_person : ∃ target₁ target₂,
    deserializeObject newestFirst (person 0 [] []) createPersonMetaClass personBytes = .ok (target₁, personBytes.length) ∧
    deserializeObject newestFirst (person 0 [] []) createPersonMetaClass namelessBytes = .ok (target₂, namelessBytes.length) ∧
    serializeObject newestFirst target₁ createPersonMetaClass = .ok personBytes ∧
    ¬ (∀ f ∈ createPersonMetaClass.layout, target₁ f.offset = target₂ f.offset) ∧ ¬ namelessBytes <+: personBytes := by
  have hd : (createPersonMetaClass.layout.map MetaField.offset).Nodup := by
    rw [createPersonMetaClass_layout]
    decide
  have hne : personBytes ≠ namelessBytes := by decide
  obtain ⟨target₁, h₁⟩ : ∃ target, deserializeObject newestFirst (person 0 [] []) createPersonMetaClass personBytes =
    .ok (target, personBytes.length) := ⟨_, rfl⟩
  obtain ⟨target₂, h₂⟩ : ∃ target, deserializeObject newestFirst (person 0 [] []) createPersonMetaClass namelessBytes =
    .ok (target, namelessBytes.length) := ⟨_, rfl⟩
  obtain ⟨hexact, hunique⟩ := canonical newestFirst hd
  exact ⟨target₁, target₂, h₁, h₂, hexact _ _ _ h₁, fun hsame => hne ((hunique _ _ _ _ _ _ h₁ h₂).1 hsame),
    fun hp => hne ((hunique _ _ _ _ _ _ h₂ h₁).2 hp).symm⟩

end MetaClass

end LearningC
