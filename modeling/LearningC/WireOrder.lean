import LearningC.WireFormat
import Mathlib.Data.List.Perm.Basic

/-!
# Two MetaClass objects and one wire format

The bytes carry neither names nor types, so what one `MetaClass` has written another one
reads well exactly when both loops come across the same types and offsets in the same
order. Where the orders first part, an object with a one in the field that is written
and zeros elsewhere is not restored.
-/

namespace LearningC

open Object

/-- The types and offsets in the order of the loop. -/
def Iteration.sequence (it : Iteration) (m : MetaClass) : List MetaField := (it.order m).map fun e => e.2

namespace MetaClass

def SameFields (m₁ m₂ : MetaClass) : Prop := ∀ e, e ∈ m₁.fields.entries ↔ e ∈ m₂.fields.entries

/-- The types and offsets of all fields. -/
def layout (m : MetaClass) : List MetaField := m.fields.entries.map fun e => e.2

/-- Reading under `m₂` what was written under `m₁` gives every object of the class the
members of `source`. -/
def Restores (it : Iteration) (m₁ m₂ : MetaClass) (source : Object) : Prop :=
  ∀ target, HasFields target m₂.layout → ∃ data target' offset, serializeObject it source m₁ = .ok data ∧
    deserializeObject it target m₂ data = .ok (target', offset) ∧ ∀ f ∈ m₁.layout, target' f.offset = source f.offset

section
variable {it : Iteration} {m m₁ m₂ : MetaClass} {source target : Object} {data : List UInt8}

theorem sequence_perm (it : Iteration) (m : MetaClass) : (it.sequence m).Perm m.layout := (it.perm m).map _

theorem SameFields.layout_perm (h : SameFields m₁ m₂) : m₁.layout.Perm m₂.layout :=
  ((List.perm_ext_iff_of_nodup m₁.fields.nodupKeys.nodup m₂.fields.nodupKeys.nodup).mpr h).map _

theorem serializeObject_eq (it : Iteration) (source : Object) (m : MetaClass) :
    serializeObject it source m = (it.sequence m).foldlM (fun data f => serializeField source data f) [] := by
  unfold serializeObject Iteration.sequence
  rw [List.foldlM_map]

theorem deserializeObject_eq (it : Iteration) (target : Object) (m : MetaClass) (data : List UInt8) :
    deserializeObject it target m data = (it.sequence m).foldlM (fun s f => deserializeField data s f) (target, 0) := by
  unfold deserializeObject Iteration.sequence
  rw [List.foldlM_map]

theorem hasFields_sequence : HasFields source (it.sequence m) ↔ HasFields source m.layout := by
  constructor
  · intro h f hf
    exact h f ((sequence_perm it m).mem_iff.mpr hf)
  · intro h f hf
    exact h f ((sequence_perm it m).mem_iff.mp hf)

theorem serializeObject_ok (hf : HasFields source m.layout) :
    serializeObject it source m = .ok (source.wire (it.sequence m)) := by
  rw [serializeObject_eq, serializeFields (hasFields_sequence.mpr hf), List.nil_append]

/-! ## The same order -/

theorem restores_of_sameSequence (hseq : it.sequence m₁ = it.sequence m₂) (hf : HasFields source m₁.layout)
    (hs : ShortStrings source m₁.layout) : Restores it m₁ m₂ source := by
  intro target ht
  have hf' : HasFields source (it.sequence m₁) := hasFields_sequence.mpr hf
  have hs' : ShortStrings source (it.sequence m₁) := fun f hm => hs f ((sequence_perm it m₁).mem_iff.mp hm)
  have ht' : HasFields target (it.sequence m₁) := hseq ▸ hasFields_sequence.mpr ht
  have hread := deserializeFields hf' hs' ht' [] []
  rw [List.append_nil] at hread
  refine ⟨source.wire (it.sequence m₁), source.overlay (it.sequence m₁) target, (source.wire (it.sequence m₁)).length,
    serializeObject_ok hf, ?_, ?_⟩
  · rw [deserializeObject_eq, ← hseq]
    exact hread
  · intro f hfm
    have hmem : f.offset ∈ (it.sequence m₁).map MetaField.offset :=
      List.mem_map_of_mem ((sequence_perm it m₁).mem_iff.mpr hfm)
    exact if_pos hmem

end

/-! ## Where two orders part -/

theorem exists_parting {α : Type} : ∀ {l₁ l₂ : List α}, l₁.length = l₂.length → l₁ ≠ l₂ →
    ∃ p a b l₁' l₂', l₁ = p ++ a :: l₁' ∧ l₂ = p ++ b :: l₂' ∧ a ≠ b
  | [], [], _, h => absurd rfl h
  | a :: l₁, b :: l₂, hl, h => by
    by_cases hab : a = b
    · subst hab
      have hne : l₁ ≠ l₂ := fun e => h (congrArg _ e)
      obtain ⟨p, c, d, l₁', l₂', h₁, h₂, hcd⟩ := exists_parting (Nat.succ.inj hl) hne
      exact ⟨a :: p, c, d, l₁', l₂', congrArg _ h₁, congrArg _ h₂, hcd⟩
    · exact ⟨[], a, b, l₁, l₂, rfl, rfl, hab⟩

section
variable {it : Iteration} {m₁ m₂ : MetaClass} {source : Object} {data : List UInt8} {fs : List MetaField}

theorem exists_object (choose : MetaField → Member) (hd : (fs.map MetaField.offset).Nodup) :
    ∃ object : Object, ∀ f ∈ fs, object f.offset = some (choose f) := by
  induction fs with
  | nil => exact ⟨fun _ => none, by simp⟩
  | cons g fs ih =>
    rw [List.map_cons, List.nodup_cons] at hd
    obtain ⟨object, hobj⟩ := ih hd.2
    refine ⟨Function.update object g.offset (some (choose g)), ?_⟩
    intro f hf
    rcases List.mem_cons.mp hf with rfl | hf
    · exact Function.update_self _ _ _
    · have hne : f.offset ≠ g.offset := fun e => hd.1 (e ▸ List.mem_map_of_mem hf)
      rw [Function.update_of_ne hne]
      exact hobj f hf

theorem deserializeFields_frame {o : Nat} (ho : o ∉ fs.map MetaField.offset) {s s' : Object × Nat}
    (h : fs.foldlM (fun s f => deserializeField data s f) s = .ok s') : s'.1 o = s.1 o := by
  induction fs generalizing s with
  | nil =>
    cases h
    rfl
  | cons f fs ih =>
    rw [List.map_cons, List.mem_cons, not_or] at ho
    rw [List.foldlM_cons] at h
    obtain ⟨s₁, h₁, h⟩ := except_bind_ok h
    obtain ⟨m, -, hupd, -⟩ := deserializeField_ok h₁
    rw [ih ho.2 h, hupd, Function.update_of_ne ho.1]

def zeroMember : FieldType → Member
  | .int32 => .int32 0
  | .string => .string []

/-- A member whose bytes begin with those of the `int32_t` one. -/
def oneMember : FieldType → Member
  | .int32 => .int32 1
  | .string => .string [0]

theorem oneMember_bytes (t : FieldType) : ∃ rest, (oneMember t).bytes = int32Bytes 1 ++ rest := by
  cases t with
  | int32 => exact ⟨[], (List.append_nil _).symm⟩
  | string => exact ⟨[0], rfl⟩

theorem zeroMember_ne {m : Member} {offset : Nat}
    (h : m = .int32 1 ∨ ∃ s, m = .string s ∧ stringAt data offset 1 = .ok s) (t : FieldType) : m ≠ zeroMember t := by
  intro e
  rcases h with rfl | ⟨s, rfl, hs⟩
  · cases t with
    | int32 => exact absurd (Member.int32.inj e) (by decide)
    | string => cases e
  · cases t with
    | int32 => cases e
    | string =>
      cases e
      cases length_of_stringAt hs

/-- Where one loop writes a one and the other loop reads a different field, that field
does not become zero. -/
theorem misread {p fs gs : List MetaField} {f g : MetaField} {target : Object} {s : Object × Nat}
    (hp : HasFields source p) (hshort : ShortStrings source p) (ht : HasFields target p)
    (hf : source f.offset = some (oneMember f.type)) (hg : g.offset ∉ gs.map MetaField.offset)
    (h : (p ++ g :: gs).foldlM (fun s k => deserializeField (source.wire (p ++ f :: fs)) s k) (target, 0) = .ok s) :
    ∃ m, s.1 g.offset = some m ∧ ∀ t, m ≠ zeroMember t := by
  obtain ⟨rest, hrest⟩ := oneMember_bytes f.type
  have hwire : source.wire (p ++ f :: fs) = source.wire p ++ (int32Bytes 1 ++ (rest ++ source.wire fs)) := by
    rw [wire_append, wire_cons hf, hrest, List.append_assoc]
  rw [List.foldlM_append] at h
  obtain ⟨s₁, h₁, h⟩ := except_bind_ok h
  have hread := deserializeFields hp hshort ht [] (int32Bytes 1 ++ (rest ++ source.wire fs))
  rw [List.nil_append, ← hwire] at hread
  cases h₁.symm.trans hread
  rw [List.foldlM_cons] at h
  obtain ⟨s₂, h₂, h⟩ := except_bind_ok h
  obtain ⟨m, -, hupd, v, hv, hm⟩ := deserializeField_ok h₂
  have hone := int32At_bytes (source.wire p) (rest ++ source.wire fs) 1
  rw [← hwire] at hone
  cases hv.symm.trans hone
  have hone' : m = .int32 1 ∨ ∃ s, m = .string s ∧ stringAt (source.wire (p ++ f :: fs)) ((source.wire p).length + 4) 1 = .ok s :=
    hm.imp And.left fun ⟨s, hs, hread, _⟩ => ⟨s, hs, hread⟩
  refine ⟨m, ?_, fun t => zeroMember_ne hone' t⟩
  rw [deserializeFields_frame hg h, hupd, Function.update_self]

/-- **Another order does not restore.** -/
theorem sameSequence_of_restores (hsame : SameFields m₁ m₂) (hd : (m₁.layout.map MetaField.offset).Nodup)
    (h : ∀ source, HasFields source m₁.layout → ShortStrings source m₁.layout → Restores it m₁ m₂ source) :
    it.sequence m₁ = it.sequence m₂ := by
  by_contra hne
  have hperm₁ := sequence_perm it m₁
  have hperm₂ : (it.sequence m₂).Perm m₁.layout := (sequence_perm it m₂).trans hsame.layout_perm.symm
  obtain ⟨p, f, g, fs, gs, h₁, h₂, hfg⟩ := exists_parting (hperm₁.trans hperm₂.symm).length_eq hne
  have hp : ∀ k ∈ p, k ∈ m₁.layout := fun k hk => hperm₁.mem_iff.mp (by simp [h₁, hk])
  have hfm : f ∈ m₁.layout := hperm₁.mem_iff.mp (by simp [h₁])
  have hgm : g ∈ m₁.layout := hperm₂.mem_iff.mp (by simp [h₂])
  obtain ⟨source, hsource⟩ := exists_object (fun k => if k = f then oneMember k.type else zeroMember k.type) hd
  obtain ⟨target, htarget⟩ := exists_object (fun k => zeroMember k.type) hd
  have hf : source f.offset = some (oneMember f.type) := (hsource f hfm).trans (congrArg _ (if_pos rfl))
  have hg : source g.offset = some (zeroMember g.type) := (hsource g hgm).trans (congrArg _ (if_neg (Ne.symm hfg)))
  have hhas : HasFields source m₁.layout := by
    intro k hk
    refine ⟨_, hsource k hk, ?_⟩
    split <;> cases k.type <;> rfl
  have hshort : ShortStrings source m₁.layout := by
    intro k hk m hm
    rw [hsource k hk] at hm
    cases hm
    split <;> cases k.type <;> simp [oneMember, zeroMember, Member.Short]
  have hthas : HasFields target m₁.layout := by
    intro k hk
    refine ⟨_, htarget k hk, ?_⟩
    cases k.type <;> rfl
  have hgs : g.offset ∉ gs.map MetaField.offset := by
    have hnodup : ((it.sequence m₂).map MetaField.offset).Nodup := (hperm₂.map _).nodup_iff.mpr hd
    rw [h₂, List.map_append, List.map_cons] at hnodup
    exact (List.nodup_cons.mp (List.nodup_append.mp hnodup).2.1).1
  obtain ⟨data, target', offset, hser, hde, hrestored⟩ :=
    h source hhas hshort target (fun k hk => hthas k (hsame.layout_perm.mem_iff.mpr hk))
  rw [serializeObject_ok hhas] at hser
  cases hser
  rw [deserializeObject_eq, h₁, h₂] at hde
  have hmis : ∃ m, target' g.offset = some m ∧ ∀ t, m ≠ zeroMember t :=
    misread (fun k hk => hhas k (hp k hk)) (fun k hk => hshort k (hp k hk)) (fun k hk => hthas k (hp k hk)) hf hgs hde
  obtain ⟨m, hm, hzero⟩ := hmis
  have hrg := hrestored g hgm
  rw [hm, hg] at hrg
  exact hzero g.type (Option.some.inj hrg)

/-- **The wire format is the order of the loop.** In the same order of types and offsets
every object comes back, in another order, where no two fields share an offset, some
object does not. -/
theorem restores_iff_sameSequence (it : Iteration) (hsame : SameFields m₁ m₂) :
    (it.sequence m₁ = it.sequence m₂ →
      ∀ source, HasFields source m₁.layout → ShortStrings source m₁.layout → Restores it m₁ m₂ source) ∧
    ((m₁.layout.map MetaField.offset).Nodup →
      (∀ source, HasFields source m₁.layout → ShortStrings source m₁.layout → Restores it m₁ m₂ source) →
        it.sequence m₁ = it.sequence m₂) :=
  ⟨fun hseq _ hf hs => restores_of_sameSequence hseq hf hs, fun hd h => sameSequence_of_restores hsame hd h⟩

end

/-- A hash map that visits the last entry made first. -/
def newestFirst : Iteration where
  order m := m.fields.entries
  perm _ := List.Perm.refl _

/-- The fields of `Person` in another order. -/
def swappedPerson : MetaClass := ofCalls [("id", ⟨.int32, 0⟩), ("email", ⟨.string, 40⟩), ("name", ⟨.string, 8⟩)]

theorem swappedPerson_sameFields : SameFields createPersonMetaClass swappedPerson := by
  intro e
  have h₁ : createPersonMetaClass.fields.entries = [⟨"email", .string, 40⟩, ⟨"name", .string, 8⟩, ⟨"id", .int32, 0⟩] := rfl
  have h₂ : swappedPerson.fields.entries = [⟨"name", .string, 8⟩, ⟨"email", .string, 40⟩, ⟨"id", .int32, 0⟩] := rfl
  rw [h₁, h₂]
  exact (List.Perm.swap _ _ _).mem_iff

theorem createPersonMetaClass_layout : createPersonMetaClass.layout = [⟨.string, 40⟩, ⟨.string, 8⟩, ⟨.int32, 0⟩] := rfl

theorem person_hasFields (id : BitVec 32) (name email : List UInt8) :
    HasFields (person id name email) createPersonMetaClass.layout := by
  rw [createPersonMetaClass_layout]
  simp [HasFields, person, Member.type]

theorem person_hasFields_swapped (id : BitVec 32) (name email : List UInt8) :
    HasFields (person id name email) swappedPerson.layout := fun f hf =>
  person_hasFields id name email f (swappedPerson_sameFields.layout_perm.mem_iff.mpr hf)

theorem person_shortStrings (id : BitVec 32) {name email : List UInt8} (hn : name.length < 2 ^ 31)
    (he : email.length < 2 ^ 31) : ShortStrings (person id name email) createPersonMetaClass.layout := by
  rw [createPersonMetaClass_layout]
  simp [ShortStrings, person, Member.Short]
  exact ⟨he, hn⟩

theorem restores_iff_sameSequence_person :
    (newestFirst.sequence createPersonMetaClass = newestFirst.sequence swappedPerson →
      ∀ source, HasFields source createPersonMetaClass.layout → ShortStrings source createPersonMetaClass.layout →
        Restores newestFirst createPersonMetaClass swappedPerson source) ∧
    ((createPersonMetaClass.layout.map MetaField.offset).Nodup →
      (∀ source, HasFields source createPersonMetaClass.layout → ShortStrings source createPersonMetaClass.layout →
        Restores newestFirst createPersonMetaClass swappedPerson source) →
        newestFirst.sequence createPersonMetaClass = newestFirst.sequence swappedPerson) ∧
    Restores newestFirst createPersonMetaClass createPersonMetaClass (person 7 [97] []) := by
  obtain ⟨hsame, hother⟩ := restores_iff_sameSequence newestFirst swappedPerson_sameFields
  exact ⟨hsame, hother, (restores_iff_sameSequence newestFirst fun _ => Iff.rfl).1 rfl _ (person_hasFields _ _ _)
    (person_shortStrings _ (by decide) (by decide))⟩

/-- A name comes back as the email. -/
theorem swappedPerson_not_restored : ¬ ∀ (it : Iteration) (calls₁ calls₂ : List (String × MetaField)),
    SameFields (ofCalls calls₁) (ofCalls calls₂) → ∀ source, HasFields source (ofCalls calls₁).layout →
      ShortStrings source (ofCalls calls₁).layout → Restores it (ofCalls calls₁) (ofCalls calls₂) source := by
  intro h
  obtain ⟨data, target, offset, hser, hde, hrestored⟩ :=
    h newestFirst [("id", ⟨.int32, 0⟩), ("name", ⟨.string, 8⟩), ("email", ⟨.string, 40⟩)]
      [("id", ⟨.int32, 0⟩), ("email", ⟨.string, 40⟩), ("name", ⟨.string, 8⟩)] swappedPerson_sameFields
      (person 7 [97] []) (person_hasFields _ _ _) (person_shortStrings _ (by decide) (by decide))
      (person 0 [] []) (person_hasFields_swapped _ _ _)
  have hbytes : serializeObject newestFirst (person 7 [97] []) createPersonMetaClass =
      .ok [0, 0, 0, 0, 1, 0, 0, 0, 97, 7, 0, 0, 0] := rfl
  cases hser.symm.trans hbytes
  have hname : (deserializeObject newestFirst (person 0 [] []) swappedPerson
      [0, 0, 0, 0, 1, 0, 0, 0, 97, 7, 0, 0, 0]).map (fun s => s.1 8) = .ok (some (.string [])) := rfl
  rw [show deserializeObject newestFirst (person 0 [] []) swappedPerson _ = _ from hde] at hname
  have hmem : (⟨.string, 8⟩ : MetaField) ∈ createPersonMetaClass.layout := by
    rw [createPersonMetaClass_layout]
    simp
  have hrestored' := hrestored ⟨.string, 8⟩ hmem
  cases (Except.ok.inj hname).symm.trans hrestored'

end MetaClass

end LearningC
