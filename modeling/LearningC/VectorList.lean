import LearningC.Runs
import LearningC.VectorGrowth

/-!
# One vector as a list

The vector goes along with a list on which `push_back` appends, `pop_back` drops the last
element if there is one, and `clear` leaves nothing. They agree as long as no call that
makes the vector grow has one of its own elements as its argument.
-/

namespace LearningC

open Storage Memory Custody Runs

variable {α : Type}

/-- Appends what the argument makes of an element or of something outside. -/
def Args.appendTo (l : List α) : Args Unit α → List α
  | .outside x => l ++ [x]
  | .element _ i make leave => (l ++ (l[i]?.map make).toList).modify i leave

def VecCall.onList (T : ElementType α) (l : List α) : VecCall Unit α → List α
  | .pushBack obj _ => obj.copied.appendTo l
  | .pushBackMove obj _ => (obj.moved T).appendTo l
  | .emplaceBack args _ => args.appendTo l
  | .popBack => l.dropLast
  | .clear => []

/-- A vector, as long as what it did had a meaning, and the list it stands for. -/
structure Tracked (α : Type) where
  state : Option (VecState α)
  list : List α

namespace Tracked

variable (T : ElementType α)

def init : Tracked α where
  state := some VecState.init
  list := []

/-- A call that throws adds nothing to the list. -/
def after (t : Tracked α) (l : List α) : Outcome (VecState α) → Tracked α
  | .done s => { state := some s, list := l }
  | .threw s => { state := some s, list := t.list }
  | .undefined => { state := none, list := t.list }

/-- An element that is an argument is in range. -/
def step (t : Tracked α) (call : VecCall Unit α) : Option (Tracked α) :=
  t.state.bind fun s =>
    if ∀ args ∈ call.args T, args.InRange fun _ => s.vec.size then
      some (t.after (call.onList T t.list) (call.apply T (fun _ => s.vec.data) s))
    else none

end Tracked

namespace VecState

variable (T : ElementType α)

/-- The vector as the list `l`: its elements, its capacity, nothing else that lives in
memory, nothing destroyed twice or while it lives, and after the destructor everything
destroyed and given back once. -/
structure ListLike (s : VecState α) (l : List α) : Prop where
  elements : s.elements = l.map some
  size_le : s.vec.size ≤ s.vec.capacity
  capacity : s.vec.capacity = 0 ∨ ∃ k, s.vec.capacity = 2 ^ k
  slots : ∀ b i, (s.mem.cells b i).isSome ↔ s.vec.data = some b ∧ i < s.vec.size
  destroyed : s.mem.destroyed.Nodup
  alive : ∀ b i c, s.mem.cells b i = some c → c.id ∉ s.mem.destroyed
  destructor : ∃ m, s.destructor = some m ∧ (∀ e < m.nextObject, m.destroyed.count e = 1) ∧
    ∀ b < m.nextBuffer, m.freed.count b = 1

/-- The elements and what was destroyed are all the elements made, and the same of the
buffers. -/
structure Accounted (s : VecState α) (cs : List (Cell α)) : Prop where
  buffers : one s.vec.data + s.mem.freed = Multiset.range s.mem.nextBuffer
  objects : ids cs + s.mem.destroyed = Multiset.range s.mem.nextObject

section
variable {T : ElementType α} {s s' : VecState α} {cs cs' : List (Cell α)} {l : List α}

theorem Accounted.effect (h : Accounted s cs) (he : Effect s cs s' cs') : Accounted s' cs' where
  buffers := by
    have hb := he.buffers
    rw [h.buffers, add_comm (Multiset.range s.mem.nextBuffer)] at hb
    exact add_right_cancel hb
  objects := by
    have ho := he.objects
    rw [h.objects, add_comm (Multiset.range s.mem.nextObject)] at ho
    exact add_right_cancel ho

theorem count_one_of_range {l : List Nat} {n : Nat} (h : (l : Multiset Nat) = Multiset.range n) {a : Nat} (ha : a < n) :
    l.count a = 1 := by
  rw [← Multiset.coe_count, h]
  exact Multiset.count_eq_one_of_mem (Multiset.nodup_range n) (Multiset.mem_range.mpr ha)

theorem Holds.slots (h : Holds T s cs) (ha : Accounted s cs) (b i : Nat) :
    (s.mem.cells b i).isSome ↔ s.vec.data = some b ∧ i < s.vec.size := by
  constructor
  · intro hsome
    have hbytes : s.mem.bytes b ≠ none := by
      intro e
      rw [h.sound.raw b e] at hsome
      cases hsome
    obtain ⟨n, hn⟩ := Option.ne_none_iff_exists'.mp hbytes
    have hmem : b ∈ one s.vec.data + (s.mem.freed : Multiset Nat) := by
      rw [ha.buffers]
      exact Multiset.mem_range.mpr (h.sound.known b n hn)
    have hdata : s.vec.data = some b := by
      rcases Multiset.mem_add.mp hmem with hb | hb
      · exact mem_one.mp hb
      · exact absurd (h.sound.freed b (Multiset.mem_coe.mp hb)).2 hbytes
    rw [h.row.cells b hdata, isSome_getElem?] at hsome
    exact ⟨hdata, h.size ▸ hsome⟩
  · rintro ⟨hdata, hi⟩
    rw [h.row.cells b hdata, isSome_getElem?, ← h.size]
    exact hi

theorem Holds.listLike (h : Holds T s cs) (ha : Accounted s cs) : ListLike s (cs.map Cell.value) := by
  have hnodup : (ids cs + s.mem.destroyed).Nodup := ha.objects ▸ Multiset.nodup_range _
  obtain ⟨-, hdes, hdisj⟩ := Multiset.nodup_add.mp hnodup
  obtain ⟨s', hdel, hholds', heffect, hnull⟩ := destructor_spec h
  have ha' := ha.effect heffect
  refine
    { elements := h.elements
      size_le := h.size_le
      capacity := h.capacity
      slots := h.slots ha
      destroyed := Multiset.coe_nodup.mp hdes
      alive := ?_
      destructor := ⟨s'.mem, hdel, fun e he => ?_, fun b hb => ?_⟩ }
  · intro b i c hc hmem
    obtain ⟨hdata, hi⟩ := (h.slots ha b i).mp (hc ▸ rfl)
    rw [h.row.cells b hdata] at hc
    have hid : c.id ∈ ids cs := Multiset.mem_coe.mpr (List.mem_map_of_mem (List.mem_of_getElem? hc))
    exact Multiset.disjoint_left.mp hdisj hid (Multiset.mem_coe.mpr hmem)
  · have hobjects := ha'.objects
    rw [ids_nil, zero_add] at hobjects
    exact count_one_of_range hobjects he
  · have hbuffers := ha'.buffers
    rw [hnull, show one (none : Option Nat) + (s'.mem.freed : Multiset Nat) = s'.mem.freed from zero_add _] at hbuffers
    exact count_one_of_range hbuffers hb

end

end VecState

open VecState

/-! ## One call -/

section
variable {T : ElementType α} {s s' : VecState α} {cs : List (Cell α)} {l : List α} {call : VecCall Unit α}
  {args : Args Unit α}

theorem VecCall.onList_args (ha : call.args T = some args) (l : List α) : call.onList T l = args.appendTo l := by
  cases call with
  | pushBack obj oom => cases ha; rfl
  | pushBackMove obj oom => cases ha; rfl
  | emplaceBack args oom => cases ha; rfl
  | popBack => cases ha
  | clear => cases ha

/-- What one call leaves behind: the vector holds what the list says, or threw and stayed
as it was, or what it did had no meaning. -/
theorem apply_spec (h : Holds T s cs) (hrange : ∀ args ∈ call.args T, args.InRange fun _ => s.vec.size) :
    SelfGrowth T () s call ∧ call.apply T (fun _ => s.vec.data) s = .undefined ∨
    ¬ SelfGrowth T () s call ∧ (call.apply T (fun _ => s.vec.data) s = .threw s ∨
      ∃ s' cs', call.apply T (fun _ => s.vec.data) s = .done s' ∧ Holds T s' cs' ∧ Effect s cs s' cs' ∧
        cs'.map Cell.value = call.onList T (cs.map Cell.value) ∧ s.vec.capacity ≤ s'.vec.capacity) := by
  cases hargs : call.args T with
  | none =>
    have hnot : ¬ SelfGrowth T () s call := VecCall.not_selfGrowth (by simp [hargs])
    refine Or.inr ⟨hnot, Or.inr ?_⟩
    cases call with
    | popBack =>
      obtain ⟨s', hpop, hholds, heffect, hcap⟩ := popBack_spec h
      exact ⟨s', _, congrArg Outcome.ofOption hpop, hholds, heffect, List.map_dropLast, Nat.le_of_eq hcap.symm⟩
    | clear =>
      obtain ⟨s', hclear, hholds, heffect, hvec⟩ := clear_spec h
      exact ⟨s', _, congrArg Outcome.ofOption hclear, hholds, heffect, rfl, by rw [hvec]⟩
    | _ => cases hargs
  | some args =>
    have hin : args.InRange fun _ => s.vec.size := hrange args hargs
    rw [VecCall.apply_args hargs, VecCall.onList_args hargs]
    have hcalm := call.calm
    by_cases ho : OutOfMemory T call.throws s
    · refine Or.inr ⟨fun ha => ha.2.2 ho.2, Or.inl (emplaceBack_outOfMemory ho _)⟩
    · cases args with
      | outside x =>
        have hnot : ¬ SelfGrowth T () s call := VecCall.not_selfGrowth (by simp [hargs])
        exact Or.inr ⟨hnot, Or.inr (emplaceBack_outside h ho hcalm x)⟩
      | element p i make leave =>
        have hi : i < cs.length := h.size ▸ hin
        by_cases hfull : s.vec.size = s.vec.capacity
        · exact Or.inl ⟨⟨⟨i, make, leave, hargs⟩, hfull, fun hr => ho ⟨hfull, hr⟩⟩,
            emplaceBack_own_growing make leave h hfull ho hcalm⟩
        · obtain ⟨s', cs', hcall, hholds, heffect, hvalues, hcap⟩ :=
            emplaceBack_own make leave h hfull hcalm hi
          refine Or.inr ⟨fun ha => hfull ha.2.1, Or.inr ⟨s', cs', hcall, hholds, heffect, ?_, hcap⟩⟩
          show _ = (cs.map Cell.value ++ ((cs.map Cell.value)[i]?.map make).toList).modify i leave
          rw [hvalues, List.getElem?_map, List.getElem?_eq_getElem hi]
          rfl

end

/-! ## Runs -/

namespace Tracked

variable {T : ElementType α} {t t' : Tracked α} {call : VecCall Unit α}

def Good (t : Tracked α) : Prop := ∃ s, t.state = some s ∧ s.ListLike t.list

def KeepsCapacity (t t' : Tracked α) : Prop :=
  ∀ s s', t.state = some s → t'.state = some s' → s.vec.capacity ≤ s'.vec.capacity

def GrowsFromItself (T : ElementType α) (t : Tracked α) (call : VecCall Unit α) : Prop :=
  ∃ s, t.state = some s ∧ SelfGrowth T () s call

def Kept (T : ElementType α) (t : Tracked α) : Prop :=
  ∃ s cs, t.state = some s ∧ Holds T s cs ∧ Accounted s cs ∧ cs.map Cell.value = t.list

theorem Kept.good (h : Kept T t) : Good t := by
  obtain ⟨s, cs, hs, hholds, haccounted, hlist⟩ := h
  exact ⟨s, hs, hlist ▸ hholds.listLike haccounted⟩

theorem kept_init (T : ElementType α) : Kept T init :=
  ⟨VecState.init, [], rfl, holds_null sound_empty, ⟨rfl, rfl⟩, rfl⟩

theorem Kept.step (h : Kept T t) (hs : step T t call = some t') :
    (Good t' ∧ KeepsCapacity t t' ↔ ¬ GrowsFromItself T t call) ∧ (Good t' ∧ KeepsCapacity t t' → Kept T t') := by
  obtain ⟨s, cs, hstate, hholds, haccounted, hlist⟩ := h
  have hnotGrows : ¬ SelfGrowth T () s call → ¬ GrowsFromItself T t call := by
    rintro hnot ⟨s₁, hs₁, halias⟩
    cases hstate.symm.trans hs₁
    exact hnot halias
  unfold Tracked.step at hs
  rw [hstate, Option.bind_some] at hs
  split at hs
  · next hrange =>
    cases hs
    rcases apply_spec hholds hrange with ⟨halias, hcall⟩ | ⟨hnot, hcall | ⟨s', cs', hcall, hholds', heffect, hvalues, hcap⟩⟩
    · rw [hcall]
      have hbad : ¬ Good (t.after (call.onList T t.list) .undefined) := by
        rintro ⟨s', hs', -⟩
        cases hs'
      exact ⟨⟨fun hg => absurd hg.1 hbad, fun hnot => absurd ⟨s, hstate, halias⟩ hnot⟩, fun hg => absurd hg.1 hbad⟩
    · rw [hcall]
      have hkept : Kept T (t.after (call.onList T t.list) (.threw s)) := ⟨s, cs, rfl, hholds, haccounted, hlist⟩
      have hcapacity : KeepsCapacity t (t.after (call.onList T t.list) (.threw s)) := by
        intro s₁ s₂ h₁ h₂
        cases hstate.symm.trans h₁
        cases h₂
        exact Nat.le_refl _
      exact ⟨⟨fun _ => hnotGrows hnot, fun _ => ⟨hkept.good, hcapacity⟩⟩, fun _ => hkept⟩
    · rw [hcall]
      have hkept : Kept T (t.after (call.onList T t.list) (.done s')) :=
        ⟨s', cs', rfl, hholds', haccounted.effect heffect, hlist ▸ hvalues⟩
      have hcapacity : KeepsCapacity t (t.after (call.onList T t.list) (.done s')) := by
        intro s₁ s₂ h₁ h₂
        cases hstate.symm.trans h₁
        cases h₂
        exact hcap
      exact ⟨⟨fun _ => hnotGrows hnot, fun _ => ⟨hkept.good, hcapacity⟩⟩, fun _ => hkept⟩
  · cases hs

/-- **A vector is a list.** In a run the vector is the list after every call, and its
capacity never becomes less, if and only if no call grows it from one of its own
elements. -/
theorem good_iff_noSelfGrowth (T : ElementType α) (calls : List (VecCall Unit α)) :
    Good (init : Tracked α) ∧ Along (step T) (fun t _ t' => Good t' ∧ KeepsCapacity t t') init calls ↔
      Along (step T) (fun t call _ => ¬ GrowsFromItself T t call) init calls := by
  have hiff : Along (step T) (fun t _ t' => Good t' ∧ KeepsCapacity t t') init calls ↔
      Along (step T) (fun t call _ => ¬ GrowsFromItself T t call) init calls :=
    along_iff (U := fun _ => True) (fun _ _ _ hk _ hs => hk.step hs) (fun _ _ => trivial) (kept_init T)
  exact ⟨fun h => hiff.mp h.2, fun h => ⟨(kept_init T).good, hiff.mpr h⟩⟩

/-- `auto &x = v.emplace_back(5)` and `v.push_back(x)`: the second call reads `x` after it
was destroyed. -/
theorem pushBack_self_undefined : ¬ ∀ (T : ElementType Int) (calls : List (VecCall Unit Int)),
    Good (init : Tracked Int) ∧ Along (step T) (fun t _ t' => Good t' ∧ KeepsCapacity t t') init calls := by
  intro h
  obtain ⟨-, hrun⟩ := h ElementType.int [.emplaceBack (.outside 5) false, .pushBack (.element () 0) false]
  obtain ⟨-, hrun⟩ := hrun _ rfl
  obtain ⟨⟨⟨s, hs, -⟩, -⟩, -⟩ := hrun _ rfl
  cases hs

end Tracked

end LearningC
