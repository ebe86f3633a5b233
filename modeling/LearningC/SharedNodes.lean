import LearningC.Custody
import LearningC.Fuel
import LearningC.SharedPtr

/-!
# Objects with shared_ptr_ members

Objects of a type with `k` members `shared_ptr_` to its own kind. When the last handle of an
object is released, the destructor of the object runs those of its members, which may be the
last handles of further objects.
-/

namespace LearningC

open Custody Fuel

/-- A variable, or a member of an object. -/
inductive SharedHandle (k : Nat)
  | var (v : Nat)
  | member (o : Nat) (i : Fin k)
  deriving DecidableEq, Repr

/-- `counts` has the control blocks that exist; `fault` tells whether something was used that
had been deleted. -/
structure SharedNodes (k : Nat) where
  live : Finset (SharedHandle k)
  fields : SharedHandle k → SharedPtr
  objects : Finset Nat
  counts : Nat → Option Int
  fault : Bool

namespace SharedNodes

variable {k : Nat}

def touch (h : SharedHandle k) (s : SharedNodes k) : SharedNodes k :=
  if h ∈ s.live then s else { s with fault := true }

def setCount (b : Nat) (c : Option Int) (s : SharedNodes k) : SharedNodes k :=
  { s with counts := Function.update s.counts b c }

def setFields (h : SharedHandle k) (x : SharedPtr) (s : SharedNodes k) : SharedNodes k :=
  { s with fields := Function.update s.fields h x }

/-- The destructors of the members, in the reverse of their order; `release` is what each runs. -/
def destroyMembers (release : SharedHandle k → SharedNodes k → Option (SharedNodes k)) (o : Nat)
    (s : SharedNodes k) : Option (SharedNodes k) :=
  (List.finRange k).reverse.foldlM (fun s i =>
    (release (.member o i) s).map fun s => { s with live := s.live.erase (.member o i) }) s

def deleteObject (release : SharedHandle k → SharedNodes k → Option (SharedNodes k)) (p : Option Nat)
    (s : SharedNodes k) : Option (SharedNodes k) :=
  match p with
  | none => some s
  | some o =>
    if o ∈ s.objects then (destroyMembers release o s).map fun s => { s with objects := s.objects.erase o }
    else some { s with fault := true }

/-- `delete ref_count` reads the field once more, after the destructor of the object. -/
def release : Nat → SharedHandle k → SharedNodes k → Option (SharedNodes k)
  | 0, _, _ => none
  | fuel + 1, h, s =>
    let s := s.touch h
    match (s.fields h).refCount with
    | none => some s
    | some b => match s.counts b with
      | none => some { s with fault := true }
      | some c =>
        let c := atomicInt (c - 1)
        let s := s.setCount b (some c)
        if c = 0 then (deleteObject (release fuel) (s.fields h).ptr s).map fun s => (s.touch h).setCount b none
        else some s

def addRef (h : SharedHandle k) (s : SharedNodes k) : SharedNodes k :=
  match (s.fields h).refCount with
  | none => s
  | some b => match s.counts b with
    | none => { s with fault := true }
    | some c => s.setCount b (some (atomicInt (c + 1)))

def copyAssign (fuel : Nat) (h p : SharedHandle k) (s : SharedNodes k) : Option (SharedNodes k) :=
  if h ≠ p then do
    let s ← release fuel h s
    let s := (s.touch p).touch h
    some ((s.setFields h (s.fields p)).addRef h)
  else some s

def useCount (s : SharedNodes k) (h : SharedHandle k) : Int :=
  match (s.fields h).refCount with
  | none => 0
  | some b => (s.counts b).getD 0

/-- The live handles on a control block, members of live objects included. -/
def refs (s : SharedNodes k) (b : Nat) : Nat := (held s.live fun h => one (s.fields h).refCount).count b

/-- Every counter holds the number of its handles, which an `int` can hold; no live handle
points to a deleted object, and handles have an object in common exactly when they have a
counter in common. -/
structure WellFormed (s : SharedNodes k) : Prop where
  fault : s.fault = false
  members : ∀ o i, .member o i ∈ s.live ↔ o ∈ s.objects
  counts : ∀ b, s.counts b = if s.refs b = 0 then none else some (s.refs b : Int)
  int : ∀ b, s.refs b ≤ 2 ^ 31 - 1
  alive : ∀ h ∈ s.live, ∀ o, (s.fields h).ptr = some o → o ∈ s.objects ∧ (s.fields h).refCount ≠ none
  sameObject : ∀ h ∈ s.live, ∀ p ∈ s.live, ∀ b, (s.fields h).refCount = some b → (s.fields p).refCount = some b →
    (s.fields h).ptr = (s.fields p).ptr
  sameCount : ∀ h ∈ s.live, ∀ p ∈ s.live, ∀ o, (s.fields h).ptr = some o → (s.fields p).ptr = some o →
    (s.fields h).refCount = (s.fields p).refCount

/-- What `h = m` is for: `h` refers to the object that `m` referred to, which is alive, in a
heap that is well formed again. -/
structure TakesOver (s : SharedNodes k) (h m : SharedHandle k) (s' : SharedNodes k) : Prop where
  object : (s'.fields h).ptr = (s.fields m).ptr
  alive : ∀ o, (s.fields m).ptr = some o → o ∈ s'.objects
  wellFormed : WellFormed s'

/-! ## What a release leaves -/

/-- Handles go, and a fault stays. -/
structure Shrinks (s s' : SharedNodes k) : Prop where
  live : s'.live ⊆ s.live
  fault : s.fault = true → s'.fault = true

section
variable {s s' s'' : SharedNodes k} {h m : SharedHandle k} {o b fuel : Nat} {c : Option Int} {x : SharedPtr} {i : Fin k}

theorem Shrinks.refl (s : SharedNodes k) : Shrinks s s := ⟨fun _ h => h, id⟩

theorem Shrinks.trans (h : Shrinks s s') (h' : Shrinks s' s'') : Shrinks s s'' :=
  ⟨fun _ hh => h.live (h'.live hh), fun hf => h'.fault (h.fault hf)⟩

theorem shrinks_touch (h : SharedHandle k) (s : SharedNodes k) : Shrinks s (s.touch h) := by
  unfold touch
  split
  · exact Shrinks.refl s
  · exact ⟨fun _ hh => hh, fun _ => rfl⟩

theorem shrinks_fault (s : SharedNodes k) : Shrinks s { s with fault := true } := ⟨fun _ h => h, fun _ => rfl⟩

theorem shrinks_setCount : Shrinks s (s.setCount b c) := ⟨fun _ h => h, id⟩

section
variable {release : SharedHandle k → SharedNodes k → Option (SharedNodes k)}
  (hr : ∀ h s s', release h s = some s' → Shrinks s s')
include hr

theorem destroyMembers_spec (hd : destroyMembers release o s = some s') :
    Shrinks s s' ∧ ∀ i, .member o i ∉ s'.live := by
  have hstep : ∀ (s : SharedNodes k) (i : Fin k) (s' : SharedNodes k),
      (release (.member o i) s).map (fun s => { s with live := s.live.erase (.member o i) }) = some s' →
      Shrinks s s' ∧ .member o i ∉ s'.live := by
    intro s i s' hs
    obtain ⟨s₁, hs₁, rfl⟩ := Option.map_eq_some_iff.mp hs
    have hshrinks := hr _ _ _ hs₁
    exact ⟨⟨fun _ hh => hshrinks.live (Finset.mem_of_mem_erase hh), hshrinks.fault⟩, Finset.notMem_erase _ _⟩
  obtain ⟨hshrinks, hall⟩ := foldlM_steps Shrinks.refl Shrinks.trans (fun s i s' hs => (hstep s i s' hs).1) _ _ _ hd
  refine ⟨hshrinks, fun i hi => ?_⟩
  obtain ⟨s₁, s₂, hs₂, hrest⟩ := hall i (by simp)
  exact (hstep s₁ i s₂ hs₂).2 (hrest.live hi)

theorem shrinks_deleteObject {p : Option Nat} (hd : deleteObject release p s = some s') : Shrinks s s' := by
  unfold deleteObject at hd
  split at hd
  · cases hd
    exact Shrinks.refl s
  · split at hd
    · obtain ⟨s₁, hs₁, rfl⟩ := Option.map_eq_some_iff.mp hd
      obtain ⟨hshrinks, -⟩ := destroyMembers_spec hr hs₁
      exact ⟨hshrinks.live, hshrinks.fault⟩
    · cases hd
      exact shrinks_fault s

theorem deleteObject_members (hd : deleteObject release (some o) s = some s') :
    s'.fault = true ∨ ∀ i, .member o i ∉ s'.live := by
  unfold deleteObject at hd
  simp only at hd
  split at hd
  · obtain ⟨s₁, hs₁, rfl⟩ := Option.map_eq_some_iff.mp hd
    exact Or.inr (destroyMembers_spec hr hs₁).2
  · cases hd
    exact Or.inl rfl

end

theorem shrinks_release : ∀ (fuel : Nat) (h : SharedHandle k) (s s' : SharedNodes k),
    release fuel h s = some s' → Shrinks s s'
  | 0, _, _, _, hr => by cases hr
  | fuel + 1, h, s, s', hr => by
    unfold release at hr
    refine (shrinks_touch h s).trans ?_
    simp only at hr
    split at hr
    · cases hr
      exact Shrinks.refl _
    · split at hr
      · cases hr
        exact shrinks_fault _
      · split at hr
        · obtain ⟨s₁, hs₁, rfl⟩ := Option.map_eq_some_iff.mp hr
          have hdelete := shrinks_deleteObject (shrinks_release fuel) hs₁
          exact shrinks_setCount.trans (hdelete.trans ((shrinks_touch h s₁).trans shrinks_setCount))
        · cases hr
          exact shrinks_setCount

theorem touch_of_mem (hl : h ∈ s.live) : s.touch h = s := if_pos hl

theorem touch_of_notMem (hl : h ∉ s.live) : (s.touch h).fault = true := by
  unfold touch
  rw [if_neg hl]

theorem release_last (hl : h ∈ s.live) (ho : (s.fields h).ptr = some o) (hb : (s.fields h).refCount = some b)
    (hc : s.counts b = some 1) (hr : release fuel h s = some s') : s'.fault = true ∨ ∀ i, .member o i ∉ s'.live := by
  cases fuel with
  | zero => cases hr
  | succ fuel =>
    have h0 : atomicInt (1 - 1) = 0 := rfl
    unfold release at hr
    simp only [touch_of_mem hl, hb, hc, h0, ite_true] at hr
    obtain ⟨s₁, hs₁, rfl⟩ := Option.map_eq_some_iff.mp hr
    have hs₁' : deleteObject (release fuel) (some o) (s.setCount b (some 0)) = some s₁ := ho ▸ hs₁
    have htouch := shrinks_touch h s₁
    rcases deleteObject_members (shrinks_release fuel) hs₁' with hf | hm
    · exact Or.inl (htouch.fault hf)
    · exact Or.inr fun i hi => hm i (htouch.live hi)

theorem release_shared {n : Nat} (hl : h ∈ s.live) (hb : (s.fields h).refCount = some b)
    (hc : s.counts b = some ((n + 1 : Nat) : Int)) (hn : n ≠ 0) (hle : n ≤ 2 ^ 31 - 1) :
    release (fuel + 1) h s = some (s.setCount b (some n)) := by
  have hatomic : atomicInt (((n + 1 : Nat) : Int) - 1) = n := by
    rw [Int.natCast_succ, Int.add_sub_cancel]
    exact atomicInt_of_le hle
  unfold release
  simp only [touch_of_mem hl, hb, hc, hatomic]
  rw [if_neg (by omega)]

theorem addRef_fault (hf : s.fault = true) : (s.addRef h).fault = true := by
  unfold addRef
  split
  · exact hf
  · split
    · rfl
    · exact hf

theorem frame_addRef (h : SharedHandle k) (s : SharedNodes k) : (s.addRef h).live = s.live ∧
    (s.addRef h).fields = s.fields ∧ (s.addRef h).objects = s.objects := by
  unfold addRef
  split
  · exact ⟨rfl, rfl, rfl⟩
  · split
    · exact ⟨rfl, rfl, rfl⟩
    · exact ⟨rfl, rfl, rfl⟩

/-- The member is read after it has been destroyed. -/
theorem copyAssign_last (hl : h ∈ s.live) (ho : (s.fields h).ptr = some o) (hb : (s.fields h).refCount = some b)
    (hc : s.counts b = some 1) (hne : h ≠ .member o i) (hr : copyAssign fuel h (.member o i) s = some s') :
    s'.fault = true := by
  unfold copyAssign at hr
  rw [if_pos hne] at hr
  obtain ⟨s₁, hs₁, hs'⟩ := Option.bind_eq_some_iff.mp hr
  cases hs'
  have hread : (s₁.touch (.member o i)).fault = true := by
    rcases release_last hl ho hb hc hs₁ with hf | hm
    · exact (shrinks_touch _ _).fault hf
    · exact touch_of_notMem (hm i)
  have htouch := (shrinks_touch h _).fault hread
  exact addRef_fault htouch

end

/-! ## A handle that shares its object -/

structure Tallied (r : Nat → Nat) (s : SharedNodes k) : Prop where
  fault : s.fault = false
  counts : ∀ b, s.counts b = if r b = 0 then none else some (r b : Int)

section
variable {s s' : SharedNodes k} {h m : SharedHandle k} {r : Nat → Nat} {o b n : Nat} {x : SharedPtr}

theorem Tallied.setCount (ht : Tallied r s) (hn : n ≠ 0) : Tallied (Function.update r b n) (s.setCount b (some n)) := by
  refine ⟨ht.fault, fun b' => ?_⟩
  show Function.update s.counts b (some n) b' = _
  by_cases e : b' = b
  · rw [e, Function.update_self, Function.update_self, if_neg hn]
  · rw [Function.update_of_ne e, Function.update_of_ne e]
    exact ht.counts b'

theorem Tallied.addRef (ht : Tallied r s) (hb : (s.fields h).refCount = some b) (hr : r b ≠ 0)
    (hle : r b + 1 ≤ 2 ^ 31 - 1) : Tallied (Function.update r b (r b + 1)) (s.addRef h) := by
  have hc : s.counts b = some (r b : Int) := by
    rw [ht.counts, if_neg hr]
  have hatomic : atomicInt ((r b : Int) + 1) = ((r b + 1 : Nat) : Int) := atomicInt_of_le hle
  unfold SharedNodes.addRef
  simp only [hb, hc, hatomic]
  exact ht.setCount (Nat.succ_ne_zero _)

theorem refs_update (hl : h ∈ s.live) (hlive : s'.live = s.live) (hfields : s'.fields = Function.update s.fields h x)
    (b : Nat) : (if (s.fields h).refCount = some b then 1 else 0) + s'.refs b =
      (if x.refCount = some b then 1 else 0) + s.refs b := by
  have hheld := held_update (fun x : SharedPtr => one x.refCount) s.fields x hl
  have hcount := congrArg (Multiset.count b) hheld
  rw [Multiset.count_add, Multiset.count_add, count_one, count_one] at hcount
  unfold refs
  rw [hlive, hfields]
  exact hcount

theorem refs_ne_zero (hl : h ∈ s.live) (hb : (s.fields h).refCount = some b) : s.refs b ≠ 0 := by
  have hmem : b ∈ held s.live fun h => one (s.fields h).refCount := mem_held.mpr ⟨h, hl, mem_one.mpr hb⟩
  exact (Multiset.count_pos.mpr hmem).ne'

theorem WellFormed.tallied (hw : WellFormed s) : Tallied s.refs s := ⟨hw.fault, hw.counts⟩

/-- The state after `h = m` where `h` shares its object. -/
def assigned (s : SharedNodes k) (h m : SharedHandle k) (b n : Nat) : SharedNodes k :=
  ((s.setCount b (some n)).setFields h (s.fields m)).addRef h

theorem copyAssign_shared (hw : WellFormed s) (hl : h ∈ s.live) (hm : m ∈ s.live) (hne : h ≠ m)
    (hb : (s.fields h).refCount = some b) (hr : s.refs b = n + 1) (hn : n ≠ 0) :
    Ends (fun fuel => copyAssign fuel h m s) (s.assigned h m b n) := by
  have hle := hw.int b
  have hc : s.counts b = some ((n + 1 : Nat) : Int) := by
    rw [hw.counts, if_neg (by omega), hr]
  refine Ends.succ ⟨0, fun fuel _ => ?_⟩
  show copyAssign (fuel + 1) h m s = _
  unfold copyAssign
  rw [if_pos hne, release_shared hl hb hc hn (by omega)]
  have hl' : h ∈ (s.setCount b (some n)).live := hl
  have hm' : m ∈ (s.setCount b (some n)).live := hm
  show some ((((s.setCount b (some n)).touch m).touch h).setFields h _ |>.addRef h) = _
  rw [touch_of_mem hm', touch_of_mem hl']
  rfl

theorem refs_assigned (hl : h ∈ s.live) (b' : Nat) : (if (s.fields h).refCount = some b' then 1 else 0) +
    (s.assigned h m b n).refs b' = (if (s.fields m).refCount = some b' then 1 else 0) + s.refs b' := by
  obtain ⟨hlive, hfields, -⟩ := frame_addRef h ((s.setCount b (some n)).setFields h (s.fields m))
  exact refs_update hl hlive hfields b'

theorem Tallied.congr {r' : Nat → Nat} (ht : Tallied r s) (e : ∀ b, r' b = r b) : Tallied r' s := by
  rwa [show r' = r from funext e]

theorem refs_released (hb : (s.fields h).refCount = some b) (hr : s.refs b = n + 1) (b' : Nat) :
    (if (s.fields h).refCount = some b' then 1 else 0) + Function.update s.refs b n b' = s.refs b' := by
  rw [hb]
  by_cases e : b' = b
  · rw [e, Function.update_self, if_pos rfl, hr, Nat.add_comm]
  · rw [Function.update_of_ne e, if_neg fun h => e (Option.some.inj h).symm, Nat.zero_add]

theorem released_bounds (hw : WellFormed s) (hm : m ∈ s.live) (hr : s.refs b = n + 1) (hn : n ≠ 0) {b₁ : Nat}
    (hmb : (s.fields m).refCount = some b₁) (hfit : b₁ = b ∨ s.refs b₁ < 2 ^ 31 - 1) :
    Function.update s.refs b n b₁ ≠ 0 ∧ Function.update s.refs b n b₁ + 1 ≤ 2 ^ 31 - 1 := by
  have hle := hw.int b
  by_cases e : b₁ = b
  · rw [e, Function.update_self]
    exact ⟨hn, by omega⟩
  · have hlt := hfit.resolve_left e
    rw [Function.update_of_ne e]
    exact ⟨refs_ne_zero hm hmb, by omega⟩

theorem tallied_assigned (hw : WellFormed s) (hl : h ∈ s.live) (hm : m ∈ s.live)
    (hb : (s.fields h).refCount = some b) (hr : s.refs b = n + 1) (hn : n ≠ 0)
    (hfit : ∀ b', (s.fields m).refCount = some b' → b' = b ∨ s.refs b' < 2 ^ 31 - 1) :
    Tallied (s.assigned h m b n).refs (s.assigned h m b n) := by
  have hset : Tallied (Function.update s.refs b n) ((s.setCount b (some n)).setFields h (s.fields m)) := by
    have ht := hw.tallied.setCount (b := b) hn
    exact ⟨ht.fault, ht.counts⟩
  have hself : ((s.setCount b (some n)).setFields h (s.fields m)).fields h = s.fields m := Function.update_self ..
  cases hmb : (s.fields m).refCount with
  | none =>
    have he : s.assigned h m b n = (s.setCount b (some n)).setFields h (s.fields m) := by
      unfold assigned SharedNodes.addRef
      rw [hself, hmb]
    rw [he]
    refine hset.congr fun b' => ?_
    have hnew := refs_assigned (m := m) (b := b) (n := n) hl b'
    have hold := refs_released hb hr b'
    rw [he, hmb, if_neg (Option.some_ne_none b').symm] at hnew
    omega
  | some b₁ =>
    obtain ⟨hne, hadd⟩ := released_bounds hw hm hr hn hmb (hfit b₁ hmb)
    refine (hset.addRef (by rw [hself, hmb]) hne hadd).congr fun b' => ?_
    have hnew := refs_assigned (m := m) (b := b) (n := n) hl b'
    have hold := refs_released hb hr b'
    rw [hmb] at hnew
    by_cases e : b' = b₁
    · rw [e] at hnew hold ⊢
      rw [if_pos rfl] at hnew
      rw [Function.update_self]
      omega
    · rw [if_neg fun h => e (Option.some.inj h).symm] at hnew
      rw [Function.update_of_ne e]
      omega

theorem fields_assigned (hm : m ∈ s.live) {p : SharedHandle k} (hp : p ∈ (s.assigned h m b n).live) :
    ∃ q ∈ s.live, (s.assigned h m b n).fields p = s.fields q := by
  obtain ⟨hlive, hfields, -⟩ := frame_addRef h ((s.setCount b (some n)).setFields h (s.fields m))
  have hp' : p ∈ s.live := hlive ▸ hp
  have heq : (s.assigned h m b n).fields p = Function.update s.fields h (s.fields m) p := congrFun hfields p
  by_cases e : p = h
  · refine ⟨m, hm, ?_⟩
    rw [heq, e, Function.update_self]
  · refine ⟨p, hp', ?_⟩
    rw [heq, Function.update_of_ne e]

theorem wellFormed_assigned (hw : WellFormed s) (hl : h ∈ s.live) (hm : m ∈ s.live)
    (hb : (s.fields h).refCount = some b) (hr : s.refs b = n + 1) (hn : n ≠ 0)
    (hfit : ∀ b', (s.fields m).refCount = some b' → b' = b ∨ s.refs b' < 2 ^ 31 - 1) :
    WellFormed (s.assigned h m b n) := by
  have ht := tallied_assigned hw hl hm hb hr hn hfit
  obtain ⟨hlive, -, hobjects⟩ := frame_addRef h ((s.setCount b (some n)).setFields h (s.fields m))
  have hold : ∀ p ∈ (s.assigned h m b n).live, ∃ q ∈ s.live, (s.assigned h m b n).fields p = s.fields q :=
    fun p hp => fields_assigned hm hp
  refine ⟨ht.fault, fun o i => ?_, ht.counts, fun b' => ?_, fun p hp o ho => ?_, fun p hp q hq b' hpb hqb => ?_,
    fun p hp q hq o hpo hqo => ?_⟩
  · show _ ∈ (SharedNodes.addRef _ _).live ↔ o ∈ (SharedNodes.addRef _ _).objects
    rw [hlive, hobjects]
    exact hw.members o i
  · have hrefs := refs_assigned (m := m) (b := b) (n := n) hl b'
    have hle := hw.int b'
    by_cases hmb : (s.fields m).refCount = some b'
    · rcases hfit b' hmb with rfl | hlt
      · rw [if_pos hb, if_pos hmb] at hrefs
        omega
      · rw [if_pos hmb] at hrefs
        omega
    · rw [if_neg hmb] at hrefs
      omega
  · obtain ⟨p', hp', hpe⟩ := hold p hp
    rw [hpe] at ho ⊢
    show o ∈ (SharedNodes.addRef _ _).objects ∧ _
    rw [hobjects]
    exact hw.alive p' hp' o ho
  · obtain ⟨p', hp', hpe⟩ := hold p hp
    obtain ⟨q', hq', hqe⟩ := hold q hq
    rw [hpe] at hpb ⊢
    rw [hqe] at hqb ⊢
    exact hw.sameObject p' hp' q' hq' b' hpb hqb
  · obtain ⟨p', hp', hpe⟩ := hold p hp
    obtain ⟨q', hq', hqe⟩ := hold q hq
    rw [hpe] at hpo ⊢
    rw [hqe] at hqo ⊢
    exact hw.sameCount p' hp' q' hq' o hpo hqo

theorem takesOver_assigned (hw : WellFormed s) (hl : h ∈ s.live) (hm : m ∈ s.live)
    (hb : (s.fields h).refCount = some b) (hr : s.refs b = n + 1) (hn : n ≠ 0)
    (hfit : ∀ b', (s.fields m).refCount = some b' → b' = b ∨ s.refs b' < 2 ^ 31 - 1) :
    TakesOver s h m (s.assigned h m b n) := by
  obtain ⟨-, hfields, hobjects⟩ := frame_addRef h ((s.setCount b (some n)).setFields h (s.fields m))
  refine ⟨?_, fun o ho => ?_, wellFormed_assigned hw hl hm hb hr hn hfit⟩
  · show ((SharedNodes.addRef _ _).fields h).ptr = _
    rw [hfields]
    exact congrArg SharedPtr.ptr (Function.update_self ..)
  · show o ∈ (SharedNodes.addRef _ _).objects
    rw [hobjects]
    exact (hw.alive m hm o ho).1

/-- A counter that is full overflows. -/
theorem fits_of_takesOver (hl : h ∈ s.live) (hb : (s.fields h).refCount = some b)
    (ht : TakesOver s h m (s.assigned h m b n)) {b' : Nat} (hmb : (s.fields m).refCount = some b') :
    b' = b ∨ s.refs b' < 2 ^ 31 - 1 := by
  by_contra hno
  obtain ⟨hne, hfull⟩ := not_or.mp hno
  have hrefs := refs_assigned (m := m) (b := b) (n := n) hl b'
  rw [if_pos hmb, if_neg fun h => hne (Option.some.inj (h.symm.trans hb))] at hrefs
  have hle := ht.wellFormed.int b'
  omega

theorem useCount_eq (hw : WellFormed s) (hl : h ∈ s.live) (hb : (s.fields h).refCount = some b) :
    s.useCount h = s.refs b := by
  unfold useCount
  simp only [hb]
  rw [hw.counts, if_neg (refs_ne_zero hl hb)]
  rfl

end

/-- `h` is `m` itself, or shares its object with another handle, and the counter of the object
that `m` refers to can take one more. -/
def Keeps (s : SharedNodes k) (h m : SharedHandle k) : Prop :=
  h = m ∨ 2 ≤ s.useCount h ∧ ((s.fields m).refCount = (s.fields h).refCount ∨ s.useCount m < 2 ^ 31 - 1)

section
variable {s s' : SharedNodes k} {h m : SharedHandle k} {o b n : Nat}

theorem fits_iff (hw : WellFormed s) (hm : m ∈ s.live) (hb : (s.fields h).refCount = some b) :
    ((s.fields m).refCount = (s.fields h).refCount ∨ s.useCount m < 2 ^ 31 - 1) ↔
      ∀ b', (s.fields m).refCount = some b' → b' = b ∨ s.refs b' < 2 ^ 31 - 1 := by
  rw [hb]
  cases hmb : (s.fields m).refCount with
  | none =>
    have hcount : s.useCount m = 0 := by
      unfold useCount
      rw [hmb]
    rw [hcount]
    simp
  | some b' =>
    rw [useCount_eq hw hm hmb]
    simp only [Option.some.injEq, forall_eq']
    omega

theorem not_takesOver_last (hw : WellFormed s) (hl : h ∈ s.live) (ho : (s.fields h).ptr = some o)
    (hb : (s.fields h).refCount = some b) (hr : s.refs b = 1) {i : Fin k} (hne : h ≠ .member o i)
    (hends : Ends (fun fuel => copyAssign fuel h (.member o i) s) s') : ¬ TakesOver s h (.member o i) s' := by
  intro ht
  have hc : s.counts b = some 1 := by
    rw [hw.counts, hr]
    rfl
  obtain ⟨fuel, hrun⟩ := hends
  have hfault := copyAssign_last hl ho hb hc hne (hrun fuel (Nat.le_refl _))
  cases hfault.symm.trans ht.wellFormed.fault

end

/-- **Assignment from a member.** `h = m`, with `m` a member of the object of `h`, takes over
the object of `m` in a well-formed heap if and only if `h` is not the last handle of its
object, or is `m`, and the counter does not overflow. -/
theorem takesOver_iff_keeps {s : SharedNodes k} {h : SharedHandle k} {o : Nat} (hw : WellFormed s) (hl : h ∈ s.live)
    (ho : (s.fields h).ptr = some o) (i : Fin k) :
    (∃ s', Ends (fun fuel => copyAssign fuel h (.member o i) s) s' ∧ TakesOver s h (.member o i) s') ↔
      Keeps s h (.member o i) := by
  obtain ⟨hobject, hcount⟩ := hw.alive h hl o ho
  obtain ⟨b, hb⟩ := Option.ne_none_iff_exists'.mp hcount
  have hm : .member o i ∈ s.live := (hw.members o i).mpr hobject
  by_cases hne : h = .member o i
  · refine iff_of_true ⟨s, ⟨0, fun fuel _ => ?_⟩, ?_⟩ (Or.inl hne)
    · show copyAssign fuel h _ s = some s
      unfold copyAssign
      rw [if_neg (not_not.mpr hne)]
    · exact ⟨by rw [← hne], fun o' ho' => (hw.alive _ hm o' ho').1, hw⟩
  · obtain ⟨n, hr⟩ := Nat.exists_eq_add_one_of_ne_zero (refs_ne_zero hl hb)
    have huse := useCount_eq hw hl hb
    unfold Keeps
    rw [or_iff_right hne, fits_iff hw hm hb, huse, hr]
    by_cases hn : n = 0
    · -- the last handle: the member goes with its object
      subst hn
      refine iff_of_false ?_ fun hk => ?_
      · rintro ⟨s', hends, ht⟩
        exact not_takesOver_last hw hl ho hb hr hne hends ht
      · have h2 := hk.1
        omega
    · have hends := copyAssign_shared hw hl hm hne hb hr hn
      constructor
      · rintro ⟨s', hends', ht⟩
        obtain rfl := hends.unique hends'
        exact ⟨by omega, fun b' hmb => fits_of_takesOver hl hb ht hmb⟩
      · rintro ⟨-, hfit⟩
        exact ⟨_, hends, takesOver_assigned hw hl hm hb hr hn hfit⟩

def varHandle : Nat ↪ SharedHandle 1 := ⟨.var, fun _ _ h => SharedHandle.var.inj h⟩

/-- One object whose member is empty, with `n` variables. -/
def oneNode (n : Nat) : SharedNodes 1 where
  live := insert (.member 0 (Fin.last 0)) ((Finset.range n).map varHandle)
  fields
    | .var _ => ⟨some 0, some 0⟩
    | .member _ _ => ⟨none, none⟩
  objects := {0}
  counts := fun b => if b = 0 then some (n : Int) else none
  fault := false

theorem refs_oneNode (n b : Nat) : (oneNode n).refs b = if b = 0 then n else 0 := by
  have hnew : SharedHandle.member 0 (Fin.last 0) ∉ (Finset.range n).map varHandle := by simp [varHandle]
  unfold refs held oneNode
  rw [Multiset.count_sum', Finset.sum_insert hnew, Finset.sum_map]
  show (one none).count b + ∑ _v ∈ Finset.range n, (one (some 0)).count b = _
  rw [count_one, count_one, Finset.sum_const, Finset.card_range, Nat.nsmul_eq_mul]
  simp [eq_comm]

theorem wellFormed_oneNode {n : Nat} (hn : n ≠ 0) (hle : n ≤ 2 ^ 31 - 1) : WellFormed (oneNode n) := by
  refine ⟨rfl, fun o i => ?_, fun b => ?_, fun b => ?_, ?_, ?_, ?_⟩
  · obtain rfl : i = 0 := Subsingleton.elim i 0
    simp [oneNode, varHandle]
  · rw [refs_oneNode]
    by_cases e : b = 0
    · simp [oneNode, e, hn]
    · simp [oneNode, e]
  · rw [refs_oneNode]
    split
    · exact hle
    · omega
  · rintro (v | ⟨o', i⟩) - o ho
    · cases ho
      exact ⟨Finset.mem_singleton_self 0, by simp [oneNode]⟩
    · cases ho
  · rintro (v | ⟨o, i⟩) - (w | ⟨o', i'⟩) - b hv hw
    · rfl
    · cases hw
    · cases hv
    · rfl
  · rintro (v | ⟨o, i⟩) - (w | ⟨o', i'⟩) - b hv hw
    · rfl
    · cases hw
    · cases hv
    · rfl

theorem takesOver_iff_keeps_two : ∃ s', Ends (fun fuel => copyAssign fuel (.var 0) (.member 0 0) (oneNode 2)) s' ∧
    TakesOver (oneNode 2) (.var 0) (.member 0 0) s' :=
  (takesOver_iff_keeps (wellFormed_oneNode (by decide) (by decide)) (by decide) rfl 0).mpr
    (Or.inr ⟨by decide, Or.inr (by decide)⟩)

/-- The last handle of an object, assigned the member of the object. -/
theorem member_lost : ¬ ∀ (k : Nat) (s : SharedNodes k) (h : SharedHandle k) (o : Nat) (i : Fin k), WellFormed s →
    h ∈ s.live → (s.fields h).ptr = some o →
    ∃ s', Ends (fun fuel => copyAssign fuel h (.member o i) s) s' ∧ TakesOver s h (.member o i) s' := by
  intro hall
  have hw : WellFormed (oneNode 1) := wellFormed_oneNode (by decide) (by decide)
  have hl : SharedHandle.var 0 ∈ (oneNode 1).live := by decide
  obtain ⟨s', hends, ht⟩ := hall 1 (oneNode 1) (.var 0) 0 0 hw hl rfl
  exact not_takesOver_last hw hl rfl rfl (refs_oneNode 1 0) (by simp) hends ht

end SharedNodes

end LearningC
