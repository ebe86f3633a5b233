import LearningC.SharedPtr
import LearningC.Runs

/-!
# Counters and live handles

As long as a counter can hold the number of its handles, it is that number, and what it
guards is deleted once, by the step that takes the last handle away.
-/

namespace LearningC

open Runs

namespace SharedHeap

def refs (s : SharedHeap) (b : Nat) : Nat := (s.live.filter fun h => (s.fields h).refCount = some b).card

/-- What the counters say about the live handles, and what has been deleted. -/
structure SharedCounts (s : SharedHeap) : Prop where
  fault : s.fault = false
  counts : ∀ b c, s.counts b = some c → c = s.refs b
  useCount : ∀ h ∈ s.live, s.useCount h = some (((s.fields h).refCount.map s.refs).getD 0 : Nat)
  deletedCounts : ∀ b, s.deletedCounts.count b = if b < s.nextCount ∧ s.refs b = 0 then 1 else 0
  deletedObjects : ∀ o, s.deletedObjects.count o =
    if o < s.nextObject ∧ ∀ h ∈ s.live, (s.fields h).ptr ≠ some o then 1 else 0

/-- No counter has more handles than an `int` can count. -/
def Countable (s : SharedHeap) : Prop := ∀ b, s.refs b ≤ 2 ^ 31 - 1

/-! ## Counters that hold given numbers -/

/-- The counters hold the numbers `r`, and a block is deleted exactly when its number is `0`. -/
structure Ledger (r : Nat → Nat) (s : SharedHeap) : Prop where
  fault : s.fault = false
  allocated : ∀ b, s.nextCount ≤ b → r b = 0
  counts : ∀ b, s.counts b = if r b = 0 then none else some (r b : Int)
  deletedCounts : ∀ b, s.deletedCounts.count b = if b < s.nextCount ∧ r b = 0 then 1 else 0
  deletedObjects : ∀ o, s.deletedObjects.count o = if o < s.nextCount ∧ r o = 0 then 1 else 0

/-- The same of counters that may overflow. -/
structure Tally (r : Nat → Nat) (s : SharedHeap) : Prop where
  fault : s.fault = false
  allocated : ∀ b, s.nextCount ≤ b → r b = 0
  counts : ∀ b, s.counts b = if r b = 0 then none else some (atomicInt (r b))
  deletedCounts : ∀ b, s.deletedCounts.count b = if b < s.nextCount ∧ r b = 0 then 1 else 0
  deletedObjects : ∀ o, s.deletedObjects.count o = if o < s.nextCount ∧ r o = 0 then 1 else 0

theorem ledger_iff {r : Nat → Nat} {s : SharedHeap} (hle : ∀ b, r b ≤ 2 ^ 31 - 1) : Ledger r s ↔ Tally r s := by
  have hcounts : ∀ b, (if r b = 0 then none else some (r b : Int)) = if r b = 0 then none else some (atomicInt (r b)) := by
    intro b
    rw [atomicInt_of_le (hle b)]
  constructor
  · intro hg
    exact ⟨hg.fault, hg.allocated, fun b => (hg.counts b).trans (hcounts b), hg.deletedCounts, hg.deletedObjects⟩
  · intro hg
    exact ⟨hg.fault, hg.allocated, fun b => (hg.counts b).trans (hcounts b).symm, hg.deletedCounts, hg.deletedObjects⟩

section
variable {s : SharedHeap} {r r' : Nat → Nat} {h b n : Nat} (hg : Tally r s)
include hg

theorem Tally.congr (e : ∀ b, r' b = r b) : Tally r' s := by
  rwa [show r' = r from funext e]

theorem Tally.lt_nextCount (hb : r b ≠ 0) : b < s.nextCount := by
  by_cases h : b < s.nextCount
  · exact h
  · exact absurd (hg.allocated b (Nat.le_of_not_lt h)) hb

theorem Tally.setCount (hr : r b ≠ 0) (hn : n ≠ 0) :
    Tally (Function.update r b n) { s with counts := Function.update s.counts b (some (atomicInt n)) } := by
  have hzero : ∀ b', Function.update r b n b' = 0 ↔ r b' = 0 := by
    intro b'
    by_cases e : b' = b
    · subst e
      simp [hr, hn]
    · simp [e]
  refine ⟨hg.fault, fun b' hb' => ?_, fun b' => ?_, fun b' => ?_, fun b' => ?_⟩
  · rw [hzero]
    exact hg.allocated b' hb'
  · by_cases e : b' = b
    · subst e
      simp [hn]
    · simpa [e] using hg.counts b'
  · simp only [hzero]
    exact hg.deletedCounts b'
  · simp only [hzero]
    exact hg.deletedObjects b'

theorem Tally.delete (hr : r b ≠ 0) : Tally (Function.update r b 0)
    { s with
      counts := Function.update s.counts b none
      deletedObjects := s.deletedObjects ++ [b]
      deletedCounts := s.deletedCounts ++ [b] } := by
  have hlt := hg.lt_nextCount hr
  have hdeleted : ∀ (l : List Nat) (b' : Nat), l.count b' = (if b' < s.nextCount ∧ r b' = 0 then 1 else 0) →
      (l ++ [b]).count b' = if b' < s.nextCount ∧ Function.update r b 0 b' = 0 then 1 else 0 := by
    intro l b' hl
    rw [List.count_append, hl]
    by_cases e : b' = b
    · subst e
      simp [hr, hlt]
    · simp [e, Ne.symm e]
  refine ⟨hg.fault, fun b' hb' => ?_, fun b' => ?_, fun b' => hdeleted _ b' (hg.deletedCounts b'),
    fun b' => hdeleted _ b' (hg.deletedObjects b')⟩
  · have hle : s.nextCount ≤ b' := hb'
    rw [Function.update_of_ne (by omega)]
    exact hg.allocated b' hle
  · by_cases e : b' = b
    · subst e
      simp
    · simpa [e] using hg.counts b'

/-- A release deletes where the counter, and not only the number of handles, comes to `0`. -/
theorem Tally.release_eq (hb : (s.fields h).refCount = some b) (hp : (s.fields h).ptr = some b) (hr : r b = n + 1) :
    s.release h = if 2 ^ 32 ∣ n then
        { s with
          counts := Function.update s.counts b none
          deletedObjects := s.deletedObjects ++ [b]
          deletedCounts := s.deletedCounts ++ [b] }
      else { s with counts := Function.update s.counts b (some (atomicInt n)) } := by
  have hcount : s.counts b = some (atomicInt ((n : Int) + 1)) := by
    rw [hg.counts, if_neg (by omega), hr]
    rfl
  have hatomic : atomicInt (atomicInt ((n : Int) + 1) - 1) = atomicInt n := by
    unfold atomicInt
    rw [Int.bmod_sub_bmod, Int.add_sub_cancel]
  unfold SharedHeap.release
  simp only [hb, hcount, hatomic, hp, atomicInt_eq_zero]
  rfl

theorem Tally.release (hb : (s.fields h).refCount = some b) (hp : (s.fields h).ptr = some b) (hr : r b = n + 1)
    (hn : 2 ^ 32 ∣ n → n = 0) : Tally (Function.update r b n) (s.release h) := by
  have hne : r b ≠ 0 := by omega
  rw [hg.release_eq hb hp hr]
  by_cases h0 : n = 0
  · subst h0
    rw [if_pos (Nat.dvd_zero _)]
    exact hg.delete hne
  · rw [if_neg fun hdvd => h0 (hn hdvd)]
    exact hg.setCount hne h0

theorem Tally.addRef (hb : (s.fields h).refCount = some b) (hr : r b ≠ 0) :
    Tally (Function.update r b (r b + 1)) (s.addRef h) := by
  have hcount : s.counts b = some (atomicInt (r b)) := by
    rw [hg.counts, if_neg hr]
  have hatomic : atomicInt (atomicInt (r b) + 1) = atomicInt ((r b + 1 : Nat) : Int) := by
    unfold atomicInt
    rw [Int.bmod_add_bmod]
    rfl
  unfold SharedHeap.addRef
  simp only [hb, hcount, hatomic]
  exact hg.setCount hr (Nat.succ_ne_zero _)

end

/-! ## Handles that come and go -/

/-- The counters hold the numbers of live handles; an object and its control block have
the same number. -/
structure Exact (s : SharedHeap) : Prop where
  ledger : Ledger s.refs s
  fresh : s.nextObject = s.nextCount
  paired : ∀ h ∈ s.live, (s.fields h).ptr = (s.fields h).refCount

structure Tallied (s : SharedHeap) : Prop where
  tally : Tally s.refs s
  fresh : s.nextObject = s.nextCount
  paired : ∀ h ∈ s.live, (s.fields h).ptr = (s.fields h).refCount

theorem exact_iff {s : SharedHeap} (hc : Countable s) : Exact s ↔ Tallied s := by
  constructor
  · intro hx
    exact ⟨(ledger_iff hc).mp hx.ledger, hx.fresh, hx.paired⟩
  · intro hx
    exact ⟨(ledger_iff hc).mpr hx.tally, hx.fresh, hx.paired⟩

/-- To release the handle leaves so many others that their counter is back at `0`. -/
def Wraps (s : SharedHeap) (h : Nat) : Prop :=
  ∃ b n, (s.fields h).refCount = some b ∧ s.refs b = n + 1 ∧ n ≠ 0 ∧ 2 ^ 32 ∣ n

def Overflows (s : SharedHeap) : SharedOp → Prop
  | .destroy h => s.Wraps h
  | .copyAssign h p | .moveAssign h p => h ≠ p ∧ s.Wraps h
  | _ => False

section
variable {s : SharedHeap} {h p b : Nat} {x : SharedPtr}

theorem refs_eq_zero : s.refs b = 0 ↔ ∀ h ∈ s.live, (s.fields h).refCount ≠ some b := by
  unfold refs
  rw [Finset.card_eq_zero, Finset.filter_eq_empty_iff]

theorem refs_ne_zero (hl : h ∈ s.live) (hb : (s.fields h).refCount = some b) : s.refs b ≠ 0 :=
  fun h0 => refs_eq_zero.mp h0 h hl hb

theorem refs_congr {s' : SharedHeap} (hl : s'.live = s.live) (hf : s'.fields = s.fields) (b : Nat) :
    s'.refs b = s.refs b := by
  unfold refs
  rw [hl, hf]

theorem refs_create (hl : h ∉ s.live) (b : Nat) :
    (s.create h x).refs b = s.refs b + if x.refCount = some b then 1 else 0 := by
  have hold : (s.live.filter fun k => (Function.update s.fields h x k).refCount = some b) =
      s.live.filter fun k => (s.fields k).refCount = some b := by
    apply Finset.filter_congr
    intro k hk
    have hne : k ≠ h := fun e => hl (e ▸ hk)
    rw [Function.update_of_ne hne]
  show ((insert h s.live).filter fun k => (Function.update s.fields h x k).refCount = some b).card = _
  rw [Finset.filter_insert, hold, Function.update_self]
  by_cases e : x.refCount = some b
  · rw [if_pos e, if_pos e, Finset.card_insert_of_notMem fun hm => hl (Finset.mem_filter.mp hm).1]
    rfl
  · rw [if_neg e, if_neg e]
    rfl

theorem frame_release (h : Nat) (s : SharedHeap) : (s.release h).live = s.live ∧ (s.release h).fields = s.fields ∧
    (s.release h).nextObject = s.nextObject ∧ (s.release h).nextCount = s.nextCount := by
  unfold release
  split
  · simp
  · split
    · simp
    · simp only
      split <;> simp

theorem frame_addRef (h : Nat) (s : SharedHeap) : (s.addRef h).live = s.live ∧ (s.addRef h).fields = s.fields ∧
    (s.addRef h).nextObject = s.nextObject ∧ (s.addRef h).nextCount = s.nextCount := by
  unfold addRef
  split
  · simp
  · split <;> simp

theorem refs_destroy (hl : h ∈ s.live) (b : Nat) :
    s.refs b = (s.destroy h).refs b + if (s.fields h).refCount = some b then 1 else 0 := by
  show _ = ((s.live.erase h).filter fun k => ((s.release h).fields k).refCount = some b).card + _
  unfold refs
  rw [(frame_release h s).2.1, Finset.filter_erase]
  by_cases e : (s.fields h).refCount = some b
  · rw [if_pos e, Finset.card_erase_add_one (Finset.mem_filter.mpr ⟨hl, e⟩)]
  · have hn : h ∉ s.live.filter fun k => (s.fields k).refCount = some b := fun hm => e (Finset.mem_filter.mp hm).2
    rw [if_neg e, Finset.erase_eq_of_notMem hn]
    rfl

theorem Tallied.destroy (hx : Tallied s) (hw : ¬ s.Wraps h) (hl : h ∈ s.live) : Tallied (s.destroy h) := by
  obtain ⟨-, hfields, hobj, hnext⟩ := frame_release h s
  have htally : Tally (s.destroy h).refs (s.release h) := by
    cases hr : (s.fields h).refCount with
    | none =>
      have he : s.release h = s := by unfold release; rw [hr]
      rw [he]
      apply hx.tally.congr
      intro b
      rw [refs_destroy hl b, hr]
      rfl
    | some b =>
      have hb := refs_destroy hl b
      rw [if_pos hr] at hb
      have hn : 2 ^ 32 ∣ (s.destroy h).refs b → (s.destroy h).refs b = 0 := by
        intro hdvd
        by_contra h0
        exact hw ⟨b, _, hr, hb, h0, hdvd⟩
      refine (hx.tally.release hr ((hx.paired h hl).trans hr) hb hn).congr fun b' => ?_
      by_cases e : b' = b
      · subst e
        rw [Function.update_self]
      · have hb' := refs_destroy hl b'
        rw [hr, if_neg fun h => e (Option.some.inj h).symm] at hb'
        rw [Function.update_of_ne e, hb']
        rfl
  refine ⟨⟨htally.fault, htally.allocated, htally.counts, htally.deletedCounts, htally.deletedObjects⟩, ?_, ?_⟩
  · exact hobj.trans (hx.fresh.trans hnext.symm)
  · intro k hk
    show ((s.release h).fields k).ptr = ((s.release h).fields k).refCount
    rw [hfields]
    exact hx.paired k (Finset.mem_of_mem_erase hk)

theorem paired_create (hx : Tallied s) (hp : x.ptr = x.refCount) :
    ∀ k ∈ (s.create h x).live, ((s.create h x).fields k).ptr = ((s.create h x).fields k).refCount := by
  intro k hk
  show (Function.update s.fields h x k).ptr = (Function.update s.fields h x k).refCount
  by_cases e : k = h
  · rw [e, Function.update_self]
    exact hp
  · rw [Function.update_of_ne e]
    exact hx.paired k (Finset.mem_of_mem_insert_of_ne hk e)

theorem Tallied.constructDefault (hx : Tallied s) (hl : h ∉ s.live) : Tallied (s.constructDefault h) := by
  have hg : Tally (s.constructDefault h).refs s := hx.tally.congr fun b => refs_create hl b
  exact ⟨⟨hg.fault, hg.allocated, hg.counts, hg.deletedCounts, hg.deletedObjects⟩, hx.fresh, paired_create hx rfl⟩

theorem Tallied.constructFrom (hx : Tallied s) (hl : h ∉ s.live) : Tallied (s.constructFrom h) := by
  have hrefs : ∀ b, (s.constructFrom h).refs b = s.refs b + if s.nextCount = b then 1 else 0 := by
    intro b
    have := refs_create (x := ⟨some s.nextObject, some s.nextCount⟩) hl b
    simp only [Option.some.injEq] at this
    exact this
  have hnew : s.refs s.nextCount = 0 := hx.tally.allocated _ (Nat.le_refl _)
  have hdeleted : ∀ (l : List Nat) (b : Nat), l.count b = (if b < s.nextCount ∧ s.refs b = 0 then 1 else 0) →
      l.count b = if b < s.nextCount + 1 ∧ (s.constructFrom h).refs b = 0 then 1 else 0 := by
    intro l b hb
    rw [hb, hrefs]
    by_cases e : s.nextCount = b
    · subst e
      simp
    · have hlt : b < s.nextCount + 1 ↔ b < s.nextCount := by omega
      simp [e, hlt]
  have hpaired : (⟨some s.nextObject, some s.nextCount⟩ : SharedPtr).ptr =
      (⟨some s.nextObject, some s.nextCount⟩ : SharedPtr).refCount := congrArg some hx.fresh
  refine ⟨⟨hx.tally.fault, fun b hb => ?_, fun b => ?_, fun b => hdeleted _ b (hx.tally.deletedCounts b),
    fun b => hdeleted _ b (hx.tally.deletedObjects b)⟩, congrArg (· + 1) hx.fresh, paired_create hx hpaired⟩
  · have hb' : s.nextCount + 1 ≤ b := hb
    rw [hrefs, hx.tally.allocated b (by omega), if_neg (by omega)]
  · show Function.update s.counts s.nextCount (some 1) b = _
    rw [hrefs]
    by_cases e : s.nextCount = b
    · subst e
      rw [hnew, Function.update_self, if_pos rfl]
      rfl
    · rw [Function.update_of_ne (Ne.symm e), if_neg e, Nat.add_zero]
      exact hx.tally.counts b

theorem Tallied.copyConstruct (hx : Tallied s) (hl : h ∉ s.live) (hp : p ∈ s.live) :
    Tallied (s.copyConstruct h p) := by
  obtain ⟨hlive, hfields, hobj, hnext⟩ := frame_addRef h (s.create h (s.fields p))
  have hrefs : ∀ b, (s.copyConstruct h p).refs b = s.refs b + if (s.fields p).refCount = some b then 1 else 0 := by
    intro b
    rw [← refs_create hl b]
    exact refs_congr hlive hfields b
  have hself : (s.create h (s.fields p)).fields h = s.fields p := Function.update_self ..
  have hcreate : Tally s.refs (s.create h (s.fields p)) :=
    ⟨hx.tally.fault, hx.tally.allocated, hx.tally.counts, hx.tally.deletedCounts, hx.tally.deletedObjects⟩
  have htally : Tally (s.copyConstruct h p).refs (s.copyConstruct h p) := by
    cases hr : (s.fields p).refCount with
    | none =>
      have he : s.copyConstruct h p = s.create h (s.fields p) := by
        unfold SharedHeap.copyConstruct addRef
        rw [hself, hr]
      rw [he] at hrefs ⊢
      apply hcreate.congr
      intro b
      rw [hrefs b, hr]
      rfl
    | some b =>
      refine (hcreate.addRef (by rw [hself, hr]) (refs_ne_zero hp hr)).congr fun b' => ?_
      rw [hrefs, hr]
      by_cases e : b' = b
      · subst e
        rw [Function.update_self, if_pos rfl]
      · rw [Function.update_of_ne e, if_neg fun h => e (Option.some.inj h).symm]
        rfl
  refine ⟨htally, hobj.trans (hx.fresh.trans hnext.symm), fun k hk => ?_⟩
  show (((s.create h (s.fields p)).addRef h).fields k).ptr = (((s.create h (s.fields p)).addRef h).fields k).refCount
  rw [hfields]
  exact paired_create hx (hx.paired p hp) k (hlive ▸ hk)

theorem copyAssign_eq (hl : h ∈ s.live) (hne : h ≠ p) : s.copyAssign h p = (s.destroy h).copyConstruct h p := by
  obtain ⟨hlive, -⟩ := frame_release h s
  have hcreate : (s.release h).setFields h ((s.release h).fields p) =
      (s.destroy h).create h ((s.destroy h).fields p) := by
    unfold create setFields SharedHeap.destroy
    simp only [Finset.insert_erase hl]
    rw [← hlive]
  unfold SharedHeap.copyAssign SharedHeap.copyConstruct
  rw [if_pos hne]
  simp only
  rw [hcreate]

theorem Tallied.copyAssign (hx : Tallied s) (hw : ¬ (h ≠ p ∧ s.Wraps h)) (hl : h ∈ s.live) (hp : p ∈ s.live) :
    Tallied (s.copyAssign h p) := by
  by_cases hne : h ≠ p
  · rw [copyAssign_eq hl hne]
    apply (hx.destroy (fun h => hw ⟨hne, h⟩) hl).copyConstruct (Finset.notMem_erase h s.live)
    exact Finset.mem_erase.mpr ⟨Ne.symm hne, hp⟩
  · unfold SharedHeap.copyAssign
    rw [if_neg hne]
    exact hx

end

/-! ## Programs -/

theorem tallied_init : Tallied init := by
  refine ⟨⟨rfl, fun b _ => rfl, fun b => rfl, fun b => ?_, fun b => ?_⟩, rfl, fun h hh => ?_⟩
  · simp [init]
  · simp [init]
  · simp [init] at hh

theorem Tallied.step {s s' : SharedHeap} {op : SharedOp} (hx : Tallied s) (ho : ¬ s.Overflows op)
    (hs : s.step op = some s') : Tallied s' := by
  obtain ⟨hl, rfl⟩ := guarded_some hs
  cases op with
  | constructDefault h => exact hx.constructDefault hl
  | constructFrom h => exact hx.constructFrom hl
  | makeShared h => exact hx.constructFrom hl
  | copyConstruct h p => exact hx.copyConstruct hl.1 hl.2
  | moveConstruct h p => exact hx.copyConstruct hl.1 hl.2
  | copyAssign h p => exact hx.copyAssign ho hl.1 hl.2
  | moveAssign h p => exact hx.copyAssign ho hl.1 hl.2
  | destroy h => exact hx.destroy ho hl

/-! ## Counters that do not overflow -/

theorem Countable.not_wraps {s : SharedHeap} (hc : Countable s) (h : Nat) : ¬ s.Wraps h := by
  rintro ⟨b, n, -, hn, h0, hdvd⟩
  have hle := hc b
  exact h0 (Nat.eq_zero_of_dvd_of_lt hdvd (by omega))

theorem Countable.not_overflows {s : SharedHeap} (hc : Countable s) (op : SharedOp) : ¬ s.Overflows op := by
  cases op with
  | destroy h => exact hc.not_wraps h
  | copyAssign h p => exact fun ho => hc.not_wraps h ho.2
  | moveAssign h p => exact fun ho => hc.not_wraps h ho.2
  | _ => exact id

theorem countable_init : Countable init := fun _ => Nat.zero_le _

theorem exact_init : Exact init := (exact_iff countable_init).mpr tallied_init

theorem Exact.step {s s' : SharedHeap} {op : SharedOp} (hx : Exact s) (hc : Countable s) (hc' : Countable s')
    (hs : s.step op = some s') : Exact s' :=
  (exact_iff hc').mpr (((exact_iff hc).mp hx).step (hc.not_overflows op) hs)

theorem Exact.sharedCounts {s : SharedHeap} (hx : Exact s) : SharedCounts s := by
  refine ⟨hx.ledger.fault, fun b c hb => ?_, fun h hl => ?_, hx.ledger.deletedCounts, fun o => ?_⟩
  · rw [hx.ledger.counts] at hb
    split at hb
    · cases hb
    · exact (Option.some.inj hb).symm
  · unfold useCount
    cases hr : (s.fields h).refCount with
    | none => rfl
    | some b =>
      show s.counts b = _
      rw [hx.ledger.counts, if_neg (refs_ne_zero hl hr)]
      rfl
  · have hiff : (∀ h ∈ s.live, (s.fields h).ptr ≠ some o) ↔ s.refs o = 0 := by
      rw [refs_eq_zero]
      constructor
      · intro h k hk
        rw [← hx.paired k hk]
        exact h k hk
      · intro h k hk
        rw [hx.paired k hk]
        exact h k hk
    rw [hx.ledger.deletedObjects, hx.fresh]
    simp only [hiff]

/-- **Counts.** In a program that never has more than `2 ^ 31 - 1` handles on one object,
every count is the number of handles and everything is deleted once, on time. -/
theorem sharedCounts_of_countable {ops : List SharedOp} (h : Always step Countable init ops) :
    Always step SharedCounts init ops := by
  refine always_of_along (I := fun s => Exact s ∧ Countable s) (U := fun _ => True) (fun s op s' hI _ hs hc => ?_)
    (fun s hI => hI.1.sharedCounts) (fun _ _ => trivial) ⟨exact_init, h.1⟩ h.2
  exact ⟨hI.1.step hI.2 hc hs, hc⟩

/-! ## Many handles -/

theorem refs_le_card (s : SharedHeap) (b : Nat) : s.refs b ≤ s.live.card := Finset.card_filter_le _ _

theorem card_step {s s' : SharedHeap} {op : SharedOp} (hs : s.step op = some s') : s'.live.card ≤ s.live.card + 1 := by
  have hinsert : ∀ h, (insert h s.live).card ≤ s.live.card + 1 := fun h => Finset.card_insert_le h s.live
  have herase : ∀ h, (s.live.erase h).card ≤ s.live.card + 1 :=
    fun h => (Finset.card_erase_le).trans (Nat.le_succ _)
  have hassign : ∀ h p, (s.copyAssign h p).live = s.live := by
    intro h p
    unfold copyAssign
    split
    · rw [(frame_addRef _ _).1]
      exact (frame_release h s).1
    · rfl
  have hcopy : ∀ h p, (s.copyConstruct h p).live = insert h s.live := fun h p => (frame_addRef h _).1
  unfold SharedHeap.step at hs
  by_cases hl : s.Legal op
  · rw [if_pos hl] at hs
    cases hs
    cases op with
    | constructDefault h => exact hinsert h
    | constructFrom h => exact hinsert h
    | makeShared h => exact hinsert h
    | copyConstruct h p => exact (congrArg Finset.card (hcopy h p)).trans_le (hinsert h)
    | moveConstruct h p => exact (congrArg Finset.card (hcopy h p)).trans_le (hinsert h)
    | copyAssign h p => exact (congrArg Finset.card (hassign h p)).trans_le (Nat.le_succ _)
    | moveAssign h p => exact (congrArg Finset.card (hassign h p)).trans_le (Nat.le_succ _)
    | destroy h => exact herase h
  · rw [if_neg hl] at hs
    cases hs

theorem countable_of_length : ∀ (ops : List SharedOp) (s : SharedHeap), s.live.card + ops.length ≤ 2 ^ 31 - 1 →
    Always step Countable s ops
  | [], s, h => ⟨fun b => (refs_le_card s b).trans h, trivial⟩
  | op :: ops, s, h => by
    rw [List.length_cons] at h
    refine ⟨fun b => (refs_le_card s b).trans (by omega), fun s' hs => ?_⟩
    have hcard := card_step hs
    have hrest := countable_of_length ops s' (by omega)
    exact ⟨hrest.1, hrest.2⟩

def mainProgram : List SharedOp :=
  [.constructFrom 1, .copyConstruct 2 1, .destroy 2, .moveConstruct 3 1, .makeShared 4,
    .destroy 4, .destroy 3, .destroy 1]

theorem sharedCounts_of_countable_main : Always step SharedCounts init mainProgram :=
  sharedCounts_of_countable (countable_of_length _ _ (by decide))

/-- One object and `n` copies of its first handle. -/
def copiesProgram (n : Nat) : List SharedOp :=
  .constructFrom 0 :: (List.range n).map fun i => .copyConstruct (i + 1) 0

theorem run_copiesProgram (n : Nat) : ∃ s, run step init (copiesProgram n) = some s ∧ s.live = Finset.range (n + 1) ∧
    (∀ h < n + 1, s.fields h = ⟨some 0, some 0⟩) ∧ s.counts 0 = some (atomicInt (n + 1)) := by
  induction n with
  | zero =>
    refine ⟨_, rfl, rfl, fun h hh => ?_, rfl⟩
    obtain rfl : h = 0 := by omega
    rfl
  | succ n ih =>
    obtain ⟨s, hr, hl, hf, hc⟩ := ih
    have hprog : copiesProgram (n + 1) = copiesProgram n ++ [.copyConstruct (n + 1) 0] := by
      unfold copiesProgram
      rw [List.range_succ, List.map_append]
      rfl
    have hlegal : s.Legal (.copyConstruct (n + 1) 0) := by
      show n + 1 ∉ s.live ∧ 0 ∈ s.live
      rw [hl]
      simp
    have hself : (s.create (n + 1) (s.fields 0)).fields (n + 1) = ⟨some 0, some 0⟩ := by
      rw [← hf 0 (by omega)]
      exact Function.update_self ..
    refine ⟨s.copyConstruct (n + 1) 0, ?_, ?_, fun h hh => ?_, ?_⟩
    · rw [hprog, run_append, hr]
      show (step s _).bind _ = _
      unfold step
      rw [if_pos hlegal]
      rfl
    · unfold copyConstruct
      rw [(frame_addRef _ _).1]
      show insert (n + 1) s.live = _
      rw [hl, ← Finset.range_add_one]
    · unfold copyConstruct
      rw [(frame_addRef _ _).2.1]
      show Function.update s.fields (n + 1) (s.fields 0) h = _
      by_cases e : h = n + 1
      · rw [e, Function.update_self]
        exact hf 0 (by omega)
      · rw [Function.update_of_ne e]
        exact hf h (by omega)
    · have hc' : (s.create (n + 1) (s.fields 0)).counts 0 = some (atomicInt (n + 1)) := hc
      unfold copyConstruct addRef
      rw [hself]
      simp only [hc']
      rw [Function.update_self]
      unfold atomicInt
      rw [Int.bmod_add_bmod]
      rfl

theorem refs_copies {s : SharedHeap} {n : Nat} (hl : s.live = Finset.range n)
    (hf : ∀ h < n, s.fields h = ⟨some 0, some 0⟩) : s.refs 0 = n := by
  have hall : (s.live.filter fun h => (s.fields h).refCount = some 0) = s.live := by
    apply Finset.filter_true_of_mem
    intro h hh
    rw [hl, Finset.mem_range] at hh
    rw [hf h hh]
  unfold refs
  rw [hall, hl, Finset.card_range]

/-- With `2 ^ 31` handles on one object its count is `-2 ^ 31`. -/
theorem count_wraps : ¬ ∀ ops, Always step SharedCounts init ops := by
  intro h
  obtain ⟨s, hr, hl, hf, hc⟩ := run_copiesProgram (2 ^ 31 - 1)
  have hcount := ((h _).last _ _ _ hr).counts 0 _ hc
  rw [refs_copies hl hf] at hcount
  revert hcount
  decide

end SharedHeap

end LearningC
