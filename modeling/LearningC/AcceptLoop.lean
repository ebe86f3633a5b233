import LearningC.Runs
import Mathlib.Data.List.Nodup
import Mathlib.Logic.ExistsUnique

/-!
# The accept loop of socket.c

`main` stores each accepted descriptor in the one cell `clientfd` and starts a
`clinet_thread` with the address of the cell. A thread reads the cell at a moment of its
own, so it serves its own descriptor only when no later one has come by then.
-/

namespace LearningC

open Runs

/-- A `clinet_thread`: not created yet, before its read of `*arg`, in its loop, or after
its `close`. -/
inductive ClientPhase
  | absent
  | started
  | serving (clientfd : Nat)
  | closed (clientfd : Nat)
  deriving DecidableEq, Repr

def ClientPhase.descriptor : ClientPhase → Option Nat
  | .serving clientfd | .closed clientfd => some clientfd
  | .absent | .started => none

/-- `accepted` lists what `accept` returned; thread `i` is started in iteration `i`, and
`created` counts the threads. -/
structure AcceptLoop where
  clientfd : Option Nat
  accepted : List Nat
  created : Nat
  threads : Nat → ClientPhase

/-- `echo` is a `recv` that returns data, with the `send` after it, and `close` follows a
`recv` that returns `0`. -/
inductive SocketStep
  | accept (fd : Nat)
  | create
  | read (i : Nat)
  | echo (i : Nat)
  | close (i : Nat)
  deriving DecidableEq, Repr

namespace AcceptLoop

def init : AcceptLoop where
  clientfd := none
  accepted := []
  created := 0
  threads := fun _ => .absent

def setThread (i : Nat) (p : ClientPhase) (s : AcceptLoop) : AcceptLoop :=
  { s with threads := Function.update s.threads i p }

@[simp] theorem threads_setThread (s : AcceptLoop) (i : Nat) (p : ClientPhase) :
    (s.setThread i p).threads = Function.update s.threads i p := rfl

/-- Descriptors are not used again. -/
def Enabled (s : AcceptLoop) : SocketStep → Prop
  | .accept fd => s.created = s.accepted.length ∧ fd ∉ s.accepted
  | .create => s.created < s.accepted.length
  | .read i => s.threads i = .started
  | .echo i | .close i => ∃ fd, s.threads i = .serving fd

instance (s : AcceptLoop) : (e : SocketStep) → Decidable (s.Enabled e)
  | .accept fd => inferInstanceAs (Decidable (s.created = s.accepted.length ∧ fd ∉ s.accepted))
  | .create => inferInstanceAs (Decidable (s.created < s.accepted.length))
  | .read i => inferInstanceAs (Decidable (s.threads i = .started))
  | .echo i | .close i => match h : s.threads i with
    | .serving fd => isTrue ⟨fd, h⟩
    | .absent | .started | .closed _ => isFalse fun ⟨_, e⟩ => by rw [h] at e; cases e

def closeThread (i : Nat) (s : AcceptLoop) : AcceptLoop :=
  match s.threads i with
  | .serving fd => s.setThread i (.closed fd)
  | _ => s

def next (s : AcceptLoop) : SocketStep → AcceptLoop
  | .accept fd => { s with clientfd := some fd, accepted := s.accepted ++ [fd] }
  | .create => { s.setThread s.created .started with created := s.created + 1 }
  | .read i => match s.clientfd with
    | some fd => s.setThread i (.serving fd)
    | none => s
  | .echo _ => s
  | .close i => s.closeThread i

def step (s : AcceptLoop) (e : SocketStep) : Option AcceptLoop := if s.Enabled e then some (s.next e) else none

/-- Every thread serves and closes the descriptor of its own iteration, and when all are
done every descriptor was closed by one thread. -/
structure OwnDescriptors (s : AcceptLoop) : Prop where
  own : ∀ i fd, (s.threads i).descriptor = some fd → s.accepted[i]? = some fd
  one : (∀ i < s.accepted.length, ∃ fd, s.threads i = .closed fd) →
    ∀ fd ∈ s.accepted, ∃! i, s.threads i = .closed fd

/-- A thread reads the cell before the next descriptor is accepted. -/
def ReadsInTime (s : AcceptLoop) : SocketStep → Prop
  | .read i => i + 1 = s.accepted.length
  | _ => True

/-! ## The invariant -/

structure Served (s : AcceptLoop) : Prop where
  cell : s.clientfd = s.accepted.getLast?
  distinct : s.accepted.Nodup
  created : s.created ≤ s.accepted.length
  started : ∀ i, s.threads i ≠ .absent → i < s.created
  own : ∀ i fd, (s.threads i).descriptor = some fd → s.accepted[i]? = some fd

section
variable {s s' : AcceptLoop} {e : SocketStep} {i : Nat}

theorem step_next (h : s.step e = some s') : s.Enabled e ∧ s' = s.next e :=
  Runs.guarded_some h

theorem Served.ownDescriptors (h : Served s) : OwnDescriptors s := by
  refine ⟨h.own, fun hall fd hfd => ?_⟩
  obtain ⟨i, hi, rfl⟩ := List.mem_iff_getElem.mp hfd
  obtain ⟨fd, hc⟩ := hall i hi
  have hown := h.own i fd (by rw [hc]; rfl)
  rw [List.getElem?_eq_getElem hi] at hown
  cases hown
  refine ⟨i, hc, fun j hj => ?_⟩
  have hown := h.own j _ (by rw [hj]; rfl)
  have hj' := (List.getElem?_eq_some_iff.mp hown).1
  rw [← List.getElem?_eq_getElem hi] at hown
  exact (List.getElem?_inj hj' h.distinct).mp hown

theorem Served.setThread (h : Served s) {p : ClientPhase} (hi : i < s.created)
    (hp : ∀ fd, p.descriptor = some fd → s.accepted[i]? = some fd) : Served (s.setThread i p) := by
  refine ⟨h.cell, h.distinct, h.created, fun j hj => ?_, fun j fd hj => ?_⟩
  · by_cases e : j = i
    · exact e ▸ hi
    · exact h.started j (fun ha => hj ((Function.update_of_ne e _ _).trans ha))
  · by_cases e : j = i
    · subst e
      exact hp fd ((congrArg _ (Function.update_self _ _ _).symm).trans hj)
    · exact h.own j fd ((congrArg _ (Function.update_of_ne e _ _).symm).trans hj)

theorem Served.accept (h : Served s) {fd : Nat} (he : s.Enabled (.accept fd)) : Served (s.next (.accept fd)) where
  cell := List.getLast?_concat.symm
  distinct := List.Nodup.append h.distinct (List.nodup_singleton fd) (by simpa using he.2)
  created := by
    have := h.created
    show s.created ≤ (s.accepted ++ [fd]).length
    rw [List.length_append]
    omega
  started := h.started
  own i fd' hi := by
    have hown := h.own i fd' hi
    exact (List.getElem?_append_left (List.getElem?_eq_some_iff.mp hown).1).trans hown

theorem Served.create (h : Served s) (he : s.Enabled .create) : Served (s.next .create) where
  cell := h.cell
  distinct := h.distinct
  created := he
  started i hi := by
    show i < s.created + 1
    by_cases e : i = s.created
    · omega
    · have := h.started i fun ha => hi ((Function.update_of_ne e _ _).trans ha)
      omega
  own i fd hi := by
    by_cases e : i = s.created
    · subst e
      cases (congrArg ClientPhase.descriptor (Function.update_self (β := fun _ => ClientPhase) _ _ _)).symm.trans hi
    · exact h.own i fd ((congrArg _ (Function.update_of_ne e _ _).symm).trans hi)

theorem Served.cell_iff (h : Served s) (hi : i < s.accepted.length) :
    s.accepted[i]? = s.clientfd ↔ i + 1 = s.accepted.length := by
  rw [h.cell, List.getLast?_eq_getElem?]
  constructor
  · intro heq
    have := (List.getElem?_inj hi h.distinct).mp heq
    omega
  · intro heq
    congr 1
    omega

theorem Served.exists_cell (h : Served s) (hi : i < s.accepted.length) : ∃ fd, s.clientfd = some fd := by
  rw [h.cell]
  exact ⟨_, List.getLast?_eq_some_getLast (List.ne_nil_of_length_pos (by omega))⟩

theorem Served.close (h : Served s) {i : Nat} (he : s.Enabled (.close i)) : Served (s.next (.close i)) := by
  obtain ⟨fd, hi⟩ := he
  have hn : s.closeThread i = s.setThread i (.closed fd) := by
    unfold closeThread
    rw [hi]
  show Served (s.closeThread i)
  rw [hn]
  exact h.setThread (h.started i (by simp [hi])) fun fd' hfd => h.own i fd' (by rw [hi]; exact hfd)

theorem Served.read (h : Served s) (he : s.Enabled (.read i)) :
    (OwnDescriptors (s.next (.read i)) ↔ ReadsInTime s (.read i)) ∧
      (OwnDescriptors (s.next (.read i)) → Served (s.next (.read i))) := by
  have hp : s.threads i = .started := he
  have hlt : i < s.created := h.started i (by simp [hp])
  have hacc : i < s.accepted.length := Nat.lt_of_lt_of_le hlt h.created
  obtain ⟨fd, hfd⟩ := h.exists_cell hacc
  have hn : s.next (.read i) = s.setThread i (.serving fd) := by
    unfold next
    rw [hfd]
  have hself : ((s.setThread i (.serving fd)).threads i).descriptor = some fd := by
    simp [ClientPhase.descriptor]
  have hserved : s.accepted[i]? = s.clientfd → Served (s.setThread i (.serving fd)) := by
    intro hcell
    refine h.setThread hlt fun fd' hfd' => ?_
    rw [hcell, hfd]
    exact hfd'
  have hcell : OwnDescriptors (s.setThread i (.serving fd)) → s.accepted[i]? = s.clientfd := by
    intro hown
    rw [hfd]
    exact hown.own i fd hself
  rw [hn]
  refine ⟨?_, fun hown => hserved (hcell hown)⟩
  show _ ↔ i + 1 = s.accepted.length
  rw [← h.cell_iff hacc]
  exact ⟨hcell, fun hc => (hserved hc).ownDescriptors⟩

theorem Served.step (h : Served s) (hs : s.step e = some s') :
    (OwnDescriptors s' ↔ ReadsInTime s e) ∧ (OwnDescriptors s' → Served s') := by
  obtain ⟨he, rfl⟩ := step_next hs
  have hkeeps : ∀ {s' : AcceptLoop}, Served s' → (OwnDescriptors s' ↔ True) ∧ (OwnDescriptors s' → Served s') :=
    fun h' => ⟨iff_of_true h'.ownDescriptors trivial, fun _ => h'⟩
  cases e with
  | accept fd => exact hkeeps (h.accept he)
  | create => exact hkeeps (h.create he)
  | read i => exact h.read he
  | echo i => exact hkeeps h
  | close i => exact hkeeps (h.close he)

theorem served_init : Served init := by
  refine ⟨rfl, List.nodup_nil, Nat.le_refl _, fun i hi => absurd rfl hi, fun i fd hi => ?_⟩
  cases hi

end

/-- **One thread for each connection.** In a run every thread serves its own descriptor if
and only if every thread reads the cell before the next descriptor is accepted. -/
theorem ownDescriptors_iff_readsInTime (es : List SocketStep) :
    Always step OwnDescriptors init es ↔ Along step (fun s e _ => ReadsInTime s e) init es :=
  always_iff (fun _ _ _ h _ hs => h.step hs) (fun _ _ => trivial : ∀ e ∈ es, True) served_init served_init.ownDescriptors

/-- The second connection comes before the first thread has read the cell. -/
def overwrittenRun : List SocketStep := [.accept 4, .create, .accept 5, .read 0]

theorem overwritten_serves_other : ¬ ∀ es : List SocketStep, Always step OwnDescriptors init es := by
  intro h
  cases ((h overwrittenRun).last _ _ _ rfl).own 0 5 rfl

end AcceptLoop

end LearningC
