import LearningC.AcceptLoop
import LearningC.CharArray

/-!
# The client threads of socket.c

The loop of `clinet_thread` over the threads of the accept loop: `recv` into a zeroed
`buffer`, and then `send` and `printf` of what came. Between the two other threads run, so
two threads with one descriptor could mix up its stream.
-/

namespace LearningC

open Runs CharArray

/-- `buffer` and `count` after `recv`. -/
structure EchoTurn where
  buffer : Cells
  count : Int

/-- The streams of each descriptor, and the lines of `printf`; `outside` tells whether `send`
was given a length beyond its buffer. -/
structure EchoServer where
  loop : AcceptLoop
  turns : Nat → Option EchoTurn
  requests : Nat → List UInt8
  replies : Nat → Cells
  printed : List (Nat × Int × Option (List UInt8))
  outside : Bool

/-- `recvEnd` is a `recv` that returns `0`, with the `close` after it, and `send` is followed
by the `printf`. -/
inductive EchoStep
  | accept (fd : Nat)
  | create
  | read (i : Nat)
  | recv (i : Nat) (chunk : List UInt8)
  | recvFailed (i : Nat)
  | recvEnd (i : Nat)
  | send (i : Nat)
  deriving DecidableEq, Repr

/-- The step of the accept loop and its threads that this is. -/
def EchoStep.outer : EchoStep → Option SocketStep
  | .accept fd => some (.accept fd)
  | .create => some .create
  | .read i => some (.read i)
  | .recvEnd i => some (.close i)
  | .send i => some (.echo i)
  | .recv _ _ | .recvFailed _ => none

namespace EchoServer

def init : EchoServer where
  loop := .init
  turns := fun _ => none
  requests := fun _ => []
  replies := fun _ => []
  printed := []
  outside := false

def clientfd (s : EchoServer) (i : Nat) : Option Nat :=
  match s.loop.threads i with
  | .serving fd => some fd
  | _ => none

def Enabled (s : EchoServer) : EchoStep → Prop
  | .accept fd => s.loop.Enabled (.accept fd)
  | .create => s.loop.Enabled .create
  | .read i => s.loop.Enabled (.read i)
  | .recv i chunk => s.clientfd i ≠ none ∧ (s.turns i).isNone = true ∧ chunk ≠ [] ∧ chunk.length ≤ 120
  | .recvFailed i | .recvEnd i => s.clientfd i ≠ none ∧ (s.turns i).isNone = true
  | .send i => s.clientfd i ≠ none ∧ (s.turns i).isSome = true

instance (s : EchoServer) : (e : EchoStep) → Decidable (s.Enabled e)
  | .accept fd => inferInstanceAs (Decidable (s.loop.Enabled (.accept fd)))
  | .create => inferInstanceAs (Decidable (s.loop.Enabled .create))
  | .read i => inferInstanceAs (Decidable (s.loop.Enabled (.read i)))
  | .recv i chunk => inferInstanceAs (Decidable (s.clientfd i ≠ none ∧ (s.turns i).isNone = true ∧ chunk ≠ [] ∧
      chunk.length ≤ 120))
  | .recvFailed i | .recvEnd i => inferInstanceAs (Decidable (s.clientfd i ≠ none ∧ (s.turns i).isNone = true))
  | .send i => inferInstanceAs (Decidable (s.clientfd i ≠ none ∧ (s.turns i).isSome = true))

def setTurn (i : Nat) (t : Option EchoTurn) (s : EchoServer) : EchoServer :=
  { s with turns := Function.update s.turns i t }

/-- `char buffer[128] = {0}` and `recv` of at most 120 bytes. -/
def receive (i fd : Nat) (chunk : List UInt8) (s : EchoServer) : EchoServer :=
  { s.setTurn i (some { buffer := fill chunk (zeros 128), count := chunk.length }) with
    requests := Function.update s.requests fd (s.requests fd ++ chunk) }

/-- `send` takes `count` as a `size_t`. -/
def reply (i fd : Nat) (t : EchoTurn) (s : EchoServer) : EchoServer :=
  let inside : Bool := 0 ≤ t.count ∧ t.count ≤ 128
  { s.setTurn i none with
    replies := Function.update s.replies fd (s.replies fd ++ if inside then t.buffer.take t.count.toNat else [])
    printed := s.printed ++ [(fd, t.count, text t.buffer)]
    outside := s.outside || !inside }

def next (s : EchoServer) : EchoStep → EchoServer
  | .accept fd => { s with loop := s.loop.next (.accept fd) }
  | .create => { s with loop := s.loop.next .create }
  | .read i => { s with loop := s.loop.next (.read i) }
  | .recv i chunk => match s.clientfd i with
    | some fd => s.receive i fd chunk
    | none => s
  | .recvFailed i => s.setTurn i (some { buffer := zeros 128, count := -1 })
  | .recvEnd i => { s with loop := s.loop.next (.close i) }
  | .send i => match s.clientfd i, s.turns i with
    | some fd, some t => s.reply i fd t
    | _, _ => s

def step (s : EchoServer) (e : EchoStep) : Option EchoServer := if s.Enabled e then some (s.next e) else none

/-- What the thread has received and not yet sent. -/
def unsent (s : EchoServer) (i : Nat) : Cells := ((s.turns i).map fun t => t.buffer.take t.count.toNat).getD []

/-- The descriptor of a thread has been sent what was received from it, up to the turn of the
thread, and no `send` reads outside its buffer. -/
structure Echoes (s : EchoServer) : Prop where
  stream : ∀ i fd, (s.loop.threads i).descriptor = some fd → s.replies fd ++ s.unsent i = (s.requests fd).map some
  inside : s.outside = false

/-- Threads read the cell in time, and no `recv` fails. -/
def Regular (s : EchoServer) : EchoStep → Prop
  | .read i => AcceptLoop.ReadsInTime s.loop (.read i)
  | .recvFailed _ => False
  | _ => True

def PrintsTexts (s : EchoServer) : Prop := ∀ line ∈ s.printed, line.2.2 ≠ none

/-! ## The steps as steps of the accept loop -/

section
variable {s s' : EchoServer} {e : EchoStep} {i fd : Nat}

theorem step_next (h : s.step e = some s') : s.Enabled e ∧ s' = s.next e :=
  Runs.guarded_some h

theorem serving_of_clientfd (h : s.clientfd i = some fd) : s.loop.threads i = .serving fd := by
  unfold clientfd at h
  split at h
  · next hs => rw [hs, Option.some.inj h]
  · cases h

theorem next_recv {chunk : List UInt8} (he : s.Enabled (.recv i chunk)) :
    ∃ fd, s.loop.threads i = .serving fd ∧ s.next (.recv i chunk) = s.receive i fd chunk := by
  obtain ⟨fd, hfd⟩ := Option.ne_none_iff_exists'.mp he.1
  refine ⟨fd, serving_of_clientfd hfd, ?_⟩
  unfold next
  simp only [hfd]

theorem next_send (he : s.Enabled (.send i)) :
    ∃ fd t, s.loop.threads i = .serving fd ∧ s.turns i = some t ∧ s.next (.send i) = s.reply i fd t := by
  obtain ⟨fd, hfd⟩ := Option.ne_none_iff_exists'.mp he.1
  obtain ⟨t, ht⟩ := Option.isSome_iff_exists.mp he.2
  refine ⟨fd, t, serving_of_clientfd hfd, ht, ?_⟩
  unfold next
  simp only [hfd, ht]

/-- **Refinement.** Each step is a step of the accept loop with its threads, or none. -/
theorem loop_next (he : s.Enabled e) : (∀ e', e.outer = some e' → s.loop.step e' = some (s.next e).loop) ∧
    (e.outer = none → (s.next e).loop = s.loop) := by
  have hguard : ∀ e', s.loop.Enabled e' → s.loop.step e' = some (s.loop.next e') := fun e' h => if_pos h
  cases e with
  | accept fd => exact ⟨fun e' h => by cases h; exact hguard _ he, fun h => nomatch h⟩
  | create => exact ⟨fun e' h => by cases h; exact hguard _ he, fun h => nomatch h⟩
  | read i => exact ⟨fun e' h => by cases h; exact hguard _ he, fun h => nomatch h⟩
  | recv i chunk =>
    obtain ⟨fd, -, hn⟩ := next_recv he
    rw [hn]
    exact ⟨fun e' h => (nomatch h), fun _ => rfl⟩
  | recvFailed i => exact ⟨fun e' h => (nomatch h), fun _ => rfl⟩
  | recvEnd i =>
    obtain ⟨fd, hfd⟩ := Option.ne_none_iff_exists'.mp he.1
    exact ⟨fun e' h => by cases h; exact hguard _ ⟨fd, serving_of_clientfd hfd⟩, fun h => nomatch h⟩
  | send i =>
    obtain ⟨fd, t, hfd, -, hn⟩ := next_send he
    rw [hn]
    exact ⟨fun e' h => by cases h; exact hguard _ ⟨fd, hfd⟩, fun h => nomatch h⟩

/-! ## Streams -/

/-- What regular steps keep. -/
structure Routed (s : EchoServer) : Prop where
  served : AcceptLoop.Served s.loop
  echoes : Echoes s
  fresh : ∀ fd, (∀ i, (s.loop.threads i).descriptor ≠ some fd) → s.requests fd = [] ∧ s.replies fd = []
  idle : ∀ i, (∀ fd, s.loop.threads i ≠ .serving fd) → s.turns i = none
  counted : ∀ i t, s.turns i = some t → 0 ≤ t.count ∧ t.count ≤ 120

theorem unsent_none (h : s.turns i = none) : s.unsent i = [] := by
  unfold unsent
  rw [h]
  rfl

theorem Routed.one_thread (h : Routed s) {j : Nat} (hi : (s.loop.threads i).descriptor = some fd)
    (hj : (s.loop.threads j).descriptor = some fd) : i = j := by
  have hown := h.served.own i fd hi
  have hlt := (List.getElem?_eq_some_iff.mp hown).1
  exact (List.getElem?_inj hlt h.served.distinct).mp (hown.trans (h.served.own j fd hj).symm)

/-- A step after which every thread has the descriptor it had, and nothing has moved. -/
theorem Routed.of_loop (h : Routed s) {loop : AcceptLoop} (hserved : AcceptLoop.Served loop)
    (hdesc : ∀ i, (loop.threads i).descriptor = (s.loop.threads i).descriptor)
    (hidle : ∀ i, (∀ fd, loop.threads i ≠ .serving fd) → s.turns i = none) : Routed { s with loop := loop } where
  served := hserved
  echoes := ⟨fun i fd hi => h.echoes.stream i fd ((hdesc i).symm.trans hi), h.echoes.inside⟩
  fresh fd hfd := h.fresh fd fun i => hdesc i ▸ hfd i
  idle := hidle
  counted := h.counted

theorem Routed.create (h : Routed s) (hserved : AcceptLoop.Served (s.loop.next .create)) : Routed (s.next .create) := by
  have habsent : s.loop.threads s.loop.created = .absent := by
    by_contra hne
    exact Nat.lt_irrefl _ (h.served.started _ hne)
  have hthreads : ∀ i, (s.loop.next .create).threads i = if i = s.loop.created then .started else s.loop.threads i :=
    fun i => Function.update_apply ..
  refine h.of_loop hserved (fun i => ?_) fun i hi => h.idle i fun fd hfd => ?_
  · rw [hthreads]
    split
    · next e => rw [e, habsent]; rfl
    · rfl
  · refine hi fd ?_
    rw [hthreads, if_neg, hfd]
    rintro rfl
    cases habsent.symm.trans hfd

/-- The descriptor that a thread reads in time is served by nobody else. -/
theorem Routed.unread (h : Routed s) (hp : s.loop.threads i = .started)
    (hserved : AcceptLoop.Served (s.loop.setThread i (.serving fd))) (j : Nat) :
    (s.loop.threads j).descriptor ≠ some fd := by
  intro hj
  by_cases e : j = i
  · rw [e, hp] at hj
    cases hj
  · have howni := hserved.own i fd (by simp [ClientPhase.descriptor])
    have hi := (List.getElem?_eq_some_iff.mp howni).1
    exact e ((List.getElem?_inj hi h.served.distinct).mp (howni.trans (h.served.own j fd hj).symm)).symm

theorem Routed.read (h : Routed s) (he : s.loop.Enabled (.read i)) (hserved : AcceptLoop.Served (s.loop.next (.read i))) :
    Routed (s.next (.read i)) := by
  have hp : s.loop.threads i = .started := he
  have hlt : i < s.loop.created := h.served.started i (by simp [hp])
  obtain ⟨fd, hfd⟩ := h.served.exists_cell (Nat.lt_of_lt_of_le hlt h.served.created)
  have hloop : s.loop.next (.read i) = s.loop.setThread i (.serving fd) := by
    unfold AcceptLoop.next
    rw [hfd]
  have hturn : s.turns i = none := h.idle i (by simp [hp])
  rw [hloop] at hserved
  obtain ⟨hreq, hrep⟩ := h.fresh fd (h.unread hp hserved)
  have hn : s.next (.read i) = { s with loop := s.loop.setThread i (.serving fd) } :=
    congrArg (fun loop => { s with loop := loop }) hloop
  have hthreads : ∀ j, (s.loop.setThread i (.serving fd)).threads j = if j = i then .serving fd else s.loop.threads j :=
    fun j => Function.update_apply ..
  rw [hn]
  refine ⟨hserved, ⟨fun j fd' hj => ?_, h.echoes.inside⟩, fun fd' hfd' => ?_, fun j hj => ?_, h.counted⟩
  · rw [hthreads] at hj
    split at hj
    · next e =>
      cases hj
      show s.replies fd ++ s.unsent j = (s.requests fd).map some
      rw [hreq, hrep, e, unsent_none hturn]
      rfl
    · exact h.echoes.stream j fd' hj
  · refine h.fresh fd' fun j hj => hfd' j ?_
    rw [hthreads, if_neg, hj]
    rintro rfl
    rw [hp] at hj
    cases hj
  · by_cases e : j = i
    · exact e ▸ hturn
    · refine h.idle j fun fd' hfd' => hj fd' ?_
      rw [hthreads, if_neg e, hfd']

/-- The stream of one descriptor moves, by the thread that serves it. -/
theorem Routed.turn (h : Routed s) (hserving : s.loop.threads i = .serving fd) (t : Option EchoTurn)
    (requests : List UInt8) (replies : Cells) (printed : List (Nat × Int × Option (List UInt8)))
    (hstream : replies ++ ((t.map fun t => t.buffer.take t.count.toNat).getD []) = requests.map some)
    (hcount : ∀ t', t = some t' → 0 ≤ t'.count ∧ t'.count ≤ 120) :
    Routed { s.setTurn i t with
      requests := Function.update s.requests fd requests
      replies := Function.update s.replies fd replies
      printed := printed } := by
  have hdesc : (s.loop.threads i).descriptor = some fd := by rw [hserving]; rfl
  refine ⟨h.served, ⟨fun j fd' hj => ?_, h.echoes.inside⟩, fun fd' hfd' => ?_, fun j hj => ?_, fun j t' ht' => ?_⟩
  · show Function.update s.replies fd replies fd' ++
      ((Function.update s.turns i t j).map fun t => t.buffer.take t.count.toNat).getD [] =
      (Function.update s.requests fd requests fd').map some
    by_cases e : j = i
    · subst e
      cases hdesc.symm.trans hj
      rw [Function.update_self, Function.update_self, Function.update_self]
      exact hstream
    · have hne : fd' ≠ fd := fun e' => e (h.one_thread hj (e' ▸ hdesc))
      rw [Function.update_of_ne e, Function.update_of_ne hne, Function.update_of_ne hne]
      exact h.echoes.stream j fd' hj
  · have hne : fd' ≠ fd := fun e => hfd' i (e ▸ hdesc)
    show Function.update s.requests fd requests fd' = [] ∧ Function.update s.replies fd replies fd' = []
    rw [Function.update_of_ne hne, Function.update_of_ne hne]
    exact h.fresh fd' hfd'
  · have hne : j ≠ i := fun e => hj fd (e ▸ hserving)
    exact (Function.update_of_ne hne _ _).trans (h.idle j hj)
  · by_cases e : j = i
    · subst e
      exact hcount t' ((Function.update_self (β := fun _ => Option EchoTurn) ..).symm.trans ht')
    · exact h.counted j t' ((Function.update_of_ne e _ _).symm.trans ht')

theorem Routed.recv (h : Routed s) {chunk : List UInt8} (he : s.Enabled (.recv i chunk)) :
    Routed (s.next (.recv i chunk)) := by
  obtain ⟨fd, hserving, hn⟩ := next_recv he
  obtain ⟨-, hturn, -, hlen⟩ := he
  have hstream := h.echoes.stream i fd (by rw [hserving]; rfl)
  rw [unsent_none (Option.isNone_iff_eq_none.mp hturn), List.append_nil] at hstream
  have hmoved := h.turn hserving (some { buffer := fill chunk (zeros 128), count := chunk.length })
    (s.requests fd ++ chunk) (s.replies fd) s.printed ?_ ?_
  · rw [Function.update_eq_self] at hmoved
    rw [hn]
    exact hmoved
  · rw [List.map_append, ← hstream]
    exact congrArg _ (take_fill chunk (zeros 128))
  · intro t ht
    cases ht
    exact ⟨Int.natCast_nonneg _, Int.ofNat_le.mpr hlen⟩

theorem Routed.send (h : Routed s) (he : s.Enabled (.send i)) : Routed (s.next (.send i)) := by
  obtain ⟨fd, t, hserving, hturn, hn⟩ := next_send he
  obtain ⟨hpos, hle⟩ := h.counted i t hturn
  have hinside : (0 ≤ t.count ∧ t.count ≤ 128) := ⟨hpos, by omega⟩
  have hstream := h.echoes.stream i fd (by rw [hserving]; rfl)
  unfold unsent at hstream
  rw [hturn] at hstream
  have hmoved := h.turn hserving none (s.requests fd) (s.replies fd ++ t.buffer.take t.count.toNat)
    (s.printed ++ [(fd, t.count, text t.buffer)]) ?_ ?_
  · rw [Function.update_eq_self] at hmoved
    rw [hn]
    unfold reply
    simp only [hinside, and_self, decide_true, if_true, Bool.not_true, Bool.or_false]
    exact hmoved
  · simpa using hstream
  · intro t' ht'
    cases ht'

theorem Routed.step (h : Routed s) (hs : s.step e = some s') (hreg : Regular s e) : Routed s' := by
  obtain ⟨he, rfl⟩ := step_next hs
  have hserved : ∀ e', s.loop.step e' = some (s.loop.next e') → AcceptLoop.ReadsInTime s.loop e' →
      AcceptLoop.Served (s.loop.next e') := fun e' hs' hr => (h.served.step hs').2 ((h.served.step hs').1.mpr hr)
  cases e with
  | accept fd => exact h.of_loop (hserved _ (if_pos he) trivial) (fun _ => rfl) h.idle
  | create => exact h.create (hserved _ (if_pos he) trivial)
  | read i => exact h.read he (hserved _ (if_pos he) hreg)
  | recv i chunk => exact h.recv he
  | recvFailed i => exact hreg.elim
  | recvEnd i =>
    obtain ⟨fd, hfd⟩ := Option.ne_none_iff_exists'.mp he.1
    have hserving := serving_of_clientfd hfd
    have hclose : s.loop.next (.close i) = s.loop.setThread i (.closed fd) := by
      show s.loop.closeThread i = _
      unfold AcceptLoop.closeThread
      rw [hserving]
    have hserved' := hserved (.close i) (if_pos ⟨fd, hserving⟩) trivial
    have hn : s.next (.recvEnd i) = { s with loop := s.loop.setThread i (.closed fd) } :=
      congrArg (fun loop => { s with loop := loop }) hclose
    rw [hclose] at hserved'
    rw [hn]
    have hother : ∀ j, (s.loop.setThread i (.closed fd)).threads j = if j = i then .closed fd else s.loop.threads j :=
      fun j => Function.update_apply ..
    refine h.of_loop hserved' (fun j => ?_) fun j hj => ?_
    · rw [hother]
      split
      · next e => rw [e, hserving]; rfl
      · rfl
    · by_cases e : j = i
      · exact e ▸ Option.isNone_iff_eq_none.mp he.2
      · refine h.idle j fun fd' hfd' => hj fd' ?_
        rw [hother, if_neg e, hfd']
  | send i => exact h.send he

theorem routed_init : Routed init := by
  refine ⟨AcceptLoop.served_init, ⟨fun i fd hi => ?_, rfl⟩, fun _ _ => ⟨rfl, rfl⟩, fun _ _ => rfl, fun i t ht => ?_⟩
  · cases hi
  · cases ht

/-! ## Printing -/

/-- `recv` leaves room for a `NUL`, and a failed one leaves the zeros. -/
structure Printable (s : EchoServer) : Prop where
  turns : ∀ i t, s.turns i = some t → text t.buffer ≠ none
  printed : PrintsTexts s

theorem Printable.setTurn (h : Printable s) {t : Option EchoTurn} (ht : ∀ t', t = some t' → text t'.buffer ≠ none) :
    ∀ j t', (s.setTurn i t).turns j = some t' → text t'.buffer ≠ none := by
  intro j t' hj
  by_cases e : j = i
  · subst e
    exact ht t' ((Function.update_self (β := fun _ => Option EchoTurn) ..).symm.trans hj)
  · exact h.turns j t' ((Function.update_of_ne e _ _).symm.trans hj)

theorem Printable.step (h : Printable s) (hs : s.step e = some s') : Printable s' := by
  obtain ⟨he, rfl⟩ := step_next hs
  cases e with
  | recv i chunk =>
    obtain ⟨fd, -, hn⟩ := next_recv he
    obtain ⟨-, -, -, hlen⟩ := he
    rw [hn]
    refine ⟨h.setTurn fun t ht => ?_, h.printed⟩
    cases ht
    rw [text_fill_zeros, if_pos (Or.inr (by omega))]
    exact Option.some_ne_none _
  | recvFailed i =>
    refine ⟨h.setTurn fun t ht => ?_, h.printed⟩
    cases ht
    rw [text_zeros, if_pos (by omega)]
    exact Option.some_ne_none _
  | send i =>
    obtain ⟨fd, t, -, hturn, hn⟩ := next_send he
    rw [hn]
    refine ⟨h.setTurn fun t' ht' => ?_, fun line hline => ?_⟩
    · cases ht'
    · rcases List.mem_append.mp hline with hline | hline
      · exact h.printed line hline
      · rw [List.mem_singleton.mp hline]
        exact h.turns i t hturn
  | accept fd => exact ⟨h.turns, h.printed⟩
  | create => exact ⟨h.turns, h.printed⟩
  | read i => exact ⟨h.turns, h.printed⟩
  | recvEnd i => exact ⟨h.turns, h.printed⟩

theorem printable_init : Printable init := by
  refine ⟨fun i t ht => ?_, fun line hline => ?_⟩
  · cases ht
  · cases hline

end

/-! ## Whole runs -/

/-- **Streams.** While threads read the cell in time and no `recv` fails, every descriptor is
sent back what came from it, in order and without loss, up to the turn of its thread. -/
theorem echoes_of_regular {es : List EchoStep} (hreg : Along step (fun s e _ => Regular s e) init es) :
    Always step Echoes init es :=
  always_of_along (I := Routed) (U := fun _ => True) (fun _ _ _ h _ hs hr => h.step hs hr) (fun _ h => h.echoes)
    (fun _ _ => trivial) routed_init hreg

/-- **Printing.** Whatever the threads do, each `printf` finds the end of its text in the buffer. -/
theorem printsTexts_always (es : List EchoStep) : Always step PrintsTexts init es :=
  always_of_invariant (I := Printable) (fun _ _ _ h hs => h.step hs) (fun _ h => h.printed) printable_init es

/-- Two connections, whose threads read the cell in time; each sends something. -/
def regularRun : List EchoStep :=
  [.accept 4, .create, .read 0, .accept 5, .create, .recv 0 [104, 105], .read 1, .recv 1 [33], .send 1, .send 0,
    .recv 0 [46], .recvEnd 1]

theorem echoes_of_regular_two : ∃ s, run step init regularRun = some s ∧ s.replies 4 = [some 104, some 105] ∧
    s.unsent 0 = [some 46] ∧ Echoes s := by
  refine ⟨_, rfl, rfl, rfl, Always.last regularRun _ _ (echoes_of_regular ?_) rfl⟩
  repeat refine along_cons rfl (by first | trivial | rfl) ?_
  trivial

end EchoServer

end LearningC
