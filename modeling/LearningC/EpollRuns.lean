import LearningC.EpollServer
import Mathlib.Logic.ExistsUnique

/-!
# Runs of the event loop

`epoll_wait` reports a descriptor once, and a descriptor that is still to be handled is
open, so no other connection can get it in the meantime. Every client gets back what it
sent, with the first byte of each chunk replaced.
-/

namespace LearningC

open Runs CharArray

namespace EpollServer

/-- Every event that is still to be handled is for a registered descriptor with the
connection behind it that `epoll_wait` reported. -/
def EventsLive (s : EpollServer) : Prop :=
  ∀ ev ∈ s.events, ev.1 ∈ s.interest ∧ s.files ev.1 = ev.2 ∧ (ev.1 = s.serverFd ∨ ev.2 ≠ none)

/-- The loop listens to the server and to all open connections, and every accepted connection
has one descriptor or has been closed once. -/
structure Accounted (s : EpollServer) : Prop where
  interest : ∀ fd, fd ∈ s.interest ↔ fd = s.serverFd ∨ s.files fd ≠ none
  once : ∀ c < s.accepted, c ∉ s.closed ∧ (∃! fd, s.files fd = some c) ∨
    s.closed.count c = 1 ∧ ∀ fd, s.files fd ≠ some c

def marked : List UInt8 → List UInt8
  | [] => []
  | _ :: bs => 49 :: bs

def Echoes (s : EpollServer) : Prop := ∀ c, s.replies c = (s.requests c).map fun chunk => (marked chunk).map some

/-- Each `read` with data prints what it has read, up to the first `NUL`. -/
def PrintsRequest (s : EpollServer) : EpollStep → EpollServer → Prop
  | .read _ chunk, s' => s'.printed = s.printed ++ [some (untilNul chunk)]
  | _, s' => s'.printed = s.printed

/-- The chunk has a `NUL`, or leaves one of an array that has been cleared. -/
def Terminated (s : EpollServer) : EpollStep → Prop
  | .read _ chunk => 0 ∈ chunk ∨ chunk.length < BUFFER_SIZE ∧ s.buffer = zeros BUFFER_SIZE
  | _ => True

/-! ## Descriptors and connections -/

/-- Descriptors have different connections, and the closed connections are the others. -/
structure Owned (files : Nat → Option Nat) (accepted : Nat) (closed : List Nat) : Prop where
  numbered : ∀ fd c, files fd = some c → c < accepted ∧ c ∉ closed
  own : ∀ fd fd' c, files fd = some c → files fd' = some c → fd = fd'
  every : ∀ c < accepted, c ∈ closed ∨ ∃ fd, files fd = some c
  past : ∀ c ∈ closed, c < accepted
  nodup : closed.Nodup

section
variable {files : Nat → Option Nat} {accepted : Nat} {closed : List Nat} {fd : Nat}

theorem Owned.accept (h : Owned files accepted closed) (hfd : files fd = none) :
    Owned (Function.update files fd (some accepted)) (accepted + 1) closed := by
  have hnew : accepted ∉ closed := fun hm => Nat.lt_irrefl _ (h.past _ hm)
  refine ⟨fun a c ha => ?_, fun a b c ha hb => ?_, fun c hc => ?_, fun c hc => ?_, h.nodup⟩
  · rw [Function.update_apply] at ha
    split at ha
    · cases ha
      exact ⟨Nat.lt_succ_self _, hnew⟩
    · exact (h.numbered a c ha).imp Nat.lt_succ_of_lt id
  · rw [Function.update_apply] at ha hb
    split at ha <;> split at hb
    · next ea eb => rw [ea, eb]
    · cases ha
      exact absurd (h.numbered b _ hb).1 (Nat.lt_irrefl _)
    · cases hb
      exact absurd (h.numbered a _ ha).1 (Nat.lt_irrefl _)
    · exact h.own a b c ha hb
  · rcases Nat.lt_succ_iff_lt_or_eq.mp hc with hc | rfl
    · refine (h.every c hc).imp id fun ⟨a, ha⟩ => ⟨a, ?_⟩
      have hne : a ≠ fd := fun e => by rw [e, hfd] at ha; cases ha
      rwa [Function.update_of_ne hne]
    · exact Or.inr ⟨fd, Function.update_self ..⟩
  · exact Nat.lt_succ_of_lt (h.past c hc)

theorem Owned.close (h : Owned files accepted closed) (fd : Nat) :
    Owned (Function.update files fd none) accepted (closed ++ (files fd).toList) := by
  have hmem : ∀ {c}, c ∈ closed ++ (files fd).toList ↔ c ∈ closed ∨ files fd = some c := by
    intro c
    rw [List.mem_append, Option.mem_toList]
  refine ⟨fun a c ha => ?_, fun a b c ha hb => ?_, fun c hc => ?_, fun c hc => ?_, ?_⟩
  · rw [Function.update_apply] at ha
    split at ha
    · cases ha
    · next hne =>
      refine ⟨(h.numbered a c ha).1, fun hc => ?_⟩
      rcases hmem.mp hc with hc | hc
      · exact (h.numbered a c ha).2 hc
      · exact hne (h.own a fd c ha hc)
  · rw [Function.update_apply] at ha hb
    split at ha
    · cases ha
    · split at hb
      · cases hb
      · exact h.own a b c ha hb
  · rcases h.every c hc with hc | ⟨a, ha⟩
    · exact Or.inl (hmem.mpr (Or.inl hc))
    · by_cases e : a = fd
      · exact Or.inl (hmem.mpr (Or.inr (e ▸ ha)))
      · exact Or.inr ⟨a, (Function.update_of_ne e _ _).trans ha⟩
  · rcases hmem.mp hc with hc | hc
    · exact h.past c hc
    · exact (h.numbered fd c hc).1
  · refine List.Nodup.append h.nodup (by cases files fd <;> simp) fun c hc hc' => ?_
    exact (h.numbered fd c (Option.mem_toList.mp hc')).2 hc

end

/-! ## What a step keeps -/

structure Sound (s : EpollServer) : Prop where
  owned : Owned s.files s.accepted s.closed
  interest : ∀ fd, fd ∈ s.interest ↔ fd = s.serverFd ∨ s.files fd ≠ none
  server : s.files s.serverFd = none
  events : ∀ ev ∈ s.events, ev.1 ∈ s.interest ∧ s.files ev.1 = ev.2
  distinct : (s.events.map Prod.fst).Nodup

section
variable {s s' : EpollServer} {e : EpollStep} {fd : Nat} {chunk : List UInt8}

theorem step_next (h : s.step e = some s') : s.Enabled e ∧ s' = s.next e :=
  Runs.guarded_some h

/-- `epoll_ctl` comes after `close`, when the descriptor is gone with its registration. -/
theorem next_hangUp (s : EpollServer) (fd : Nat) : s.next (.hangUp fd) = (s.closeFd fd).clearBuffer.nextEvent := by
  have hgone : (s.closeFd fd).epollCtlDel fd = s.closeFd fd := by
    unfold epollCtlDel closeFd
    simp
  exact congrArg (fun s => s.clearBuffer.nextEvent) hgone

theorem next_read (he : s.Enabled (.read fd chunk)) :
    ∃ c, s.files fd = some c ∧ s.next (.read fd chunk) = (s.echo c chunk).clearBuffer.nextEvent := by
  obtain ⟨c, hc⟩ := Option.isSome_iff_exists.mp he.2.2.1
  have hserve : s.serve fd chunk = s.echo c chunk := by
    unfold serve
    rw [hc]
  exact ⟨c, hc, congrArg (fun s => s.clearBuffer.nextEvent) hserve⟩

theorem events_of_current (h : s.current = some fd) : ∃ conn rest, s.events = (fd, conn) :: rest := by
  obtain ⟨ev, hev, rfl⟩ := Option.map_eq_some_iff.mp h
  obtain ⟨rest, hrest⟩ := List.head?_eq_some_iff.mp hev
  exact ⟨ev.2, rest, hrest⟩

/-- The other events of the batch do not see a change of the descriptor that is handled. -/
theorem Sound.rest (h : Sound s) {x : Option Nat} {t : Finset Nat}
    (hother : ∀ ev ∈ s.events.tail, ev.1 ≠ fd) (hinterest : ∀ a ≠ fd, a ∈ s.interest → a ∈ t) :
    (∀ ev ∈ s.events.tail, ev.1 ∈ t ∧ Function.update s.files fd x ev.1 = ev.2) ∧
      (s.events.tail.map Prod.fst).Nodup := by
  refine ⟨fun ev hev => ?_, ?_⟩
  · obtain ⟨hin, hconn⟩ := h.events ev (List.mem_of_mem_tail hev)
    rw [Function.update_of_ne (hother ev hev)]
    exact ⟨hinterest _ (hother ev hev) hin, hconn⟩
  · rw [List.map_tail]
    exact h.distinct.tail

theorem Sound.notMem_tail (h : Sound s) (hcur : s.current = some fd) : ∀ ev ∈ s.events.tail, ev.1 ≠ fd := by
  obtain ⟨conn, rest, hev⟩ := events_of_current hcur
  have hnodup := h.distinct
  rw [hev, List.map_cons, List.nodup_cons] at hnodup
  rw [hev, List.tail_cons]
  intro ev hmem e
  exact hnodup.1 (List.mem_map.mpr ⟨ev, hmem, e⟩)

theorem Sound.fresh (h : Sound s) (hfd : s.files fd = none) (hne : fd ≠ s.serverFd) : fd ∉ s.interest := by
  rw [h.interest]
  simp [hfd, hne]

theorem Sound.accept (h : Sound s) {added : Bool} (he : s.Enabled (.accept fd added)) :
    Sound (s.next (.accept fd added)) := by
  obtain ⟨-, hfd, hne, -, -⟩ := he
  have hfresh := h.fresh hfd hne
  have hother : ∀ ev ∈ s.events.tail, ev.1 ≠ fd :=
    fun ev hev e => hfresh (e ▸ (h.events ev (List.mem_of_mem_tail hev)).1)
  cases added with
  | true =>
    obtain ⟨hevents, hdistinct⟩ := h.rest (x := some s.accepted) (t := insert fd s.interest) hother
      fun a _ ha => Finset.mem_insert_of_mem ha
    refine ⟨h.owned.accept hfd, fun a => ?_, ?_, hevents, hdistinct⟩
    · show a ∈ insert fd s.interest ↔ a = s.serverFd ∨ Function.update s.files fd (some s.accepted) a ≠ none
      by_cases e : a = fd
      · subst e
        simp
      · rw [Finset.mem_insert, h.interest, Function.update_of_ne e]
        simp [e]
    · exact (Function.update_of_ne (Ne.symm hne) _ _).trans h.server
  | false =>
    have hfiles : Function.update (Function.update s.files fd (some s.accepted)) fd none = s.files := by
      rw [Function.update_idem, ← hfd, Function.update_eq_self]
    have hinterest : s.interest.erase fd = s.interest := Finset.erase_eq_of_notMem hfresh
    have howned := (h.owned.accept hfd).close fd
    refine ⟨howned, ?_, ?_, fun ev hev => ?_, ?_⟩
    · show ∀ a, a ∈ s.interest.erase fd ↔ a = s.serverFd ∨ Function.update (Function.update s.files fd _) fd none a ≠ none
      rw [hfiles, hinterest]
      exact h.interest
    · exact (congrFun hfiles _).trans h.server
    · show ev.1 ∈ s.interest.erase fd ∧ Function.update (Function.update s.files fd _) fd none ev.1 = ev.2
      rw [hfiles, hinterest]
      exact h.events ev (List.mem_of_mem_tail hev)
    · exact (h.rest (x := none) (t := s.interest) hother fun _ _ ha => ha).2

theorem Sound.hangUp (h : Sound s) (he : s.Enabled (.hangUp fd)) : Sound (s.next (.hangUp fd)) := by
  obtain ⟨hcur, hne⟩ := he
  rw [next_hangUp]
  obtain ⟨hevents, hdistinct⟩ := h.rest (x := none) (t := s.interest.erase fd) (h.notMem_tail hcur)
    fun a ha hin => Finset.mem_erase.mpr ⟨ha, hin⟩
  refine ⟨h.owned.close fd, fun a => ?_, ?_, hevents, hdistinct⟩
  · show a ∈ s.interest.erase fd ↔ a = s.serverFd ∨ Function.update s.files fd none a ≠ none
    by_cases e : a = fd
    · subst e
      simp [hne]
    · rw [Finset.mem_erase, h.interest, Function.update_of_ne e]
      simp [e]
  · exact (Function.update_of_ne (Ne.symm hne) _ _).trans h.server

theorem Sound.nextEvent (h : Sound s) : Sound s.nextEvent where
  owned := h.owned
  interest := h.interest
  server := h.server
  events := fun ev hev => h.events ev (List.mem_of_mem_tail hev)
  distinct := by
    show (s.events.tail.map Prod.fst).Nodup
    rw [List.map_tail]
    exact h.distinct.tail

theorem Sound.read (h : Sound s) (he : s.Enabled (.read fd chunk)) : Sound (s.next (.read fd chunk)) := by
  obtain ⟨c, -, hn⟩ := next_read he
  rw [hn]
  exact Sound.nextEvent ⟨h.owned, h.interest, h.server, h.events, h.distinct⟩

theorem Sound.step (h : Sound s) (hs : s.step e = some s') : Sound s' := by
  obtain ⟨he, rfl⟩ := step_next hs
  cases e with
  | wait fds =>
    obtain ⟨-, -, hnodup, -, hin⟩ := he
    refine ⟨h.owned, h.interest, h.server, fun ev hev => ?_, ?_⟩
    · obtain ⟨fd, hfd, rfl⟩ := List.mem_map.mp hev
      exact ⟨hin fd hfd, rfl⟩
    · show ((fds.map fun fd => (fd, s.files fd)).map Prod.fst).Nodup
      simpa [Function.comp_def] using hnodup
  | waitFailed => exact ⟨h.owned, h.interest, h.server, h.events, h.distinct⟩
  | accept fd added => exact h.accept he
  | acceptFailed => exact h.nextEvent
  | read fd chunk => exact h.read he
  | hangUp fd => exact h.hangUp he

theorem sound_init (serverFd epollFd : Nat) : Sound (init serverFd epollFd) := by
  refine ⟨⟨?_, ?_, ?_, ?_, List.nodup_nil⟩, fun fd => ?_, rfl, ?_, List.nodup_nil⟩ <;> simp [init]

theorem Sound.eventsLive (h : Sound s) : EventsLive s := by
  intro ev hev
  obtain ⟨hin, hconn⟩ := h.events ev hev
  refine ⟨hin, hconn, ?_⟩
  rw [← hconn]
  exact (h.interest ev.1).mp hin

theorem Sound.accounted (h : Sound s) : Accounted s := by
  refine ⟨h.interest, fun c hc => ?_⟩
  by_cases hclosed : c ∈ s.closed
  · exact Or.inr ⟨List.count_eq_one_of_mem h.owned.nodup hclosed, fun fd hfd => (h.owned.numbered fd c hfd).2 hclosed⟩
  · obtain ⟨fd, hfd⟩ := (h.owned.every c hc).resolve_left hclosed
    exact Or.inl ⟨hclosed, fd, hfd, fun fd' hfd' => h.owned.own fd' fd c hfd' hfd⟩

/-! ## Replies -/

theorem take_marked (hne : chunk ≠ []) (cells : Cells) :
    ((fill chunk cells).set 0 (some 49)).take chunk.length = (marked chunk).map some := by
  cases chunk with
  | nil => exact absurd rfl hne
  | cons b bs =>
    unfold fill
    simp [marked]

theorem Echoes.step (h : Echoes s) (hs : s.step e = some s') : Echoes s' := by
  obtain ⟨he, rfl⟩ := step_next hs
  cases e with
  | read fd chunk =>
    obtain ⟨c, -, hn⟩ := next_read he
    obtain ⟨-, -, -, hne, -⟩ := he
    rw [hn]
    intro c'
    show Function.update s.replies c _ c' = (Function.update s.requests c _ c').map _
    by_cases e : c' = c
    · subst e
      rw [Function.update_self, Function.update_self, List.map_append, h c', take_marked hne]
      rfl
    · rw [Function.update_of_ne e, Function.update_of_ne e]
      exact h c'
  | accept fd added => cases added <;> exact h
  | hangUp fd =>
    rw [next_hangUp]
    exact h
  | wait fds => exact h
  | waitFailed => exact h
  | acceptFailed => exact h

/-! ## What is printed -/

def ClearedOnce (s : EpollServer) : Prop := s.buffer = unwritten BUFFER_SIZE ∨ s.buffer = zeros BUFFER_SIZE

theorem unwritten_ne_zeros : unwritten BUFFER_SIZE ≠ zeros BUFFER_SIZE := by
  intro h
  cases congrArg List.head? h

theorem ClearedOnce.step (h : ClearedOnce s) (hs : s.step e = some s') :
    (PrintsRequest s e s' ↔ Terminated s e) ∧ ClearedOnce s' := by
  obtain ⟨he, rfl⟩ := step_next hs
  cases e with
  | read fd chunk =>
    obtain ⟨c, -, hn⟩ := next_read he
    rw [hn]
    refine ⟨?_, Or.inr rfl⟩
    show s.printed ++ [text (fill chunk s.buffer)] = s.printed ++ [some (untilNul chunk)] ↔ _
    rw [List.append_cancel_left_eq, List.singleton_inj]
    unfold Terminated
    rcases h with hb | hb
    · rw [hb, text_fill_unwritten]
      by_cases hnul : 0 ∈ chunk
      · simp [hnul]
      · simp [hnul, unwritten_ne_zeros]
    · rw [hb, text_fill_zeros]
      by_cases hend : 0 ∈ chunk ∨ chunk.length < BUFFER_SIZE
      · simp [hend]
      · simp [hend]
  | accept fd added =>
    refine ⟨iff_of_true ?_ trivial, ?_⟩
    · cases added <;> rfl
    · cases added <;> exact h
  | hangUp fd =>
    rw [next_hangUp]
    exact ⟨iff_of_true rfl trivial, Or.inr rfl⟩
  | wait fds => exact ⟨iff_of_true rfl trivial, h⟩
  | waitFailed => exact ⟨iff_of_true rfl trivial, h⟩
  | acceptFailed => exact ⟨iff_of_true rfl trivial, h⟩

end

/-! ## Whole runs -/

section
variable (serverFd epollFd : Nat) (es : List EpollStep)

/-- **Events.** No event of a batch is stale when the loop comes to it. -/
theorem eventsLive_always : Always step EventsLive (init serverFd epollFd) es :=
  always_of_invariant (fun _ _ _ h hs => h.step hs) (fun _ h => h.eventsLive) (sound_init serverFd epollFd) es

/-- **Descriptors.** The interest list is the server and the open connections, and each
connection that was accepted is open behind one descriptor or was closed once. -/
theorem interestKept_always : Always step Accounted (init serverFd epollFd) es :=
  always_of_invariant (fun _ _ _ h hs => h.step hs) (fun _ h => h.accounted) (sound_init serverFd epollFd) es

/-- **Echo.** Every client is sent its own chunks in order, each with `'1'` in the first place. -/
theorem echoes_always : Always step Echoes (init serverFd epollFd) es :=
  always_of_invariant (fun _ _ _ h hs => h.step hs) (fun _ h => h) (fun _ => rfl) es

/-- **Printing.** In a run every chunk is printed up to its first `NUL`, and nothing else is,
if and only if every chunk finds a `NUL` inside the array. -/
theorem printsRequest_iff_terminated :
    Along step PrintsRequest (init serverFd epollFd) es ↔
      Along step (fun s e _ => Terminated s e) (init serverFd epollFd) es := by
  apply along_iff (I := ClearedOnce) (U := fun _ => True) (fun s e s' h _ hs => ?_) (fun _ _ => trivial) (Or.inl rfl)
  exact ⟨(h.step hs).1, fun _ => (h.step hs).2⟩

end

end EpollServer

end LearningC
