import LearningC.CharArray
import LearningC.Runs
import Mathlib.Data.Finset.Basic
import Mathlib.Data.List.Nodup

/-!
# The event loop of epoll/server.cpp

One step for each turn of the inner loop, and one for each `epoll_wait`. The kernel keeps
the open descriptors with the connections behind them, and gives a closed descriptor to a
later `accept`; closing one takes it out of the interest list.
-/

namespace LearningC

open Runs CharArray

def MAX_EVENTS : Nat := 10

def BUFFER_SIZE : Nat := 1024

/-- `events` are those of the batch that the inner loop has not come to, with the connections
that `epoll_wait` found behind them. Connections are numbered in the order of `accept`;
`closed` lists them as they are closed, `requests` and `replies` what was read from each and
handed to `send` for it, and `printed` the texts after `接收：`. -/
structure EpollServer where
  serverFd : Nat
  epollFd : Nat
  running : Bool
  files : Nat → Option Nat
  interest : Finset Nat
  events : List (Nat × Option Nat)
  buffer : Cells
  accepted : Nat
  closed : List Nat
  requests : Nat → List (List UInt8)
  replies : Nat → List Cells
  printed : List (Option (List UInt8))

/-- `accept fd added` tells whether `epoll_ctl` added the descriptor, and `hangUp` is a
`read` that returns `0` or `-1`. -/
inductive EpollStep
  | wait (fds : List Nat)
  | waitFailed
  | accept (fd : Nat) (added : Bool)
  | acceptFailed
  | read (fd : Nat) (chunk : List UInt8)
  | hangUp (fd : Nat)
  deriving DecidableEq, Repr

namespace EpollServer

def init (serverFd epollFd : Nat) : EpollServer where
  serverFd := serverFd
  epollFd := epollFd
  running := true
  files := fun _ => none
  interest := {serverFd}
  events := []
  buffer := unwritten BUFFER_SIZE
  accepted := 0
  closed := []
  requests := fun _ => []
  replies := fun _ => []
  printed := []

/-- `events[i].data.fd`. -/
def current (s : EpollServer) : Option Nat := s.events.head?.map Prod.fst

def Enabled (s : EpollServer) : EpollStep → Prop
  | .wait fds => s.running = true ∧ s.events = [] ∧ fds.Nodup ∧ fds.length ≤ MAX_EVENTS ∧ ∀ fd ∈ fds, fd ∈ s.interest
  | .waitFailed => s.running = true ∧ s.events = []
  | .accept fd added => s.current = some s.serverFd ∧ s.files fd = none ∧ fd ≠ s.serverFd ∧ fd ≠ s.epollFd ∧
      (added = true → fd ∉ s.interest)
  | .acceptFailed => s.current = some s.serverFd
  | .read fd chunk => s.current = some fd ∧ fd ≠ s.serverFd ∧ (s.files fd).isSome = true ∧ chunk ≠ [] ∧
      chunk.length ≤ BUFFER_SIZE
  | .hangUp fd => s.current = some fd ∧ fd ≠ s.serverFd

instance (s : EpollServer) : (e : EpollStep) → Decidable (s.Enabled e)
  | .wait fds => inferInstanceAs (Decidable (s.running = true ∧ s.events = [] ∧ fds.Nodup ∧
      fds.length ≤ MAX_EVENTS ∧ ∀ fd ∈ fds, fd ∈ s.interest))
  | .waitFailed => inferInstanceAs (Decidable (s.running = true ∧ s.events = []))
  | .accept fd added => inferInstanceAs (Decidable (s.current = some s.serverFd ∧ s.files fd = none ∧
      fd ≠ s.serverFd ∧ fd ≠ s.epollFd ∧ (added = true → fd ∉ s.interest)))
  | .acceptFailed => inferInstanceAs (Decidable (s.current = some s.serverFd))
  | .read fd chunk => inferInstanceAs (Decidable (s.current = some fd ∧ fd ≠ s.serverFd ∧
      (s.files fd).isSome = true ∧ chunk ≠ [] ∧ chunk.length ≤ BUFFER_SIZE))
  | .hangUp fd => inferInstanceAs (Decidable (s.current = some fd ∧ fd ≠ s.serverFd))

def nextEvent (s : EpollServer) : EpollServer := { s with events := s.events.tail }

/-- `memset`. -/
def clearBuffer (s : EpollServer) : EpollServer := { s with buffer := zeros BUFFER_SIZE }

def closeFd (fd : Nat) (s : EpollServer) : EpollServer :=
  { s with
    files := Function.update s.files fd none
    interest := s.interest.erase fd
    closed := s.closed ++ (s.files fd).toList }

/-- Does nothing for a descriptor that is not open. -/
def epollCtlDel (fd : Nat) (s : EpollServer) : EpollServer :=
  if (s.files fd).isSome then { s with interest := s.interest.erase fd } else s

def epollCtlAdd (fd : Nat) (s : EpollServer) : EpollServer := { s with interest := insert fd s.interest }

/-- `accept` returns `fd` for a new connection. -/
def newSocket (fd : Nat) (s : EpollServer) : EpollServer :=
  { s with files := Function.update s.files fd (some s.accepted), accepted := s.accepted + 1 }

/-- `read`, the print, `buffer[0] = '1'` and `send`. -/
def echo (c : Nat) (chunk : List UInt8) (s : EpollServer) : EpollServer :=
  let received := fill chunk s.buffer
  let marked := received.set 0 (some 49)
  { s with
    buffer := marked
    requests := Function.update s.requests c (s.requests c ++ [chunk])
    replies := Function.update s.replies c (s.replies c ++ [marked.take chunk.length])
    printed := s.printed ++ [text received] }

def serve (fd : Nat) (chunk : List UInt8) (s : EpollServer) : EpollServer :=
  match s.files fd with
  | some c => s.echo c chunk
  | none => s

def next (s : EpollServer) : EpollStep → EpollServer
  | .wait fds => { s with events := fds.map fun fd => (fd, s.files fd) }
  | .waitFailed => { s with running := false }
  | .accept fd added =>
    if added then ((s.newSocket fd).epollCtlAdd fd).nextEvent else ((s.newSocket fd).closeFd fd).nextEvent
  | .acceptFailed => s.nextEvent
  | .read fd chunk => (s.serve fd chunk).clearBuffer.nextEvent
  | .hangUp fd => ((s.closeFd fd).epollCtlDel fd).clearBuffer.nextEvent

def step (s : EpollServer) (e : EpollStep) : Option EpollServer := if s.Enabled e then some (s.next e) else none

end EpollServer

end LearningC
