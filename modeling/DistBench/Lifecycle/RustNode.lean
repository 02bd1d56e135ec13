import DistBench.Lifecycle.Node

/-!
# The lifecycle of a node in the Rust implementation (node.rs, community.rs)

The same six statuses and the same announcements as in the Python implementation,
with two differences that matter. The tasks of a node run in parallel, so every
access to the shared status and to the peer table is a segment of its own: a
handler of `Started` first writes the table, then reads the status, then reads the
table, then writes the status. And `Community::statuses` returns the entries that
have been recorded, not one entry for every peer.

- `Message`, `System`, `NodeState`, `Cont`. The status is a watch channel: `send`
  writes it and increments its version, and `changed` waits until the version is
  not the one last seen. `select!` looks at its branches in a random order, given
  here by a stream of coins.
- `allRecorded`: the test before a transition, as the code makes it.
- `monitor`, `handle`, `resume`, `protocol`: the code.
-/

namespace DistBench.RustLifecycle

open DistBench.Async DistBench.Lifecycle

/-- `NodeMessage` (messages.rs:14–31). -/
inductive Message (M : Type) where
  | started
  | finished
  | announcePubKey (key : List UInt8)
  | algorithm (msg : M)
deriving DecidableEq, Repr

/-- The nodes with their keys, the algorithm and the state each node starts it with,
and the coins of `select!`. -/
structure System (A M K : Type) extends Cluster where
  pubkey : PeerId → List UInt8
  algorithm : Algorithm A M K
  initialState : PeerId → A
  coin : PeerId → Nat → Bool

/-- A node and its community. `started` says that `start` has spawned its tasks,
`coins` how many coins have been used. -/
structure NodeState (A : Type) where
  status : NodeStatus := .notStarted
  version : Nat := 0
  peerStatus : Dict PeerId NodeStatus := ∅
  keys : Dict PeerId (List UInt8) := ∅
  started : Bool := false
  coins : Nat := 0
  algorithm : A

/-- The local variables of `monitor`: the version its receiver has seen last, and
its two flags. -/
structure Loop where
  seen : Nat := 0
  algoTerminated : Bool := false
  onStartCalled : Bool := false
deriving DecidableEq, Repr

/-- The suspension points, and the points between two accesses to what the tasks of
a node share. -/
inductive Cont (K : Type) where
  /-- `start` has not been called yet. -/
  | start
  /-- `start` in the sleep before the key exchange (line 483). -/
  | delaying
  /-- The transport, which terminates the node when it is told to stop. -/
  | serve
  /-- `monitor` at the head of its loop. -/
  | monitor (loop : Loop)
  /-- `monitor` in the `join_all` of KeySharing. -/
  | announcedKey (loop : Loop)
  /-- `monitor` in the sleep before Starting. -/
  | grace (loop : Loop)
  /-- `monitor` in the `join_all` of Starting. -/
  | announcedStarted (loop : Loop)
  /-- `monitor` after the test, before it sends Running. -/
  | becomeRunning (loop : Loop)
  /-- `monitor` in `on_start`. -/
  | onStart (k : K) (loop : Loop)
  /-- `monitor` in the `join_all` of Stopping. -/
  | announcedFinished (loop : Loop)
  /-- `monitor` after the test, before it sends Terminated. -/
  | becomeTerminated (loop : Loop)
  /-- `monitor` in the `changed` or the `select!` at the end of its loop. -/
  | wait (loop : Loop)
  /-- A handler of `Started` before it reads the status. -/
  | startedCheck
  /-- A handler of `Started` before it reads the table. -/
  | startedStatuses
  /-- A handler of `Started` before it sends Running. -/
  | sendRunning
  /-- A handler of `Finished` before it reads the status. -/
  | finishedCheck
  /-- A handler of `Finished` before it reads the table. -/
  | finishedStatuses
  /-- A handler of `Finished` before it sends Terminated. -/
  | sendTerminated
  /-- A handler of `AnnouncePubKey` before it reads the key store. -/
  | keyCheck
  /-- A handler of `AnnouncePubKey` in the sleep before Starting. -/
  | keyGrace
  /-- A handler of an algorithm message. -/
  | handler (k : K)
deriving DecidableEq, Repr

namespace NodeState

variable {A : Type} (s : NodeState A)

/-- `status_tx.send`. -/
def send (status : NodeStatus) : NodeState A :=
  { s with status := status, version := s.version + 1 }

/-- `Community::set_status` (community.rs:124–131). -/
def setPeerStatus (peer : PeerId) (status : NodeStatus) : NodeState A :=
  { s with peerStatus := s.peerStatus.insert peer status }

/-- `Community::set_pubkey`. -/
def setPubkey (peer : PeerId) (key : List UInt8) : NodeState A :=
  { s with keys := s.keys.insert peer key }

/-- `statuses.values().all(|status| *status == ..)`; `statuses` has the entries of
`peer_status` (community.rs:133–144). -/
def allRecorded (status : NodeStatus) : Bool :=
  s.peerStatus.entries.all fun entry => entry.2 = status

end NodeState

namespace System

variable {A M K : Type} (Y : System A M K)

/-- `Community::keystore_full` (community.rs:186–188). -/
def keystoreFull (self : PeerId) (s : NodeState A) : Bool :=
  (Y.peers self).all fun peer => peer ∈ s.keys

/-- A message for every peer. -/
def announce (self : PeerId) (msg : Message M) : List (PeerId × Message M) :=
  (Y.peers self).map fun peer => (peer, msg)

/-- A segment of the algorithm as a segment of the node; `cont` is where the node's
task is after it, given where the algorithm's is. -/
def runAlgorithm (s : NodeState A) (o : Outcome PeerId M A K)
    (cont : Option K → Option (Cont K)) : Outcome PeerId (Message M) (NodeState A) (Cont K) where
  st := { s with algorithm := o.st }
  out := o.out.map fun dm => (dm.1, .algorithm dm.2)
  rest := cont o.rest

/-- Where `monitor` is after a segment of `on_start`. -/
def afterOnStart (loop : Loop) : Option K → Option (Cont K)
  | some k => some (.onStart k loop)
  | none => some (.wait { loop with onStartCalled := true })

/-- `monitor` from the head of its loop: it reads the status, marks it as seen, and
announces it (node.rs:325–409). -/
def monitor (self : PeerId) (s : NodeState A) (loop : Loop) :
    Outcome PeerId (Message M) (NodeState A) (Cont K) :=
  let loop := { loop with seen := s.version }
  match s.status with
  | .keySharing =>
    { st := s
      out := Y.announce self (.announcePubKey (Y.pubkey self))
      rest := some (.announcedKey loop) }
  | .starting =>
    { st := s, out := Y.announce self .started, rest := some (.announcedStarted loop) }
  | .running =>
    if loop.onStartCalled then { st := s, rest := some (.wait loop) }
    else runAlgorithm s (Y.algorithm.onStart self s.algorithm) (afterOnStart loop)
  | .stopping =>
    { st := s, out := Y.announce self .finished, rest := some (.announcedFinished loop) }
  | .terminated => { st := s }
  | .notStarted => { st := s, rest := some (.wait loop) }

/-- The end of `monitor`'s loop (node.rs:411–433): a new status, or the end of the
algorithm, which it looks for until it has seen it. -/
def awaitChange (self : PeerId) (s : NodeState A) (loop : Loop) :
    Option (Outcome PeerId (Message M) (NodeState A) (Cont K)) :=
  let changed := s.version ≠ loop.seen
  let terminated := loop.algoTerminated = false ∧ Y.algorithm.isTerminated s.algorithm
  let next := { s with coins := s.coins + 1 }
  if changed ∧ (terminated → Y.coin self s.coins) then
    some { st := next, rest := some (.monitor loop) }
  else if terminated then
    some
      { st := next.send .stopping
        rest := some (.monitor { loop with algoTerminated := true }) }
  else none

/-- `handle` (node.rs:499–615), up to the first access after the first write. -/
def handle (self : PeerId) (s : NodeState A) (src : PeerId) (msg : Message M) :
    Outcome PeerId (Message M) (NodeState A) (Cont K) :=
  -- `id_of` knows the addresses of the peers
  if src ∉ Y.peers self then { st := s }
  else
    match msg with
    | .algorithm msg =>
      if s.status = .notStarted ∨ s.status = .keySharing then { st := s }
      else runAlgorithm s (Y.algorithm.handle self s.algorithm src msg) (·.map .handler)
    | .started => { st := s.setPeerStatus src .running, rest := some .startedCheck }
    | .finished => { st := s.setPeerStatus src .terminated, rest := some .finishedCheck }
    | .announcePubKey key => { st := s.setPubkey src key, rest := some .keyCheck }

/-- The next segment of a task. -/
def resume (self : PeerId) (s : NodeState A) :
    Cont K → Option (Outcome PeerId (Message M) (NodeState A) (Cont K))
  | .start => some { st := { s with started := true }, rest := some .delaying }
  | .delaying => some { st := s.send .keySharing }
  | .serve => if s.started then some { st := s.send .stopping, rest := some .serve } else none
  | .monitor loop => if s.started then some (Y.monitor self s loop) else none
  | .announcedKey loop =>
    some { st := s, rest := some (if Y.keystoreFull self s then .grace loop else .wait loop) }
  | .grace loop => some { st := s.send .starting, rest := some (.wait loop) }
  | .announcedStarted loop =>
    some
      { st := s
        rest := some (if s.allRecorded .running then .becomeRunning loop else .wait loop) }
  | .becomeRunning loop => some { st := s.send .running, rest := some (.wait loop) }
  | .onStart k loop =>
    (Y.algorithm.resume self s.algorithm k).map fun o => runAlgorithm s o (afterOnStart loop)
  | .announcedFinished loop =>
    some
      { st := s
        rest := some (if s.allRecorded .terminated then .becomeTerminated loop else .wait loop) }
  | .becomeTerminated loop => some { st := s.send .terminated, rest := some (.wait loop) }
  | .wait loop => Y.awaitChange self s loop
  | .startedCheck =>
    some { st := s, rest := if s.status = .starting then some .startedStatuses else none }
  | .startedStatuses =>
    some { st := s, rest := if s.allRecorded .running then some .sendRunning else none }
  | .sendRunning => some { st := s.send .running }
  | .finishedCheck =>
    some { st := s, rest := if s.status = .stopping then some .finishedStatuses else none }
  | .finishedStatuses =>
    some { st := s, rest := if s.allRecorded .terminated then some .sendTerminated else none }
  | .sendTerminated => some { st := s.send .terminated }
  | .keyCheck =>
    some
      { st := s
        rest :=
          if Y.keystoreFull self s ∧ s.status = .keySharing then some .keyGrace else none }
  | .keyGrace => some { st := s.send .starting }
  | .handler k =>
    (Y.algorithm.resume self s.algorithm k).map fun o => runAlgorithm s o (·.map .handler)

/-- The code of a node. -/
def protocol : Protocol PeerId (Message M) (NodeState A) (Cont K) where
  handle := Y.handle
  resume := Y.resume

/-- Every node has been built, with its own key in its key store; the tasks that
`start` spawns are there from the beginning, blocked until it does. -/
def initial : Config PeerId (Message M) (NodeState A) (Cont K) where
  st i :=
    { keys := AList.insert i (Y.pubkey i) ∅
      algorithm := Y.initialState i }
  tasks _ := [.start, .monitor {}, .serve]
  net := []

end System

end DistBench.RustLifecycle
