import DistBench.Deployment
import DistBench.Lib.Dict

/-!
# The lifecycle of a node (node.py, community.py)

A node goes through six statuses. Two coroutines write its status: the monitor,
which also announces each phase to all peers, and `start`, which opens the key
exchange and, at any time after that, the shutdown. The handlers of STARTED and
FINISHED messages write it too. All of them run between one suspension point and
the next without interruption; the locks of `Community` and `Node` are never held
across a suspension, so taking one never blocks.

The node runs an arbitrary algorithm. A run of the algorithm is made of segments
(`on_start`, a handler, whatever is resumed) that may send messages to peers;
random delays, responses and tasks of its own are a matter of its state. `on_exit`
sends nothing in any algorithm of the repository and is left out.

- `NodeStatus`, `NodeMessage`, `Algorithm`, `System`.
- `NodeState`: the node with its community. `_status_changed` is an event that
  every `_set_status` sets and replaces; it is represented by its number `epoch`,
  and the event with a given number is set when the current one has another.
- `Cont`: the suspension points.
- `monitor`, `handle`, `resume`, `protocol`: the code.
-/

namespace DistBench.Lifecycle

open DistBench.Async

/-- `NodeStatus` (community.py:23–40). -/
inductive NodeStatus where
  | notStarted
  | keySharing
  | starting
  | running
  | stopping
  | terminated
deriving DecidableEq, Repr

/-- `NodeMessage`: the key exchange, the two announcements, and what algorithms
send each other. -/
inductive NodeMessage (M : Type) where
  | pubkey (key : List UInt8)
  | started
  | finished
  | algorithm (msg : M)
deriving DecidableEq, Repr

/-- An algorithm with state `A`, messages `M` and suspension points `K`. -/
structure Algorithm (A M K : Type) where
  onStart : PeerId → A → Outcome PeerId M A K
  handle : PeerId → A → PeerId → M → Outcome PeerId M A K
  resume : PeerId → A → K → Option (Outcome PeerId M A K)
  /-- The event `terminate` sets. -/
  isTerminated : A → Bool

/-- The nodes with their key pairs, the algorithm and the state each node starts
it with. -/
structure System (A M K : Type) extends Cluster where
  publicKey : PeerId → List UInt8
  algorithm : Algorithm A M K
  initialState : PeerId → A

/-- A node and its community. The three flags say that `start` has created its
tasks, and that the monitor task and the serve task are done. -/
structure NodeState (A : Type) where
  status : NodeStatus := .notStarted
  epoch : Nat := 0
  peerStatus : Dict PeerId NodeStatus := ∅
  keys : Dict PeerId (List UInt8) := ∅
  started : Bool := false
  monitorDone : Bool := false
  serveDone : Bool := false
  algorithm : A

/-- The suspension points. -/
inductive Cont (K : Type) where
  /-- `start` has not been called yet. -/
  | start
  /-- `start` in the sleeps before the key exchange (lines 289–294). -/
  | delaying
  /-- `start` in `asyncio.wait` (line 306). -/
  | waiting
  /-- The serve task. -/
  | serve
  /-- The monitor task before its first segment. -/
  | monitor
  /-- The monitor in `_status_changed.wait()` under NOT_STARTED (line 108). -/
  | notStarted (epoch : Nat)
  /-- The monitor in the `gather` or the `sleep` of KEY_SHARING (lines 118–123). -/
  | keySharing
  /-- The monitor in the `gather` or the `sleep` of STARTING (lines 135–140). -/
  | starting
  /-- The monitor in `on_start` (line 153). -/
  | onStart (k : K)
  /-- The monitor in `_status_changed.wait()` under RUNNING (line 157). -/
  | running (epoch : Nat)
  /-- The monitor in the `gather` or the `sleep` of STOPPING (lines 170–179). -/
  | stopping
  /-- A handler of an algorithm message. -/
  | handler (k : K)
deriving DecidableEq, Repr

namespace NodeState

variable {A : Type} (s : NodeState A)

/-- `_set_status` (node.py:85–97). -/
def setStatus (status : NodeStatus) : NodeState A :=
  { s with status := status, epoch := s.epoch + 1 }

/-- `Community.set_status` (community.py:155–166). -/
def setPeerStatus (peer : PeerId) (status : NodeStatus) : NodeState A :=
  { s with peerStatus := s.peerStatus.insert peer status }

/-- `Community.add_key` (community.py:228–237). -/
def addKey (peer : PeerId) (key : List UInt8) : NodeState A :=
  { s with keys := s.keys.insert peer key }

end NodeState

namespace System

variable {A M K : Type} (Y : System A M K)

/-- `all(s == status for s in statuses.values())`; `statuses` has an entry for
every peer (community.py:180–192). -/
def allStatuses (self : PeerId) (s : NodeState A) (status : NodeStatus) : Bool :=
  (Y.peers self).all fun peer => s.peerStatus.get peer .notStarted = status

/-- `Community.has_all_keys` (community.py:258–265). -/
def hasAllKeys (self : PeerId) (s : NodeState A) : Bool :=
  (Y.peers self).all fun peer => peer ∈ s.keys

/-- A message cast to every peer. -/
def broadcast (self : PeerId) (msg : NodeMessage M) : List (PeerId × NodeMessage M) :=
  (Y.peers self).map fun peer => (peer, msg)

/-- A segment of the algorithm as a segment of the node; `cont` is where the
node's coroutine is suspended after it, given where the algorithm's is. -/
def runAlgorithm (s : NodeState A) (o : Outcome PeerId M A K)
    (cont : Option K → Option (Cont K)) :
    Outcome PeerId (NodeMessage M) (NodeState A) (Cont K) where
  st := { s with algorithm := o.st }
  out := o.out.map fun dm => (dm.1, .algorithm dm.2)
  rest := cont o.rest

/-- What the monitor waits for after `on_start` has gone as far as it can. -/
def afterOnStart (epoch : Nat) : Option K → Option (Cont K)
  | some k => some (.onStart k)
  | none => some (.running epoch)

/-- One pass of the monitor's loop, up to its first suspension
(node.py:105–188). -/
def monitor (self : PeerId) (s : NodeState A) :
    Outcome PeerId (NodeMessage M) (NodeState A) (Cont K) :=
  match s.status with
  | .notStarted => { st := s, rest := some (.notStarted s.epoch) }
  | .keySharing =>
    { st := s
      out := Y.broadcast self (.pubkey (Y.publicKey self))
      rest := some .keySharing }
  | .starting => { st := s, out := Y.broadcast self .started, rest := some .starting }
  | .running =>
    runAlgorithm s (Y.algorithm.onStart self s.algorithm) (afterOnStart s.epoch)
  | .stopping => { st := s, out := Y.broadcast self .finished, rest := some .stopping }
  | .terminated => { st := { s with monitorDone := true } }

/-- `handle` (node.py:190–260). -/
def handle (self : PeerId) (s : NodeState A) (src : PeerId) :
    NodeMessage M → Outcome PeerId (NodeMessage M) (NodeState A) (Cont K)
  | msg =>
    -- `id_of` knows the addresses of the peers
    if src ∉ Y.peers self then { st := s }
    else
      match msg with
      | .pubkey key => if key ≠ [] then { st := s.addKey src key } else { st := s }
      | .started =>
        let s := s.setPeerStatus src .running
        if s.status = .starting ∧ Y.allStatuses self s .running then
          { st := s.setStatus .running }
        else { st := s }
      | .finished =>
        let s := s.setPeerStatus src .terminated
        if s.status = .stopping ∧ Y.allStatuses self s .terminated then
          { st := s.setStatus .terminated }
        else { st := s }
      | .algorithm msg =>
        runAlgorithm s (Y.algorithm.handle self s.algorithm src msg) (·.map .handler)

/-- The next segment of a suspended coroutine. -/
def resume (self : PeerId) (s : NodeState A) :
    Cont K → Option (Outcome PeerId (NodeMessage M) (NodeState A) (Cont K))
  | .start =>
    some
      { st := { s.addKey self (Y.publicKey self) with started := true }
        rest := some .delaying }
  | .delaying => some { st := s.setStatus .keySharing, rest := some .waiting }
  | .waiting =>
    if s.monitorDone ∨ s.serveDone ∨ Y.algorithm.isTerminated s.algorithm then
      some { st := s.setStatus .stopping }
    else none
  -- the server stops when the stop event is set or it fails
  | .serve => if s.started then some { st := { s with serveDone := true } } else none
  | .monitor => if s.started then some (Y.monitor self s) else none
  | .notStarted epoch => if s.epoch ≠ epoch then some (Y.monitor self s) else none
  | .keySharing =>
    if Y.hasAllKeys self s then some (Y.monitor self (s.setStatus .starting))
    else some { st := s, rest := some .keySharing }
  | .starting =>
    if Y.allStatuses self s .running then some (Y.monitor self (s.setStatus .running))
    else some { st := s, rest := some .starting }
  | .onStart k =>
    (Y.algorithm.resume self s.algorithm k).map fun o => runAlgorithm s o (afterOnStart s.epoch)
  | .running epoch => if s.epoch ≠ epoch then some (Y.monitor self s) else none
  | .stopping =>
    if Y.allStatuses self s .terminated then some (Y.monitor self (s.setStatus .terminated))
    else some { st := s, rest := some .stopping }
  | .handler k =>
    (Y.algorithm.resume self s.algorithm k).map fun o => runAlgorithm s o (·.map .handler)

/-- The code of a node. -/
def protocol : Protocol PeerId (NodeMessage M) (NodeState A) (Cont K) where
  handle := Y.handle
  resume := Y.resume

/-- Nothing has been called. The monitor and serve tasks of `start` are there
from the beginning, blocked until it creates them. -/
def initial : Config PeerId (NodeMessage M) (NodeState A) (Cont K) where
  st i := { algorithm := Y.initialState i }
  tasks _ := [.start, .monitor, .serve]
  net := []

end System

end DistBench.Lifecycle
