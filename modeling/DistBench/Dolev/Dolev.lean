import DistBench.Deployment
import DistBench.Lib.Dict
import DistBench.Lib.Paths

/-!
# Dolev's reliable communication (dolev.py)

A DMsg carries the path it has come on. A node records the paths of every message
id it receives, sends the message on to the neighbours that are not on the path,
and delivers the id when the message comes from its source itself (MD1) or when
the graph made of the recorded paths has `f + 1` node-disjoint paths from the
source (`distPaths`). When it delivers, it announces this to its neighbours with an
empty path (MD2), and a neighbour that has announced itself is left out of what is
sent on.

The algorithm runs on its own or as the child of another one, whose
`dolev_deliver` it awaits when it delivers. Everything here is the code of an honest
node; nodes that behave otherwise are outside the protocol.

- `DMsg`, `Broadcast`, `Network`, `DolevState`. The two functions of networkx the
  code calls are parameters, as functions of the edges that have been added.
- `Cont`: the suspension points. Every loop over the peers is suspended twice in
  each round, in `delay` and in `peer.dolev`.
- `forwardLoop`, `relay`, `announce`, `myDeliver`, `dolev`, `resume`: the code. A
  segment either stops at a suspension or goes on to the final `my_deliver` of the
  handler (`Flow`), which `settle` runs.
-/

namespace DistBench.Dolev

open DistBench.Async

/-- `DMsg` (dolev.py:14–19); the payload is a string, or a message of the parent. -/
structure DMsg (V : Type) where
  msgId : String
  source : PeerId
  payload : V
  path : List PeerId
deriving DecidableEq, Repr

/-- A broadcast of a node: by `broadcast_message`, or for the parent by
`yes_daddy_bracha`. -/
structure Broadcast (V : Type) where
  msgId : String
  payload : V
  byParent : Bool := false
deriving DecidableEq, Repr

/-- The message a broadcast sends. -/
def Broadcast.dmsg {V : Type} (b : Broadcast V) (self : PeerId) : DMsg V :=
  ⟨b.msgId, self, b.payload, []⟩

/-- What the code uses of networkx, given the edges added to the graph. -/
structure Networkx where
  hasPath : List (PeerId × PeerId) → PeerId → PeerId → Bool
  nodeConnectivity : List (PeerId × PeerId) → PeerId → PeerId → Nat

/-- `has_path` finds a path where there is one, and `node_connectivity` is the
largest number of internally disjoint paths between two nodes, the edge between
them being one. -/
structure Networkx.Exact (nx : Networkx) : Prop where
  hasPath : ∀ G s t, s ≠ t → (nx.hasPath G s t = true ↔ ∃ p, Paths.IsPath G s t p)
  nodeConnectivity : ∀ G s t, s ≠ t →
    IsGreatest {k | ∃ F, Paths.IsPacking G s t F ∧ F.card = k} (nx.nodeConnectivity G s t)

/-- The two functions, by going through all paths. -/
def Networkx.allPaths : Networkx where
  hasPath := Paths.connected
  nodeConnectivity := Paths.connectivity

theorem Networkx.allPaths_exact : Networkx.allPaths.Exact where
  hasPath _ _ _ := Paths.connected_iff
  nodeConnectivity _ _ _ := Paths.connectivity_isGreatest

/-- The nodes with their neighbours, and the broadcasts each node makes, whenever
it makes them. -/
structure Network (V : Type) extends Deployment where
  f : Nat
  neighbours : PeerId → Finset PeerId
  hasParent : Bool
  nx : Networkx
  broadcasts : PeerId → List (Broadcast V)

/-- The state of a node. -/
structure DolevState where
  paths : Dict String (List (List PeerId)) := ∅
  delivered : Finset String := ∅
  forwardedEmpty : Finset String := ∅
  neighbourDelivered : Dict String (Finset PeerId) := ∅

/-- The suspension points. `direct` tells the announcement of a delivery by MD1,
after which the handler goes on; `live` tells whether `neighbour_delivered` had an
entry when the loop took hold of it. -/
inductive Cont (V : Type) where
  /-- A broadcast that has not begun. -/
  | broadcast (b : Broadcast V)
  /-- `yes_daddy_bracha` in `delay`, about to send to `peer`. -/
  | sendTo (peer : PeerId) (rest : List PeerId) (b : Broadcast V)
  /-- A broadcast in `peer.dolev`. -/
  | broadcasting (rest : List PeerId) (b : Broadcast V)
  /-- The handler in the parent's `dolev_deliver`, after MD1. -/
  | directDelivered (msg : DMsg V)
  /-- The handler in the parent's `dolev_deliver`, after the path test. -/
  | delivered (msg : DMsg V)
  /-- The announcement in `delay`, about to send to `peer`. -/
  | emptyTo (peer : PeerId) (rest : List PeerId) (direct : Bool) (msg : DMsg V)
  /-- The announcement in `peer.dolev`. -/
  | empties (rest : List PeerId) (direct : Bool) (msg : DMsg V)
  /-- The forwarding loop in `delay`, about to send to `peer`. -/
  | forwardTo (peer : PeerId) (rest : List PeerId) (msg : DMsg V) (newPath : List PeerId)
      (live : Bool)
  /-- The forwarding loop in `peer.dolev`. -/
  | forward (rest : List PeerId) (msg : DMsg V) (newPath : List PeerId) (live : Bool)
deriving DecidableEq, Repr

-- what looking up a path among the recorded ones relies on
instance : LawfulBEq (List PeerId) := inferInstance

namespace DolevState

variable (s : DolevState) (m : String)

/-- `self.paths.setdefault(msg_id, [])`, and `append` unless it is there. -/
def addPath (path : List PeerId) : DolevState :=
  let known := s.paths.get m []
  { s with paths := s.paths.insert m (if path ∈ known then known else known ++ [path]) }

/-- `self.delivered.add(msg_id)`. -/
def deliver : DolevState := { s with delivered := insert m s.delivered }

/-- `self.forwarded_empty.add(msg_id)`. -/
def markForwardedEmpty : DolevState := { s with forwardedEmpty := insert m s.forwardedEmpty }

/-- `self.neighbour_delivered.setdefault(msg_id, set()).add(x)`. -/
def addNeighbourDelivered (x : PeerId) : DolevState :=
  { s with
    neighbourDelivered :=
      s.neighbourDelivered.insert m (insert x (s.neighbourDelivered.get m ∅)) }

end DolevState

/-- A segment, up to the final `my_deliver` of its handler: it stops before, or it
gets there in state `s`. -/
inductive Flow (V : Type) where
  | stop (o : Outcome PeerId (DMsg V) DolevState (Cont V))
  | deliver (s : DolevState) (msg : DMsg V)

/-- The first of the remaining peers that passes the test of a loop, and the ones
after it. -/
def nextPeer (test : PeerId → Bool) : List PeerId → Option (PeerId × List PeerId)
  | [] => none
  | peer :: rest => if test peer then some (peer, rest) else nextPeer test rest

namespace Network

variable {V : Type} (N : Network V)

/-- The edges `distPaths` adds to its graph (dolev.py:388–391). -/
def edges (self source : PeerId) (paths : List (List PeerId)) : List (PeerId × PeerId) :=
  paths.flatMap fun path =>
    let fullPath := source :: path ++ [self]
    fullPath.zip fullPath.tail

/-- `distPaths` (dolev.py:373–403). -/
def distPaths (self : PeerId) (paths : List (List PeerId)) (source : PeerId) : Bool :=
  let needed := N.f + 1
  let G := edges self source paths
  if paths = [] then false
  else if N.nx.hasPath G source self = false then false
  else decide (needed ≤ N.nx.nodeConnectivity G source self)

/-- The announcing loop of MD2 (dolev.py:362–371): suspended before the next
neighbour, or done. -/
def emptiesLoop (self : PeerId) (s : DolevState) (rest : List PeerId) (direct : Bool)
    (msg : DMsg V) : Outcome PeerId (DMsg V) DolevState (Cont V) ⊕ DolevState :=
  match nextPeer (fun peer => peer ∈ N.neighbours self) rest with
  | some (peer, rest) => .inl { st := s, rest := some (.emptyTo peer rest direct msg) }
  | none => .inr (s.markForwardedEmpty msg.msgId)

/-- MD2 (dolev.py:357–371). -/
def announce (self : PeerId) (s : DolevState) (direct : Bool) (msg : DMsg V) :
    Outcome PeerId (DMsg V) DolevState (Cont V) ⊕ DolevState :=
  if msg.msgId ∉ s.forwardedEmpty then
    N.emptiesLoop self (s.addNeighbourDelivered msg.msgId self) (N.peers self) direct msg
  else .inr s

/-- The end of a handler. -/
def finish : Outcome PeerId (DMsg V) DolevState (Cont V) ⊕ DolevState →
    Outcome PeerId (DMsg V) DolevState (Cont V)
  | .inl o => o
  | .inr s => { st := s }

/-- `my_deliver(msg)` (dolev.py:323–371), the call at the end of a handler. -/
def myDeliver (self : PeerId) (s : DolevState) (msg : DMsg V) :
    Outcome PeerId (DMsg V) DolevState (Cont V) :=
  if msg.msgId ∈ s.delivered ∧ msg.msgId ∈ s.forwardedEmpty then { st := s }
  else if msg.msgId ∉ s.delivered then
    if N.distPaths self (s.paths.get msg.msgId []) msg.source then
      let s := (s.deliver msg.msgId).addNeighbourDelivered msg.msgId self
      if N.hasParent then { st := s, rest := some (.delivered msg) }
      else finish (N.announce self s false msg)
    -- the announcement follows the test, whatever came of it
    else finish (N.announce self s false msg)
  else { st := s }

/-- The forwarding loop (dolev.py:311–319). -/
def forwardLoop (self : PeerId) (s : DolevState) (rest : List PeerId) (msg : DMsg V)
    (newPath : List PeerId) (live : Bool) : Flow V :=
  let deliveredNeighbours := if live then s.neighbourDelivered.get msg.msgId ∅ else ∅
  match nextPeer (fun pid => pid ∈ N.neighbours self ∧ pid ∉ newPath ∧
      pid ∉ deliveredNeighbours) rest with
  | some (peer, rest) => .stop { st := s, rest := some (.forwardTo peer rest msg newPath live) }
  | none => .deliver s msg

/-- `dolev` after MD1 (dolev.py:292–321): ND3, MD4, and what is recorded and sent on. -/
def relay (self : PeerId) (s : DolevState) (src : PeerId) (msg : DMsg V) : Flow V :=
  if msg.path = [] ∧ src ≠ msg.source then
    .stop { st := s.addNeighbourDelivered msg.msgId src }
  else if src ∈ s.neighbourDelivered.get msg.msgId ∅ ∧ src ∈ msg.path then .stop { st := s }
  else
    let newPath := msg.path ++ [src]
    let s := s.addPath msg.msgId newPath
    N.forwardLoop self s (N.peers self) msg newPath (decide (msg.msgId ∈ s.neighbourDelivered))

/-- `dolev` after the `my_deliver(msg, True)` of MD1, whose message comes from its
source. -/
def afterDirect (self : PeerId) (msg : DMsg V) :
    Outcome PeerId (DMsg V) DolevState (Cont V) ⊕ DolevState → Flow V
  | .inl o => .stop o
  | .inr s => N.relay self s msg.source msg

/-- `dolev` (dolev.py:239–321). -/
def dolev (self : PeerId) (s : DolevState) (src : PeerId) (msg : DMsg V) : Flow V :=
  if src ∉ N.neighbours self then .stop { st := s }
  -- MD5
  else if msg.msgId ∈ s.delivered ∧ msg.msgId ∈ s.forwardedEmpty then .stop { st := s }
  -- MD1
  else if src = msg.source ∧ msg.msgId ∉ s.delivered then
    let s := s.deliver msg.msgId
    if N.hasParent then .stop { st := s, rest := some (.directDelivered msg) }
    else N.afterDirect self msg (N.announce self s true msg)
  else N.relay self s src msg

/-- The loop of a broadcast: `yes_daddy_bracha` (dolev.py:193–198) waits before it
sends, `broadcast_message` (dolev.py:230–237) does not. -/
def broadcastLoop (self : PeerId) (s : DolevState) (rest : List PeerId) (b : Broadcast V) :
    Outcome PeerId (DMsg V) DolevState (Cont V) :=
  match nextPeer (fun peer => peer ∈ N.neighbours self) rest with
  | some (peer, rest) =>
    if b.byParent then { st := s, rest := some (.sendTo peer rest b) }
    else { st := s, out := [(peer, b.dmsg self)], rest := some (.broadcasting rest b) }
  | none => { st := s }

/-- The next segment of a suspended coroutine. -/
def resume (self : PeerId) (s : DolevState) : Cont V → Flow V
  | .broadcast b =>
    .stop (N.broadcastLoop self (if b.byParent then s else s.deliver b.msgId) (N.peers self) b)
  | .sendTo peer rest b =>
    .stop { st := s, out := [(peer, b.dmsg self)], rest := some (.broadcasting rest b) }
  | .broadcasting rest b => .stop (N.broadcastLoop self s rest b)
  | .directDelivered msg => N.afterDirect self msg (N.announce self s true msg)
  | .delivered msg => .stop (finish (N.announce self s false msg))
  | .emptyTo peer rest direct msg =>
    .stop
      { st := s
        out := [(peer, { msg with path := [] })]
        rest := some (.empties rest direct msg) }
  | .empties rest direct msg =>
    if direct then N.afterDirect self msg (N.emptiesLoop self s rest true msg)
    else .stop (finish (N.emptiesLoop self s rest false msg))
  | .forwardTo peer rest msg newPath live =>
    .stop
      { st := s
        out := [(peer, { msg with path := newPath })]
        rest := some (.forward rest msg newPath live) }
  | .forward rest msg newPath live => N.forwardLoop self s rest msg newPath live

/-- A whole segment. -/
def settle (self : PeerId) : Flow V → Outcome PeerId (DMsg V) DolevState (Cont V)
  | .stop o => o
  | .deliver s msg => N.myDeliver self s msg

/-- The code of an honest node. -/
def protocol : Protocol PeerId (DMsg V) DolevState (Cont V) where
  handle self s src msg := N.settle self (N.dolev self s src msg)
  resume self s t := some (N.settle self (N.resume self s t))

/-- No broadcast has begun. -/
def initial : Config PeerId (DMsg V) DolevState (Cont V) where
  st _ := {}
  tasks i := (N.broadcasts i).map .broadcast
  net := []

end Network

/-- A source, a target and two nodes between them, one of them Byzantine, are four nodes. -/
theorem nodup_relayed : (["s", "a", "t"] ++ ["b"] : List PeerId).Nodup := by decide

end DistBench.Dolev
