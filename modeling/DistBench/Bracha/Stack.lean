import DistBench.Bracha.OptimizedProgress
import DistBench.Dolev.OwnMessages
import DistBench.Lib.Shadows

/-!
# Bracha on top of Dolev

A node of `bracha_optimized.py` with the Dolev child it broadcasts through. A message for
the `dolev` handler is passed on to the child; when the child delivers, it awaits the
parent's `dolev_deliver`, whose handlers await the child's `yes_daddy_bracha` to broadcast.
The code of both is that of their own models: here is what they do to each other.

A coroutine is therefore a stack of calls, and `Task` says which code is on top. A call
that returns without having been suspended is treated as if it might have been: the
segments are cut at the calls between the two, so that every step is a segment of one of
them. These are more interleavings than there are.

- `System`, `System.child`: a deployment, and its child network.
- `Task`, `protocol`: the code.
- `brachaLabel`, `dolevLabel`: what a step is to the parent and to the child.
-/

namespace DistBench.Bracha.Stack

open DistBench.Async
open DistBench.Bracha.Optimized (Cont)
open DistBench.Dolev (DMsg DolevState)

/-- A deployment. The child has its own `f`. -/
structure System extends Optimized.System where
  dolevF : Nat
  nx : Dolev.Networkx
  /-- `neighbours.discard(node_id)` (main.py:192, 338). -/
  irrefl : ∀ i, i ∉ neighbours i

/-- The Dolev children, and the broadcasts they are asked for. -/
def System.child (S : System) (broadcasts : PeerId → List (Dolev.Broadcast BrachaMessage)) :
    Dolev.Network BrachaMessage where
  toDeployment := S.toDeployment
  f := S.dolevF
  neighbours := S.neighbours
  hasParent := true
  nx := S.nx
  broadcasts := broadcasts

/-- A message on the wire: for the `dolev` handler, or for one of the parent's own. -/
inductive Packet where
  | dolev (msg : DMsg BrachaMessage)
  | direct (p : Optimized.Packet)
deriving DecidableEq, Repr

/-- A node. -/
structure NodeState where
  bracha : Optimized.NodeState := {}
  dolev : DolevState := {}

/-- Where a coroutine of the child is suspended. -/
abbrev Below : Type := Dolev.Cont BrachaMessage

/-- A coroutine. `caller` is the child's handler that awaits `dolev_deliver`. -/
inductive Task where
  | onStart
  /-- The child's code, with nothing above it. -/
  | dolev (t : Below)
  /-- The child's handler, about to call `dolev_deliver`. -/
  | deliver (t : Below)
  /-- The parent's code. -/
  | bracha (k : Cont) (caller : Option Below)
  /-- The parent's code, awaiting the child's broadcast `t`. -/
  | awaiting (t : Below) (k : Cont) (caller : Option Below)
deriving DecidableEq, Repr

/-- What a segment leaves behind. -/
abbrev Seg : Type := Outcome PeerId Packet NodeState Task

/-- `yes_daddy_bracha(bracha_msg)` (dolev.py:174–198): the broadcast it makes. -/
def yesDaddyBracha (i : PeerId) (msg : BrachaMessage) : Dolev.Broadcast BrachaMessage where
  msgId := msg.msgId ++ ":" ++ msg.phase ++ ":" ++ i
  payload := msg
  byParent := true

/-- What an action of the parent puts on the wire. -/
def transmit : Action → List (PeerId × Packet)
  | .bracha _ => []
  | .sendTo p msg => [(p, .direct ⟨.send, msg⟩)]

/-- A turn of the parent's code: it awaits a broadcast, is suspended otherwise, or returns to
the child's handler that has called it. -/
def parent (i : PeerId) (d : DolevState) (t : Turn Optimized.NodeState Cont)
    (caller : Option Below) : Seg where
  st := ⟨t.st, d⟩
  out := t.acts.flatMap transmit
  rest :=
    match t.acts, t.rest with
    | .bracha msg :: _, some k => some (.awaiting (.broadcast (yesDaddyBracha i msg)) k caller)
    | _, some k => some (.bracha k caller)
    | _, none => caller.map .dolev

/-- A segment of the child's code; `rest` wraps what is suspended. -/
def child (s : NodeState) (o : Dolev.Seg BrachaMessage) (rest : Option Below → Option Task) :
    Seg where
  st := ⟨s.bracha, o.st⟩
  out := o.out.map (Prod.map id .dolev)
  rest := rest o.rest

/-- A handler of the child is suspended, or about to call the parent. -/
def park (t : Below) : Task := if t.handed.isSome then .deliver t else .dolev t

variable (S : System)

/-- The child's code; the broadcasts it will be asked for are no part of it. -/
def dolevCode : Protocol PeerId (DMsg BrachaMessage) DolevState Below :=
  (S.child fun _ => []).protocol

/-- A segment of the child's broadcast, which returns to the parent. -/
def returning (k : Cont) (caller : Option Below) : Option Below → Option Task
  | some t => some (.awaiting t k caller)
  | none => some (.bracha k caller)

/-- The handlers of a node. -/
def handle (i : PeerId) (s : NodeState) (src : PeerId) : Packet → Seg
  | .dolev msg => child s ((dolevCode S).handle i s.dolev src msg) (Option.map park)
  | .direct p => parent i s.dolev (Optimized.receive S.toSystem i s.bracha src p) none

/-- The next segment of a coroutine. -/
def resume (i : PeerId) (s : NodeState) : Task → Option Seg
  | .onStart => some (parent i s.dolev (Optimized.onStart S.toSystem i s.bracha) none)
  | .dolev t => ((dolevCode S).resume i s.dolev t).map (child s · (Option.map park))
  | .deliver t => t.handed.map fun msg => parent i s.dolev
      (Optimized.dolevDeliver S.toSystem i s.bracha msg.source msg.payload) (some t)
  | .bracha k caller => some (parent i s.dolev (Optimized.resume S.toSystem i s.bracha k) caller)
  | .awaiting t k caller => ((dolevCode S).resume i s.dolev t).map (child s · (returning k caller))

/-- The two algorithms as code for the network. -/
def protocol : Protocol PeerId Packet NodeState Task where
  handle := handle S
  resume := resume S

/-- Before any `on_start` has run. -/
def initial : Config PeerId Packet NodeState Task where
  st _ := {}
  tasks _ := [.onStart]
  net := []

/-- One step of a deployment. -/
abbrev next : Config PeerId Packet NodeState Task → Label PeerId Packet Task →
    Option (Config PeerId Packet NodeState Task) :=
  Async.step (protocol S) S.parties

/-- A deployment's history. -/
abbrev History : Type := Trace PeerId Packet Task

/-! ## What a step is to the parent and to the child -/

/-- To the parent, a delivery of its child is a message of the broadcast layer, and anybody's
word if it is a Byzantine node's. -/
def brachaLabel : Label PeerId Packet Task → Option (Label PeerId Optimized.Packet Optimized.Task)
  | .recv ⟨src, dst, .direct p⟩ => some (.recv ⟨src, dst, p⟩)
  | .forge ⟨src, dst, .direct p⟩ => some (.forge ⟨src, dst, p⟩)
  | .wake i .onStart => some (.wake i .onStart)
  | .wake i (.deliver t) => t.handed.map fun msg =>
    if msg.source ∈ S.parties.byz then .forge ⟨msg.source, i, .dolev, msg.payload⟩
    else .recv ⟨msg.source, i, .dolev, msg.payload⟩
  | .wake i (.bracha k _) => some (.wake i (.suspended k))
  | _ => none

def dolevLabel : Label PeerId Packet Task → Option (Dolev.Action BrachaMessage)
  | .recv ⟨src, dst, .dolev msg⟩ => some (.recv ⟨src, dst, msg⟩)
  | .forge ⟨src, dst, .dolev msg⟩ => some (.forge ⟨src, dst, msg⟩)
  | .wake i (.dolev t) => some (.wake i t)
  | .wake i (.awaiting t _ _) => some (.wake i t)
  | _ => none

end DistBench.Bracha.Stack
