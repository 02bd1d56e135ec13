import DistBench.Bracha.Layered

/-!
# Optimised Bracha over Dolev (bracha_optimized.py)

`bracha.py` with three optimisations behind flags: Echo Amplification (a node
also ECHOs on `f + 1` ECHOs and on a READY), Single-hop Send (the SEND goes
straight to the neighbours' `send` handlers) and Reduced Messages (only a
committee of nodes that follow the sender in the circular order of node ids
sends ECHOs and READYs).

Definitions carry the names of the source. A flag setting that `__init__`
rejects cannot be built (`System.admissible`). Nodes run in the `HONEST`
behaviour mode; the nodes that do not are outside the protocol.

- `calculateEligibleNodes`, `shouldGenerateEcho`, `shouldGenerateReady`: the
  committees. The code consults them whatever `enable_reduced_messages` says,
  except in `send`.
- `send`, `echo`, `ready`, `onStart`: the handlers as turns, `Cont` the points at
  which they are suspended.
- `protocol`: the code over an ideal broadcast layer, which hands a message to
  every other node with the true broadcaster as its source.
-/

namespace DistBench.Bracha.Optimized

open DistBench.Async

/-- A deployment. -/
structure System extends Membership where
  isSender : PeerId → Bool
  enableEchoAmplification : Bool
  enableSingleHopSend : Bool
  enableReducedMessages : Bool
  /-- `__init__` raises a `ValueError` otherwise (lines 62–66). -/
  admissible : enableSingleHopSend = true → enableEchoAmplification = true
  numMessages : Nat
  uuid : PeerId → Nat → String
  neighbours : PeerId → Finset PeerId

/-- A node. -/
structure NodeState where
  vars : BrachaState := {}
  expectedMessages : Finset String := ∅
  terminated : Bool := false
  deliveries : List (String × String) := []

/-- Where a coroutine is suspended. -/
inductive Cont where
  /-- `on_start` in the delay before the single-hop SENDs of message `k`
  (line 189). -/
  | sleeping (k : Nat)
  /-- `on_start` in the single-hop SENDs of message `k` (line 194). -/
  | singleHop (k : Nat) (peers : List PeerId)
  /-- `on_start` in the SEND of message `k` (line 198). -/
  | sent (k : Nat)
  /-- `on_start` in the ECHO of message `k` (line 205). -/
  | echoed (k : Nat)
  /-- `send` or `echo` in its last broadcast. -/
  | handled
  /-- `echo` in the amplifying ECHO (line 291). -/
  | echoAmplified (msg : BrachaMessage)
  /-- `ready` in the generated ECHO (line 331). `will_send_ready_now` is
  `False` there. -/
  | echoGenerated (msg : BrachaMessage)
  /-- `ready` in the READY (line 340). -/
  | readyDone (msg : BrachaMessage)
deriving DecidableEq, Repr

variable (S : System)

/-! ## Committees -/

/-- The `count` node ids after the sender's in circular order (lines 79–100). -/
def calculateEligibleNodes (i sender : PeerId) (count : Nat) : Finset PeerId :=
  let allIds := (i :: S.peers i).insertionSort (· ≤ ·)
  match allIds.idxOf? sender with
  | none => ∅
  | some idx =>
    ((List.range' 1 count).filterMap fun k => allIds[(idx + k) % allIds.length]?).toFinset

/-- Lines 102–112. -/
def shouldGenerateEcho (i sender : PeerId) : Bool :=
  i ∈ calculateEligibleNodes S i sender (readyThreshold (S.N i) S.f + S.f)

/-- Lines 114–124. -/
def shouldGenerateReady (i sender : PeerId) : Bool :=
  i ∈ calculateEligibleNodes S i sender (deliverThreshold S.f + S.f)

/-! ## Handlers -/

/-- `self.register_message(msg_id)`. -/
def registerMessage (s : NodeState) (m : String) : NodeState :=
  { s with expectedMessages := insert m s.expectedMessages }

/-- `self.sent_echo[msg_id] = True; self.echos[msg_id].add(str(self.id()))`. -/
def countOwnEcho (i : PeerId) (v : BrachaState) (m : String) : BrachaState :=
  (v.markSentEcho m).addEcho m i

/-- Lines 349–358. -/
def checkCompletion (s : NodeState) : NodeState :=
  if 0 < s.expectedMessages.card ∧ s.expectedMessages.card =
      (s.expectedMessages.filter fun m => s.vars.delivered.get m false = true).card then
    { s with terminated := true }
  else s

/-- Lines 250–272. -/
def send (i : PeerId) (s : NodeState) (_src : PeerId) (msg : BrachaMessage) :
    Turn NodeState Cont :=
  let s := registerMessage { s with vars := s.vars.initState msg.msgId } msg.msgId
  if msg.msgId ∉ s.vars.seenMessages then
    let v := s.vars.see msg.msgId
    if S.enableSingleHopSend then
      if v.sentEcho.get msg.msgId false = false then
        { st := { s with vars := countOwnEcho i v msg.msgId }
          acts := [.bracha { msg with phase := "echo" }]
          rest := some .handled }
      else { st := { s with vars := v } }
    else if S.enableReducedMessages = false ∨ shouldGenerateEcho S i msg.sender = true then
      { st := { s with vars := countOwnEcho i v msg.msgId }
        acts := [.bracha { msg with phase := "echo" }]
        rest := some .handled }
    else { st := { s with vars := v } }
  else { st := s }

/-- The READY trigger that ends `echo` (lines 295–302). -/
def readyTrigger (i : PeerId) (s : NodeState) (msg : BrachaMessage) : Turn NodeState Cont :=
  if s.vars.sentReady.get msg.msgId false = false ∧
      readyThreshold (S.N i) S.f ≤ (s.vars.echos.get msg.msgId ∅).card ∧
      shouldGenerateReady S i msg.sender = true then
    { st := { s with vars := s.vars.markSentReady msg.msgId }
      acts := [.bracha { msg with phase := "ready" }]
      rest := some .handled }
  else { st := s }

/-- Lines 274–302, up to the first suspension. -/
def echo (i : PeerId) (s : NodeState) (src : PeerId) (msg : BrachaMessage) :
    Turn NodeState Cont :=
  let v := (s.vars.initState msg.msgId).addEcho msg.msgId src
  let s := registerMessage { s with vars := v } msg.msgId
  if S.enableEchoAmplification = true ∧ v.sentEcho.get msg.msgId false = false ∧
      S.f + 1 ≤ (v.echos.get msg.msgId ∅).card ∧ shouldGenerateEcho S i msg.sender = true then
    { st := { s with vars := countOwnEcho i v msg.msgId }
      acts := [.bracha { msg with phase := "echo" }]
      rest := some (.echoAmplified msg) }
  else readyTrigger S i s msg

/-- The delivery test that ends `ready` (lines 342–347). -/
def deliverIfReady (s : NodeState) (msg : BrachaMessage) : NodeState :=
  if s.vars.delivered.get msg.msgId false = false ∧
      deliverThreshold S.f ≤ (s.vars.readys.get msg.msgId ∅).card then
    checkCompletion { s with
      vars := s.vars.markDelivered msg.msgId
      deliveries := s.deliveries ++ [(msg.msgId, msg.payload)] }
  else s

/-- The rest of `ready` after the echo generation (lines 337–347). -/
def readyAmplify (s : NodeState) (msg : BrachaMessage) (willSendReadyNow : Bool) :
    Turn NodeState Cont :=
  if willSendReadyNow then
    { st := { s with vars := s.vars.markSentReady msg.msgId }
      acts := [.bracha msg]
      rest := some (.readyDone msg) }
  else { st := deliverIfReady S s msg }

/-- Lines 314–317, after the READY has been counted. -/
def willSendReadyNow (i : PeerId) (v : BrachaState) (msg : BrachaMessage) : Bool :=
  v.sentReady.get msg.msgId false = false ∧ S.f + 1 ≤ (v.readys.get msg.msgId ∅).card ∧
    shouldGenerateReady S i msg.sender = true

/-- Lines 304–347, up to the first suspension. -/
def ready (i : PeerId) (s : NodeState) (src : PeerId) (msg : BrachaMessage) :
    Turn NodeState Cont :=
  let v := (s.vars.initState msg.msgId).addReady msg.msgId src
  let s := registerMessage { s with vars := v } msg.msgId
  let will := willSendReadyNow S i v msg
  if S.enableEchoAmplification = true ∧ v.sentEcho.get msg.msgId false = false then
    let s := { s with vars := countOwnEcho i v msg.msgId }
    if will = false ∧ shouldGenerateEcho S i msg.sender = true then
      { st := s
        acts := [.bracha { msg with phase := "echo" }]
        rest := some (.echoGenerated msg) }
    else readyAmplify S s msg will
  else readyAmplify S s msg will

/-- Lines 234–248. -/
def dolevDeliver (i : PeerId) (s : NodeState) (src : PeerId) (msg : BrachaMessage) :
    Turn NodeState Cont :=
  if msg.phase = "send" then send S i s src msg
  else if msg.phase = "echo" then echo S i s src msg
  else if msg.phase = "ready" then ready S i s src msg
  else { st := s }

/-! ## Starting -/

/-- The payload of `on_start`'s message `k` (line 180). -/
def hello (i : PeerId) (k : Nat) : String := "hello - " ++ i ++ " - " ++ toString k

/-- `on_start`'s message `k` in the `SEND` phase. -/
def initialSend (i : PeerId) (k : Nat) : BrachaMessage :=
  { phase := "send", sender := i, msgId := S.uuid i k, payload := hello i k }

/-- Iteration `k` of the loop in `on_start`, up to its first suspension
(lines 173–198). -/
def startMessage (i : PeerId) (s : NodeState) (k : Nat) : Turn NodeState Cont :=
  if k < S.numMessages then
    let s := registerMessage { s with vars := s.vars.initState (S.uuid i k) } (S.uuid i k)
    if S.enableSingleHopSend then { st := s, rest := some (.sleeping k) }
    else
      { st := s
        acts := [.bracha (initialSend S i k)]
        rest := some (.sent k) }
  else { st := s }

/-- Iteration `k` after the SENDs (lines 200–205), and the start of the next one
if no ECHO is to be broadcast. -/
def afterSend (i : PeerId) (s : NodeState) (k : Nat) : Turn NodeState Cont :=
  let v := s.vars.see (S.uuid i k)
  if shouldGenerateEcho S i i then
    { st := { s with vars := countOwnEcho i v (S.uuid i k) }
      acts := [.bracha { initialSend S i k with phase := "echo" }]
      rest := some (.echoed k) }
  else startMessage S i { s with vars := v } (k + 1)

/-- Lines 131–174. -/
def onStart (i : PeerId) (s : NodeState) : Turn NodeState Cont :=
  if S.isSender i then startMessage S i s 0 else { st := s }

/-- The neighbours among the peers, in the order of the peers (lines 192–193). -/
def neighbourPeers (i : PeerId) : List PeerId :=
  (S.peers i).filter (· ∈ S.neighbours i)

/-- The single-hop SENDs of message `k` that are left (lines 192–195). -/
def singleHop (i : PeerId) (s : NodeState) (k : Nat) : List PeerId → Turn NodeState Cont
  | p :: ps =>
    { st := s
      acts := [.sendTo p (initialSend S i k)]
      rest := some (.singleHop k ps) }
  | [] => afterSend S i s k

/-- The next segment of a suspended coroutine. -/
def resume (i : PeerId) (s : NodeState) : Cont → Turn NodeState Cont
  | .sleeping k => singleHop S i s k (neighbourPeers S i)
  | .singleHop k ps => singleHop S i s k ps
  | .sent k => afterSend S i s k
  | .echoed k => startMessage S i s (k + 1)
  | .handled => { st := s }
  | .echoAmplified msg => readyTrigger S i s msg
  | .echoGenerated msg => { st := deliverIfReady S s msg }
  | .readyDone msg => { st := deliverIfReady S s msg }

/-- The code of node `i`. -/
def code (i : PeerId) : Code NodeState Cont where
  onStart := onStart S i
  deliver := dolevDeliver S i
  resume := resume S i

theorem vars_checkCompletion (s : NodeState) : (checkCompletion s).vars = s.vars := by
  unfold checkCompletion
  split <;> rfl

/-! ## Over an ideal broadcast layer -/

/-- How a message reaches a node: through the broadcast layer, or straight to a
handler. -/
inductive Method where
  | dolev
  | send
  | echo
  | ready
deriving DecidableEq, Repr

/-- A message on the wire. -/
structure Packet where
  method : Method
  msg : BrachaMessage
deriving DecidableEq, Repr

/-- Where a node's coroutines start or are suspended. -/
inductive Task where
  | onStart
  | suspended (k : Cont)
deriving DecidableEq, Repr

/-- What an action puts on the wire. -/
def transmit (i : PeerId) : Action → List (PeerId × Packet)
  | .bracha msg => (S.peers i).map fun p => (p, ⟨.dolev, msg⟩)
  | .sendTo p msg => [(p, ⟨.send, msg⟩)]

/-- A turn as a segment of the network. -/
def perform (i : PeerId) (t : Turn NodeState Cont) : Outcome PeerId Packet NodeState Task where
  st := t.st
  out := t.acts.flatMap (transmit S i)
  rest := t.rest.map .suspended

/-- The turn a message on the wire starts. -/
def receive (i : PeerId) (s : NodeState) (src : PeerId) (p : Packet) : Turn NodeState Cont :=
  match p.method with
  | .dolev => dolevDeliver S i s src p.msg
  | .send => send S i s src p.msg
  | .echo => echo S i s src p.msg
  | .ready => ready S i s src p.msg

/-- The turn a suspended coroutine goes on with. -/
def proceed (i : PeerId) (s : NodeState) : Task → Turn NodeState Cont
  | .onStart => onStart S i s
  | .suspended k => resume S i s k

/-- The algorithm as code for the network. -/
def protocol : Protocol PeerId Packet NodeState Task where
  handle i s src p := perform S i (receive S i s src p)
  resume i s t := some (perform S i (proceed S i s t))

/-- Before any `on_start` has run. -/
def initial : Config PeerId Packet NodeState Task where
  st _ := {}
  tasks _ := [.onStart]
  net := []

/-- One step of a deployment of `bracha_optimized`. -/
abbrev next : Config PeerId Packet NodeState Task → Label PeerId Packet Task →
    Option (Config PeerId Packet NodeState Task) :=
  Async.step (protocol S) S.parties

/-- A deployment's history. -/
abbrev History : Type := Trace PeerId Packet Task

end DistBench.Bracha.Optimized
