import DistBench.Bracha.Layered

/-!
# Bracha's broadcast over Dolev (bracha.py)

The handlers of `bracha_basic.py`, with three differences: broadcasts go through
the Dolev child, a node counts its own ECHO, and the node terminates when it has
delivered as many messages as it knows senders.

Definitions carry the names of the source; `Cont` lists the points at which a
coroutine is suspended in `await self.bracha(..)`.
-/

namespace DistBench.Bracha.Plain

/-- A deployment. -/
structure System extends Membership where
  isSender : PeerId → Bool
  uuid : PeerId → String

/-- A node. -/
structure NodeState where
  vars : BrachaState := {}
  expectedSenders : Finset PeerId := ∅
  terminated : Bool := false
  deliveries : List (String × String) := []

/-- What a coroutine does when `await self.bracha(..)` returns. -/
inductive Cont where
  /-- `on_start` after the SEND (line 99). -/
  | sendDone (msg : BrachaMessage)
  /-- `on_start` after the ECHO (line 108). -/
  | echoDone
  /-- `send` and `echo`: return. -/
  | handled
  /-- `ready`: the delivery test (line 184). -/
  | readyDone (msg : BrachaMessage)
deriving DecidableEq, Repr

variable (S : System)

/-- The message `on_start` broadcasts in the `SEND` phase. -/
def initialSend (i : PeerId) : BrachaMessage :=
  { phase := "send", sender := i, msgId := S.uuid i, payload := "hello - " ++ i }

/-- bracha.py:90–98, up to the suspension in the SEND. -/
def onStart (i : PeerId) (s : NodeState) : Turn NodeState Cont :=
  if S.isSender i then
    { st := { s with
        vars := s.vars.initState (S.uuid i)
        expectedSenders := insert i s.expectedSenders }
      acts := [.bracha (initialSend S i)]
      rest := some (.sendDone (initialSend S i)) }
  else { st := s }

/-- `sum(1 for d in self.delivered.values() if d)`. -/
def deliveredCount (s : NodeState) : Nat :=
  (s.vars.delivered.entries.filter fun e => e.2).length

/-- bracha.py:190–201. -/
def checkCompletion (s : NodeState) : NodeState :=
  if 0 < s.expectedSenders.card ∧ s.expectedSenders.card ≤ deliveredCount s then
    { s with terminated := true }
  else s

/-- bracha.py:152–161. -/
def send (i : PeerId) (s : NodeState) (_src : PeerId) (msg : BrachaMessage) :
    Turn NodeState Cont :=
  let v := s.vars.initState msg.msgId
  if msg.msgId ∉ v.seenMessages then
    { st := { s with vars := ((v.see msg.msgId).markSentEcho msg.msgId).addEcho msg.msgId i }
      acts := [.bracha { msg with phase := "echo" }]
      rest := some .handled }
  else { st := { s with vars := v } }

/-- bracha.py:163–171. -/
def echo (i : PeerId) (s : NodeState) (src : PeerId) (msg : BrachaMessage) :
    Turn NodeState Cont :=
  let v := (s.vars.initState msg.msgId).addEcho msg.msgId src
  if v.sentReady.get msg.msgId false = false ∧
      readyThreshold (S.N i) S.f ≤ (v.echos.get msg.msgId ∅).card then
    { st := { s with vars := v.markSentReady msg.msgId }
      acts := [.bracha { msg with phase := "ready" }]
      rest := some .handled }
  else { st := { s with vars := v } }

/-- The delivery test that ends `ready` (bracha.py:184–188). -/
def deliverIfReady (s : NodeState) (msg : BrachaMessage) : NodeState :=
  if s.vars.delivered.get msg.msgId false = false ∧
      deliverThreshold S.f ≤ (s.vars.readys.get msg.msgId ∅).card then
    checkCompletion { s with
      vars := s.vars.markDelivered msg.msgId
      deliveries := s.deliveries ++ [(msg.msgId, msg.payload)] }
  else s

/-- bracha.py:173–188, up to the suspension while broadcasting. -/
def ready (s : NodeState) (src : PeerId) (msg : BrachaMessage) : Turn NodeState Cont :=
  let v := (s.vars.initState msg.msgId).addReady msg.msgId src
  if v.sentReady.get msg.msgId false = false ∧ S.f + 1 ≤ (v.readys.get msg.msgId ∅).card then
    { st := { s with vars := v.markSentReady msg.msgId }
      acts := [.bracha msg]
      rest := some (.readyDone msg) }
  else { st := deliverIfReady S { s with vars := v } msg }

/-- bracha.py:134–149. -/
def dolevDeliver (i : PeerId) (s : NodeState) (src : PeerId) (msg : BrachaMessage) :
    Turn NodeState Cont :=
  if msg.phase = "send" then
    send i { s with expectedSenders := insert msg.sender s.expectedSenders } src msg
  else if msg.phase = "echo" then echo S i s src msg
  else if msg.phase = "ready" then ready S s src msg
  else { st := s }

/-- The rest of a coroutine once its broadcast is done. -/
def resume (i : PeerId) (s : NodeState) : Cont → Turn NodeState Cont
  | .sendDone msg =>
    { st := { s with
        vars := ((s.vars.see msg.msgId).markSentEcho msg.msgId).addEcho msg.msgId i }
      acts := [.bracha { msg with phase := "echo" }]
      rest := some .echoDone }
  | .echoDone => { st := { s with terminated := true } }
  | .handled => { st := s }
  | .readyDone msg => { st := deliverIfReady S s msg }

/-- The code of node `i`. -/
def code (i : PeerId) : Code NodeState Cont where
  onStart := onStart S i
  deliver := dolevDeliver S i
  resume := resume S i

theorem vars_checkCompletion (s : NodeState) : (checkCompletion s).vars = s.vars := by
  unfold checkCompletion
  split <;> rfl

end DistBench.Bracha.Plain
