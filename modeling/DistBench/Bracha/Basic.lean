import DistBench.Bracha.State

/-!
# Bracha's broadcast without a broadcast layer (bracha_basic.py)

Every message goes straight to every peer over the transport, so the source a
handler sees is the transport identity of the sender.

`await self.bracha(method, msg)` sends to one peer after the other and is
suspended at every send (bracha_basic.py:63–65). A coroutine is therefore
suspended at a `Task.bracha`: the method and message being broadcast, the peers
still to be served, and what the coroutine does after the loop (`Cont`).

- `send`, `echo`, `ready`: the handlers up to their first suspension.
- `afterBracha`: what follows the `await` in each of the four callers.
- `View`, `Move`: one node seen message by message, and everything a segment of
  its code can do to it. `move_of_segment` is the refinement of the dictionary
  code by these moves; the invariants are proved about moves.
-/

namespace DistBench.Bracha

open DistBench.Async

namespace Basic

/-- A run's parameters: who broadcasts, and the `uuid4` each sender's `on_start`
draws. -/
structure System extends Membership where
  isSender : PeerId → Bool
  uuid : PeerId → String
  uuid_inj : ∀ i ∈ parties.nodes, ∀ j ∈ parties.nodes, uuid i = uuid j → i = j

/-- The handlers a message can name. -/
inductive Method where
  | send
  | echo
  | ready
deriving DecidableEq, Repr

/-- A message on the wire: the handler it is for and its content. -/
structure Packet where
  method : Method
  msg : BrachaMessage
deriving DecidableEq, Repr

/-- What a coroutine does when `await self.bracha(..)` returns. -/
inductive Cont where
  /-- `on_start` after the SENDs: broadcast the ECHO (line 57). -/
  | sendDone (msg : BrachaMessage)
  /-- `on_start` after the ECHOs: return. -/
  | echoDone
  /-- `send` and `echo`: return. -/
  | handled
  /-- `ready`: the delivery test (line 99). -/
  | readyDone (msg : BrachaMessage)
deriving DecidableEq, Repr

/-- Where a coroutine can be suspended. -/
inductive Task where
  | onStart
  | bracha (method : Method) (msg : BrachaMessage) (peers : List PeerId) (k : Cont)
deriving DecidableEq, Repr

/-- A node: its dictionaries, and the `(msg_id, payload)` of its
`BRACHA DELIVERED` lines. -/
structure NodeState where
  vars : BrachaState := {}
  deliveries : List (String × String) := []

/-- A segment of a node's code. -/
abbrev Seg : Type := Outcome PeerId Packet NodeState Task

variable (S : System)

/-- The payload `on_start` broadcasts (line 54). -/
def hello (i : PeerId) : String := "hello - " ++ i

/-- The message `on_start` broadcasts in the `SEND` phase. -/
def initialSend (i : PeerId) : BrachaMessage :=
  { phase := "send", sender := i, msgId := S.uuid i, payload := hello i }

/-- `await self.bracha(method, msg)`, about to serve the first peer. -/
def bracha (i : PeerId) (method : Method) (msg : BrachaMessage) (k : Cont) : Task :=
  .bracha method msg (S.peers i) k

/-- bracha_basic.py:69–77. -/
def send (i : PeerId) (s : NodeState) (_src : PeerId) (msg : BrachaMessage) : Seg :=
  let v := s.vars.initState msg.msgId
  if msg.msgId ∉ v.seenMessages then
    { st := { s with vars := (v.see msg.msgId).markSentEcho msg.msgId }
      rest := some (bracha S i .echo { msg with phase := "echo" } .handled) }
  else { st := { s with vars := v } }

/-- bracha_basic.py:80–87. -/
def echo (i : PeerId) (s : NodeState) (src : PeerId) (msg : BrachaMessage) : Seg :=
  let v := (s.vars.initState msg.msgId).addEcho msg.msgId src
  if v.sentReady.get msg.msgId false = false ∧
      readyThreshold (S.N i) S.f ≤ (v.echos.get msg.msgId ∅).card then
    { st := { s with vars := v.markSentReady msg.msgId }
      rest := some (bracha S i .ready { msg with phase := "ready" } .handled) }
  else { st := { s with vars := v } }

/-- The delivery test that ends `ready` (bracha_basic.py:99–101). -/
def deliverIfReady (s : NodeState) (msg : BrachaMessage) : NodeState :=
  if s.vars.delivered.get msg.msgId false = false ∧
      deliverThreshold S.f ≤ (s.vars.readys.get msg.msgId ∅).card then
    { vars := s.vars.markDelivered msg.msgId
      deliveries := s.deliveries ++ [(msg.msgId, msg.payload)] }
  else s

/-- bracha_basic.py:90–101, up to the suspension while broadcasting. -/
def ready (i : PeerId) (s : NodeState) (src : PeerId) (msg : BrachaMessage) : Seg :=
  let v := (s.vars.initState msg.msgId).addReady msg.msgId src
  if v.sentReady.get msg.msgId false = false ∧ S.f + 1 ≤ (v.readys.get msg.msgId ∅).card then
    { st := { s with vars := v.markSentReady msg.msgId }
      rest := some (bracha S i .ready msg (.readyDone msg)) }
  else { st := deliverIfReady S { s with vars := v } msg }

/-- Dispatch on the handler name (decorators.py:438–456). -/
def handle (i : PeerId) (s : NodeState) (src : PeerId) (p : Packet) : Seg :=
  match p.method with
  | .send => send S i s src p.msg
  | .echo => echo S i s src p.msg
  | .ready => ready S i s src p.msg

/-- bracha_basic.py:46–56, up to the suspension while sending. -/
def onStart (i : PeerId) (s : NodeState) : Seg :=
  if S.isSender i then
    { st := { s with vars := s.vars.initState (S.uuid i) }
      rest := some (bracha S i .send (initialSend S i) (.sendDone (initialSend S i))) }
  else { st := s }

/-- The rest of a coroutine once its broadcast loop has ended. -/
def afterBracha (i : PeerId) (s : NodeState) : Cont → Seg
  | .sendDone msg =>
    { st := { s with vars := (s.vars.see msg.msgId).markSentEcho msg.msgId }
      rest := some (bracha S i .echo { msg with phase := "echo" } .echoDone) }
  | .echoDone => { st := s }
  | .handled => { st := s }
  | .readyDone msg => { st := deliverIfReady S s msg }

/-- The next segment of a suspended coroutine. -/
def resume (i : PeerId) (s : NodeState) : Task → Seg
  | .onStart => onStart S i s
  | .bracha method msg (p :: ps) k =>
    { st := s, out := [(p, ⟨method, msg⟩)], rest := some (.bracha method msg ps k) }
  | .bracha _ _ [] k => afterBracha S i s k

/-- The algorithm as code for the network. -/
def protocol : Protocol PeerId Packet NodeState Task where
  handle := handle S
  resume i s t := some (resume S i s t)

/-- Before any `on_start` has run. -/
def initial : Config PeerId Packet NodeState Task where
  st _ := {}
  tasks _ := [.onStart]
  net := []

/-- One step of a deployment of `bracha_basic`. -/
abbrev next : Config PeerId Packet NodeState Task → Label PeerId Packet Task →
    Option (Config PeerId Packet NodeState Task) :=
  Async.step (protocol S) S.parties

/-- A deployment's history. -/
abbrev History : Type := Trace PeerId Packet Task

/-- The labels of a broadcast loop that runs to its end undisturbed. -/
def broadcast (i : PeerId) (method : Method) (msg : BrachaMessage) (k : Cont) : History :=
  (S.peers i).tails.map fun ps => .wake i (.bracha method msg ps k)

/-! ## A node seen message by message -/

/-- A node's state as its handlers read it. -/
structure View where
  seen : Finset String
  slot : String → Slot
  deliveries : List (String × String)

/-- Write one message's slot. -/
def View.set (v : View) (m : String) (x : Slot) : View :=
  { v with slot := Function.update v.slot m x }

/-- The view of a node's dictionaries. -/
def NodeState.view (s : NodeState) : View where
  seen := s.vars.seenMessages
  slot := s.vars.slot
  deliveries := s.deliveries

@[simp] theorem View.set_seen (v : View) (m : String) (x : Slot) : (v.set m x).seen = v.seen := rfl

@[simp] theorem View.set_deliveries (v : View) (m : String) (x : Slot) :
    (v.set m x).deliveries = v.deliveries := rfl

@[simp] theorem View.set_slot_self (v : View) (m : String) (x : Slot) :
    (v.set m x).slot m = x := Function.update_self ..

theorem View.set_slot_of_ne {v : View} {m k : String} {x : Slot} (h : k ≠ m) :
    (v.set m x).slot k = v.slot k := Function.update_of_ne h ..

/-- A field that a write leaves alone in its slot is left alone in every slot. -/
theorem View.map_set_slot {α : Type} (g : Slot → α) {v : View} {m : String} {x : Slot}
    (hx : g x = g (v.slot m)) (k : String) : g ((v.set m x).slot k) = g (v.slot k) := by
  by_cases hk : k = m
  · subst hk
    rw [View.set_slot_self, hx]
  · rw [View.set_slot_of_ne hk]

/-- What starts or continues a coroutine. -/
inductive Event where
  | handle (src : PeerId) (p : Packet)
  | resume (t : Task)

/-- What a label starts or continues, whoever sent the message. -/
def event : Label PeerId Packet Task → Event
  | .recv e => .handle e.src e.msg
  | .forge e => .handle e.src e.msg
  | .wake _ t => .resume t

/-- The delivery test, on the view. -/
inductive Deliver (v : View) (msg : BrachaMessage) : View → Prop
  | yes (hnew : (v.slot msg.msgId).delivered = false)
      (hcard : deliverThreshold S.f ≤ (v.slot msg.msgId).readys.card) :
      Deliver v msg
        { v.set msg.msgId { v.slot msg.msgId with delivered := true } with
          deliveries := v.deliveries ++ [(msg.msgId, msg.payload)] }
  | no (h : (v.slot msg.msgId).delivered = true ∨
      (v.slot msg.msgId).readys.card < deliverThreshold S.f) : Deliver v msg v

/-- Everything a segment can do to the view of its node, to the network and to
the suspended coroutines. -/
inductive Move (i : PeerId) (v : View) :
    Event → View → List (PeerId × Packet) → Option Task → Prop
  | sendSeen {src msg} (h : msg.msgId ∈ v.seen) :
      Move i v (.handle src ⟨.send, msg⟩) v [] none
  | sendNew {src msg} (h : msg.msgId ∉ v.seen) :
      Move i v (.handle src ⟨.send, msg⟩)
        { v.set msg.msgId { v.slot msg.msgId with sentEcho := true } with
          seen := insert msg.msgId v.seen }
        [] (some (bracha S i .echo { msg with phase := "echo" } .handled))
  | echoTip {src msg} (hnew : (v.slot msg.msgId).sentReady = false)
      (hcard : readyThreshold (S.N i) S.f ≤ (insert src (v.slot msg.msgId).echos).card) :
      Move i v (.handle src ⟨.echo, msg⟩)
        (v.set msg.msgId { v.slot msg.msgId with
          echos := insert src (v.slot msg.msgId).echos, sentReady := true })
        [] (some (bracha S i .ready { msg with phase := "ready" } .handled))
  | echoCount {src msg} (h : (v.slot msg.msgId).sentReady = true ∨
        (insert src (v.slot msg.msgId).echos).card < readyThreshold (S.N i) S.f) :
      Move i v (.handle src ⟨.echo, msg⟩)
        (v.set msg.msgId { v.slot msg.msgId with
          echos := insert src (v.slot msg.msgId).echos }) [] none
  | readyTip {src msg} (hnew : (v.slot msg.msgId).sentReady = false)
      (hcard : S.f + 1 ≤ (insert src (v.slot msg.msgId).readys).card) :
      Move i v (.handle src ⟨.ready, msg⟩)
        (v.set msg.msgId { v.slot msg.msgId with
          readys := insert src (v.slot msg.msgId).readys, sentReady := true })
        [] (some (bracha S i .ready msg (.readyDone msg)))
  | readyCount {src msg v'} (h : (v.slot msg.msgId).sentReady = true ∨
        (insert src (v.slot msg.msgId).readys).card < S.f + 1)
      (hdel : Deliver S (v.set msg.msgId { v.slot msg.msgId with
          readys := insert src (v.slot msg.msgId).readys }) msg v') :
      Move i v (.handle src ⟨.ready, msg⟩) v' [] none
  | start (h : S.isSender i = true) :
      Move i v (.resume .onStart) v []
        (some (bracha S i .send (initialSend S i) (.sendDone (initialSend S i))))
  | idle (h : S.isSender i = false) : Move i v (.resume .onStart) v [] none
  | serve {method msg p ps k} :
      Move i v (.resume (.bracha method msg (p :: ps) k)) v [(p, ⟨method, msg⟩)]
        (some (.bracha method msg ps k))
  | sendDone {method msg msg'} :
      Move i v (.resume (.bracha method msg' [] (.sendDone msg)))
        { v.set msg.msgId { v.slot msg.msgId with sentEcho := true } with
          seen := insert msg.msgId v.seen }
        [] (some (bracha S i .echo { msg with phase := "echo" } .echoDone))
  | returns {method msg k} (h : k = .echoDone ∨ k = .handled) :
      Move i v (.resume (.bracha method msg [] k)) v [] none
  | readyDone {method msg msg' v'} (hdel : Deliver S v msg v') :
      Move i v (.resume (.bracha method msg' [] (.readyDone msg))) v' [] none

/-! ## The code refines the moves -/

/-- The entries a suspended coroutine will index exist. -/
def Task.Keyed (v : BrachaState) : Task → Prop
  | .bracha _ _ _ (.sendDone msg) => msg.msgId ∈ v.echos
  | .bracha _ _ _ (.readyDone msg) => msg.msgId ∈ v.echos
  | _ => True

/-- The delivery test, where `init_state` has run for the message. -/
theorem deliver_deliverIfReady {s : NodeState} {msg : BrachaMessage}
    (hkey : msg.msgId ∈ s.vars.echos) :
    Deliver S s.view msg (deliverIfReady S s msg).view := by
  unfold deliverIfReady
  rw [BrachaState.get_delivered hkey, BrachaState.get_readys hkey]
  split
  · rename_i h
    have hview : ({ vars := s.vars.markDelivered msg.msgId
                    deliveries := s.deliveries ++ [(msg.msgId, msg.payload)] } : NodeState).view =
        { s.view.set msg.msgId { s.view.slot msg.msgId with delivered := true } with
          deliveries := s.view.deliveries ++ [(msg.msgId, msg.payload)] } := by
      simp [NodeState.view, View.set, BrachaState.slot_markDelivered hkey]
    rw [hview]
    exact .yes h.1 h.2
  · rename_i h
    refine .no ?_
    rw [not_and_or, Bool.not_eq_false, Nat.not_le] at h
    exact h

theorem move_send (i src : PeerId) (s : NodeState) (msg : BrachaMessage) :
    Move S i s.view (.handle src ⟨.send, msg⟩) (send S i s src msg).st.view
      (send S i s src msg).out (send S i s src msg).rest := by
  unfold send
  simp only [BrachaState.seenMessages_initState]
  by_cases hseen : msg.msgId ∈ s.vars.seenMessages
  · rw [if_neg (not_not.mpr hseen)]
    have hview : ({ s with vars := s.vars.initState msg.msgId } : NodeState).view = s.view := by
      simp [NodeState.view, BrachaState.slot_initState_eq]
    rw [hview]
    exact .sendSeen hseen
  · rw [if_pos hseen]
    have hkey : msg.msgId ∈ ((s.vars.initState msg.msgId).see msg.msgId).echos :=
      BrachaState.mem_initState
    have hview : (⟨((s.vars.initState msg.msgId).see msg.msgId).markSentEcho msg.msgId,
          s.deliveries⟩ : NodeState).view =
        { s.view.set msg.msgId { s.view.slot msg.msgId with sentEcho := true } with
          seen := insert msg.msgId s.view.seen } := by
      simp [NodeState.view, View.set, BrachaState.slot_markSentEcho hkey,
        BrachaState.slot_see_eq, BrachaState.slot_initState_eq]
    rw [hview]
    exact .sendNew hseen

theorem move_echo (i src : PeerId) (s : NodeState) (msg : BrachaMessage) :
    Move S i s.view (.handle src ⟨.echo, msg⟩) (echo S i s src msg).st.view
      (echo S i s src msg).out (echo S i s src msg).rest := by
  unfold echo
  have hkey : msg.msgId ∈ ((s.vars.initState msg.msgId).addEcho msg.msgId src).echos :=
    BrachaState.mem_initState_addEcho
  have hslot := BrachaState.slot_initState_addEcho (s := s.vars) (m := msg.msgId) (x := src)
  simp only [BrachaState.get_sentReady hkey, BrachaState.get_echos hkey, hslot,
    Function.update_self]
  split
  · rename_i h
    have hview : (⟨((s.vars.initState msg.msgId).addEcho msg.msgId src).markSentReady msg.msgId,
          s.deliveries⟩ : NodeState).view =
        s.view.set msg.msgId { s.view.slot msg.msgId with
          echos := insert src (s.view.slot msg.msgId).echos, sentReady := true } := by
      simp [NodeState.view, View.set, BrachaState.slot_markSentReady hkey, hslot]
    rw [hview]
    exact .echoTip h.1 h.2
  · rename_i h
    have hview : (⟨(s.vars.initState msg.msgId).addEcho msg.msgId src, s.deliveries⟩ :
        NodeState).view =
        s.view.set msg.msgId { s.view.slot msg.msgId with
          echos := insert src (s.view.slot msg.msgId).echos } := by
      simp [NodeState.view, View.set, hslot]
    rw [hview]
    rw [not_and_or, Bool.not_eq_false, Nat.not_le] at h
    exact .echoCount h

theorem move_ready (i src : PeerId) (s : NodeState) (msg : BrachaMessage) :
    Move S i s.view (.handle src ⟨.ready, msg⟩) (ready S i s src msg).st.view
      (ready S i s src msg).out (ready S i s src msg).rest := by
  unfold ready
  have hkey : msg.msgId ∈ ((s.vars.initState msg.msgId).addReady msg.msgId src).echos :=
    BrachaState.mem_initState_addReady
  have hslot := BrachaState.slot_initState_addReady (s := s.vars) (m := msg.msgId) (x := src)
  simp only [BrachaState.get_sentReady hkey, BrachaState.get_readys hkey, hslot,
    Function.update_self]
  split
  · rename_i h
    have hview : (⟨((s.vars.initState msg.msgId).addReady msg.msgId src).markSentReady msg.msgId,
          s.deliveries⟩ : NodeState).view =
        s.view.set msg.msgId { s.view.slot msg.msgId with
          readys := insert src (s.view.slot msg.msgId).readys, sentReady := true } := by
      simp [NodeState.view, View.set, BrachaState.slot_markSentReady hkey, hslot]
    rw [hview]
    exact .readyTip h.1 h.2
  · rename_i h
    have hview : (⟨(s.vars.initState msg.msgId).addReady msg.msgId src, s.deliveries⟩ :
        NodeState).view =
        s.view.set msg.msgId { s.view.slot msg.msgId with
          readys := insert src (s.view.slot msg.msgId).readys } := by
      simp [NodeState.view, View.set, hslot]
    rw [not_and_or, Bool.not_eq_false, Nat.not_le] at h
    refine .readyCount h ?_
    rw [← hview]
    exact deliver_deliverIfReady S hkey

theorem move_handle (i src : PeerId) (s : NodeState) (p : Packet) :
    Move S i s.view (.handle src p) (handle S i s src p).st.view
      (handle S i s src p).out (handle S i s src p).rest := by
  obtain ⟨method, msg⟩ := p
  cases method with
  | send => exact move_send S i src s msg
  | echo => exact move_echo S i src s msg
  | ready => exact move_ready S i src s msg

theorem move_onStart (i : PeerId) (s : NodeState) :
    Move S i s.view (.resume .onStart) (onStart S i s).st.view
      (onStart S i s).out (onStart S i s).rest := by
  unfold onStart
  split
  · rename_i h
    have hview : ({ s with vars := s.vars.initState (S.uuid i) } : NodeState).view = s.view := by
      simp [NodeState.view, BrachaState.slot_initState_eq]
    rw [hview]
    exact .start h
  · rename_i h
    exact .idle (Bool.eq_false_iff.mpr h)

theorem move_resume (i : PeerId) (s : NodeState) (t : Task) (hkey : t.Keyed s.vars) :
    Move S i s.view (.resume t) (resume S i s t).st.view
      (resume S i s t).out (resume S i s t).rest := by
  cases t with
  | onStart => exact move_onStart S i s
  | bracha method msg ps k =>
    cases ps with
    | cons p ps => exact .serve
    | nil =>
      cases k with
      | sendDone msg' =>
        have hkey' : msg'.msgId ∈ (s.vars.see msg'.msgId).echos := hkey
        have hview : (⟨(s.vars.see msg'.msgId).markSentEcho msg'.msgId,
              s.deliveries⟩ : NodeState).view =
            { s.view.set msg'.msgId { s.view.slot msg'.msgId with sentEcho := true } with
              seen := insert msg'.msgId s.view.seen } := by
          simp [NodeState.view, View.set, BrachaState.slot_markSentEcho hkey',
            BrachaState.slot_see_eq]
        show Move S i s.view _ (NodeState.view { s with vars := _ }) _ _
        rw [hview]
        exact .sendDone
      | echoDone => exact .returns (.inl rfl)
      | handled => exact .returns (.inr rfl)
      | readyDone msg' => exact .readyDone (deliver_deliverIfReady S hkey)

/-! ## Every entry a coroutine indexes exists -/

/-- The dictionaries of a node agree on their keys, and its suspended
coroutines will find the entries they index. -/
structure WellKeyed (s : NodeState) (ts : List Task) : Prop where
  sameKeys : s.vars.SameKeys
  keyed : ∀ t ∈ ts, t.Keyed s.vars

/-- What a segment does to the keys of the dictionaries. -/
structure KeepsKeys (s : NodeState) (o : Seg) : Prop where
  sameKeys : s.vars.SameKeys → o.st.vars.SameKeys
  grow : ∀ m ∈ s.vars.echos, m ∈ o.st.vars.echos
  rest : ∀ t ∈ o.rest, t.Keyed o.st.vars

theorem keepsKeys_deliverIfReady {s : NodeState} {msg : BrachaMessage}
    (hkey : msg.msgId ∈ s.vars.echos) :
    KeepsKeys s { st := deliverIfReady S s msg } := by
  unfold deliverIfReady
  split
  · exact ⟨fun h => h.markDelivered hkey, fun m hm => hm, by simp⟩
  · exact ⟨id, fun m hm => hm, by simp⟩

theorem keepsKeys_send (i src : PeerId) (s : NodeState) (msg : BrachaMessage) :
    KeepsKeys s (send S i s src msg) := by
  simp only [send]
  split
  · refine ⟨fun h => ?_, fun m hm => BrachaState.mem_initState_of_mem hm, ?_⟩
    · exact (h.initState.see).markSentEcho BrachaState.mem_initState
    · simp [bracha, Task.Keyed]
  · exact ⟨fun h => h.initState, fun m hm => BrachaState.mem_initState_of_mem hm, by simp⟩

theorem keepsKeys_echo (i src : PeerId) (s : NodeState) (msg : BrachaMessage) :
    KeepsKeys s (echo S i s src msg) := by
  have hgrow : ∀ m ∈ s.vars.echos,
      m ∈ ((s.vars.initState msg.msgId).addEcho msg.msgId src).echos := fun m hm =>
    (BrachaState.mem_addEcho BrachaState.mem_initState).mpr (BrachaState.mem_initState_of_mem hm)
  simp only [echo]
  split
  · refine ⟨fun h => ?_, hgrow, ?_⟩
    · exact (h.initState.addEcho BrachaState.mem_initState).markSentReady
        BrachaState.mem_initState_addEcho
    · simp [bracha, Task.Keyed]
  · exact ⟨fun h => h.initState.addEcho BrachaState.mem_initState, hgrow, by simp⟩

theorem keepsKeys_ready (i src : PeerId) (s : NodeState) (msg : BrachaMessage) :
    KeepsKeys s (ready S i s src msg) := by
  simp only [ready]
  split
  · refine ⟨fun h => ?_, fun m hm => BrachaState.mem_initState_of_mem hm, ?_⟩
    · exact (h.initState.addReady BrachaState.mem_initState).markSentReady
        BrachaState.mem_initState_addReady
    · rintro t ht
      obtain rfl : bracha S i .ready msg (.readyDone msg) = t := by simpa using ht
      exact BrachaState.mem_initState
  · have hdel (s' : NodeState)
        (hs' : s'.vars = (s.vars.initState msg.msgId).addReady msg.msgId src) :
        KeepsKeys s' { st := deliverIfReady S s' msg } :=
      keepsKeys_deliverIfReady S (hs' ▸ BrachaState.mem_initState_addReady)
    have hdel := hdel { s with vars := (s.vars.initState msg.msgId).addReady msg.msgId src } rfl
    exact ⟨fun h => hdel.sameKeys (h.initState.addReady BrachaState.mem_initState),
      fun m hm => hdel.grow m (BrachaState.mem_initState_of_mem hm), by simp⟩

theorem keepsKeys_resume (i : PeerId) (s : NodeState) (t : Task) (hkey : t.Keyed s.vars) :
    KeepsKeys s (resume S i s t) := by
  cases t with
  | onStart =>
    show KeepsKeys s (onStart S i s)
    unfold onStart
    split
    · refine ⟨fun h => h.initState, fun m hm => BrachaState.mem_initState_of_mem hm, ?_⟩
      rintro t ht
      obtain rfl : bracha S i .send (initialSend S i) (.sendDone (initialSend S i)) = t := by
        simpa using ht
      exact BrachaState.mem_initState
    · exact ⟨id, fun m hm => hm, by simp⟩
  | bracha method msg ps k =>
    cases ps with
    | cons p ps =>
      refine ⟨id, fun m hm => hm, ?_⟩
      rintro t ht
      obtain rfl : Task.bracha method msg ps k = t := by simpa [resume] using ht
      cases k <;> exact hkey
    | nil =>
      cases k with
      | sendDone msg' =>
        exact ⟨fun h => h.see.markSentEcho hkey, fun m hm => hm,
          by simp [resume, afterBracha, bracha, Task.Keyed]⟩
      | echoDone => exact ⟨id, fun m hm => hm, by simp [resume, afterBracha]⟩
      | handled => exact ⟨id, fun m hm => hm, by simp [resume, afterBracha]⟩
      | readyDone msg' => exact keepsKeys_deliverIfReady S hkey

theorem Task.Keyed.mono {v v' : BrachaState} {t : Task} (hgrow : ∀ m ∈ v.echos, m ∈ v'.echos)
    (h : t.Keyed v) : t.Keyed v' := by
  cases t with
  | onStart => trivial
  | bracha method msg ps k =>
    cases k with
    | sendDone msg' => exact hgrow _ h
    | readyDone msg' => exact hgrow _ h
    | echoDone => trivial
    | handled => trivial

variable {S}

/-- The segment of a label, whatever it is, keeps the keys. -/
theorem keepsKeys_segment {c base : Config PeerId Packet NodeState Task}
    {l : Label PeerId Packet Task} {i : PeerId} {o : Seg}
    (hwf : WellKeyed (c.st i) (c.tasks i))
    (hseg : Segment (protocol S) S.parties c l i o base) : KeepsKeys (c.st i) o := by
  have hhandle : ∀ (i src : PeerId) (s : NodeState) (p : Packet),
      KeepsKeys s (handle S i s src p) := by
    rintro i src s ⟨method, msg⟩
    cases method with
    | send => exact keepsKeys_send S i src s msg
    | echo => exact keepsKeys_echo S i src s msg
    | ready => exact keepsKeys_ready S i src s msg
  cases hseg with
  | recv _ _ => exact hhandle _ _ _ _
  | forge _ _ => exact hhandle _ _ _ _
  | @wake i t o _ ht ho =>
    obtain rfl : resume S i (c.st i) t = o := Option.some.inj ho
    exact keepsKeys_resume S i (c.st i) t (hwf.keyed t ht)

/-- `WellKeyed` of every correct node. -/
def wellKeyed : Assertion PeerId Packet NodeState Task where
  node _ _ s ts := WellKeyed s ts
  msg _ _ := True

theorem wellKeyed_inductive :
    wellKeyed.Inductive (protocol S) S.parties initial fun _ _ _ => True where
  init := by
    refine ⟨fun i _ => ⟨BrachaState.sameKeys_empty, ?_⟩, fun _ _ => trivial,
      fun _ _ => trivial⟩
    simp [initial, Task.Keyed]
  node_mono _ h := h
  msg_mono _ := trivial
  segment := by
    intro ls c l i o base _ hA _ hseg
    have hwf : WellKeyed (c.st i) (c.tasks i) := hA.node i hseg.correct
    have hkeep := keepsKeys_segment hwf hseg
    refine ⟨⟨hkeep.sameKeys hwf.sameKeys, fun t ht => ?_⟩, fun _ _ => trivial⟩
    rcases hseg.mem_rest_or_tasks ht with hrest | hold
    · exact hkeep.rest t hrest
    · exact (hwf.keyed t hold).mono hkeep.grow

/-- In every run the dictionaries of a correct node agree on their keys. -/
theorem wellKeyed_of_run {ls : History} {c : Config PeerId Packet NodeState Task}
    (hc : exec (next S) initial ls = some c) {i : PeerId} (hi : i ∈ S.parties.correct) :
    WellKeyed (c.st i) (c.tasks i) :=
  (Assertion.holds_of_run wellKeyed_inductive hc).node i hi

/-- **Refinement**: every segment of a run is a move of its node's view. -/
theorem move_of_segment {ls : History} {c base : Config PeerId Packet NodeState Task}
    {l : Label PeerId Packet Task} {i : PeerId} {o : Seg}
    (hc : exec (next S) initial ls = some c)
    (hseg : Segment (protocol S) S.parties c l i o base) :
    Move S i (c.st i).view (event l) o.st.view o.out o.rest := by
  have hwf := wellKeyed_of_run hc hseg.correct
  cases hseg with
  | recv _ _ => exact move_handle S _ _ _ _
  | forge _ _ => exact move_handle S _ _ _ _
  | @wake i t o _ ht ho =>
    obtain rfl : resume S i (c.st i) t = o := Option.some.inj ho
    exact move_resume S i (c.st i) t (hwf.keyed t ht)

end Basic

end DistBench.Bracha
