import DistBench.Deployment
import DistBench.Layering.Deliver
import DistBench.Lib.Potential

/-!
# A broadcast layer (simple_broadcast.py)

`SimpleBroadcastUpper` broadcasts messages through its child `SimpleBroadcast`, and the
children give what they receive, and what they broadcast, to their parents. Whatever is
passed to `broadcast` is on its way to every node, once: as a message of a coroutine
that has not got to it, as bytes in flight, or as a call of a handler. The proof adds
these up (`toCome`) and finds that no segment changes the sum; what the bytes amount to
is the chain of encodings.

A node runs any number of coroutines that broadcast one message after the other, as
`on_start` does, and an exception of `broadcast` is caught (lines 134–150). The casts of
one broadcast are handed to the transport when `gather` is called.

- `System`, `State`, `Cont`, `protocol`: the code.
- `reaches`: what becomes of a message at a node. `reaches_eq`: it arrives as it was, if
  every encoding succeeds.
- `toCome`, `outcome_segment`: nothing is lost or made.
- `calls_of_settled`: every node's handlers are called once for each broadcast.
-/

namespace DistBench.SimpleBroadcast

open DistBench.Async

/-! ## Messages -/

/-- `SimpleBroadcastMessage`. -/
def simpleBroadcastMessage : PyType :=
  .cls ⟨"SimpleBroadcastMessage", .message⟩ [⟨"payload", .bytes, none⟩] []

/-- `BroadcastSend`. -/
def broadcastSend : PyType :=
  .cls ⟨"BroadcastSend", .message⟩ [⟨"content", .bytes, none⟩, ⟨"sequence", .int, none⟩] []

/-- `BroadcastEcho`. -/
def broadcastEcho : PyType :=
  .cls ⟨"BroadcastEcho", .message⟩ [⟨"content", .bytes, none⟩, ⟨"original_sender", .str, none⟩] []

/-- The handlers of `SimpleBroadcastUpper`. -/
inductive Method where
  | broadcastSend
  | broadcastEcho
deriving DecidableEq, Repr

/-- The annotation of a handler. -/
def Method.type : Method → PyType
  | .broadcastSend => SimpleBroadcast.broadcastSend
  | .broadcastEcho => SimpleBroadcast.broadcastEcho

/-- The handlers `deliver` knows. -/
def childHandlers : ChildHandlers Method :=
  [("broadcast", [("BroadcastEcho", .broadcastEcho, some broadcastEcho),
    ("BroadcastSend", .broadcastSend, some broadcastSend)])]

/-- `SimpleBroadcastUpper` has no handlers for messages of peers, its child has one. -/
def upper : Algo :=
  .mk [] [("broadcast", .mk [("simple_broadcast_message", some simpleBroadcastMessage)] [])]

/-- A message of a class that has a handler. -/
def IsMessage (msg : Value) : Prop :=
  ∃ method : Method, HasType method.type msg

/-- The handler for the class of a message. -/
def methodOf (msg : Value) : Method :=
  if typeName msg = "BroadcastSend" then .broadcastSend else .broadcastEcho

/-! ## Nodes -/

/-- A call of a handler. -/
structure Call where
  method : Method
  src : PeerId
  msg : Value
deriving DecidableEq

/-- `SimpleBroadcastUpper` with its child, and the calls of its handlers. -/
structure State where
  messagesBroadcasted : Nat := 0
  sendReceived : List Value := []
  echoReceived : List Value := []
  calls : List Call := []

/-- The nodes, without faults, and the messages their coroutines broadcast: any messages of the
two classes, among them those of `on_start`. -/
structure System extends Deployment where
  all_correct : parties.byz = ∅
  lib : Codecs Cls
  crypto : Crypto
  keystore : PeerId → Keystore
  fmt : Format
  program : PeerId → List (List Value)
  isMessage : ∀ i, ∀ msgs ∈ program i, ∀ msg ∈ msgs, IsMessage msg

/-- The suspension points: before a coroutine's first broadcast, and in the `gather` of
one (line 56), with the messages it has still to broadcast. -/
inductive Cont where
  | starting (msgs : List Value)
  | gathering (msg : Bytes) (msgs : List Value)
deriving DecidableEq

/-- The handlers of `SimpleBroadcastUpper`. -/
def State.call (s : State) (call : Call) : State :=
  match call.method with
  | .broadcastSend =>
    { s with sendReceived := s.sendReceived ++ [call.msg], calls := s.calls ++ [call] }
  | .broadcastEcho =>
    { s with echoReceived := s.echoReceived ++ [call.msg], calls := s.calls ++ [call] }

namespace System

variable (Y : System)

/-- `NodeMessage.algorithm` on what `peer.simple_broadcast_message` is called with. -/
def packet (msg : Bytes) : Option Bytes := do
  let payload ← Y.fmt.serialize Y.lib
    (.obj ⟨"SimpleBroadcastMessage", .message⟩ [("payload", .bytes msg)])
  Y.lib.packb (.list [.int 4, .str "simple_broadcast_message", .bytes payload])

/-- `NodeMessage.deserialize`, `Node.handle` and `SimpleBroadcastUpper.handle`: the payload
`simple_broadcast_message` is called with. -/
def received (self : PeerId) (data : Bytes) : Option Bytes :=
  match Y.lib.unpackb data with
  | some (.list [.int 4, .str typeId, .bytes payload]) => do
    let (_, msg) ← upper.handle Y.lib Y.crypto (Y.keystore self) Y.fmt [] typeId payload
    match msg with
    | .obj _ attrs =>
      match attrs.lookup "payload" with
      | some (.bytes payload) => some payload
      | _ => none
    | _ => none
  | _ => none

/-- `deliver_message`: the handler that is called and its message. -/
def delivery (self : PeerId) (msg : Bytes) : Option (Method × Value) :=
  (deliverMessage Y.lib Y.fmt msg).bind
    (deliver Y.lib Y.crypto (Y.keystore self) Y.fmt childHandlers)

/-- `deliver_message`, with its exceptions caught. -/
def deliverTo (self : PeerId) (s : State) (src : PeerId) (msg : Bytes) : State :=
  match Y.delivery self msg with
  | some (method, msg) => s.call ⟨method, src, msg⟩
  | none => s

/-- `handle` of the node. -/
def handle (self : PeerId) (s : State) (src : PeerId) (data : Bytes) :
    Outcome PeerId Bytes State Cont :=
  -- `id_of` knows the addresses of the peers
  if src ∉ Y.peers self then { st := s }
  else
    match Y.received self data with
    | some payload => { st := Y.deliverTo self s src payload }
    | none => { st := s }

/-- `_send_to_peer` for every peer. -/
def sends (self : PeerId) (msg : Bytes) : List (PeerId × Bytes) :=
  (Y.peers self).filterMap fun peer => (Y.packet msg).map fun data => (peer, data)

/-- `self.broadcast.broadcast` for one message after the other, up to the first
suspension. -/
def broadcastAll (self : PeerId) (s : State) : List Value → Outcome PeerId Bytes State Cont
  | [] => { st := s }
  | msg :: msgs =>
    match interface Y.lib Y.fmt msg with
    | some bytes => { st := s, out := Y.sends self bytes, rest := some (.gathering bytes msgs) }
    | none => broadcastAll self s msgs

/-- The next segment of a coroutine. -/
def resume (self : PeerId) (s : State) : Cont → Option (Outcome PeerId Bytes State Cont)
  | .starting msgs => some (Y.broadcastAll self s msgs)
  | .gathering msg msgs =>
    let s := { s with messagesBroadcasted := s.messagesBroadcasted + 1 }
    some (Y.broadcastAll self (Y.deliverTo self s self msg) msgs)

/-- The code of a node. -/
def protocol : Protocol PeerId Bytes State Cont where
  handle := Y.handle
  resume := Y.resume

/-- No coroutine has broadcast anything. -/
def initial : Config PeerId Bytes State Cont where
  st _ := {}
  tasks i := (Y.program i).map .starting
  net := []

/-- One step of the network. -/
abbrev step : Config PeerId Bytes State Cont → Label PeerId Bytes Cont →
    Option (Config PeerId Bytes State Cont) :=
  Async.step Y.protocol Y.parties

/-- All messages have been handled, and all broadcasts are over. -/
structure Settled (c : Config PeerId Bytes State Cont) : Prop where
  net : c.net = []
  tasks : ∀ i ∈ Y.parties.nodes, c.tasks i = []

/-! ## Nothing is lost or made -/

/-- What becomes at node `j` of a message that node `i` broadcasts: the handler that is
called and its message. -/
def reaches (i j : PeerId) (msg : Value) : Option (Method × Value) :=
  (interface Y.lib Y.fmt msg).bind fun bytes =>
    if i = j then Y.delivery j bytes
    else (Y.packet bytes).bind fun data => (Y.received j data).bind (Y.delivery j)

/-- The calls that are made. -/
def callsFrom (src : PeerId) (called : Option (Method × Value)) : Multiset Call :=
  (called.map fun p => (⟨p.1, src, p.2⟩ : Call)).toList

/-- The calls at node `j` that messages of node `i` end in. -/
def callsOf (i j : PeerId) (msgs : List Value) : Multiset Call :=
  (msgs.map fun msg => callsFrom i (Y.reaches i j msg)).sum

/-- The calls of handlers of node `j`, by where they are: made, owed by a coroutine, or
on their way. -/
def toCome (j : PeerId) : Weights PeerId Bytes State Cont (Multiset Call) where
  st i s := if i = j then s.calls else 0
  task
    | i, .starting msgs => Y.callsOf i j msgs
    | i, .gathering bytes msgs =>
      (if i = j then callsFrom i (Y.delivery j bytes) else 0) + Y.callsOf i j msgs
  msg e :=
    if e.dst = j ∧ e.src ∈ Y.peers j then
      callsFrom e.src ((Y.received j e.msg).bind (Y.delivery j))
    else 0

variable {Y} {i j : PeerId} {s : State} {c base : Config PeerId Bytes State Cont}
  {l : Label PeerId Bytes Cont} {ls : Trace PeerId Bytes Cont}
  {o : Outcome PeerId Bytes State Cont}

theorem calls_deliverTo (src : PeerId) (bytes : Bytes) :
    ((Y.deliverTo i s src bytes).calls : Multiset Call) =
      s.calls + callsFrom src (Y.delivery i bytes) := by
  unfold deliverTo
  cases Y.delivery i bytes with
  | none => exact (add_zero _).symm
  | some called =>
    obtain ⟨method, msg⟩ := called
    cases method <;> rfl

theorem toCome_deliverTo (src : PeerId) (bytes : Bytes) :
    (Y.toCome j).st i (Y.deliverTo i s src bytes) =
      (Y.toCome j).st i s + if i = j then callsFrom src (Y.delivery j bytes) else 0 := by
  by_cases hij : i = j
  · subst hij
    simp only [toCome, if_true]
    exact calls_deliverTo src bytes
  · simp [toCome, hij]

/-- What is cast to the peers is on its way to each of them once. -/
theorem sum_sends (hi : i ∈ Y.parties.nodes) (hj : j ∈ Y.parties.nodes) (bytes : Bytes) :
    ((Y.sends i bytes).map fun dm => (Y.toCome j).msg ⟨i, dm.1, dm.2⟩).sum =
      if i = j then 0
      else callsFrom i ((Y.packet bytes).bind fun data =>
        (Y.received j data).bind (Y.delivery j)) := by
  unfold sends
  cases Y.packet bytes with
  | none => simp [callsFrom]
  | some data =>
    have hpeer {k k' : PeerId} (hk : k ∈ Y.parties.nodes) (hk' : k' ∈ Y.parties.nodes) :
        k' ∈ Y.peers k ↔ k' ≠ k := by simp [Y.mem_peers k hk, hk']
    have hsum (x : Multiset Call) :
        ((Y.peers i).map fun peer => if peer = j ∧ i ∈ Y.peers j then x else 0).sum =
          if i = j then 0 else x := by
      rw [← List.sum_toFinset _ (Y.nodup_peers i hi)]
      by_cases hij : i = j
      · simp [hij, hpeer hj hj]
      · simp [hij, hpeer hj hi, hpeer hi hj, Ne.symm hij]
    have hmap : (Y.peers i).filterMap (fun peer => some (peer, data)) =
        (Y.peers i).map fun peer => (peer, data) := congrFun List.filterMap_eq_map' _
    simp only [Option.map_some, hmap, List.map_map]
    exact hsum (callsFrom i ((Y.received j data).bind (Y.delivery j)))

/-- A call of `broadcast` sends its message on its way, or sends it nowhere. -/
theorem outcome_broadcastAll (hi : i ∈ Y.parties.nodes) (hj : j ∈ Y.parties.nodes)
    (msgs : List Value) :
    (Y.toCome j).outcome i (Y.broadcastAll i s msgs) =
      (Y.toCome j).st i s + Y.callsOf i j msgs := by
  induction msgs with
  | nil => simp [broadcastAll, Weights.outcome, callsOf]
  | cons msg msgs ih =>
    have hcons : Y.callsOf i j (msg :: msgs) =
        callsFrom i (Y.reaches i j msg) + Y.callsOf i j msgs := List.sum_cons
    rw [hcons, reaches, broadcastAll]
    cases interface Y.lib Y.fmt msg with
    | none =>
      show (Y.toCome j).outcome i (Y.broadcastAll i s msgs) = _
      rw [ih, Option.bind_none]
      exact congrArg _ (zero_add _).symm
    | some bytes =>
      have hrest : ((some (Cont.gathering bytes msgs)).toList.map ((Y.toCome j).task i)).sum =
          (if i = j then callsFrom i (Y.delivery j bytes) else 0) + Y.callsOf i j msgs :=
        List.sum_singleton
      simp only [Weights.outcome, Option.bind_some]
      rw [hrest, sum_sends hi hj]
      by_cases hij : i = j
      · simp only [if_pos hij]
        abel
      · simp only [if_neg hij]
        abel

/-- What a segment leaves behind is what it consumes. -/
theorem outcome_segment (hj : j ∈ Y.parties.nodes)
    (hseg : Segment Y.protocol Y.parties c l i o base) :
    (Y.toCome j).outcome i o = (Y.toCome j).label l + (Y.toCome j).st i (c.st i) := by
  have hi := Y.mem_nodes_of_correct hseg.correct
  have hsilent (s : State) : (Y.toCome j).outcome i { st := s } = (Y.toCome j).st i s := by
    simp [Weights.outcome]
  cases hseg with
  | forge hsrc _ =>
    rw [Y.all_correct] at hsrc
    exact absurd hsrc (Finset.notMem_empty _)
  | @recv e _ _ =>
    obtain ⟨src, dst, data⟩ := e
    have hlabel : (Y.toCome j).label (.recv ⟨src, dst, data⟩) =
        if dst = j ∧ src ∈ Y.peers j then callsFrom src ((Y.received j data).bind (Y.delivery j))
        else 0 := rfl
    have hhandle : (Y.toCome j).outcome dst (Y.handle dst (c.st dst) src data) =
        (Y.toCome j).st dst (c.st dst) + if dst = j ∧ src ∈ Y.peers dst then
          callsFrom src ((Y.received dst data).bind (Y.delivery j)) else 0 := by
      unfold handle
      split
      · next hsrc => simp [hsilent, hsrc]
      · next hsrc =>
        rw [not_not] at hsrc
        cases Y.received dst data with
        | none => simp [hsilent, callsFrom]
        | some payload => simp [hsilent, toCome_deliverTo, hsrc]
    rw [hlabel, add_comm]
    refine hhandle.trans ?_
    by_cases hdst : dst = j
    · rw [hdst]
    · simp [hdst]
  | @wake _ t _ _ _ ho =>
    cases t with
    | starting msgs =>
      obtain rfl := Option.some.inj ho
      rw [outcome_broadcastAll hi hj, add_comm]
      rfl
    | gathering bytes msgs =>
      obtain rfl := Option.some.inj ho
      rw [outcome_broadcastAll hi hj, toCome_deliverTo]
      have hlabel : (Y.toCome j).label (.wake i (.gathering bytes msgs)) =
        (if i = j then callsFrom i (Y.delivery j bytes) else 0) + Y.callsOf i j msgs := rfl
      rw [hlabel, add_assoc, add_comm]
      rfl

theorem callsOf_append (msgs msgs' : List Value) :
    Y.callsOf i j (msgs ++ msgs') = Y.callsOf i j msgs + Y.callsOf i j msgs' := by
  rw [callsOf, List.map_append, List.sum_append]
  rfl

theorem node_initial : (Y.toCome j).node Y.initial i = Y.callsOf i j (Y.program i).flatten := by
  have hprogram (msgss : List (List Value)) :
      ((msgss.map Cont.starting).map ((Y.toCome j).task i)).sum = Y.callsOf i j msgss.flatten := by
    induction msgss with
    | nil => rfl
    | cons msgs msgss ih =>
      rw [List.map_cons, List.map_cons, List.sum_cons, ih, List.flatten_cons, callsOf_append]
      rfl
  have hstate : (Y.toCome j).st i (Y.initial.st i) = 0 := ite_self _
  rw [Weights.node, hstate, zero_add]
  exact hprogram (Y.program i)

theorem correct_eq : Y.parties.correct = Y.parties.nodes := by
  ext i
  simp [Parties.mem_nodes, Y.all_correct]

/-- The handlers have been called for what became of the messages. -/
theorem calls_eq (hc : exec Y.step Y.initial ls = some c) (hsettled : Y.Settled c)
    (hj : j ∈ Y.parties.nodes) :
    ((c.st j).calls : Multiset Call) =
      ∑ i ∈ Y.parties.nodes, Y.callsOf i j (Y.program i).flatten := by
  have hsame := (Y.toCome j).config_eq
    (fun _ _ _ _ _ _ _ hseg => outcome_segment hj hseg) ls c hc
  have hlast : (Y.toCome j).config Y.parties c = (c.st j).calls := by
    have hnode : ∀ i ∈ Y.parties.nodes,
        (Y.toCome j).node c i = if i = j then ((c.st j).calls : Multiset Call) else 0 := by
      intro i hi
      rw [Weights.node, hsettled.tasks i hi]
      show (if i = j then ((c.st i).calls : Multiset Call) else 0) + 0 = _
      rw [add_zero]
      split
      · next hij => rw [hij]
      · rfl
    rw [Weights.config, correct_eq, Finset.sum_congr rfl hnode, hsettled.net,
      Finset.sum_ite_eq', if_pos hj]
    exact add_zero _
  have hfirst : (Y.toCome j).config Y.parties Y.initial =
      ∑ i ∈ Y.parties.nodes, Y.callsOf i j (Y.program i).flatten := by
    rw [Weights.config, correct_eq, Finset.sum_congr rfl fun i _ => node_initial]
    exact add_zero _
  rw [← hlast, hsame, hfirst]

/-! ## What the bytes amount to -/

theorem wire_type (method : Method) : Wire method.type := by
  cases method
  · exact .cls (by simp) (by simp) (by simpa using ⟨Wire.bytes, Wire.int⟩)
  · exact .cls (by simp) (by simp) (by simpa using ⟨Wire.bytes, Wire.str⟩)

theorem wire_simpleBroadcastMessage : Wire simpleBroadcastMessage :=
  .cls (by simp) (by simp) (by simpa using Wire.bytes)

/-- A packet is received as what was sent. -/
theorem received_packet (hlib : Y.lib.Lawful) {bytes data : Bytes}
    (hdata : Y.packet bytes = some data) : Y.received j data = some bytes := by
  obtain ⟨payload, hpayload, hpack⟩ := Option.bind_eq_some_iff.mp hdata
  have hunpack := hlib.unpackb_packb _ _ (by simp) hpack
  have htype : HasType simpleBroadcastMessage
      (.obj ⟨"SimpleBroadcastMessage", .message⟩ [("payload", .bytes bytes)]) :=
    .of_attrs (by simp) rfl (List.forall_mem_singleton.mpr (.bytes bytes))
  have hmsg : Y.fmt.deserialize Y.lib payload simpleBroadcastMessage =
      some (.obj ⟨"SimpleBroadcastMessage", .message⟩ [("payload", .bytes bytes)]) :=
    deserialize_serialize hlib wire_simpleBroadcastMessage htype Y.fmt hpayload
  have hhandle : upper.handle Y.lib Y.crypto (Y.keystore j) Y.fmt [] "simple_broadcast_message"
      payload = some (simpleBroadcastMessage,
        .obj ⟨"SimpleBroadcastMessage", .message⟩ [("payload", .bytes bytes)]) := by
    show Algo.receive Y.lib Y.crypto (Y.keystore j) Y.fmt (some simpleBroadcastMessage) payload = _
    simp [Algo.receive, hmsg, recursiveVerify, verifyAttrs]
  rw [received, hunpack]
  show ((upper.handle _ _ _ _ _ _ _).bind _) = _
  rw [hhandle]
  rfl

theorem methodOf_eq {method : Method} {msg : Value} (h : HasType method.type msg) :
    methodOf msg = method := by
  cases method <;> (obtain ⟨getattr, -, rfl⟩ := h.exists_getattr; rfl)

/-- Messages hold no signatures. -/
theorem recursiveVerify_eq {method : Method} {msg : Value} (h : HasType method.type msg)
    (crypto : Crypto) (keystore : Keystore) : recursiveVerify crypto keystore msg = true := by
  have hscalar {t : PyType} {v : Value} (ht : t = .bytes ∨ t = .int ∨ t = .str)
      (hv : HasType t v) : recursiveVerify crypto keystore v = true := by
    rcases ht with rfl | rfl | rfl <;> (cases hv <;> rfl)
  cases method
  all_goals
    obtain ⟨getattr, hattrs, rfl⟩ := h.exists_getattr
    rw [recursiveVerify_message (by simp)]
    refine verifyAttrs_iff.mpr (List.forall_mem_map.mpr fun f hf => hscalar ?_ (hattrs f hf))
    rcases List.mem_pair.mp hf with rfl | rfl <;> simp

theorem names_type (method : Method) :
    ∃ c fields, method.type = .cls c fields [] ∧ ∀ f ∈ fields, f.name ≠ "type_id" := by
  cases method
  · exact ⟨_, _, rfl, by simp⟩
  · exact ⟨_, _, rfl, by simp⟩

/-- What is delivered to a node is the message, if it can be given back to the parent. -/
theorem delivery_interface (hlib : Y.lib.Lawful) {msg : Value} (hmsg : IsMessage msg) :
    ((interface Y.lib Y.fmt msg).bind (Y.delivery j)) =
      (encodings Y.lib Y.fmt msg).map fun _ => (methodOf msg, msg) := by
  obtain ⟨method, htype⟩ := hmsg
  rw [methodOf_eq htype]
  have hverify := recursiveVerify_eq htype Y.crypto (Y.keystore j)
  cases method with
  | broadcastSend =>
    exact deliver_interface hlib (wire_type .broadcastSend) (by simp) rfl htype hverify
  | broadcastEcho =>
    exact deliver_interface hlib (wire_type .broadcastEcho) (by simp) rfl htype hverify

/-- Every encoding of the message on its way from node `i` to node `j` succeeds. -/
def encodable (Y : System) (i j : PeerId) (msg : Value) : Bool :=
  match encodings Y.lib Y.fmt msg with
  | some bytes => i = j || (Y.packet bytes).isSome
  | none => false

/-- **A message arrives at a handler for its class as it was, or not at all.** -/
theorem reaches_eq (hlib : Y.lib.Lawful) {msg : Value} (hmsg : IsMessage msg) :
    Y.reaches i j msg = if Y.encodable i j msg then some (methodOf msg, msg) else none := by
  have hdelivery := delivery_interface (j := j) hlib hmsg
  have hpacket (bytes : Bytes) :
      ((Y.packet bytes).bind fun data => (Y.received j data).bind (Y.delivery j)) =
        if (Y.packet bytes).isSome then Y.delivery j bytes else none := by
    cases hdata : Y.packet bytes with
    | none => rfl
    | some data =>
      show (Y.received j data).bind (Y.delivery j) = Y.delivery j bytes
      rw [received_packet hlib hdata]
      rfl
  unfold reaches encodable
  cases hencodings : encodings Y.lib Y.fmt msg with
  | none =>
    rw [hencodings] at hdelivery
    cases hinterface : interface Y.lib Y.fmt msg with
    | none => rfl
    | some bytes =>
      rw [hinterface] at hdelivery
      have hnone : Y.delivery j bytes = none := hdelivery
      simp [hpacket, hnone]
  | some bytes =>
    have hinterface : interface Y.lib Y.fmt msg = some bytes := by
      obtain ⟨method, htype⟩ := hmsg
      obtain ⟨c, fields, hcls, hname⟩ := names_type method
      exact interface_of_encodings hname (hcls ▸ htype) hencodings
    rw [hinterface, hencodings] at hdelivery
    have hsome : Y.delivery j bytes = some (methodOf msg, msg) := hdelivery
    simp only [hinterface, Option.bind_some, hpacket, hsome]
    by_cases hij : i = j
    · simp [hij]
    · simp [hij]

/-! ## Exactly once -/

/-- The calls for the messages that node `i` broadcasts and that can be encoded. -/
def callsFor (Y : System) (i j : PeerId) (msgs : List Value) : List Call :=
  (msgs.filter (Y.encodable i j)).map fun msg => ⟨methodOf msg, i, msg⟩

theorem isMessage_of_mem {msg : Value} (h : msg ∈ (Y.program i).flatten) : IsMessage msg := by
  obtain ⟨msgs, hmsgs, hmem⟩ := List.mem_flatten.mp h
  exact Y.isMessage i msgs hmsgs msg hmem

theorem callsOf_eq (hlib : Y.lib.Lawful) {msgs : List Value} (hmsgs : ∀ msg ∈ msgs, IsMessage msg) :
    Y.callsOf i j msgs = Y.callsFor i j msgs := by
  induction msgs with
  | nil => rfl
  | cons msg msgs ih =>
    obtain ⟨hmsg, hmsgs⟩ := List.forall_mem_cons.mp hmsgs
    have hcons : Y.callsOf i j (msg :: msgs) =
        callsFrom i (Y.reaches i j msg) + Y.callsOf i j msgs := List.sum_cons
    rw [hcons, ih hmsgs, reaches_eq hlib hmsg, callsFor, callsFor, List.filter_cons]
    split
    · rfl
    · exact zero_add _

/-- **Exactly once.** When all messages have been handled, the handlers of a node have been
called for the broadcasts of all nodes, its own included: once for each, with the message
and its broadcaster, if every encoding on the way succeeds, and otherwise not at all. -/
theorem calls_of_settled (Y : System) (hlib : Y.lib.Lawful)
    (hc : exec Y.step Y.initial ls = some c) (hsettled : Y.Settled c) :
    ∀ j ∈ Y.parties.nodes, ((c.st j).calls : Multiset Call) =
      ∑ i ∈ Y.parties.nodes, (Y.callsFor i j (Y.program i).flatten : Multiset Call) := by
  intro j hj
  rw [calls_eq hc hsettled hj]
  exact Finset.sum_congr rfl fun i _ => callsOf_eq hlib fun _ => isMessage_of_mem

end System

/-! ## Two nodes -/

/-- `BroadcastSend(content=b"hi", sequence=sequence)`. -/
def send (sequence : Int) : Value :=
  .obj ⟨"BroadcastSend", .message⟩ [("content", .bytes [104, 105]), ("sequence", .int sequence)]

/-- What `msgpack` makes of `send 0` … -/
def packedSend : Bytes :=
  [130, 167, 99, 111, 110, 116, 101, 110, 116, 196, 2, 104, 105, 168, 115, 101, 113, 117, 101,
    110, 99, 101, 0]

/-- … of the `AlgorithmMessage` with it … -/
def packedAlgorithm : Bytes :=
  [130, 167, 116, 121, 112, 101, 95, 105, 100, 173, 66, 114, 111, 97, 100, 99, 97, 115, 116, 83,
    101, 110, 100, 165, 98, 121, 116, 101, 115, 196, 23] ++ packedSend

/-- … of the `SimpleBroadcastMessage` with that … -/
def packedBroadcast : Bytes :=
  [129, 167, 112, 97, 121, 108, 111, 97, 100, 196, 54] ++ packedAlgorithm

/-- … of the `NodeMessage` with that … -/
def packedNode : Bytes :=
  [147, 4, 184, 115, 105, 109, 112, 108, 101, 95, 98, 114, 111, 97, 100, 99, 97, 115, 116, 95,
    109, 101, 115, 115, 97, 103, 101, 196, 65] ++ packedBroadcast

/-- … and of the pair `deliver` is called with. -/
def packedPair : Bytes :=
  [146, 173, 66, 114, 111, 97, 100, 99, 97, 115, 116, 83, 101, 110, 100, 196, 23] ++ packedSend

/-- A byte string in JSON. -/
def marked (text : String) : Value :=
  .dict [(.str "__bytes__", .str text)]

/-- The trees of a broadcast of `send 0`, as the two libraries write them. -/
def samples : List (Sample Cls) :=
  [{ tree := .dict [(.str "content", .bytes [104, 105]), (.str "sequence", .int 0)]
     text := "\x7b\"content\":\x7b\"__bytes__\":\"aGk=\"\x7d,\"sequence\":0\x7d"
     parsed := .dict [(.str "content", marked "aGk="), (.str "sequence", .int 0)]
     packed := packedSend },
   { tree := .dict [(.str "type_id", .str "BroadcastSend"), (.str "bytes", .bytes packedSend)]
     text := "\x7b\"type_id\":\"BroadcastSend\",\"bytes\":" ++
       "\x7b\"__bytes__\":\"gqdjb250ZW50xAJoaahzZXF1ZW5jZQA=\"\x7d\x7d"
     parsed := .dict [(.str "type_id", .str "BroadcastSend"),
       (.str "bytes", marked "gqdjb250ZW50xAJoaahzZXF1ZW5jZQA=")]
     packed := packedAlgorithm },
   { tree := .dict [(.str "payload", .bytes packedAlgorithm)]
     text := "\x7b\"payload\":\x7b\"__bytes__\":\"gqd0eXBlX2lkrUJyb2FkY2FzdFNlbmSlYnl0ZXPEF4Kn" ++
       "Y29udGVudMQCaGmoc2VxdWVuY2UA\"\x7d\x7d"
     parsed := .dict [(.str "payload", marked ("gqd0eXBlX2lkrUJyb2FkY2FzdFNlbmSlYnl0ZXPEF4Kn" ++
       "Y29udGVudMQCaGmoc2VxdWVuY2UA"))]
     packed := packedBroadcast },
   { tree := .list [.int 4, .str "simple_broadcast_message", .bytes packedBroadcast]
     text := "[4,\"simple_broadcast_message\",\x7b\"__bytes__\":\"gadwYXlsb2FkxDaCp3R5cGVfaWSt" ++
       "QnJvYWRjYXN0U2VuZKVieXRlc8QXgqdjb250ZW50xAJoaahzZXF1ZW5jZQA=\"\x7d]"
     parsed := .list [.int 4, .str "simple_broadcast_message",
       marked ("gadwYXlsb2FkxDaCp3R5cGVfaWSt" ++
         "QnJvYWRjYXN0U2VuZKVieXRlc8QXgqdjb250ZW50xAJoaahzZXF1ZW5jZQA=")]
     packed := packedNode },
   { tree := .tuple [.str "BroadcastSend", .bytes packedSend]
     text := "[\"BroadcastSend\",\x7b\"__bytes__\":\"gqdjb250ZW50xAJoaahzZXF1ZW5jZQA=\"\x7d]"
     parsed := .list [.str "BroadcastSend", marked "gqdjb250ZW50xAJoaahzZXF1ZW5jZQA="]
     packed := packedPair }]

theorem samples_lawful : (Codecs.ofTable samples).Lawful := by
  refine Codecs.ofTable_lawful (by decide) (by decide) ?_ ?_
  · simp [samples, marked]
  · simp [samples, PyValue.untuple]

theorem isMessage_send (sequence : Int) : IsMessage (send sequence) := by
  refine ⟨.broadcastSend, .of_attrs (by simp) rfl ?_⟩
  simp only [List.forall_mem_cons, List.not_mem_nil, false_implies, implies_true, and_true]
  exact ⟨.bytes _, .int _⟩

/-- Node `a` broadcasts two messages; `msgpack` has no integers of more than 64 bits. -/
noncomputable def pair : System where
  toDeployment := Cluster.pair.toDeployment
  all_correct := Cluster.pair.all_correct
  lib := Codecs.ofTable samples
  crypto := plainCrypto
  keystore _ _ := none
  fmt := .msgpack
  program i := if i = "a" then [[send 0, send (2 ^ 64)]] else []
  isMessage i msgs hmsgs msg hmsg := by
    by_cases hi : i = "a"
    · simp only [hi, if_true, List.mem_singleton] at hmsgs
      subst hmsgs
      rcases List.mem_pair.mp hmsg with rfl | rfl <;> exact isMessage_send _
    · simp [hi] at hmsgs

theorem packb_sample (n : Fin 5) : (Codecs.ofTable samples).packb (samples.get n).tree =
    some (samples.get n).packed :=
  Codecs.ofTable_packb (by decide) (List.get_mem samples n)

theorem serialize_send : Format.msgpack.serialize (Codecs.ofTable samples) (send 0) =
    some packedSend := packb_sample 0

theorem serialize_algorithm : Format.msgpack.serialize (Codecs.ofTable samples)
    (algorithmMessage "BroadcastSend" packedSend) = some packedAlgorithm := packb_sample 1

theorem serialize_pair : Format.msgpack.serialize (Codecs.ofTable samples)
    (.tuple [.str "BroadcastSend", .bytes packedSend]) = some packedPair := packb_sample 4

theorem interface_send :
    interface (Codecs.ofTable samples) .msgpack (send 0) = some packedAlgorithm := by
  rw [interface, serialize_send]
  exact serialize_algorithm

theorem encodings_send :
    encodings (Codecs.ofTable samples) .msgpack (send 0) = some packedAlgorithm := by
  have hname : typeName (send 0) = "BroadcastSend" := rfl
  simp [encodings, serialize_send, hname, serialize_algorithm, serialize_pair]

theorem packet_send : pair.packet packedAlgorithm = some packedNode := by
  have hserialize : pair.fmt.serialize pair.lib (.obj ⟨"SimpleBroadcastMessage", .message⟩
      [("payload", .bytes packedAlgorithm)]) = some packedBroadcast := packb_sample 2
  rw [System.packet, hserialize]
  exact packb_sample 3

theorem serialize_long :
    Format.msgpack.serialize (Codecs.ofTable samples) (send (2 ^ 64)) = none := by
  have hnone : ∀ s ∈ samples, s.tree ≠ serializable (send (2 ^ 64)) := by decide
  simp only [Format.serialize, Codecs.ofTable, Option.map_eq_none_iff, List.find?_eq_none,
    decide_eq_true_eq]
  exact hnone

/-- Node `b` handles the first message before the broadcast of it is over at `a`. -/
def pairRun : Trace PeerId Bytes Cont :=
  [.wake "a" (.starting [send 0, send (2 ^ 64)]), .recv ⟨"a", "b", packedNode⟩,
   .wake "a" (.gathering packedAlgorithm [send (2 ^ 64)])]

theorem handle_quiet {Y : System} {i : PeerId} {s : State} (src : PeerId) (data : Bytes) :
    (Y.handle i s src data).out = [] ∧ (Y.handle i s src data).rest = none := by
  unfold System.handle
  split
  · exact ⟨rfl, rfl⟩
  · split <;> exact ⟨rfl, rfl⟩

theorem broadcastAll_send (s : State) : pair.broadcastAll "a" s [send 0, send (2 ^ 64)] =
    { st := s, out := [("b", packedNode)],
      rest := some (.gathering packedAlgorithm [send (2 ^ 64)]) } := by
  have hinterface : interface pair.lib pair.fmt (send 0) = some packedAlgorithm := interface_send
  have hsends : pair.sends "a" packedAlgorithm = [("b", packedNode)] := by
    rw [System.sends, packet_send]
    rfl
  rw [System.broadcastAll, hinterface]
  simp only [hsends]

theorem broadcastAll_long (s : State) :
    pair.broadcastAll "a" s [send (2 ^ 64)] = { st := s } := by
  have hinterface : interface pair.lib pair.fmt (send (2 ^ 64)) = none := by
    rw [interface, show pair.fmt.serialize pair.lib (send (2 ^ 64)) = none from serialize_long]
    rfl
  rw [System.broadcastAll, hinterface]
  rfl

theorem exists_pairRun : ∃ c, exec pair.step pair.initial pairRun = some c ∧ pair.Settled c := by
  have ha : "a" ∈ pair.parties.correct := by decide
  have hb : "b" ∈ pair.parties.correct := by decide
  obtain ⟨c₁, hstart, hnet, htasks, hidle⟩ : ∃ c₁,
      pair.step pair.initial (.wake "a" (.starting [send 0, send (2 ^ 64)])) = some c₁ ∧
        c₁.net = [⟨"a", "b", packedNode⟩] ∧
        c₁.tasks "a" = [.gathering packedAlgorithm [send (2 ^ 64)]] ∧ c₁.tasks "b" = [] := by
    refine ⟨_, step_iff.mpr ⟨_, _, _, .wake ha (List.mem_singleton.mpr rfl)
      (congrArg some (broadcastAll_send {})), rfl⟩, rfl, ?_, ?_⟩
    · simp [System.initial, pair, Config.unpark]
    · simp [System.initial, pair, Config.unpark, Config.commit]
  obtain ⟨c₂, hrecv, hnet, htasks, hidle⟩ : ∃ c₂,
      pair.step c₁ (.recv ⟨"a", "b", packedNode⟩) = some c₂ ∧ c₂.net = [] ∧
        c₂.tasks "a" = [.gathering packedAlgorithm [send (2 ^ 64)]] ∧ c₂.tasks "b" = [] := by
    obtain ⟨hout, hrest⟩ := handle_quiet (Y := pair) (i := "b") (s := c₁.st "b") "a" packedNode
    refine ⟨_, step_iff.mpr ⟨_, _, _, .recv (by simp [hnet]) hb, rfl⟩, ?_, ?_, ?_⟩
    · simp [Config.commit, Config.take, System.protocol, hnet, hout]
    · simp [Config.commit, Config.take, htasks]
    · simp [Config.commit, Config.take, System.protocol, hidle, hrest]
  obtain ⟨c₃, hwake, hnet, htasks, hidle⟩ : ∃ c₃,
      pair.step c₂ (.wake "a" (.gathering packedAlgorithm [send (2 ^ 64)])) = some c₃ ∧
        c₃.net = [] ∧ c₃.tasks "a" = [] ∧ c₃.tasks "b" = [] := by
    refine ⟨_, step_iff.mpr ⟨_, _, _, .wake ha (by simp [htasks])
      (congrArg some (broadcastAll_long _)), rfl⟩, ?_, ?_, ?_⟩
    · simp [Config.commit, Config.unpark, hnet]
    · simp [Config.commit, Config.unpark, htasks]
    · simp [Config.commit, Config.unpark, hidle]
  refine ⟨c₃, ?_, hnet, ?_⟩
  · simp only [pairRun, exec_cons, hstart, hrecv, hwake, Option.bind_some, exec_nil]
  · intro i hi
    have hi : i = "a" ∨ i = "b" := by
      simpa [pair, Cluster.pair, Deployment.ofLists, Parties.nodes] using hi
    rcases hi with rfl | rfl
    · exact htasks
    · exact hidle

theorem callsFor_pair (i j : PeerId) :
    (pair.callsFor i j (pair.program i).flatten : Multiset Call) =
      if i = "a" then {⟨.broadcastSend, "a", send 0⟩} else 0 := by
  have hencodable : pair.encodable i j (send 0) = true := by
    rw [System.encodable,
      show encodings pair.lib pair.fmt (send 0) = some packedAlgorithm from encodings_send]
    simp [packet_send]
  have hlong : pair.encodable i j (send (2 ^ 64)) = false := by
    rw [System.encodable, encodings,
      show pair.fmt.serialize pair.lib (send (2 ^ 64)) = none from serialize_long]
    rfl
  by_cases hi : i = "a"
  · subst hi
    rw [System.callsFor, show (pair.program "a").flatten = [send 0, send (2 ^ 64)] from rfl,
      List.filter_cons_of_pos hencodable,
      List.filter_cons_of_neg (by rw [hlong]; exact Bool.false_ne_true)]
    rfl
  · rw [if_neg hi, show pair.program i = [] from if_neg hi]
    rfl

/-- A sum over the two nodes of what comes from `a`. -/
theorem sum_pair (x : Multiset Call) :
    (∑ i ∈ pair.parties.nodes, if i = "a" then x else 0) = x := by
  rw [Finset.sum_ite_eq', if_pos (by decide)]

/-- The run, and what is said of it: `b` has got the first message, once. -/
theorem calls_of_settled_pair :
    pair.lib.Lawful ∧ ∃ c, exec pair.step pair.initial pairRun = some c ∧ pair.Settled c ∧
      (c.st "b").calls = [⟨.broadcastSend, "a", send 0⟩] := by
  obtain ⟨c, hc, hsettled⟩ := exists_pairRun
  refine ⟨samples_lawful, c, hc, hsettled, ?_⟩
  have hcalls := System.calls_of_settled pair samples_lawful hc hsettled "b" (by decide)
  rw [Finset.sum_congr rfl fun i _ => callsFor_pair i "b", sum_pair] at hcalls
  exact Multiset.coe_eq_singleton.mp hcalls

/-- A message that cannot be encoded is not delivered. -/
theorem not_calls_of_settled :
    ¬ ∀ (Y : System) ls c, Y.lib.Lawful → exec Y.step Y.initial ls = some c → Y.Settled c →
      ∀ j ∈ Y.parties.nodes, ((c.st j).calls : Multiset Call) = ∑ i ∈ Y.parties.nodes,
        (((Y.program i).flatten.map fun msg => ⟨methodOf msg, i, msg⟩ : List Call) :
          Multiset Call) := by
  intro h
  obtain ⟨c, hc, hsettled⟩ := exists_pairRun
  have hall := h pair pairRun c samples_lawful hc hsettled "b" (by decide)
  have hcalls := System.calls_eq hc hsettled (j := "b") (by decide)
  have hfirst (i : PeerId) : pair.callsOf i "b" (pair.program i).flatten =
      if i = "a" then {⟨.broadcastSend, "a", send 0⟩} else 0 := by
    rw [← callsFor_pair i "b"]
    exact System.callsOf_eq samples_lawful fun _ => System.isMessage_of_mem
  have hboth (i : PeerId) :
      (((pair.program i).flatten.map fun msg => ⟨methodOf msg, i, msg⟩ : List Call) :
        Multiset Call) = if i = "a" then
          {⟨.broadcastSend, "a", send 0⟩, ⟨.broadcastSend, "a", send (2 ^ 64)⟩} else 0 := by
    by_cases hi : i = "a"
    · subst hi
      rfl
    · rw [if_neg hi, show pair.program i = [] from if_neg hi]
      rfl
  rw [hcalls, Finset.sum_congr rfl fun i _ => hfirst i, Finset.sum_congr rfl fun i _ => hboth i,
    sum_pair, sum_pair] at hall
  have hcard := congrArg Multiset.card hall
  simp at hcard

end DistBench.SimpleBroadcast
