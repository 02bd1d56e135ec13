import DistBench.Lib.Run
import DistBench.Lib.Dict
import DistBench.Lib.Framing

/-!
# One multiplexed TCP connection (transport/tcp.rs)

The client side of a connection: any number of `send` and `cast` calls, the
channel in which they leave their messages, and the task that writes the messages
to the stream and reads the responses from it.

- `Frame`, `writeFrame`, `readFrame`.
- `Client`: the shared handle and the state of the task. `taken` are the bytes
  which the `read_frame` future of the present turn of `select!` has read;
  the future is dropped, with these bytes, when a message is taken.
- `Server`: any server that answers every Send frame at most once, in a frame
  with its id, in any order. It reads the frames without being interrupted.
- `step`: who moves next, and how many bytes arrive, is the label.
-/

namespace DistBench.RustTcp

/-! ## Frames -/

def frameTypeCast : UInt8 := 0
def frameTypeSend : UInt8 := 1
def frameTypeResponseOk : UInt8 := 2
def frameTypeResponseErr : UInt8 := 3

structure Frame where
  msgType : UInt8
  requestId : UInt64
  payload : Bytes
deriving DecidableEq, Repr

/-- `write_frame` (tcp.rs:490–505). The length is cast to a `u32`. -/
def writeFrame (frame : Frame) : Bytes :=
  toBytesBE 1 frame.msgType.toNat ++ (toBytesBE 8 frame.requestId.toNat ++
    (toBytesBE 4 frame.payload.length ++ frame.payload))

/-- `read_frame` (tcp.rs:508–517). -/
def readFrame : Reader Frame := do
  let msgType ← readBE 1
  let requestId ← readBE 8
  let len ← readBE 4
  let payload ← readExact len
  return ⟨UInt8.ofNat msgType, UInt64.ofNat requestId, payload⟩

/-! ## The client -/

inductive TransportError where
  | connectionClosed
  /-- The message is the text of the bytes. -/
  | algorithmError (message : Bytes)
deriving DecidableEq, Repr

abbrev Result : Type := Except TransportError Bytes

/-- A `send` call, with its id and the sender half of its oneshot channel: calls
are numbered in the order in which they take their ids. -/
structure Request where
  requestId : UInt64
  payload : Bytes
  responseTx : Nat
deriving DecidableEq, Repr

/-- `ConnectionMessage` (tcp.rs:318–324). -/
inductive ConnectionMessage where
  | send (request : Request)
  | cast (payload : Bytes)
  | close
deriving DecidableEq, Repr

/-- `TcpConnection` and the local variables of its task. `waiting` are the messages
of calls that wait for room in the channel. The last three fields record the history:
the calls, the requests that have been written and the frames that have been parsed. -/
structure Client where
  nextRequestId : UInt64 := 1
  waiting : List ConnectionMessage := []
  channel : List ConnectionMessage := []
  running : Bool := true
  taken : Bytes := []
  pendingRequests : Dict UInt64 Nat := ∅
  results : Nat → Option Result := fun _ => none
  calls : List Request := []
  written : List Request := []
  parsed : List Frame := []

namespace Client

variable (c : Client)

/-- The call gets its result. -/
def resolve (responseTx : Nat) (result : Result) : Client :=
  { c with results := Function.update c.results responseTx (some result) }

/-- A sender that is dropped unused closes its oneshot channel. -/
def drop : Option Nat → Client
  | some responseTx => c.resolve responseTx (.error .connectionClosed)
  | none => c

/-- The task ends: its channel and its pending requests go, and with them the senders
of all calls without a result. -/
def stop : Client :=
  { c with
    running := false
    waiting := []
    channel := []
    pendingRequests := ∅
    results := fun k =>
      if k < c.calls.length then some ((c.results k).getD (.error .connectionClosed)) else none }

/-- The call of `tx.send` in `send`, `cast` and `close`; it fails once the task has ended. -/
def submit (msg : ConnectionMessage) : Client :=
  { c with waiting := c.waiting ++ [msg] }

/-- `TcpConnection::send` (tcp.rs:456–468) up to its first await. -/
def send (payload : Bytes) : Client :=
  let request : Request := ⟨c.nextRequestId, payload, c.calls.length⟩
  let called : Client :=
    { c with nextRequestId := c.nextRequestId + 1, calls := c.calls ++ [request] }
  if c.running then called.submit (.send request)
  else called.resolve request.responseTx (.error .connectionClosed)

/-- `TcpConnection::cast` and `close` (tcp.rs:470–485). -/
def post (msg : ConnectionMessage) : Client :=
  if c.running then c.submit msg else c

/-- The `i`-th waiting call finds room in the channel of 100 messages. -/
def enqueue (i : Nat) : Option Client :=
  match c.waiting[i]? with
  | some msg =>
    if c.channel.length < 100 then
      some { c with waiting := c.waiting.eraseIdx i, channel := c.channel ++ [msg] }
    else none
  | none => none

/-- `handle_outgoing_message` (tcp.rs:390–411), with the bytes it writes. An id that
is pending already loses its sender. -/
def handleOutgoingMessage : ConnectionMessage → Client × Bytes
  | .send request =>
    let replaced := c.drop (c.pendingRequests.lookup request.requestId)
    ({ replaced with
        pendingRequests := c.pendingRequests.insert request.requestId request.responseTx
        written := c.written ++ [request] },
      writeFrame ⟨frameTypeSend, request.requestId, request.payload⟩)
  | .cast payload => (c, writeFrame ⟨frameTypeCast, 0, payload⟩)
  | .close => (c.stop, [])

/-- Takes the sender of a request out of the pending ones and uses it. -/
def respond (requestId : UInt64) (result : Result) : Client :=
  match c.pendingRequests.lookup requestId with
  | some responseTx =>
    { c.resolve responseTx result with pendingRequests := c.pendingRequests.erase requestId }
  | none => c

/-- `handle_incoming_frame` (tcp.rs:413–451). -/
def handleIncomingFrame (frame : Frame) : Client :=
  if frame.msgType = frameTypeResponseOk then
    c.respond frame.requestId (.ok frame.payload)
  else if frame.msgType = frameTypeResponseErr then
    c.respond frame.requestId (.error (.algorithmError frame.payload))
  else c

end Client

/-! ## The server -/

/-- What `server.handle` returns; the error by its text. -/
inductive Outcome where
  | ok (response : Option Bytes)
  | err (message : Bytes)
deriving DecidableEq, Repr

/-- What the caller of `send` is to get. -/
def Outcome.result : Outcome → Result
  | .ok response => .ok (response.getD [])
  | .err message => .error (.algorithmError message)

/-- The payload of the response (tcp.rs:259–293). -/
def Outcome.payload : Outcome → Bytes
  | .ok response => response.getD []
  | .err message => message

def Outcome.msgType : Outcome → UInt8
  | .ok _ => frameTypeResponseOk
  | .err _ => frameTypeResponseErr

/-- The answer to the Send frame that was the `request`-th the server has read. -/
structure Answer where
  request : Nat
  requestId : UInt64
  outcome : Outcome
deriving DecidableEq, Repr

def Answer.frame (a : Answer) : Frame :=
  ⟨a.outcome.msgType, a.requestId, a.outcome.payload⟩

/-- The ids and payloads of the Send frames that have been read, and the answers that
have been written. -/
structure Server where
  accepted : List (UInt64 × Bytes) := []
  answers : List Answer := []

/-- The response frames in the order in which the server has written them. -/
def Server.frames (server : Server) : List Frame :=
  server.answers.map Answer.frame

/-! ## The system -/

structure State where
  client : Client := {}
  server : Server := {}
  requests : Pipe := {}
  responses : Pipe := {}

def initial : State := {}

inductive Label where
  | send (payload : Bytes)
  | cast (payload : Bytes)
  | close
  | enqueue (i : Nat)
  | takeMessage
  | poll
  | arriveRequests (n : Nat)
  | arriveResponses (n : Nat)
  | serve
  | answer (request : Nat) (outcome : Outcome)
deriving DecidableEq, Repr

namespace State

variable (s : State)

/-- The branch `Some(msg) = rx.recv()` of `select!` (tcp.rs:375–381): the other branch,
the `read_frame` future with what it has read, is dropped. -/
def takeMessage : Option State :=
  match s.client.running, s.client.channel with
  | true, msg :: rest =>
    let (client, out) := { s.client with channel := rest, taken := [] }.handleOutgoingMessage msg
    some { s with client := client, requests := s.requests.write out }
  | _, _ => none

/-- The branch `frame = read_frame(&mut reader)` of `select!` (tcp.rs:382–384), polled
once: the future reads what is there. -/
def poll : Option State :=
  if s.client.running then
    match readFrame (s.client.taken ++ s.responses.arrived) with
    | some (frame, rest) =>
      let client : Client := { s.client with taken := [], parsed := s.client.parsed ++ [frame] }
      some { s with
        client := client.handleIncomingFrame frame
        responses := { s.responses with arrived := rest } }
    | none =>
      some { s with
        client := { s.client with taken := s.client.taken ++ s.responses.arrived }
        responses := { s.responses with arrived := [] } }
  else none

/-- The server reads a frame (tcp.rs:228–303); only a Send frame is to be answered. -/
def serve : Option State :=
  match readFrame s.requests.arrived with
  | some (frame, rest) =>
    some { s with
      server :=
        if frame.msgType = frameTypeSend then
          { s.server with accepted := s.server.accepted ++ [(frame.requestId, frame.payload)] }
        else s.server
      requests := { s.requests with arrived := rest } }
  | none => none

/-- The server answers a Send frame that it has not answered. -/
def answer (request : Nat) (outcome : Outcome) : Option State :=
  match s.server.accepted[request]? with
  | some (requestId, _) =>
    if request ∈ s.server.answers.map Answer.request then none
    else
      let a : Answer := ⟨request, requestId, outcome⟩
      some { s with
        server := { s.server with answers := s.server.answers ++ [a] }
        responses := s.responses.write (writeFrame a.frame) }
  | none => none

end State

/-- One step of the connection. -/
def step (s : State) : Label → Option State
  | .send payload => some { s with client := s.client.send payload }
  | .cast payload => some { s with client := s.client.post (.cast payload) }
  | .close => some { s with client := s.client.post .close }
  | .enqueue i => (s.client.enqueue i).map fun client => { s with client := client }
  | .takeMessage => s.takeMessage
  | .poll => s.poll
  | .arriveRequests n => some { s with requests := s.requests.arrive n }
  | .arriveResponses n => some { s with responses := s.responses.arrive n }
  | .serve => s.serve
  | .answer request outcome => s.answer request outcome

end DistBench.RustTcp
