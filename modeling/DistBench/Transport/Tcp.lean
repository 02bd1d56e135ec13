import DistBench.Lib.Run
import DistBench.Lib.Framing

/-!
# One TCP connection of the Python implementation (transport/tcp.py)

A client and the server loop for it, with length-prefixed messages: `send` waits for
the response while it holds the connection's lock, `cast` holds it only to write. The
prefix of a message is its length, or a marker that announces a cast; a response has
no id.

- `Call.frame`, `readRequest`, `responseFrame`, `readResponse`: the two formats.
- `State`: the calls of one `TcpConnection`, the coroutine `handle_client`, and the
  bytes between them. A coroutine that waits in `readexactly` keeps what it has read,
  and nothing else reads its stream, so a message is read in one step.
- `step`: the label says who moves, how many bytes arrive and what `server.handle`
  returns. Which of the waiting calls takes the lock is open.
-/

namespace DistBench.Tcp

/-! ## Formats -/

/-- `CAST_MARKER` (tcp.py:22). -/
def castMarker : Nat := 0xFFFFFFFF

/-- `struct.pack("!I", n)`, which raises an error from 2³² on. -/
def packI (n : Nat) : Option Bytes :=
  if n < 256 ^ 4 then some (toBytesBE 4 n) else none

inductive Kind where
  | send
  | cast
deriving DecidableEq, Repr

/-- A call of `send` or `cast`. -/
structure Call where
  kind : Kind
  msg : Bytes
deriving DecidableEq, Repr

/-- The bytes a call writes (tcp.py:90–91, 124–126). -/
def Call.frame (call : Call) : Option Bytes := do
  let length ← packI call.msg.length
  match call.kind with
  | .send => return length ++ call.msg
  | .cast =>
    let marker ← packI castMarker
    return marker ++ (length ++ call.msg)

/-- What `handle_client` reads of one message (tcp.py:219–233). -/
def readRequest : Reader Call := do
  let firstValue ← readBE 4
  let msgLength ← (if firstValue = castMarker then readBE 4 else pure firstValue)
  let msg ← readExact msgLength
  return ⟨if firstValue = castMarker then .cast else .send, msg⟩

/-- The bytes `handle_client` answers a `send` with (tcp.py:239–247). -/
def responseFrame : Option Bytes → Option Bytes
  | some response => (packI response.length).map (· ++ response)
  | none => packI 0

/-- What `send` reads (tcp.py:94–102). -/
def readResponse : Reader Bytes := do
  let respLength ← readBE 4
  if 0 < respLength then readExact respLength else return []

/-! ## The connection -/

/-- How a call ends; a `cast` returns `None`. -/
inductive Result where
  | returned (response : Option Bytes)
  | connectionError
  | structError
deriving DecidableEq, Repr

/-- The call that holds the lock: it has written its message and waits for `drain`, or
for its response. -/
structure Holder where
  call : Nat
  drained : Bool
deriving DecidableEq, Repr

/-- Where `handle_client` waits. -/
inductive ServerPhase where
  | handshake
  | reading (remoteNumericId : Nat)
  | handling (remoteNumericId : Nat) (call : Call)
  | closed
deriving DecidableEq, Repr

/-- The calls are numbered in the order in which they have been made. `order` are those
that have taken the lock and written, `handled` the calls of `server.handle`, with what
they have `returned`. -/
structure State where
  calls : List Call := []
  results : Nat → Option Result := fun _ => none
  closed : Bool := false
  lock : Option Holder := none
  order : List (Nat × Call) := []
  requests : Pipe := {}
  responses : Pipe := {}
  server : ServerPhase := .handshake
  stopEvent : Bool := false
  handled : List (Nat × Call) := []
  returned : List (Option Bytes) := []

/-- The state `connect` leaves, with the node's id on its way (tcp.py:178–184). -/
def initial (localNumericId : UInt16) : State :=
  { requests := { flight := toBytesBE 2 localNumericId.toNat } }

inductive Label where
  | call (call : Call)
  | acquire (k : Nat)
  | drain
  | readResponse
  | fail
  | arriveRequests (n : Nat)
  | arriveResponses (n : Nat)
  | handshake
  | receive
  | respond (response : Option Bytes)
  | raise
  | stop
deriving DecidableEq, Repr

namespace State

variable (s : State)

/-- A call ends, and leaves the lock if it holds it. -/
def finish (k : Nat) (result : Result) : State :=
  { s with results := Function.update s.results k (some result), lock := none }

/-- A waiting call takes the lock and runs up to its first await (tcp.py:84–92, 118–127). -/
def acquire (k : Nat) : Option State :=
  match s.lock, s.calls[k]?, s.results k with
  | none, some call, none =>
    if s.closed then some (s.finish k .connectionError)
    else
      match call.frame with
      | some bytes =>
        some { s with
          lock := some ⟨k, false⟩
          order := s.order ++ [(k, call)]
          requests := s.requests.write bytes }
      | none => some (s.finish k .structError)
  | _, _, _ => none

/-- `drain` has returned: a `cast` ends, a `send` waits for its response. -/
def drain : Option State :=
  match s.lock with
  | some ⟨k, false⟩ =>
    match s.calls[k]? with
    | some ⟨.send, _⟩ => some { s with lock := some ⟨k, true⟩ }
    | some ⟨.cast, _⟩ => some (s.finish k (.returned none))
    | none => none
  | _ => none

/-- A `send` has read its response (tcp.py:94–102). -/
def readResponse : Option State :=
  match s.lock with
  | some ⟨k, true⟩ =>
    match Tcp.readResponse s.responses.arrived with
    | some (response, rest) =>
      some { s.finish k (.returned (some response)) with
        responses := { s.responses with arrived := rest } }
    | none => none
  | _ => none

/-- The call that holds the lock finds that the server has closed the connection before
its response was complete (tcp.py:104–107, 129–132). -/
def fail : Option State :=
  match s.server, s.lock with
  | .closed, some ⟨k, drained⟩ =>
    if drained ∧ (s.responses.flight ≠ [] ∨ (Tcp.readResponse s.responses.arrived).isSome) then none
    else some { s.finish k .connectionError with closed := true }
  | _, _ => none

/-- The head of the server's loop (tcp.py:218). -/
def loop (remoteNumericId : Nat) : ServerPhase :=
  if s.stopEvent then .closed else .reading remoteNumericId

/-- The server reads the client's id (tcp.py:213–214). -/
def handshake : Option State :=
  match s.server, readBE 2 s.requests.arrived with
  | .handshake, some (remoteNumericId, rest) =>
    some { s with
      server := s.loop remoteNumericId
      requests := { s.requests with arrived := rest } }
  | _, _ => none

/-- The server reads a message and calls `server.handle` (tcp.py:218–236). -/
def receive : Option State :=
  match s.server, readRequest s.requests.arrived with
  | .reading remoteNumericId, some (call, rest) =>
    some { s with
      server := .handling remoteNumericId call
      requests := { s.requests with arrived := rest }
      handled := s.handled ++ [(remoteNumericId, call)] }
  | _, _ => none

/-- `server.handle` returns; only a `send` is answered (tcp.py:238–247). A response too
long for its prefix ends the connection (tcp.py:252–256). -/
def respond (response : Option Bytes) : Option State :=
  match s.server with
  | .handling remoteNumericId call =>
    let s := { s with returned := s.returned ++ [response], server := s.loop remoteNumericId }
    match call.kind, responseFrame response with
    | .cast, _ => some s
    | .send, some bytes => some { s with responses := s.responses.write bytes }
    | .send, none => some { s with server := .closed }
  | _ => none

end State

/-- One step of the connection; a chunk that arrives is not empty. -/
def step (s : State) : Label → Option State
  | .call call => some { s with calls := s.calls ++ [call] }
  | .acquire k => s.acquire k
  | .drain => s.drain
  | .readResponse => s.readResponse
  | .fail => s.fail
  | .arriveRequests n =>
    if 0 < n ∧ n ≤ s.requests.flight.length then some { s with requests := s.requests.arrive n }
    else none
  | .arriveResponses n =>
    if 0 < n ∧ n ≤ s.responses.flight.length then some { s with responses := s.responses.arrive n }
    else none
  | .handshake => s.handshake
  | .receive => s.receive
  | .respond response => s.respond response
  | .raise =>
    match s.server with
    | .handling _ _ => some { s with server := .closed }
    | _ => none
  | .stop => some { s with stopEvent := true }

end DistBench.Tcp
