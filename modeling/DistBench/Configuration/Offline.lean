import DistBench.Deployment
import DistBench.Lib.Dict

/-!
# Nodes in one process (main.py:149–231, transport/offline.py, transport/delayed.py)

In offline mode every node has a transport of its own, and a second pass tells every transport
of all the nodes. A connection calls the other node directly, and says who it is by the name its
transport was given in the first pass. With a latency the transport of a node is wrapped in one
that delays messages, and does nothing else.

- `LocalTransport`, `Transport`, `Node`: the transports and what a node knows of its peers.
- `runOffline`: the two passes. Building the algorithm of a node, which may raise, is left out:
  the configurations are those from which it can be built.
- `offline`: without a latency every node reaches every other one and is known to it; with a
  latency the second pass raises.
-/

namespace DistBench.Offline

/-- `LocalAddress`. -/
structure LocalAddress where
  nodeId : PeerId
deriving DecidableEq, Repr

/-- `LocalConnection`. A server is named by its node. -/
structure LocalConnection where
  server : PeerId
  targetAddress : LocalAddress
  sourceAddress : LocalAddress
deriving DecidableEq, Repr

structure LocalTransport where
  servers : List (PeerId × PeerId) := []
  currentNodeId : Option PeerId := none
deriving DecidableEq, Repr

namespace LocalTransport

variable (t : LocalTransport)

def setCurrentNode (nodeId : PeerId) : LocalTransport :=
  { t with currentNodeId := some nodeId }

def registerServer (nodeId server : PeerId) : LocalTransport :=
  { t with servers := setItem t.servers nodeId server }

def connect (addr : LocalAddress) : Except String LocalConnection :=
  match t.servers.lookup addr.nodeId, t.currentNodeId with
  | none, _ => .error s!"No server registered for node {addr.nodeId}"
  | some _, none => .error "Current node ID not set for LocalTransport"
  | some server, some nodeId => .ok ⟨server, addr, ⟨nodeId⟩⟩

end LocalTransport

/-- The transport of a node. -/
inductive Transport where
  | plain (t : LocalTransport)
  /-- `DelayedTransport`. -/
  | delayed (inner : LocalTransport) (delayRange : Int × Int)
deriving DecidableEq, Repr

namespace Transport

/-- Only `LocalTransport` has this method. -/
def registerServer (nodeId server : PeerId) : Transport → Except String Transport
  | plain t => .ok (plain (t.registerServer nodeId server))
  | delayed _ _ => .error "'DelayedTransport' object has no attribute 'register_server'"

/-- A connection of `DelayedTransport` is that of the inner transport, with a delay. -/
def connect (addr : LocalAddress) : Transport → Except String LocalConnection
  | plain t | delayed t _ => t.connect addr

end Transport

/-- A node, with what its `Community` keeps of the addresses of its peers. -/
structure Node where
  nodeId : PeerId
  transport : Transport
  peerAddresses : List (PeerId × LocalAddress)
  peers : List (LocalAddress × PeerId)
deriving DecidableEq, Repr

namespace Node

variable (n : Node)

/-- `Community.id_of`, by which `Node.handle` knows who has sent a message. -/
def idOf (addr : LocalAddress) : Option PeerId := n.peers.lookup addr

/-- The first connection to a peer (`ConnectionManager` calls `transport.connect`). -/
def connect (peer : PeerId) : Option (Except String LocalConnection) :=
  (n.peerAddresses.lookup peer).map fun addr => n.transport.connect addr

end Node

/-- The first pass, on one node (main.py:177–222), where it does not raise: `neighbours` can be
read, the algorithm is known, and all fields that it requires are there. -/
def createNode (keys : List PeerId) (latency : Int × Int) (nodeId : PeerId) : Node :=
  let baseTransport := LocalTransport.setCurrentNode {} nodeId
  let peerAddresses := (keys.filter (· ≠ nodeId)).map fun pid => (pid, LocalAddress.mk pid)
  { nodeId := nodeId
    transport :=
      if 0 < latency.1 ∨ 0 < latency.2 then .delayed baseTransport latency else .plain baseTransport
    peerAddresses := peerAddresses
    peers := peerAddresses.foldl (fun peers entry => setItem peers entry.2 entry.1) [] }

/-- `server_registry`. -/
def serverRegistry (keys : List PeerId) : List (PeerId × PeerId) :=
  keys.foldl (fun registry nodeId => setItem registry nodeId nodeId) []

/-- The second pass, on one node (main.py:224–228). -/
def registerServers (keys : List PeerId) (n : Node) : Except String Node := do
  let transport ← (serverRegistry keys).foldlM
    (fun transport entry => transport.registerServer entry.1 entry.2) n.transport
  return { n with transport := transport }

/-- `run_offline`, up to the start of the nodes. -/
def runOffline (keys : List PeerId) (latency : Int × Int) : Except String (List Node) :=
  (keys.map (createNode keys latency)).mapM (registerServers keys)

/-! ## What the nodes know -/

/-- Node `p` reaches node `q`, which knows the source address as that of `p`, and no other. -/
structure Reaches (p q : Node) (conn : LocalConnection) : Prop where
  connect : p.connect q.nodeId = some (.ok conn)
  server : conn.server = q.nodeId
  idOf : ∀ addr, q.idOf addr = some p.nodeId ↔ addr = conn.sourceAddress

variable {keys : List PeerId} {latency : Int × Int} {i j : PeerId}

/-- A node after both passes, without a latency. -/
def registered (keys : List PeerId) (latency : Int × Int) (nodeId : PeerId) : Node :=
  { createNode keys latency nodeId with
    transport := .plain
      { servers := keys.map fun nodeId => (nodeId, nodeId)
        currentNodeId := some nodeId } }

theorem serverRegistry_eq (hnodup : keys.Nodup) :
    serverRegistry keys = keys.map fun nodeId => (nodeId, nodeId) :=
  foldl_setItem id id keys (by simpa using hnodup)

theorem foldlM_registerServer (entries : List (PeerId × PeerId)) (t : LocalTransport) :
    entries.foldlM (fun transport entry => transport.registerServer entry.1 entry.2)
        (Transport.plain t) =
      .ok (.plain { t with
        servers := entries.foldl (fun servers entry => setItem servers entry.1 entry.2)
          t.servers }) := by
  induction entries generalizing t with
  | nil => rfl
  | cons entry entries ih =>
    rw [List.foldlM_cons, List.foldl_cons]
    exact ih (t.registerServer entry.1 entry.2)

theorem registerServers_createNode (hnodup : keys.Nodup)
    (hlatency : ¬(0 < latency.1 ∨ 0 < latency.2)) :
    registerServers keys (createNode keys latency i) = .ok (registered keys latency i) := by
  have htransport : (createNode keys latency i).transport =
      .plain (LocalTransport.setCurrentNode {} i) := if_neg hlatency
  have hservers : (keys.map fun nodeId => (nodeId, nodeId)).foldl
      (fun servers entry => setItem servers entry.1 entry.2) [] =
        keys.map fun nodeId => (nodeId, nodeId) := by
    rw [List.foldl_map]
    exact serverRegistry_eq hnodup
  rw [registerServers, htransport, serverRegistry_eq hnodup, foldlM_registerServer]
  simp only [LocalTransport.setCurrentNode, hservers]
  rfl

/-- The second pass goes through … -/
theorem runOffline_eq (hnodup : keys.Nodup) (hlatency : ¬(0 < latency.1 ∨ 0 < latency.2)) :
    runOffline keys latency = .ok (keys.map (registered keys latency)) := by
  have hpass (nodeIds : List PeerId) :
      (nodeIds.map (createNode keys latency)).mapM (registerServers keys) =
        .ok (nodeIds.map (registered keys latency)) := by
    induction nodeIds with
    | nil => rfl
    | cons nodeId nodeIds ih =>
      rw [List.map_cons, List.mapM_cons, registerServers_createNode hnodup hlatency, ih]
      rfl
  exact hpass keys

/-- … or raises at the first node. -/
theorem runOffline_of_latency (hnodup : keys.Nodup) (hlatency : 0 < latency.1 ∨ 0 < latency.2)
    (hne : keys ≠ []) : runOffline keys latency =
      .error "'DelayedTransport' object has no attribute 'register_server'" := by
  obtain ⟨nodeId, nodeIds, rfl⟩ := List.exists_cons_of_ne_nil hne
  have htransport : (createNode (nodeId :: nodeIds) latency nodeId).transport =
      .delayed (LocalTransport.setCurrentNode {} nodeId) latency := if_pos hlatency
  rw [runOffline, List.map_cons, List.mapM_cons, registerServers, htransport,
    serverRegistry_eq hnodup, List.map_cons, List.foldlM_cons]
  rfl

theorem idOf_registered (hnodup : keys.Nodup) {addr : LocalAddress} :
    (registered keys latency j).idOf addr = some i ↔ i ∈ keys ∧ i ≠ j ∧ addr = ⟨i⟩ := by
  have haddrs : ((keys.filter (· ≠ j)).map LocalAddress.mk).Nodup :=
    (hnodup.filter _).map fun _ _ h => congrArg LocalAddress.nodeId h
  have hpeers : (registered keys latency j).peers =
      (keys.filter (· ≠ j)).map fun pid => (LocalAddress.mk pid, pid) := by
    show ((keys.filter (· ≠ j)).map fun pid => (pid, LocalAddress.mk pid)).foldl
      (fun peers entry => setItem peers entry.2 entry.1) [] = _
    rw [List.foldl_map]
    exact foldl_setItem LocalAddress.mk id _ haddrs
  rw [Node.idOf, hpeers, lookup_map_eq_some_iff haddrs]
  constructor
  · rintro ⟨pid, hpid, rfl, rfl⟩
    obtain ⟨hmem, hne⟩ := List.mem_filter.mp hpid
    exact ⟨hmem, of_decide_eq_true hne, rfl⟩
  · rintro ⟨hmem, hne, rfl⟩
    exact ⟨i, List.mem_filter.mpr ⟨hmem, decide_eq_true hne⟩, rfl, rfl⟩

theorem reaches_registered (hnodup : keys.Nodup) (hi : i ∈ keys) (hj : j ∈ keys) (hne : i ≠ j) :
    Reaches (registered keys latency i) (registered keys latency j) ⟨j, ⟨j⟩, ⟨i⟩⟩ := by
  constructor
  · have hpeers : ((keys.filter (· ≠ i)).map id).Nodup := by
      rw [List.map_id]
      exact hnodup.filter _
    have haddr : (registered keys latency i).peerAddresses.lookup j = some ⟨j⟩ :=
      (lookup_map_eq_some_iff hpeers).mpr
        ⟨j, List.mem_filter.mpr ⟨hj, decide_eq_true hne.symm⟩, rfl, rfl⟩
    have hkeys : (keys.map id).Nodup := by rwa [List.map_id]
    have hserver : (keys.map fun nodeId => (nodeId, nodeId)).lookup j = some j :=
      (lookup_map_eq_some_iff hkeys).mpr ⟨j, hj, rfl, rfl⟩
    show ((registered keys latency i).peerAddresses.lookup j).map _ = _
    rw [haddr]
    show some (LocalTransport.connect _ _) = _
    simp only [LocalTransport.connect, hserver]
  · rfl
  · intro addr
    refine (idOf_registered hnodup).trans ⟨fun h => h.2.2, fun h => ⟨hi, hne, h⟩⟩

/-- **Everybody is reached, and known**: without a latency every node reaches every other one,
which takes what arrives on the connection for a message of that node. With a latency no node is
ever started: `DelayedTransport` cannot be told of the servers. -/
theorem offline (hnodup : keys.Nodup) :
    (latency.1 ≤ 0 ∧ latency.2 ≤ 0 → ∃ nodes, runOffline keys latency = .ok nodes ∧
      nodes.map Node.nodeId = keys ∧
      ∀ p ∈ nodes, ∀ q ∈ nodes, p ≠ q → ∃ conn, Reaches p q conn) ∧
    (0 < latency.1 ∨ 0 < latency.2 → keys ≠ [] → runOffline keys latency =
      .error "'DelayedTransport' object has no attribute 'register_server'") := by
  refine ⟨fun hlatency => ?_, runOffline_of_latency hnodup⟩
  refine ⟨_, runOffline_eq hnodup (by omega), ?_, fun p hp q hq hne => ?_⟩
  · rw [List.map_map]
    exact List.map_id keys
  · obtain ⟨i, hi, rfl⟩ := List.mem_map.mp hp
    obtain ⟨j, hj, rfl⟩ := List.mem_map.mp hq
    have hij : i ≠ j := by
      rintro rfl
      exact hne rfl
    exact ⟨_, reaches_registered hnodup hi hj hij⟩

theorem offline_threeNodes : (∃ nodes, runOffline ["c", "a", "b"] (0, 0) = .ok nodes ∧
    ∀ p ∈ nodes, ∀ q ∈ nodes, p ≠ q → ∃ conn, Reaches p q conn) ∧
    runOffline ["c", "a", "b"] (10, 50) =
      .error "'DelayedTransport' object has no attribute 'register_server'" := by
  have hnodup : ["c", "a", "b"].Nodup := by decide
  obtain ⟨nodes, hnodes, -, hreaches⟩ := (@offline _ (0, 0) hnodup).1 (by decide)
  exact ⟨⟨nodes, hnodes, hreaches⟩, (@offline _ (10, 50) hnodup).2 (by decide) (by decide)⟩

end DistBench.Offline
