import DistBench.Deployment
import DistBench.Lib.Dict
import DistBench.Lib.Ring
import DistBench.Transport.Tcp

/-!
# Who sent it (main.py:234–278, community.py:134–140, transport/tcp.py:178–214)

A node is known to the other processes by the place of its name among the sorted names of the
configuration. Every process works the places out for itself. A client writes its own as two
bytes when it connects, and the server looks it up in the reverse map of its community.

- `buildTcpMappings`: the three maps; the loop runs over the sorted names, whatever their order
  in the file.
- `Community.idOf`, `Process.community`: the reverse map, of the peers of one node.
- `connect`: the connection a node opens, with its place on the way.
- `attribution`: the maps are bijections, and whatever arrives on the connection of a node is
  taken for a message of that node, in every other process.
-/

namespace DistBench.Configuration

open DistBench.Tcp

/-- `TcpAddress`, the number of a node. -/
structure TcpAddress where
  id : Nat
deriving DecidableEq, Repr

/-- `SocketAddress`. -/
structure SocketAddress where
  host : String
  port : Int
deriving DecidableEq, Repr

/-- What `build_tcp_mappings` returns. -/
structure TcpMappings where
  allPeerSockets : List (TcpAddress × SocketAddress) := []
  allPeerIds : List (TcpAddress × PeerId) := []
  peerIdToNumericAddr : List (PeerId × TcpAddress) := []
deriving DecidableEq, Repr

/-- A process: the names of the nodes as the keys of its dictionary, and its mode. -/
structure Process where
  keys : List PeerId
  nodup : keys.Nodup
  portBase : Int
  isLocal : Bool

namespace Process

variable (p : Process)

/-- Where node `i` of the sorted names listens. -/
def socketAddr (nodeId : PeerId) (i : Nat) : SocketAddress :=
  if p.isLocal then ⟨"127.0.0.1", p.portBase + i⟩ else ⟨nodeId, p.portBase⟩

/-- The body of the loop of `build_tcp_mappings`. -/
def addNode (m : TcpMappings) (node : PeerId × Nat) : Except String TcpMappings :=
  let (nodeId, i) := node
  if 65535 < i then .error "Too many nodes for u16 numeric ID"
  else
    .ok
      { allPeerSockets := setItem m.allPeerSockets ⟨i⟩ (p.socketAddr nodeId i)
        allPeerIds := setItem m.allPeerIds ⟨i⟩ nodeId
        peerIdToNumericAddr := setItem m.peerIdToNumericAddr nodeId ⟨i⟩ }

/-- `sorted(config_data.keys())`. -/
def sortedNodeIds : List PeerId := p.keys.insertionSort (· ≤ ·)

def buildTcpMappings : Except String TcpMappings :=
  p.sortedNodeIds.zipIdx.foldlM p.addNode {}

end Process

/-- What `Community` keeps of the addresses of the peers. -/
structure Community where
  peers : List (TcpAddress × PeerId)

/-- `Community.__init__`. -/
def Community.ofPeerAddresses (peerAddresses : List (PeerId × TcpAddress)) : Community where
  peers := peerAddresses.foldl (fun peers entry => setItem peers entry.2 entry.1) []

/-- `Community.id_of`. -/
def Community.idOf (c : Community) (addr : TcpAddress) : Option PeerId := c.peers.lookup addr

/-- The community of a node (main.py:347–357). -/
def TcpMappings.community (m : TcpMappings) (nodeId : PeerId) : Community :=
  .ofPeerAddresses (m.peerIdToNumericAddr.filter fun entry => entry.1 ≠ nodeId)

/-- `TcpTransport.connect` of a node, which writes its number as an unsigned short. -/
def connect (localNumericId : TcpAddress) : Option State :=
  if localNumericId.id < 2 ^ 16 then some (Tcp.initial (UInt16.ofNat localNumericId.id)) else none

/-! ## The maps -/

/-- The three maps are bijections between the nodes, the numbers below theirs, and as many
sockets, and they agree. -/
structure TcpMappings.Bijective (m : TcpMappings) (keys : List PeerId) : Prop where
  inverse : ∀ addr pid, m.allPeerIds.lookup addr = some pid ↔
    m.peerIdToNumericAddr.lookup pid = some addr
  ids : ∀ pid, (m.peerIdToNumericAddr.lookup pid).isSome ↔ pid ∈ keys
  addrs : ∀ addr, (m.allPeerIds.lookup addr).isSome ↔ addr.id < keys.length
  sockets : ∀ addr, (m.allPeerSockets.lookup addr).isSome ↔ addr.id < keys.length
  sockets_inj : ∀ addr addr' socket, m.allPeerSockets.lookup addr = some socket →
    m.allPeerSockets.lookup addr' = some socket → addr = addr'

/-- Node `i`, whose maps are `m`, has the number `addr`, and node `j`, whose maps are `m'`, takes
whatever arrives on a connection of `i` for a message of `i`. -/
structure Attributed (m m' : TcpMappings) (i j : PeerId) (addr : TcpAddress) : Prop where
  address : m.peerIdToNumericAddr.lookup i = some addr
  idOf : (m'.community j).idOf addr = some i
  alone : ∀ addr', (m'.community j).idOf addr' = some i → addr' = addr
  written : ∃ s₀, connect addr = some s₀ ∧ readBE 2 s₀.requests.flight = some (addr.id, []) ∧
    ∀ ls s, exec Tcp.step s₀ ls = some s →
      ∀ request ∈ s.handled, (m'.community j).idOf ⟨request.1⟩ = some i

variable {p q : Process} {m : TcpMappings} {names : List PeerId} {i j pid : PeerId}
  {addr : TcpAddress}

/-- The maps for names that are sorted. -/
def Process.mappings (p : Process) (names : List PeerId) : TcpMappings where
  allPeerSockets := names.zipIdx.map fun node => (⟨node.2⟩, p.socketAddr node.1 node.2)
  allPeerIds := names.zipIdx.map fun node => (⟨node.2⟩, node.1)
  peerIdToNumericAddr := names.zipIdx.map fun node => (node.1, ⟨node.2⟩)

theorem mem_zipIdx {n : Nat} : (pid, n) ∈ names.zipIdx ↔ names[n]? = some pid := by
  rw [List.mem_zipIdx_iff_getElem?]

theorem nodup_addrs : (names.zipIdx.map fun node => TcpAddress.mk node.2).Nodup := by
  have hmap : (names.zipIdx.map fun node => TcpAddress.mk node.2) =
      (names.zipIdx.map Prod.snd).map TcpAddress.mk := by
    rw [List.map_map]
    rfl
  rw [hmap, List.zipIdx_map_snd]
  exact List.Nodup.map (fun _ _ h => congrArg TcpAddress.id h) List.nodup_range'

/-- The next name is new to all three maps. -/
theorem addNode_mappings (hnew : i ∉ names) (hlength : names.length < 65536) :
    p.addNode (p.mappings names) (i, names.length) = .ok (p.mappings (names ++ [i])) := by
  have haddr : TcpAddress.mk names.length ∉ names.zipIdx.map fun node => TcpAddress.mk node.2 := by
    intro hmem
    obtain ⟨node, hnode, heq⟩ := List.mem_map.mp hmem
    have hlt := List.snd_lt_of_mem_zipIdx hnode
    have heq : node.2 = names.length := congrArg TcpAddress.id heq
    omega
  have hname : i ∉ names.zipIdx.map Prod.fst := by
    rw [List.zipIdx_map_fst]
    exact hnew
  rw [Process.addNode, if_neg (by omega)]
  simp only [Process.mappings, List.zipIdx_append, List.map_append, List.zipIdx_singleton]
  rw [setItem_of_notMem (by simpa [List.map_map] using haddr),
    setItem_of_notMem (by simpa [List.map_map] using haddr),
    setItem_of_notMem (by rw [List.map_map]; exact hname)]
  simp

/-- The loop, on up to 65536 names … -/
theorem foldlM_addNode (hnodup : names.Nodup) (hlength : names.length ≤ 65536) :
    names.zipIdx.foldlM p.addNode {} = .ok (p.mappings names) := by
  induction names using List.reverseRecOn with
  | nil => rfl
  | append_singleton names nodeId ih =>
    rw [List.length_append, List.length_singleton] at hlength
    obtain ⟨hbefore, -, hne⟩ := List.nodup_append.mp hnodup
    have hnew : nodeId ∉ names := fun hmem =>
      hne nodeId hmem nodeId (List.mem_singleton.mpr rfl) rfl
    rw [List.zipIdx_append, List.foldlM_append, ih hbefore (by omega)]
    simp only [Nat.zero_add, List.zipIdx_singleton, List.foldlM_cons, List.foldlM_nil, bind_pure]
    exact addNode_mappings hnew (by omega)

/-- … and on more. -/
theorem foldlM_addNode_of_lt (hnodup : names.Nodup) (hlength : 65536 < names.length) :
    names.zipIdx.foldlM p.addNode {} = .error "Too many nodes for u16 numeric ID" := by
  have htake : (names.take 65536).length = 65536 := by
    rw [List.length_take]
    omega
  obtain ⟨next, rest, hrest⟩ := List.exists_cons_of_length_pos (l := names.drop 65536) (by
    rw [List.length_drop]
    omega)
  rw [← List.take_append_drop 65536 names, hrest, List.zipIdx_append, List.foldlM_append,
    foldlM_addNode (hnodup.sublist (List.take_sublist _ _)) htake.le, htake, List.zipIdx_cons]
  rfl

theorem lookup_allPeerIds :
    (p.mappings names).allPeerIds.lookup addr = some pid ↔ names[addr.id]? = some pid := by
  rw [Process.mappings, lookup_map_eq_some_iff nodup_addrs, ← mem_zipIdx]
  constructor
  · rintro ⟨node, hnode, rfl, rfl⟩
    exact hnode
  · exact fun h => ⟨_, h, rfl, rfl⟩

theorem lookup_numericAddr (hnodup : names.Nodup) :
    (p.mappings names).peerIdToNumericAddr.lookup pid = some addr ↔ names[addr.id]? = some pid := by
  have hkeys : (names.zipIdx.map Prod.fst).Nodup := by rwa [List.zipIdx_map_fst]
  rw [Process.mappings, lookup_map_eq_some_iff hkeys, ← mem_zipIdx]
  constructor
  · rintro ⟨node, hnode, rfl, rfl⟩
    exact hnode
  · exact fun h => ⟨_, h, rfl, rfl⟩

theorem lookup_sockets {socket : SocketAddress} :
    (p.mappings names).allPeerSockets.lookup addr = some socket ↔
      ∃ pid, names[addr.id]? = some pid ∧ p.socketAddr pid addr.id = socket := by
  rw [Process.mappings, lookup_map_eq_some_iff nodup_addrs]
  constructor
  · rintro ⟨node, hnode, rfl, rfl⟩
    exact ⟨node.1, mem_zipIdx.mp hnode, rfl⟩
  · rintro ⟨pid, hpid, rfl⟩
    exact ⟨_, mem_zipIdx.mpr hpid, rfl, rfl⟩

/-- Every node listens somewhere else: on its own port, or on its own host. -/
theorem socketAddr_inj (hnodup : names.Nodup) {n n' : Nat} (hi : names[n]? = some i)
    (hj : names[n']? = some j) (h : p.socketAddr i n = p.socketAddr j n') : n = n' := by
  unfold Process.socketAddr at h
  split at h
  · have hport := congrArg SocketAddress.port h
    exact Int.ofNat_inj.mp (Int.add_left_cancel hport)
  · obtain rfl : i = j := congrArg SocketAddress.host h
    obtain ⟨hlt, hi⟩ := List.getElem?_eq_some_iff.mp hi
    obtain ⟨hlt', hj⟩ := List.getElem?_eq_some_iff.mp hj
    exact hnodup.getElem_inj_iff.mp (hi.trans hj.symm)

theorem bijective_mappings (hnodup : names.Nodup) : (p.mappings names).Bijective names where
  inverse addr pid := lookup_allPeerIds.trans (lookup_numericAddr hnodup).symm
  ids pid := by
    rw [Option.isSome_iff_exists, List.mem_iff_getElem?]
    constructor
    · exact fun ⟨addr, h⟩ => ⟨addr.id, (lookup_numericAddr hnodup).mp h⟩
    · exact fun ⟨n, h⟩ => ⟨⟨n⟩, (lookup_numericAddr hnodup).mpr h⟩
  addrs addr := by
    simp only [Option.isSome_iff_exists, lookup_allPeerIds]
    simp [← Option.isSome_iff_exists]
  sockets addr := by
    simp only [Option.isSome_iff_exists, lookup_sockets]
    rw [exists_comm]
    simp [← Option.isSome_iff_exists]
  sockets_inj addr addr' socket h h' := by
    obtain ⟨i, hi, hsocket⟩ := lookup_sockets.mp h
    obtain ⟨j, hj, hsocket'⟩ := lookup_sockets.mp h'
    exact congrArg TcpAddress.mk (socketAddr_inj hnodup hi hj (hsocket.trans hsocket'.symm))

/-! ## The reverse map of a community -/

theorem idOf_community (hnodup : names.Nodup) :
    ((p.mappings names).community j).idOf addr = some i ↔ names[addr.id]? = some i ∧ i ≠ j := by
  let entries := (p.mappings names).peerIdToNumericAddr.filter fun entry => entry.1 ≠ j
  have haddrs : (entries.map Prod.snd).Nodup := by
    have hall : ((p.mappings names).peerIdToNumericAddr.map Prod.snd).Nodup := by
      rw [Process.mappings, List.map_map]
      exact nodup_addrs
    exact hall.sublist (List.filter_sublist.map _)
  have hpeers : ((p.mappings names).community j).peers =
      entries.map fun entry => (entry.2, entry.1) :=
    foldl_setItem _ _ entries haddrs
  rw [Community.idOf, hpeers, lookup_map_eq_some_iff haddrs]
  constructor
  · rintro ⟨entry, hentry, rfl, rfl⟩
    obtain ⟨hmem, hne⟩ := List.mem_filter.mp hentry
    obtain ⟨node, hnode, rfl⟩ := List.mem_map.mp hmem
    exact ⟨mem_zipIdx.mp hnode, of_decide_eq_true hne⟩
  · rintro ⟨hi, hne⟩
    have hmem := mem_of_lookup ((lookup_numericAddr (p := p) hnodup).mpr hi)
    exact ⟨(i, addr), List.mem_filter.mpr ⟨hmem, decide_eq_true hne⟩, rfl, rfl⟩

/-! ## The number a connection carries -/

/-- The number the server has read. -/
def remoteNumericId : ServerPhase → Option Nat
  | .handshake | .closed => none
  | .reading src | .handling src _ => some src

/-- The server reads the number that was written first, before anything else. -/
structure Carries (id : UInt16) (s : State) : Prop where
  written : s.server = .handshake → toBytesBE 2 id.toNat <+: s.requests.bytes
  server : ∀ src ∈ remoteNumericId s.server, src = id.toNat
  handled : ∀ request ∈ s.handled, request.1 = id.toNat

section

variable {id : UInt16} {s s' : State} {l : Label} {ls : List Label}

theorem carries_initial : Carries id (Tcp.initial id) where
  written _ := by simp [Tcp.initial, Pipe.bytes]
  server := by simp [Tcp.initial, remoteNumericId]
  handled := by simp [Tcp.initial]

/-- Nothing but the server reads from the stream. -/
theorem Carries.congr (h : Carries id s) (hserver : s'.server = s.server)
    (hhandled : s'.handled = s.handled) (hrequests : s.requests.bytes <+: s'.requests.bytes) :
    Carries id s' where
  written hphase := (h.written (hserver ▸ hphase)).trans hrequests
  server := hserver ▸ h.server
  handled := hhandled ▸ h.handled

theorem Carries.acquire {k : Nat} (h : Carries id s) (hs : s.acquire k = some s') :
    Carries id s' := by
  unfold State.acquire at hs
  split at hs
  · split at hs
    · obtain rfl := Option.some.inj hs
      exact h.congr rfl rfl List.prefix_rfl
    · split at hs
      · obtain rfl := Option.some.inj hs
        exact h.congr rfl rfl (by simp)
      · obtain rfl := Option.some.inj hs
        exact h.congr rfl rfl List.prefix_rfl
  · cases hs

/-- A server that is back in its loop still has the number. -/
theorem Carries.loop {src : Nat} {s₁ : State} (hsrc : src = id.toNat)
    (hserver : s'.server = s₁.loop src) (hhandled : ∀ request ∈ s'.handled, request.1 = id.toNat) :
    Carries id s' := by
  unfold State.loop at hserver
  split at hserver
  · exact ⟨by simp [hserver], by simp [hserver, remoteNumericId], hhandled⟩
  · exact ⟨by simp [hserver], by simp [hserver, remoteNumericId, hsrc], hhandled⟩

theorem Carries.handshake (h : Carries id s) (hs : s.handshake = some s') : Carries id s' := by
  unfold State.handshake at hs
  split at hs
  · next src rest hserver hread =>
    obtain rfl := Option.some.inj hs
    obtain ⟨more, hmore⟩ := h.written hserver
    have hall := Reader.Stable.readBE 2 hread s.requests.flight
    have hid : id.toNat < 256 ^ 2 := id.toNat_lt
    rw [← Pipe.bytes, ← hmore, Reads.readBE hid] at hall
    obtain ⟨rfl, -⟩ := Prod.mk.inj (Option.some.inj hall)
    exact .loop rfl rfl h.handled
  · cases hs

theorem Carries.receive (h : Carries id s) (hs : s.receive = some s') : Carries id s' := by
  unfold State.receive at hs
  split at hs
  · next src call rest hserver hread =>
    obtain rfl := Option.some.inj hs
    have hsrc : src = id.toNat := h.server src (by rw [hserver]; rfl)
    refine ⟨by simp, by simp [remoteNumericId, hsrc], fun request hrequest => ?_⟩
    rcases List.mem_append.mp hrequest with hrequest | hrequest
    · exact h.handled request hrequest
    · rw [List.mem_singleton.mp hrequest]
      exact hsrc
  · cases hs

theorem Carries.respond {response : Option Bytes} (h : Carries id s)
    (hs : s.respond response = some s') : Carries id s' := by
  unfold State.respond at hs
  split at hs
  · next src call hserver =>
    have hsrc : src = id.toNat := h.server src (by rw [hserver]; rfl)
    split at hs
    · obtain rfl := Option.some.inj hs
      exact .loop hsrc rfl h.handled
    · obtain rfl := Option.some.inj hs
      exact .loop hsrc rfl h.handled
    · obtain rfl := Option.some.inj hs
      exact ⟨by simp, by simp [remoteNumericId], h.handled⟩
  · cases hs

theorem Carries.step (h : Carries id s) (hs : Tcp.step s l = some s') : Carries id s' := by
  cases l with
  | call call =>
    obtain rfl := Option.some.inj hs
    exact h.congr rfl rfl List.prefix_rfl
  | acquire k => exact h.acquire hs
  | drain =>
    simp only [Tcp.step, State.drain] at hs
    repeat' split at hs
    all_goals cases hs
    all_goals exact h.congr rfl rfl List.prefix_rfl
  | readResponse =>
    simp only [Tcp.step, State.readResponse] at hs
    repeat' split at hs
    all_goals cases hs
    exact h.congr rfl rfl List.prefix_rfl
  | fail =>
    simp only [Tcp.step, State.fail] at hs
    repeat' split at hs
    all_goals cases hs
    exact h.congr rfl rfl List.prefix_rfl
  | arriveRequests n =>
    obtain ⟨-, hs⟩ := Option.ite_none_right_eq_some.mp hs
    obtain rfl := Option.some.inj hs
    exact h.congr rfl rfl (by simp)
  | arriveResponses n =>
    obtain ⟨-, hs⟩ := Option.ite_none_right_eq_some.mp hs
    obtain rfl := Option.some.inj hs
    exact h.congr rfl rfl List.prefix_rfl
  | handshake => exact h.handshake hs
  | receive => exact h.receive hs
  | respond response => exact h.respond hs
  | raise =>
    simp only [Tcp.step] at hs
    split at hs
    · obtain rfl := Option.some.inj hs
      exact ⟨by simp, by simp [remoteNumericId], h.handled⟩
    · cases hs
  | stop =>
    obtain rfl := Option.some.inj hs
    exact h.congr rfl rfl List.prefix_rfl

theorem carries_of_run (hs : exec Tcp.step (Tcp.initial id) ls = some s) : Carries id s :=
  run_induction (P := fun _ s => Carries id s) carries_initial
    (fun _ _ _ _ _ ih hstep => ih.step hstep) ls s hs

end

/-! ## Two processes -/

theorem Process.sortedNodeIds_eq (h : p.keys.Perm q.keys) : p.sortedNodeIds = q.sortedNodeIds := by
  rw [sortedNodeIds, sortedNodeIds, insertionSort_eq_sort (s := q.keys.toFinset) p.nodup,
    insertionSort_eq_sort (s := q.keys.toFinset) q.nodup]
  · exact fun x => List.mem_toFinset.symm
  · exact fun x => h.mem_iff.trans List.mem_toFinset.symm

theorem Process.perm_sortedNodeIds : p.sortedNodeIds.Perm p.keys := List.perm_insertionSort _ _

theorem attributed_mappings (hnodup : names.Nodup) (hlength : names.length ≤ 65536) {n : Nat}
    (hi : names[n]? = some i) (hne : i ≠ j) :
    Attributed (p.mappings names) (q.mappings names) i j ⟨n⟩ := by
  have hlt : n < 2 ^ 16 := ((List.getElem?_eq_some_iff.mp hi).1).trans_le hlength
  have hto : (UInt16.ofNat n).toNat = n := UInt16.toNat_ofNat_of_lt' hlt
  have hidOf : ((q.mappings names).community j).idOf ⟨n⟩ = some i :=
    (idOf_community hnodup).mpr ⟨hi, hne⟩
  refine ⟨(lookup_numericAddr hnodup).mpr hi, hidOf, fun addr' h => ?_,
    _, if_pos hlt, ?_, fun ls s hs request hrequest => ?_⟩
  · obtain ⟨hlt, hget⟩ := List.getElem?_eq_some_iff.mp hi
    obtain ⟨hlt', hget'⟩ := List.getElem?_eq_some_iff.mp ((idOf_community hnodup).mp h).1
    exact congrArg TcpAddress.mk (hnodup.getElem_inj_iff.mp (hget'.trans hget.symm))
  · have hreads : Reads (readBE 2) n (toBytesBE 2 n) := Reads.readBE hlt
    have hread := hreads []
    rw [List.append_nil] at hread
    rwa [Tcp.initial, hto]
  · rw [(carries_of_run hs).handled request hrequest, hto]
    exact hidOf

theorem Process.buildTcpMappings_eq (hlength : p.keys.length ≤ 65536) :
    p.buildTcpMappings = .ok (p.mappings p.sortedNodeIds) ∧
      (p.mappings p.sortedNodeIds).Bijective p.keys := by
  have hperm : p.sortedNodeIds.Perm p.keys := perm_sortedNodeIds
  have hnodup : p.sortedNodeIds.Nodup := hperm.nodup_iff.mpr p.nodup
  have hbijective : (p.mappings p.sortedNodeIds).Bijective p.sortedNodeIds :=
    bijective_mappings hnodup
  refine ⟨foldlM_addNode hnodup (hperm.length_eq.trans_le hlength), hbijective.inverse,
    fun pid => ?_, fun addr => ?_, fun addr => ?_, hbijective.sockets_inj⟩
  · rw [hbijective.ids, hperm.mem_iff]
  · rw [hbijective.addrs, hperm.length_eq]
  · rw [hbijective.sockets, hperm.length_eq]

/-- Two processes that have loaded the same nodes, in whatever order and mode, agree on who is
who: up to 65536 nodes are told apart, and more are refused. -/
theorem attribution (h : p.keys.Perm q.keys) :
    (p.keys.length ≤ 65536 → ∃ m m', p.buildTcpMappings = .ok m ∧ q.buildTcpMappings = .ok m' ∧
      m.Bijective p.keys ∧ m'.Bijective q.keys ∧
      ∀ i ∈ p.keys, ∀ j ∈ q.keys, i ≠ j → ∃ addr, Attributed m m' i j addr) ∧
    (65536 < p.keys.length →
      p.buildTcpMappings = .error "Too many nodes for u16 numeric ID") := by
  have hperm : p.sortedNodeIds.Perm p.keys := Process.perm_sortedNodeIds
  have hnodup : p.sortedNodeIds.Nodup := hperm.nodup_iff.mpr p.nodup
  refine ⟨fun hlength => ?_, fun hlength => ?_⟩
  · obtain ⟨hbuild, hbijective⟩ := Process.buildTcpMappings_eq hlength
    obtain ⟨hbuild', hbijective'⟩ := Process.buildTcpMappings_eq (h.length_eq.ge.trans hlength)
    refine ⟨_, _, hbuild, hbuild', hbijective, hbijective', fun i hi j _ hne => ?_⟩
    obtain ⟨n, hn⟩ := List.mem_iff_getElem?.mp (hperm.mem_iff.mpr hi)
    rw [← Process.sortedNodeIds_eq h]
    exact ⟨⟨n⟩, attributed_mappings hnodup (hperm.length_eq.trans_le hlength) hn hne⟩
  · exact foldlM_addNode_of_lt hnodup (hlength.trans_eq hperm.length_eq.symm)

/-- A process that runs all nodes. -/
def localProcess : Process where
  keys := ["b", "c", "a"]
  nodup := by decide
  portBase := 10000
  isLocal := true

/-- A process of one of them. -/
def networkProcess : Process where
  keys := ["a", "b", "c"]
  nodup := by decide
  portBase := 8000
  isLocal := false

theorem attribution_threeNodes : ∃ m m', localProcess.buildTcpMappings = .ok m ∧
    networkProcess.buildTcpMappings = .ok m' ∧ ∃ addr, Attributed m m' "c" "a" addr := by
  have hperm : localProcess.keys.Perm networkProcess.keys := by decide
  obtain ⟨m, m', hm, hm', -, -, hattributed⟩ := (attribution hperm).1 (by decide)
  exact ⟨m, m', hm, hm', hattributed "c" (by decide) "a" (by decide) (by decide)⟩

end DistBench.Configuration
