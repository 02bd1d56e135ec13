import DistBench.Deployment
import DistBench.Lib.Ring

/-!
# Chang–Roberts leader election (chang_roberts.py)

The nodes form a logical ring: each one sorts the ids of its peers together
with its own and takes the id after its own as its successor. A node's election
message carries its `node_id`; whoever receives an election message passes it on
with the larger of the carried id and its own, unless the carried id is its own:
then it is the leader and sends a termination message around.

- `Electorate`: the nodes and their `node_id`s.
- `ChangRobertsState`, `Cont`, `onStart`, `election`, `termination`, `protocol`:
  the algorithm as in the source. `Cont` lists the suspension points after which
  something is left to do.
- `ring`, `nextPeer_eq_next`: the nodes' own sorted lists are one ring.
- `Move`, `segment_move`: what a segment can do, the one place where the
  handlers are unfolded.
-/

namespace DistBench.ChangRoberts

open DistBench.Async

/-- A cluster whose nodes are configured with distinct `node_id`s. -/
structure Electorate extends Cluster where
  nodeId : PeerId → Int
  nodeId_injOn : Set.InjOn nodeId parties.nodes

/-- `ElectionMessage` and `TerminationMessage` (chang_roberts.py:15–22). -/
inductive Message where
  | election (elector : Int)
  | termination (leader : Int)
deriving DecidableEq, Repr

/-- The attributes of a node; `terminated` is the event `terminate` sets. -/
structure ChangRobertsState where
  leader : Option Int := none
  nextPeerTuple : Option PeerId := none
  terminated : Bool := false
deriving DecidableEq, Repr

/-- The points at which a coroutine is suspended. -/
inductive Cont where
  /-- `on_start` has not been called yet. -/
  | onStart
  /-- `on_start` in `asyncio.sleep`, with its local `peer`. -/
  | sleeping (peer : PeerId)
  /-- A handler that has sent a termination message, before `self.terminate()`. -/
  | terminate
deriving DecidableEq, Repr

namespace Electorate

variable (E : Electorate)

/-- What `_get_next_peer_tuple` computes (chang_roberts.py:48–59): the id after
one's own in the sorted list of all ids. -/
def nextPeer (self : PeerId) : PeerId :=
  let allIds := (E.peers self ++ [self]).insertionSort (· ≤ ·)
  let myIndex := allIds.idxOf self
  let nextIndex := (myIndex + 1) % allIds.length
  allIds.getD nextIndex self

/-- `_get_next_peer_tuple` (chang_roberts.py:42–63): computed once, then cached. -/
def getNextPeerTuple (self : PeerId) (s : ChangRobertsState) : PeerId × ChangRobertsState :=
  match s.nextPeerTuple with
  | some peer => (peer, s)
  | none => (E.nextPeer self, { s with nextPeerTuple := some (E.nextPeer self) })

/-- `on_start` up to the sleep (chang_roberts.py:65–71). -/
def onStart (self : PeerId) (s : ChangRobertsState) :
    Outcome PeerId Message ChangRobertsState Cont :=
  let (peer, s) := E.getNextPeerTuple self s
  { st := s, rest := some (.sleeping peer) }

/-- `on_start` after the sleep (chang_roberts.py:73–80). -/
def wakeUp (self : PeerId) (s : ChangRobertsState) (peer : PeerId) :
    Outcome PeerId Message ChangRobertsState Cont :=
  if s.leader.isSome then { st := s }
  else { st := s, out := [(peer, .election (E.nodeId self))] }

/-- `election` (chang_roberts.py:88–121). -/
def election (self : PeerId) (s : ChangRobertsState) (elector : Int) :
    Outcome PeerId Message ChangRobertsState Cont :=
  let (peer, s) := E.getNextPeerTuple self s
  if elector = E.nodeId self then
    { st := { s with leader := some (E.nodeId self) }
      out := [(peer, .termination (E.nodeId self))]
      rest := some .terminate }
  else if elector > E.nodeId self then { st := s, out := [(peer, .election elector)] }
  else { st := s, out := [(peer, .election (E.nodeId self))] }

/-- `termination` (chang_roberts.py:123–140). -/
def termination (self : PeerId) (s : ChangRobertsState) (leader : Int) :
    Outcome PeerId Message ChangRobertsState Cont :=
  if s.leader.isSome then { st := s }
  else
    let (peer, s) := E.getNextPeerTuple self s
    if leader ≠ E.nodeId self then
      { st := { s with leader := some leader }
        out := [(peer, .termination leader)]
        rest := some .terminate }
    -- without the forwarding there is no suspension before `self.terminate()`
    else { st := { s with leader := some leader, terminated := true } }

/-- The algorithm. -/
def protocol : Protocol PeerId Message ChangRobertsState Cont where
  handle self s _ msg :=
    match msg with
    | .election elector => E.election self s elector
    | .termination leader => E.termination self s leader
  resume self s t :=
    match t with
    | .onStart => some (E.onStart self s)
    | .sleeping peer => some (E.wakeUp self s peer)
    | .terminate => some { st := { s with terminated := true } }

/-- Every node is about to call `on_start`, at a moment of its own. -/
def initial : Config PeerId Message ChangRobertsState Cont where
  st _ := {}
  tasks _ := [.onStart]
  net := []

/-! ## The ring -/

/-- The nodes in the order of their ids. -/
def ring : List PeerId := E.parties.nodes.sort (· ≤ ·)

/-- The next node on the ring. -/
def next : PeerId → PeerId := successor E.ring

variable {E} {i j : PeerId}

theorem nodup_ring : E.ring.Nodup := Finset.sort_nodup _ _

@[simp] theorem mem_ring : i ∈ E.ring ↔ i ∈ E.parties.nodes := Finset.mem_sort _

@[simp] theorem length_ring : E.ring.length = E.parties.nodes.card := Finset.length_sort _

/-- Every node sorts the same list: the peers with oneself are all the nodes. -/
theorem sorted_ids (hi : i ∈ E.parties.nodes) :
    (E.peers i ++ [i]).insertionSort (· ≤ ·) = E.ring := by
  have hnodup : (E.peers i ++ [i]).Nodup := by
    rw [List.nodup_append]
    refine ⟨E.nodup_peers i hi, List.nodup_singleton i, ?_⟩
    rintro j hj k hk rfl
    exact ((E.mem_peers i hi j).mp hj).2 (List.mem_singleton.mp hk)
  refine insertionSort_eq_sort hnodup fun j => ?_
  rw [List.mem_append, List.mem_singleton, E.mem_peers i hi]
  constructor
  · rintro (⟨hj, -⟩ | rfl)
    · exact hj
    · exact hi
  · intro hj
    by_cases hji : j = i
    · exact .inr hji
    · exact .inl ⟨hj, hji⟩

/-- The successor a node computes is its successor on the ring. -/
theorem nextPeer_eq_next (hi : i ∈ E.parties.nodes) : E.nextPeer i = E.next i := by
  unfold nextPeer
  rw [sorted_ids hi]
  rfl

theorem next_mem (hi : i ∈ E.parties.nodes) : E.next i ∈ E.parties.nodes :=
  mem_ring.mp (successor_mem (mem_ring.mpr hi))

theorem iterate_next_mem (hi : i ∈ E.parties.nodes) (k : Nat) :
    E.next^[k] i ∈ E.parties.nodes :=
  mem_ring.mp (iterate_successor_mem (mem_ring.mpr hi) k)

/-- The ring is connected. -/
theorem exists_iterate_next (hi : i ∈ E.parties.nodes) (hj : j ∈ E.parties.nodes) :
    ∃ k, E.next^[k] i = j := by
  obtain ⟨k, -, hk⟩ := exists_iterate_successor nodup_ring (mem_ring.mpr hi) (mem_ring.mpr hj)
  exact ⟨k, hk⟩

/-! ## What a segment can do -/

/-- The successor a node has cached, if any, is its successor on the ring. -/
def Cached (E : Electorate) (i : PeerId) (s : ChangRobertsState) : Prop :=
  ∀ peer, s.nextPeerTuple = some peer → peer = E.next i

theorem getNextPeerTuple_spec {s : ChangRobertsState} (hi : i ∈ E.parties.nodes)
    (hs : E.Cached i s) :
    E.getNextPeerTuple i s = (E.next i, { s with nextPeerTuple := some (E.next i) }) := by
  unfold getNextPeerTuple
  split
  next peer hpeer =>
    obtain rfl := hs peer hpeer
    rw [← hpeer]
  next =>
    rw [nextPeer_eq_next hi]

/-- What a segment of node `i` in state `s` does, by its label. `elected`: one's
own id has come back. `pass`: an election message goes on. `learn`: the leader
is announced. -/
inductive Move (E : Electorate) (i : PeerId) (s : ChangRobertsState) :
    Label PeerId Message Cont → Outcome PeerId Message ChangRobertsState Cont → Prop
  | elected {src o} (hleader : o.st.leader = some (E.nodeId i))
      (hout : o.out = [(E.next i, .termination (E.nodeId i))]) (hrest : o.rest = some .terminate) :
      Move E i s (.recv ⟨src, i, .election (E.nodeId i)⟩) o
  | pass {src elector o} (hne : elector ≠ E.nodeId i) (hleader : o.st.leader = s.leader)
      (hout : o.out = [(E.next i, .election (max elector (E.nodeId i)))]) (hrest : o.rest = none) :
      Move E i s (.recv ⟨src, i, .election elector⟩) o
  | known {src leader o} (hknown : s.leader.isSome) (hleader : o.st.leader = s.leader)
      (hout : o.out = []) (hrest : o.rest = none) :
      Move E i s (.recv ⟨src, i, .termination leader⟩) o
  | learn {src leader o} (hnone : s.leader = none) (hleader : o.st.leader = some leader)
      (hout : leader ≠ E.nodeId i →
        o.out = [(E.next i, .termination leader)] ∧ o.rest = some .terminate)
      (hself : leader = E.nodeId i → o.out = [] ∧ o.rest = none) :
      Move E i s (.recv ⟨src, i, .termination leader⟩) o
  | start {o} (hleader : o.st.leader = s.leader) (hout : o.out = [])
      (hrest : o.rest = some (.sleeping (E.next i))) : Move E i s (.wake i .onStart) o
  | late {peer o} (hknown : s.leader.isSome) (hleader : o.st.leader = s.leader)
      (hout : o.out = []) (hrest : o.rest = none) : Move E i s (.wake i (.sleeping peer)) o
  | propose {peer o} (hleader : o.st.leader = s.leader)
      (hout : o.out = [(peer, .election (E.nodeId i))]) (hrest : o.rest = none) :
      Move E i s (.wake i (.sleeping peer)) o
  | finish {o} (hleader : o.st.leader = s.leader) (hout : o.out = []) (hrest : o.rest = none) :
      Move E i s (.wake i .terminate) o

namespace Move

variable {s : ChangRobertsState} {l : Label PeerId Message Cont}
  {o : Outcome PeerId Message ChangRobertsState Cont}

/-- A coroutine goes to sleep with the successor as its local. -/
theorem sleeping (h : Move E i s l o) {peer : PeerId} (hp : .sleeping peer ∈ o.rest.toList) :
    peer = E.next i := by
  cases h with
  | elected _ _ hrest => simp [hrest] at hp
  | pass _ _ _ hrest => simp [hrest] at hp
  | known _ _ _ hrest => simp [hrest] at hp
  | @learn _ leader _ _ _ hout hself =>
    by_cases hown : leader = E.nodeId i
    · simp [(hself hown).2] at hp
    · simp [(hout hown).2] at hp
  | start _ _ hrest => simpa [hrest] using hp
  | late _ _ _ hrest => simp [hrest] at hp
  | propose _ _ hrest => simp [hrest] at hp
  | finish _ _ hrest => simp [hrest] at hp

/-- The leader is written in two places. -/
theorem leader_or (h : Move E i s l o) :
    o.st.leader = s.leader ∨
      (∃ src, l = .recv ⟨src, i, .election (E.nodeId i)⟩) ∧
        o.st.leader = some (E.nodeId i) ∨
      ∃ src leader, l = .recv ⟨src, i, .termination leader⟩ ∧ s.leader = none ∧
        o.st.leader = some leader := by
  cases h with
  | @elected src _ hl _ _ => exact .inr (.inl ⟨⟨src, rfl⟩, hl⟩)
  | pass _ hl _ _ => exact .inl hl
  | known _ hl _ _ => exact .inl hl
  | @learn src leader _ hnone hl _ _ => exact .inr (.inr ⟨src, leader, rfl, hnone, hl⟩)
  | start hl _ _ => exact .inl hl
  | late _ hl _ _ => exact .inl hl
  | propose hl _ _ => exact .inl hl
  | finish hl _ _ => exact .inl hl

/-- A node that knows a leader goes on knowing one. -/
theorem leader_isSome (h : Move E i s l o) (hs : s.leader.isSome) : o.st.leader.isSome := by
  rcases h.leader_or with hl | ⟨-, hl⟩ | ⟨_, _, -, -, hl⟩
  · rwa [hl]
  · rw [hl]
    rfl
  · rw [hl]
    rfl

end Move

/-- The two handlers. -/
theorem handle_move {s : ChangRobertsState} (src : PeerId) (msg : Message)
    (hi : i ∈ E.parties.nodes) (hs : E.Cached i s) :
    Move E i s (.recv ⟨src, i, msg⟩) (E.protocol.handle i s src msg) ∧
      E.Cached i (E.protocol.handle i s src msg).st := by
  have hcached (t : ChangRobertsState) (ht : t.nextPeerTuple = some (E.next i)) :
      E.Cached i t := fun peer hpeer => Option.some.inj (hpeer.symm.trans ht)
  cases msg with
  | election elector =>
    simp only [protocol, election, getNextPeerTuple_spec hi hs]
    split
    next heq =>
      obtain rfl := heq
      exact ⟨.elected rfl rfl rfl, hcached _ rfl⟩
    next hne =>
      split
      next hlt =>
        exact ⟨.pass hne rfl (by rw [max_eq_left (le_of_lt hlt)]) rfl, hcached _ rfl⟩
      next hge =>
        exact ⟨.pass hne rfl (by rw [max_eq_right (not_lt.mp hge)]) rfl, hcached _ rfl⟩
  | termination leader =>
    simp only [protocol, termination, getNextPeerTuple_spec hi hs]
    split
    next hknown => exact ⟨.known hknown rfl rfl rfl, hs⟩
    next hnone =>
      have hnone : s.leader = none := Option.not_isSome_iff_eq_none.mp hnone
      split
      next hne =>
        exact ⟨.learn hnone rfl (fun _ => ⟨rfl, rfl⟩) (fun h => absurd h hne), hcached _ rfl⟩
      next heq =>
        exact ⟨.learn hnone rfl (fun h => absurd h heq) (fun _ => ⟨rfl, rfl⟩), hcached _ rfl⟩

/-- **What a segment can do**: one of the moves, and the cache stays correct. -/
theorem segment_move {c base : Config PeerId Message ChangRobertsState Cont}
    {l : Label PeerId Message Cont} {o : Outcome PeerId Message ChangRobertsState Cont}
    (hseg : Segment E.protocol E.parties c l i o base) (hs : E.Cached i (c.st i)) :
    Move E i (c.st i) l o ∧ E.Cached i o.st := by
  have hi : i ∈ E.parties.nodes := Cluster.mem_correct.mp hseg.correct
  cases hseg with
  | @recv e _ _ => exact handle_move e.src e.msg hi hs
  | forge hsrc _ => exact absurd hsrc Cluster.not_mem_byz
  | @wake _ t _ _ _ ho =>
    cases t with
    | onStart =>
      obtain rfl : E.onStart i (c.st i) = o := Option.some.inj ho
      simp only [onStart, getNextPeerTuple_spec hi hs]
      exact ⟨.start rfl rfl rfl, fun peer hpeer => (Option.some.inj hpeer).symm⟩
    | sleeping peer =>
      obtain rfl : E.wakeUp i (c.st i) peer = o := Option.some.inj ho
      unfold wakeUp
      split
      next hknown => exact ⟨.late hknown rfl rfl rfl, hs⟩
      next => exact ⟨.propose rfl rfl rfl, hs⟩
    | terminate =>
      obtain rfl := Option.some.inj ho
      exact ⟨.finish rfl rfl rfl, hs⟩

end Electorate

end DistBench.ChangRoberts
