import DistBench.Lib.Datagrams
import DistBench.Lib.Circulation

/-!
# Election over datagrams (ring_election.py, da_types.py)

The nodes of a ring get to know their two neighbours from `ConnectionMessage`s and then
start by sending their id to the one they heard from first. So messages go around the
ring both ways: a handler sends on to the neighbour the message has not come from.
Datagrams may be lost, duplicated and reordered, and `[...][0]` raises an `IndexError`
at a node that does not know the other neighbour yet.

- `Ring`: a ring of node ids, which can be turned round (`Ring.flip`). `Ring.composed` is
  the one `prepare_compose_file` writes (util.py:51).
- `onMessage`, `onTerminate`, `onManualConnect`: the handlers.
- `Circulating`: the invariant. An election message has come past nodes with smaller ids,
  all of which it has woken; there is no termination message, and no node stops, before
  the node with the maximum has been elected.
- `eq_maximum_of_elected`: only the maximum is elected, and no node stops before.
-/

namespace DistBench.RingElection

open DistBench.Datagrams DistBench.Circulation

/-! ## The ring -/

/-- Nodes with two neighbours each; along either of them one comes to every node. -/
structure Ring where
  nodes : Finset Int
  next : Int → Int
  prev : Int → Int
  next_mem : ∀ i ∈ nodes, next i ∈ nodes
  prev_mem : ∀ i ∈ nodes, prev i ∈ nodes
  prev_next : ∀ i ∈ nodes, prev (next i) = i
  next_prev : ∀ i ∈ nodes, next (prev i) = i
  next_ne_prev : ∀ i ∈ nodes, next i ≠ prev i
  connected : ∀ i ∈ nodes, ∀ j ∈ nodes, ∃ k, next^[k] i = j

namespace Ring

variable {R : Ring} {i j : Int}

theorem iterate_next_mem (hi : i ∈ R.nodes) (k : Nat) : R.next^[k] i ∈ R.nodes := by
  induction k with
  | zero => exact hi
  | succ k ih =>
    rw [Function.iterate_succ_apply']
    exact R.next_mem _ ih

theorem iterate_prev_next (hi : i ∈ R.nodes) (k : Nat) : R.prev^[k] (R.next^[k] i) = i := by
  induction k with
  | zero => rfl
  | succ k ih =>
    rw [Function.iterate_succ_apply, Function.iterate_succ_apply',
      R.prev_next _ (iterate_next_mem hi k)]
    exact ih

/-- The ring the other way round. -/
def flip (R : Ring) : Ring where
  nodes := R.nodes
  next := R.prev
  prev := R.next
  next_mem := R.prev_mem
  prev_mem := R.next_mem
  prev_next := R.next_prev
  next_prev := R.prev_next
  next_ne_prev i hi := (R.next_ne_prev i hi).symm
  connected i hi j hj := by
    obtain ⟨k, rfl⟩ := R.connected j hj i hi
    exact ⟨k, iterate_prev_next hj k⟩

@[simp] theorem flip_nodes : R.flip.nodes = R.nodes := rfl

theorem next_ne (hi : i ∈ R.nodes) : R.next i ≠ i := by
  intro heq
  have hprev : R.prev i = i := by
    have h := R.prev_next i hi
    rwa [heq] at h
  exact R.next_ne_prev i hi (heq.trans hprev.symm)

/-- Two places are neighbours. -/
def Adjacent (R : Ring) (i j : Int) : Prop := j = R.next i ∨ j = R.prev i

instance : Decidable (R.Adjacent i j) := inferInstanceAs (Decidable (_ ∨ _))

/-- The ids `compose` gives to `n` nodes. -/
def ids (n : Nat) : Finset Int := (Finset.range n).image fun i : Nat => (i : Int)

theorem mem_ids {n : Nat} : i ∈ ids n ↔ 0 ≤ i ∧ i < n := by
  rw [ids, Finset.mem_image]
  constructor
  · rintro ⟨k, hk, rfl⟩
    have hlt := Finset.mem_range.mp hk
    omega
  · rintro ⟨hpos, hlt⟩
    exact ⟨i.toNat, Finset.mem_range.mpr (by omega), Int.toNat_of_nonneg hpos⟩

theorem emod_mem_ids {n : Nat} (h : 3 ≤ n) (i : Int) : i % n ∈ ids n := by
  have hn : (0 : Int) < n := by omega
  exact mem_ids.mpr ⟨Int.emod_nonneg _ hn.ne', Int.emod_lt_of_pos _ hn⟩

theorem iterate_composed {n : Nat} {i : Int} (hi : 0 ≤ i) (hin : i < n) (k : Nat) :
    (fun i : Int => (i + 1) % n)^[k] i = (i + k) % n := by
  induction k with
  | zero => exact (by simpa using (Int.emod_eq_of_lt hi hin).symm)
  | succ k ih =>
    rw [Function.iterate_succ_apply', ih, Int.emod_add_emod]
    congr 1
    push_cast
    ring

/-- `connections[i] = [(i + 1) % num_nodes, (i - 1) % num_nodes]` (util.py:51). -/
def composed (n : Nat) (h : 3 ≤ n) : Ring where
  nodes := ids n
  next i := (i + 1) % n
  prev i := (i - 1) % n
  next_mem _ _ := emod_mem_ids h _
  prev_mem _ _ := emod_mem_ids h _
  prev_next i hi := by
    obtain ⟨hpos, hlt⟩ := mem_ids.mp hi
    rw [Int.emod_sub_emod, Int.add_sub_cancel, Int.emod_eq_of_lt hpos hlt]
  next_prev i hi := by
    obtain ⟨hpos, hlt⟩ := mem_ids.mp hi
    rw [Int.emod_add_emod, Int.sub_add_cancel, Int.emod_eq_of_lt hpos hlt]
  next_ne_prev i hi heq := by
    have hdvd := Int.ModEq.dvd (n := n) (a := i - 1) (b := i + 1) heq.symm
    have htwo : i + 1 - (i - 1) = 2 := by ring
    rw [htwo] at hdvd
    have hle := Int.le_of_dvd (by norm_num) hdvd
    omega
  connected i hi j hj := by
    obtain ⟨hpos, hlt⟩ := mem_ids.mp hi
    obtain ⟨hposj, hltj⟩ := mem_ids.mp hj
    refine ⟨((j - i) % n).toNat, ?_⟩
    have hnonneg : 0 ≤ (j - i) % n := Int.emod_nonneg _ (by omega)
    rw [iterate_composed hpos hlt, Int.toNat_of_nonneg hnonneg, Int.add_emod_emod,
      add_sub_cancel, Int.emod_eq_of_lt hposj hltj]

end Ring

/-! ## The nodes -/

/-- `ConnectionMessage`, `ElectionMessage` and `TerminationMessage`. -/
inductive Message where
  | connection (nodeId : Int) (nodeState : String)
  | election (elector : Int)
  | termination (terminate : Bool := true)
deriving DecidableEq, Repr

/-- How far a node is with `ensure_nodes_connected`, which schedules `on_start`. -/
inductive Startup where
  | connecting
  | scheduled
  | started
deriving DecidableEq, Repr

/-- A node: `self.nodes` as the ids it knows, in the order it came to know them, whether
it has printed that it is elected, and whether it has called `stop`. -/
structure NodeState where
  running : Bool := false
  nodes : List Int := []
  startup : Startup := .connecting
  elected : Bool := false
  stopped : Bool := false
deriving DecidableEq, Repr

/-- What a node does on its own. -/
inductive Action where
  /-- `_ensure_nodes_connected`, with all its peers discovered. -/
  | ensureNodesConnected
  /-- `on_start`, after its delays. -/
  | onStart
deriving DecidableEq, Repr

/-- What a turn of a node leaves behind. -/
abbrev Result : Type := NodeState × List (Int × Message)

/-- `[x for x in self.nodes.items() if x[1] != peer][0]`. -/
def otherPeer (s : NodeState) (peer : Int) : Option Int := s.nodes.find? (· ≠ peer)

/-- `_on_manual_connect` (da_types.py:155–161). -/
def onManualConnect (s : NodeState) (nodeId : Int) : Result :=
  ({ s with nodes := if nodeId ∈ s.nodes then s.nodes else s.nodes ++ [nodeId] }, [])

/-- `on_message` (ring_election.py:54–74). -/
def onMessage (self : Int) (s : NodeState) (peer : Int) (receivedId : Int) : Result :=
  let s := { s with running := true }
  match otherPeer s peer with
  | none => (s, [])
  | some nextPeer =>
    if receivedId = self then ({ s with elected := true }, [(nextPeer, .termination)])
    else if receivedId < self then (s, [(nextPeer, .election self)])
    else (s, [(nextPeer, .election receivedId)])

/-- `on_terminate` (ring_election.py:46–52). -/
def onTerminate (s : NodeState) (peer : Int) : Result :=
  if s.running then
    match otherPeer s peer with
    | none => (s, [])
    | some nextPeer =>
      ({ s with running := false, stopped := true }, [(nextPeer, .termination)])
  else (s, [])

/-- Dispatch on the type of the message. -/
def handle (self : Int) (s : NodeState) (peer : Int) : Message → Result
  | .connection nodeId _ => onManualConnect s nodeId
  | .election elector => onMessage self s peer elector
  | .termination _ => onTerminate s peer

/-- `_ensure_nodes_connected` once all peers are discovered (da_types.py:121–133). The
periodic task is cancelled when it has scheduled `on_start`. -/
def ensureNodesConnected (R : Ring) (self : Int) (s : NodeState) : Option Result :=
  match s.startup with
  | .connecting =>
    let connections := [R.next self, R.prev self]
    some
      ({ s with
          startup := if s.nodes.length = connections.length then .scheduled else .connecting },
        connections.map fun peer => (peer, .connection self "init"))
  | _ => none

/-- `on_start` (ring_election.py:39–44), after its delays. -/
def onStart (self : Int) (s : NodeState) : Option Result :=
  match s.startup, s.nodes with
  | .scheduled, peer :: _ =>
    some ({ s with startup := .started }, if s.running then [] else [(peer, .election self)])
  | _, _ => none

/-- The code of a node. -/
def program (R : Ring) : Program Int Message NodeState Action where
  handle := handle
  act self s
    | .ensureNodesConnected => ensureNodesConnected R self s
    | .onStart => onStart self s

/-- The network before anything has happened. -/
def initial : State Int Message NodeState where
  st _ := {}
  sent := []

/-- One step of the network. -/
abbrev next (R : Ring) := step (program R) R.nodes

/-- A history of the network. -/
abbrev History : Type := Trace Int Message Action

/-- A state of the network. -/
abbrev Global : Type := State Int Message NodeState

/-! ## What a turn does -/

variable {R D : Ring} {i j peer v : Int} {st st' : NodeState} {r : Result} {s s' : Global}

/-- One of the two ways round the ring. -/
def Way (R D : Ring) : Prop := D = R ∨ D = R.flip

/-- A node that has got an election message. It stays so when it stops. -/
def NodeState.Awake (st : NodeState) : Prop := st.running = true ∨ st.stopped = true

/-- What a turn of a node does not undo. -/
structure Grown (st st' : NodeState) : Prop where
  awake : st.Awake → st'.Awake
  elected : st.elected = true → st'.elected = true
  stopped : st.stopped = true → st'.stopped = true

theorem grown_handle {m : Message} : Grown st (handle i st peer m).1 := by
  cases m with
  | connection => exact ⟨id, id, id⟩
  | election elector =>
    simp only [handle, onMessage]
    split
    · exact ⟨fun _ => .inl rfl, id, id⟩
    · split_ifs
      · exact ⟨fun _ => .inl rfl, fun _ => rfl, id⟩
      · exact ⟨fun _ => .inl rfl, id, id⟩
      · exact ⟨fun _ => .inl rfl, id, id⟩
  | termination =>
    simp only [handle, onTerminate]
    split_ifs
    · split
      · exact ⟨id, id, id⟩
      · exact ⟨fun _ => .inr rfl, id, fun _ => rfl⟩
    · exact ⟨id, id, id⟩

theorem grown_act {a : Action} (h : (program R).act i st a = some r) : Grown st r.1 := by
  cases a with
  | ensureNodesConnected =>
    simp only [program, ensureNodesConnected] at h
    split at h
    · obtain rfl := Option.some.inj h
      exact ⟨id, id, id⟩
    · cases h
  | onStart =>
    simp only [program, onStart] at h
    split at h
    · obtain rfl := Option.some.inj h
      exact ⟨id, id, id⟩
    · cases h

/-- A node that knows none but its neighbours sends on to the next one. -/
theorem otherPeer_eq (hD : Way R D) (hknown : ∀ j ∈ st.nodes, R.Adjacent i j)
    (hpeer : peer = D.prev i) (h : otherPeer st peer = some j) : j = D.next i := by
  have hmem := hknown j (List.mem_of_find?_eq_some h)
  have hne : j ≠ peer := by simpa using List.find?_some h
  rcases hD with rfl | rfl
  · exact hmem.resolve_right fun hj => hne (hj.trans hpeer.symm)
  · exact hmem.resolve_left fun hj => hne (hj.trans hpeer.symm)

/-- What `on_message` does. -/
inductive OnMessage (D : Ring) (i : Int) (st : NodeState) (peer v : Int) : Result → Prop
  | lost (h : otherPeer st peer = none) : OnMessage D i st peer v ({ st with running := true }, [])
  | elected (hv : v = i) :
      OnMessage D i st peer v
        ({ st with running := true, elected := true }, [(D.next i, .termination)])
  | on (hv : v ≠ i) :
      OnMessage D i st peer v ({ st with running := true }, [(D.next i, .election (max v i))])

theorem onMessage_onMessage (hD : Way R D) (hknown : ∀ j ∈ st.nodes, R.Adjacent i j)
    (hpeer : peer = D.prev i) : OnMessage D i st peer v (onMessage i st peer v) := by
  unfold onMessage
  dsimp only
  split
  · next h => exact .lost h
  · next nextPeer h =>
    obtain rfl := otherPeer_eq hD (fun j hj => hknown j hj) hpeer h
    have hon (hv : v ≠ i) : OnMessage D i st peer v _ := .on hv
    split_ifs with heq hlt
    · exact .elected heq
    · rw [max_eq_right hlt.le] at hon
      exact hon heq
    · rw [max_eq_left (not_lt.mp hlt)] at hon
      exact hon heq

/-- What `on_terminate` does. -/
inductive OnTerminate (D : Ring) (i : Int) (st : NodeState) (peer : Int) : Result → Prop
  | idle (h : st.running = true → otherPeer st peer = none) : OnTerminate D i st peer (st, [])
  | stop (h : st.running = true) :
      OnTerminate D i st peer
        ({ st with running := false, stopped := true }, [(D.next i, .termination)])

theorem onTerminate_onTerminate (hD : Way R D) (hknown : ∀ j ∈ st.nodes, R.Adjacent i j)
    (hpeer : peer = D.prev i) : OnTerminate D i st peer (onTerminate st peer) := by
  unfold onTerminate
  split_ifs with hrun
  · split
    · next h => exact .idle fun _ => h
    · next nextPeer h =>
      obtain rfl := otherPeer_eq hD hknown hpeer h
      exact .stop hrun
  · exact .idle fun h => absurd h hrun

/-! ## Only the maximum is elected -/

/-- What is true of all states. -/
structure Circulating (R : Ring) (s : Global) : Prop where
  known : ∀ i ∈ R.nodes, ∀ j ∈ (s.st i).nodes, R.Adjacent i j
  connection : ∀ p ∈ s.sent, ∀ k b, p.msg = .connection k b → k = p.src ∧ R.Adjacent p.dst k
  election : ∀ p ∈ s.sent, ∀ v, p.msg = .election v → v ∈ R.nodes ∧ p.src ∈ R.nodes ∧
    ∃ D, Way R D ∧ p.dst = D.next p.src ∧
      Passed D.next (fun y => y < v ∧ (s.st y).Awake) v p.dst
  termination : ∀ p ∈ s.sent, ∀ b, p.msg = .termination b → p.src ∈ R.nodes ∧
    ((s.st p.src).elected = true ∨ (s.st p.src).stopped = true) ∧
      ∃ D, Way R D ∧ p.dst = D.next p.src
  elected : ∀ i ∈ R.nodes, (s.st i).elected = true →
    (∀ j ∈ R.nodes, j ≤ i ∧ (s.st j).Awake) ∧
      ∃ D, Way R D ∧ ⟨i, D.next i, .termination⟩ ∈ s.sent
  stopped : ∀ i ∈ R.nodes, (s.st i).stopped = true →
    (∃ leader ∈ R.nodes, (s.st leader).elected = true) ∧
      ∃ D, Way R D ∧ (∃ b, ⟨D.prev i, i, .termination b⟩ ∈ s.sent) ∧
        ⟨i, D.next i, .termination⟩ ∈ s.sent

theorem Way.nodes_eq (h : Way R D) : D.nodes = R.nodes := by
  rcases h with rfl | rfl <;> rfl

/-- The receiver sees the sender as the node before it. -/
theorem Way.prev_next (h : Way R D) (hi : i ∈ R.nodes) : D.prev (D.next i) = i :=
  D.prev_next i (h.nodes_eq.symm ▸ hi)

theorem Way.next_mem (h : Way R D) (hi : i ∈ R.nodes) : D.next i ∈ R.nodes := by
  rw [← h.nodes_eq] at hi ⊢
  exact D.next_mem i hi

theorem Way.next_ne (h : Way R D) (hi : i ∈ R.nodes) : D.next i ≠ i :=
  Ring.next_ne (h.nodes_eq.symm ▸ hi)

theorem Way.iterate_next_mem (h : Way R D) (hi : i ∈ R.nodes) (k : Nat) :
    D.next^[k] i ∈ R.nodes := by
  rw [← h.nodes_eq] at hi ⊢
  exact Ring.iterate_next_mem hi k

/-- All nodes can be reached either way. -/
theorem Way.connected (h : Way R D) (hi : i ∈ R.nodes) (hj : j ∈ R.nodes) :
    ∃ k, D.next^[k] i = j :=
  D.connected i (h.nodes_eq.symm ▸ hi) j (h.nodes_eq.symm ▸ hj)

theorem Ring.Adjacent.symm (hi : i ∈ R.nodes) (h : R.Adjacent i j) : R.Adjacent j i := by
  rcases h with rfl | rfl
  · exact .inr (R.prev_next i hi).symm
  · exact .inl (R.next_prev i hi).symm

theorem circulating_initial : Circulating R initial where
  known _ _ _ h := nomatch h
  connection _ h := nomatch h
  election _ h := nomatch h
  termination _ h := nomatch h
  elected _ _ h := nomatch h
  stopped _ _ h := nomatch h

/-- What every turn keeps, wherever it is taken. -/
structure Later (s s' : Global) : Prop where
  sent : s.sent ⊆ s'.sent
  grown : ∀ j, Grown (s.st j) (s'.st j)

theorem later_commit (h : Grown (s.st i) r.1) : Later s (s.commit i r) where
  sent p hp := State.mem_commit_sent.mpr (.inl hp)
  grown j := by
    by_cases hj : j = i
    · subst hj
      rwa [State.commit_st_self]
    · rw [State.commit_st_of_ne hj]
      exact ⟨id, id, id⟩

/-- What a node in the state `st` may send to `d`. -/
def SendOk (R : Ring) (s' : Global) (i : Int) (st : NodeState) (d : Int) : Message → Prop
  | .connection k _ => k = i ∧ R.Adjacent d i
  | .election v => v ∈ R.nodes ∧ ∃ D, Way R D ∧ d = D.next i ∧
      Passed D.next (fun y => y < v ∧ (s'.st y).Awake) v d
  | .termination _ => (st.elected = true ∨ st.stopped = true) ∧ ∃ D, Way R D ∧ d = D.next i

/-- What has to be shown of a turn of node `i`. -/
structure TurnOk (R : Ring) (s s' : Global) (i : Int) (r : Result) : Prop where
  known : ∀ j ∈ r.1.nodes, R.Adjacent i j
  sends : ∀ dm ∈ r.2, SendOk R s' i r.1 dm.1 dm.2
  elected : r.1.elected = true → (s.st i).elected = true ∨
    (∀ j ∈ R.nodes, j ≤ i ∧ (s'.st j).Awake) ∧ ∃ D, Way R D ∧ (D.next i, .termination) ∈ r.2
  stopped : r.1.stopped = true → (s.st i).stopped = true ∨
    ∃ D, Way R D ∧ (∃ b, ⟨D.prev i, i, .termination b⟩ ∈ s.sent) ∧
      (D.next i, .termination) ∈ r.2

theorem Circulating.commit (h : Circulating R s) (hi : i ∈ R.nodes) (hgrown : Grown (s.st i) r.1)
    (hok : TurnOk R s (s.commit i r) i r) : Circulating R (s.commit i r) := by
  have hlater := later_commit hgrown
  have hsent {D : Ring} (hmem : (D.next i, .termination) ∈ r.2) :
      ⟨i, D.next i, .termination⟩ ∈ (s.commit i r).sent :=
    State.mem_commit_sent.mpr (.inr ⟨rfl, hmem⟩)
  have hstopped : ∀ j ∈ R.nodes, (s.st j).stopped = true →
      (∃ leader ∈ R.nodes, ((s.commit i r).st leader).elected = true) ∧
        ∃ D, Way R D ∧ (∃ b, ⟨D.prev j, j, .termination b⟩ ∈ (s.commit i r).sent) ∧
          ⟨j, D.next j, .termination⟩ ∈ (s.commit i r).sent := by
    intro j hj hstop
    obtain ⟨⟨leader, hleader, helected⟩, D, hD, ⟨b, hfrom⟩, hto⟩ := h.stopped j hj hstop
    exact ⟨⟨leader, hleader, (hlater.grown leader).elected helected⟩, D, hD,
      ⟨b, hlater.sent hfrom⟩, hlater.sent hto⟩
  constructor
  · intro j hj
    by_cases hji : j = i
    · subst hji
      rw [State.commit_st_self]
      exact hok.known
    · rw [State.commit_st_of_ne hji]
      exact h.known j hj
  · intro p hp k b hm
    rcases State.mem_commit_sent.mp hp with hold | ⟨hsrc, hnew⟩
    · exact h.connection p hold k b hm
    · have hsend := hok.sends _ hnew
      simp only [hm, SendOk] at hsend
      obtain ⟨rfl, hadj⟩ := hsend
      exact ⟨hsrc.symm, hadj⟩
  · intro p hp v hm
    rcases State.mem_commit_sent.mp hp with hold | ⟨rfl, hnew⟩
    · obtain ⟨hv, hsrc, D, hD, hdst, hpassed⟩ := h.election p hold v hm
      exact ⟨hv, hsrc, D, hD, hdst, hpassed.mono fun y hy => hy.imp_right (hlater.grown y).awake⟩
    · have hsend := hok.sends _ hnew
      simp only [hm, SendOk] at hsend
      obtain ⟨hv, D, hD, hdst, hpassed⟩ := hsend
      exact ⟨hv, hi, D, hD, hdst, hpassed⟩
  · intro p hp b hm
    rcases State.mem_commit_sent.mp hp with hold | ⟨rfl, hnew⟩
    · obtain ⟨hsrc, hwho, hway⟩ := h.termination p hold b hm
      exact ⟨hsrc, hwho.imp (hlater.grown _).elected (hlater.grown _).stopped, hway⟩
    · have hsend := hok.sends _ hnew
      simp only [hm, SendOk] at hsend
      rw [State.commit_st_self]
      exact ⟨hi, hsend⟩
  · intro j hj helected
    have hold (h' : (s.st j).elected = true) : (∀ y ∈ R.nodes, y ≤ j ∧
        ((s.commit i r).st y).Awake) ∧
          ∃ D, Way R D ∧ ⟨j, D.next j, .termination⟩ ∈ (s.commit i r).sent := by
      obtain ⟨hall, D, hD, hmem⟩ := h.elected j hj h'
      exact ⟨fun y hy => (hall y hy).imp_right (hlater.grown y).awake, D, hD, hlater.sent hmem⟩
    by_cases hji : j = i
    · subst hji
      rw [State.commit_st_self] at helected
      rcases hok.elected helected with h' | ⟨hall, D, hD, hmem⟩
      · exact hold h'
      · exact ⟨hall, D, hD, hsent hmem⟩
    · rw [State.commit_st_of_ne hji] at helected
      exact hold helected
  · intro j hj hstop
    by_cases hji : j = i
    · subst hji
      rw [State.commit_st_self] at hstop
      rcases hok.stopped hstop with h' | ⟨D, hD, ⟨b, hfrom⟩, hto⟩
      · exact hstopped j hj h'
      · -- the message that stops a node has been sent by one that is elected or stopped
        obtain ⟨hsrc, hwho, -⟩ := h.termination _ hfrom b rfl
        have hleader : ∃ leader ∈ R.nodes, ((s.commit j r).st leader).elected = true := by
          rcases hwho with helected | hstop'
          · exact ⟨_, hsrc, (hlater.grown _).elected helected⟩
          · exact (hstopped _ hsrc hstop').1
        exact ⟨hleader, D, hD, ⟨b, hlater.sent hfrom⟩, hsent hto⟩
    · rw [State.commit_st_of_ne hji] at hstop
      exact hstopped j hj hstop

theorem turnOk_onMessage (h : Circulating R s) {p : Packet Int Message} (hp : p ∈ s.sent)
    (hdst : p.dst ∈ R.nodes) (hm : p.msg = .election v) :
    TurnOk R s (s.commit p.dst (onMessage p.dst (s.st p.dst) p.src v)) p.dst
      (onMessage p.dst (s.st p.dst) p.src v) := by
  obtain ⟨hv, hsrc, D, hD, hnext, hpassed⟩ := h.election p hp v hm
  have hknown := h.known p.dst hdst
  have hpeer : p.src = D.prev p.dst := by rw [hnext, hD.prev_next hsrc]
  have hlater : Later s (s.commit p.dst (onMessage p.dst (s.st p.dst) p.src v)) :=
    later_commit (grown_handle (m := .election v))
  have hmove := onMessage_onMessage (v := v) hD hknown hpeer
  generalize onMessage p.dst (s.st p.dst) p.src v = r at hmove hlater
  have hawake : ((s.commit p.dst r).st p.dst).Awake := by
    rw [State.commit_st_self]
    cases hmove <;> exact .inl rfl
  cases hmove with
  | lost _ => exact ⟨hknown, nofun, .inl, .inl⟩
  | elected hself =>
    subst hself
    refine ⟨hknown, fun dm hdm => ?_, fun _ => .inr ⟨fun j hj => ?_, D, hD, ?_⟩, .inl⟩
    · obtain rfl := List.mem_singleton.mp hdm
      exact ⟨.inl rfl, D, hD, rfl⟩
    · -- the id has been all around the ring
      obtain ⟨k, hk⟩ := hD.connected hdst hj
      rcases hpassed.back hk with rfl | ⟨hlt, hj⟩
      · exact ⟨le_rfl, hawake⟩
      · exact ⟨hlt.le, (hlater.grown j).awake hj⟩
    · exact List.mem_cons_self
  | on hne =>
    refine ⟨hknown, fun dm hdm => ?_, .inl, .inl⟩
    obtain rfl := List.mem_singleton.mp hdm
    rcases lt_or_gt_of_ne hne with hlt | hgt
    · rw [max_eq_right hlt.le]
      exact ⟨hdst, D, hD, rfl, .start⟩
    · rw [max_eq_left hgt.le]
      refine ⟨hv, D, hD, rfl, Passed.on (hpassed.mono fun y hy => ?_) ⟨hgt, ?_⟩⟩
      · exact hy.imp_right (hlater.grown y).awake
      · rwa [max_eq_left hgt.le] at hawake

theorem turnOk_onTerminate (h : Circulating R s) {p : Packet Int Message} (hp : p ∈ s.sent)
    (hdst : p.dst ∈ R.nodes) {b : Bool} (hm : p.msg = .termination b) :
    TurnOk R s s' p.dst (onTerminate (s.st p.dst) p.src) := by
  obtain ⟨hsrc, -, D, hD, hnext⟩ := h.termination p hp b hm
  have hknown := h.known p.dst hdst
  have hpeer : p.src = D.prev p.dst := by rw [hnext, hD.prev_next hsrc]
  have hmove := onTerminate_onTerminate hD hknown hpeer
  generalize onTerminate (s.st p.dst) p.src = r at hmove
  cases hmove with
  | idle _ => exact ⟨hknown, nofun, .inl, .inl⟩
  | stop _ =>
    refine ⟨hknown, fun dm hdm => ?_, .inl, fun _ => .inr ⟨D, hD, ⟨b, ?_⟩, List.mem_cons_self⟩⟩
    · obtain rfl := List.mem_singleton.mp hdm
      exact ⟨.inr rfl, D, hD, rfl⟩
    · rw [← hpeer, ← hm]
      exact hp

theorem turnOk_onManualConnect (h : Circulating R s) {p : Packet Int Message} (hp : p ∈ s.sent)
    (hdst : p.dst ∈ R.nodes) {nodeId : Int} {b : String} (hm : p.msg = .connection nodeId b) :
    TurnOk R s s' p.dst (onManualConnect (s.st p.dst) nodeId) := by
  obtain ⟨-, hadj⟩ := h.connection p hp nodeId b hm
  refine ⟨fun j hj => ?_, nofun, .inl, .inl⟩
  simp only [onManualConnect] at hj
  split_ifs at hj with hknown
  · exact h.known p.dst hdst j hj
  · rcases List.mem_append.mp hj with hj | hj
    · exact h.known p.dst hdst j hj
    · rwa [List.mem_singleton.mp hj]

theorem turnOk_act (h : Circulating R s) (hi : i ∈ R.nodes) {a : Action}
    (hr : (program R).act i (s.st i) a = some r) : TurnOk R s s' i r := by
  cases a with
  | ensureNodesConnected =>
    simp only [program, ensureNodesConnected] at hr
    split at hr
    · obtain rfl := Option.some.inj hr
      refine ⟨h.known i hi, fun dm hdm => ?_, .inl, .inl⟩
      obtain ⟨peer, hpeer, rfl⟩ := List.mem_map.mp hdm
      have hadj : R.Adjacent i peer := by simpa [Ring.Adjacent] using hpeer
      exact ⟨rfl, hadj.symm hi⟩
    · cases hr
  | onStart =>
    simp only [program, onStart] at hr
    split at hr
    · next peer others _ hnodes =>
      obtain rfl := Option.some.inj hr
      refine ⟨h.known i hi, fun dm hdm => ?_, .inl, .inl⟩
      obtain rfl : dm = (peer, .election i) := by
        dsimp only at hdm
        split_ifs at hdm
        · cases hdm
        · exact List.mem_singleton.mp hdm
      refine ⟨hi, ?_⟩
      rcases h.known i hi peer (hnodes ▸ List.mem_cons_self) with rfl | rfl
      · exact ⟨R, .inl rfl, rfl, .start⟩
      · exact ⟨R.flip, .inr rfl, rfl, .start⟩
    · cases hr

theorem circulating_of_run {ls : History} (hs : exec (next R) initial ls = some s) :
    Circulating R s := by
  refine run_induction (P := fun (_ : History) (s : Global) => Circulating R s)
    circulating_initial ?_ ls s hs
  intro ls s l s' hs h hl
  obtain ⟨i, r, hturn, rfl⟩ := step_iff.mp hl
  cases hturn with
  | @deliver p hsent hdst =>
    refine h.commit hdst grown_handle ?_
    show TurnOk R s (s.commit p.dst (handle p.dst (s.st p.dst) p.src p.msg)) p.dst
      (handle p.dst (s.st p.dst) p.src p.msg)
    cases hm : p.msg with
    | connection nodeId b => exact turnOk_onManualConnect h hsent hdst hm
    | election v => exact turnOk_onMessage h hsent hdst hm
    | termination b => exact turnOk_onTerminate h hsent hdst hm
  | act hi hr => exact h.commit hi (grown_act hr) (turnOk_act h hi hr)

/-- A node that has been elected has the largest id, whatever datagrams have been lost,
duplicated and reordered, and no node has stopped before there is one. -/
theorem eq_maximum_of_elected {ls : History} (hs : exec (next R) initial ls = some s) :
    (∀ i ∈ R.nodes, (s.st i).elected = true → IsGreatest (R.nodes : Set Int) i) ∧
      ((∃ i ∈ R.nodes, (s.st i).stopped = true) →
        ∃ leader ∈ R.nodes, (s.st leader).elected = true) := by
  have h := circulating_of_run hs
  refine ⟨fun i hi helected => ⟨hi, fun j hj => ?_⟩, ?_⟩
  · exact ((h.elected i hi helected).1 j hj).1
  · rintro ⟨i, hi, hstop⟩
    exact (h.stopped i hi hstop).1

/-! ## Three nodes -/

/-- The ring `compose` makes of three nodes. -/
def trio : Ring := .composed 3 (by decide)

/-- The message with which node `i` makes itself known to `j`. -/
def hello (i j : Int) : Label Int Message Action := .deliver ⟨i, j, .connection i "init"⟩

/-- All nodes make themselves known, each first to the node before it. -/
def connecting : History :=
  [.act 0 .ensureNodesConnected, .act 1 .ensureNodesConnected, .act 2 .ensureNodesConnected,
    hello 1 0, hello 2 0, hello 2 1, hello 0 1, hello 0 2, hello 1 2,
    .act 0 .ensureNodesConnected, .act 1 .ensureNodesConnected, .act 2 .ensureNodesConnected]

/-- A message of the election is delivered to the next node. -/
def moves (i : Int) (m : Message) : Label Int Message Action := .deliver ⟨i, trio.next i, m⟩

/-- Node 0 starts, and its message comes to node 1 twice. -/
def trioRun : History :=
  connecting ++ [.act 0 .onStart, moves 0 (.election 0), moves 0 (.election 0),
    moves 1 (.election 1), moves 2 (.election 2), moves 0 (.election 2), moves 1 (.election 2),
    moves 2 .termination, moves 0 .termination, moves 1 .termination]

theorem eq_maximum_of_elected_trio :
    ∃ s, exec (next trio) initial trioRun = some s ∧ IsGreatest (trio.nodes : Set Int) 2 := by
  obtain ⟨s, hs, helected⟩ : ∃ s, exec (next trio) initial trioRun = some s ∧
      decide ((s.st 2).elected = true) = true := exists_exec_of_any _ _ _ _ (by decide)
  exact ⟨s, hs, (eq_maximum_of_elected hs).1 2 (by decide) (of_decide_eq_true helected)⟩

end DistBench.RingElection
