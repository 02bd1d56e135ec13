import DistBench.Dolev.Deliveries

/-!
# Dolev on its own (dolev.py:55–131)

A node without a parent is to broadcast its messages when it starts and to terminate some
time after. The code that does so stands at the end of `trigger_byzantine_spoof`, which
begins by returning in every mode but `BYZANTINE_SPOOF`, and `on_start` does not even call
it in another mode.

- `Act`: `on_start` reads nothing that changes while it runs, so what it does is a list.
  `broadcastMessage`, `triggerByzantineSpoof`, `onStart` are the code.
- `Node.protocol`: the coroutine of `on_start` among those of the handler.
- `startsUp_iff`: a node starts up as it should exactly in the mode `BYZANTINE_SPOOF`.
-/

namespace DistBench.Dolev.Standalone

open DistBench.Async

/-- What `on_start` does, from one await to the next. -/
inductive Act where
  /-- `broadcast_message` draws an id and adds it to `delivered` (lines 201–218). -/
  | record (msgId : String)
  /-- `await peer.dolev(msg)`. -/
  | send (peer : PeerId) (msg : DMsg String)
  /-- `await self.delay()` and `await asyncio.sleep(..)`. -/
  | sleep
  /-- `await self.terminate()`. A Dolev node has no children. -/
  | terminate
deriving DecidableEq, Repr

/-- A node, its configuration (lines 24–29) and the ids it draws. -/
structure Node where
  network : Network String
  id : PeerId
  isSender : Bool := false
  payload : String := "hello"
  behaviorMode : String := "HONEST"
  numMessages : Int := 1
  uuid : Nat → String

namespace Node

variable (N : Node)

/-- `self.peers`. -/
def peers : List PeerId := N.network.peers N.id

/-- `self.neighbour_ids`, which `on_start` takes from the community, or a handler that runs
before it. -/
def neighbourIds : Finset PeerId := N.network.neighbours N.id

/-- The peers `broadcast_message` sends to (lines 220–237). -/
def targets : List PeerId :=
  if N.behaviorMode = "BYZANTINE_SELECTIVE" then
    let targetNeighbors := (N.neighbourIds.sort (· ≤ ·)).take (N.neighbourIds.card / 2)
    N.peers.filter (· ∈ targetNeighbors)
  else N.peers.filter (· ∈ N.neighbourIds)

/-- `broadcast_message`, with the id it draws (lines 200–237). -/
def broadcastMessage (msgId : String) : List Act :=
  .record msgId :: N.targets.map fun peer => .send peer ⟨msgId, N.id, N.payload, []⟩

/-- The fake message (lines 82–94), if there is somebody to name and somebody to send to. -/
def fakeMsg : Option (DMsg String) :=
  match N.peers with
  | [] => none
  | fakeSource :: _ =>
    if N.neighbourIds = ∅ then none else some ⟨N.uuid 0, fakeSource, "SPOOFED MESSAGE", []⟩

/-- The id of broadcast number `i`. The fake message has drawn one before. -/
def msgId (i : Nat) : String := N.uuid (N.fakeMsg.toList.length + i)

/-- The broadcasts of a sender (lines 98–102). -/
def broadcasts : List Act :=
  (List.range N.numMessages.toNat).flatMap fun i =>
    N.broadcastMessage (N.msgId i) ++ if (i : Int) < N.numMessages - 1 then [.sleep] else []

/-- Lines 77–131. -/
def triggerByzantineSpoof : List Act :=
  if N.behaviorMode ≠ "BYZANTINE_SPOOF" then []
  else
    N.fakeMsg.toList.flatMap (fun fakeMsg =>
      (N.peers.filter (· ∈ N.neighbourIds)).flatMap fun peer => [.sleep, .send peer fakeMsg]) ++
    if N.network.hasParent then []
    else (if N.isSender then N.broadcasts else []) ++ [.sleep, .terminate]

/-- Lines 55–75. -/
def onStart : List Act :=
  if N.behaviorMode = "BYZANTINE_SPOOF" ∧ N.network.hasParent = false then
    N.triggerByzantineSpoof
  else []

end Node

/-- The state of the node. `log` is what `on_start` has done so far. -/
structure NodeState where
  dolev : DolevState := {}
  terminated : Bool := false
  log : List Act := []

/-- Where a coroutine is suspended. -/
inductive Task where
  /-- `on_start`, with what it has still to do. -/
  | start (rest : List Act)
  /-- The handler. -/
  | handler (t : Cont String)
deriving DecidableEq, Repr

/-- What a segment leaves behind. -/
abbrev Segment : Type := Outcome PeerId (DMsg String) NodeState Task

namespace NodeState

variable (s : NodeState)

def perform (a : Act) : NodeState :=
  let s := { s with log := s.log ++ [a] }
  match a with
  | .record msgId => { s with dolev := s.dolev.deliver msgId }
  | .terminate => { s with terminated := true }
  | .send _ _ | .sleep => s

/-- A segment of `on_start`. -/
def run (s : NodeState) : List Act → Segment
  | [] => { st := s }
  | .send peer msg :: rest =>
    { st := s.perform (.send peer msg), out := [(peer, msg)], rest := some (.start rest) }
  | .sleep :: rest => { st := s.perform .sleep, rest := some (.start rest) }
  | .record msgId :: rest => run (s.perform (.record msgId)) rest
  | .terminate :: rest => run (s.perform .terminate) rest

/-- A segment of the handler. -/
def embed (o : Seg String) : Segment :=
  { st := { s with dolev := o.st }, out := o.out, rest := o.rest.map .handler }

end NodeState

namespace Node

variable (N : Node)

/-- The code of the node. -/
def protocol : Protocol PeerId (DMsg String) NodeState Task where
  handle _ s src msg :=
    if N.behaviorMode = "BYZANTINE_SILENT" then { st := s }
    else s.embed (N.network.settle N.id (N.network.dolev N.id s.dolev src msg))
  resume _ s t :=
    match t with
    | .start rest => some (s.run rest)
    | .handler t => some (s.embed (N.network.settle N.id (N.network.resume N.id s.dolev t)))

/-- What happens to the node. -/
abbrev Call : Type := SoloLabel PeerId (DMsg String) Task

/-- The node, called by anyone. -/
abbrev step : Solo NodeState Task → Call → Option (Solo NodeState Task) := N.protocol.alone N.id

/-- It is about to start. -/
def fresh : Solo NodeState Task := ⟨{}, [.start N.onStart]⟩

end Node

/-! ## What is expected of a node -/

/-- The id of a call of `broadcast_message`. -/
def Act.broadcast : Act → Option String
  | .record msgId => some msgId
  | .send _ _ | .sleep | .terminate => none

/-- The ids of the calls of `broadcast_message` so far. -/
def NodeState.broadcasts (s : NodeState) : List String := s.log.filterMap Act.broadcast

/-- A message with the id goes to the peer. -/
def Act.sendsTo (peer : PeerId) (msgId : String) : Act → Bool
  | .send peer' msg => peer' = peer ∧ msg.msgId = msgId
  | .record _ | .sleep | .terminate => false

/-- How often `on_start` has sent a message with the id to the peer. -/
def NodeState.sent (s : NodeState) (peer : PeerId) (msgId : String) : Nat :=
  s.log.countP (Act.sendsTo peer msgId)

def Task.isStart : Task → Bool
  | .start _ => true
  | .handler _ => false

/-- `on_start` has returned. -/
def Over (x : Solo NodeState Task) : Prop := x.tasks.filter Task.isStart = []

/-- How often `on_start` has gone on. -/
def wakes (calls : List Node.Call) : Nat :=
  calls.countP fun
    | .wake t => t.isStart
    | .handle _ _ => false

namespace Node

variable (N : Node)

/-- What `on_start` has done when it returns. -/
structure Broadcasts (s : NodeState) : Prop where
  length : (s.broadcasts.length : Int) = if N.isSender then N.numMessages else 0
  nodup : s.broadcasts.Nodup
  delivered : ∀ m ∈ s.broadcasts, m ∈ s.dolev.delivered
  sent : N.behaviorMode = "HONEST" → ∀ m ∈ s.broadcasts, ∀ peer ∈ N.peers,
    peer ∈ N.neighbourIds → s.sent peer m = 1
  terminated : s.terminated = true

/-- Whatever else happens to the node, `on_start` returns once it has been resumed often
enough, and has done then what it is expected to do. -/
def StartsUp : Prop :=
  (∃ bound, ∀ calls x, exec N.step N.fresh calls = some x → bound ≤ wakes calls → Over x) ∧
    ∀ calls x, exec N.step N.fresh calls = some x → Over x → N.Broadcasts x.st

end Node

variable {N : Node} {s : NodeState} {acts done rest : List Act} {x x' : Solo NodeState Task}
  {l : Node.Call} {calls : List Node.Call} {m : String} {peer : PeerId}

/-! ## What a segment does -/

/-- What has been done shows in the state. -/
structure Shows (s : NodeState) : Prop where
  delivered : ∀ m, .record m ∈ s.log → m ∈ s.dolev.delivered
  terminated : .terminate ∈ s.log → s.terminated = true

theorem Shows.perform (h : Shows s) (a : Act) : Shows (s.perform a) := by
  cases a with
  | record msgId =>
    refine ⟨fun m hm => ?_, fun hm => h.terminated (by simpa [NodeState.perform] using hm)⟩
    rcases List.mem_append.mp hm with hm | hm
    · exact Finset.mem_insert_of_mem (h.delivered m hm)
    · cases List.mem_singleton.mp hm
      exact Finset.mem_insert_self _ _
  | terminate =>
    exact ⟨fun m hm => h.delivered m (by simpa [NodeState.perform] using hm), fun _ => rfl⟩
  | send peer msg | sleep =>
    exact ⟨fun m hm => h.delivered m (by simpa [NodeState.perform] using hm),
      fun hm => h.terminated (by simpa [NodeState.perform] using hm)⟩

theorem Shows.embed {o : Seg String} (h : Shows s) (ho : s.dolev.delivered ⊆ o.st.delivered) :
    Shows (s.embed o).st where
  delivered m hm := ho (h.delivered m hm)
  terminated := h.terminated

@[simp] theorem log_perform (a : Act) : (s.perform a).log = s.log ++ [a] := by
  cases a <;> rfl

/-- What a segment of `on_start` leaves: it stops after an act, or is through. -/
inductive Runs (s : NodeState) (acts : List Act) (o : Segment) : Prop
  | stops {done rest : List Act} (hacts : acts = done ++ rest) (hne : done ≠ [])
      (hlog : o.st.log = s.log ++ done) (hrest : o.rest = some (.start rest))
  | returns (hlog : o.st.log = s.log ++ acts) (hrest : o.rest = none)

theorem Runs.cons {a : Act} {o : Segment} (h : Runs (s.perform a) acts o) :
    Runs s (a :: acts) o := by
  cases h with
  | @stops done rest hacts hne hlog hrest =>
    have hsplit : a :: acts = (a :: done) ++ rest := by rw [hacts, List.cons_append]
    refine .stops hsplit (List.cons_ne_nil _ _) ?_ hrest
    rw [hlog, log_perform, List.append_assoc, List.singleton_append]
  | returns hlog hrest =>
    refine .returns ?_ hrest
    rw [hlog, log_perform, List.append_assoc, List.singleton_append]

theorem runs_run (h : Shows s) : Runs s acts (s.run acts) ∧ Shows (s.run acts).st := by
  induction acts generalizing s with
  | nil => exact ⟨.returns (List.append_nil _).symm rfl, h⟩
  | cons a acts ih =>
    have hperform := h.perform a
    cases a with
    | send peer msg =>
      exact ⟨.stops rfl (List.cons_ne_nil _ _) (log_perform _) rfl, hperform⟩
    | sleep => exact ⟨.stops rfl (List.cons_ne_nil _ _) (log_perform _) rfl, hperform⟩
    | record msgId | terminate => exact (ih hperform).imp Runs.cons id

/-! ## Runs -/

/-- How far `on_start` has come. -/
inductive Progress (N : Node) (calls : List Node.Call) (x : Solo NodeState Task) : Prop
  | running {rest : List Act} (htasks : x.tasks.filter Task.isStart = [.start rest])
      (hlog : N.onStart = x.st.log ++ rest) (hwakes : wakes calls ≤ x.st.log.length)
  | returned (htasks : Over x) (hlog : x.st.log = N.onStart)

theorem Progress.fresh : Progress N [] N.fresh := .running rfl rfl (Nat.zero_le _)

/-- A segment of a handler is none of `on_start`'s. -/
theorem Progress.handler {o : Segment} {ts : List Task} (h : Progress N calls x)
    (hcalls : wakes (calls ++ [l]) = wakes calls) (hst : o.st.log = x.st.log)
    (hrest : ∀ t ∈ o.rest, t.isStart = false)
    (hts : ts.filter Task.isStart = x.tasks.filter Task.isStart) :
    Progress N (calls ++ [l]) ⟨o.st, o.rest.toList ++ ts⟩ := by
  have htasks : (o.rest.toList ++ ts).filter Task.isStart = x.tasks.filter Task.isStart := by
    rw [List.filter_append, hts, List.filter_eq_nil_iff.mpr, List.nil_append]
    intro t ht
    simpa using hrest t (Option.mem_toList.mp ht)
  cases h with
  | running hrun hlog hwakes =>
    refine .running (htasks.trans hrun) ?_ ?_
    · rw [hst]
      exact hlog
    · rw [hst, hcalls]
      exact hwakes
  | returned hover hlog => exact .returned (htasks.trans hover) (hst.trans hlog)

theorem progress_step (h : Progress N calls x) (hshows : Shows x.st)
    (hstep : N.step x l = some x') :
    Progress N (calls ++ [l]) x' ∧ Shows x'.st := by
  obtain ⟨o, ts, hseg, rfl⟩ := Protocol.alone_iff.mp hstep
  cases hseg with
  | @handle src msg =>
    have hcalls : wakes (calls ++ [.handle src msg]) = wakes calls := by simp [wakes]
    show Progress N _ ⟨(N.protocol.handle N.id x.st src msg).st, _⟩ ∧ _
    unfold Node.protocol
    dsimp only
    split
    · exact ⟨h.handler hcalls rfl (by simp) rfl, hshows⟩
    · refine ⟨h.handler hcalls rfl ?_ rfl, hshows.embed handles_dolev.fresh.settle.grows⟩
      simp [NodeState.embed, Task.isStart]
  | @wake t _ ht ho =>
    cases t with
    | handler t =>
      obtain rfl := Option.some.inj ho
      refine ⟨h.handler (by simp [wakes, Task.isStart]) rfl ?_ ?_,
        hshows.embed resumes_resume.fresh.settle.grows⟩
      · simp [NodeState.embed, Task.isStart]
      · rw [← List.erase_filter, List.erase_of_not_mem]
        simp [Task.isStart]
    | start rest =>
      obtain rfl := Option.some.inj ho
      have hrun : Runs x.st rest (x.st.run rest) ∧ Shows (x.st.run rest).st := runs_run hshows
      obtain ⟨hruns, hshows⟩ := hrun
      refine ⟨?_, hshows⟩
      have hmem : .start rest ∈ x.tasks.filter Task.isStart := List.mem_filter.mpr ⟨ht, rfl⟩
      cases h with
      | returned hover _ => exact absurd (hover ▸ hmem) List.not_mem_nil
      | running htasks hlog hwakes =>
        obtain rfl : rest = _ := by simpa [htasks] using hmem
        have hothers : (x.tasks.erase (.start rest)).filter Task.isStart = [] := by
          rw [← List.erase_filter, htasks, List.erase_cons_head]
        cases hruns with
        | @stops done rest' hacts hne hlog' hrest =>
          have hsplit : N.onStart = (x.st.run rest).st.log ++ rest' := by
            rw [hlog', hlog, hacts, List.append_assoc]
          refine .running ?_ hsplit ?_
          · rw [hrest, List.filter_append, hothers]
            rfl
          · have hpos := List.length_pos_of_ne_nil hne
            rw [hlog', List.length_append, wakes, List.countP_append]
            exact Nat.add_le_add hwakes hpos
        | returns hlog' hrest =>
          refine .returned ?_ (hlog'.trans hlog.symm)
          rw [Over, hrest]
          exact hothers

theorem progress_of_run (hx : exec N.step N.fresh calls = some x) :
    Progress N calls x ∧ Shows x.st := by
  refine run_induction (P := fun calls x => Progress N calls x ∧ Shows x.st)
    ⟨.fresh, by simp [Node.fresh], by simp [Node.fresh]⟩ ?_ calls x hx
  intro calls x l x' _ h hstep
  exact progress_step h.1 h.2 hstep

theorem Progress.over_of_wakes (h : Progress N calls x)
    (hwakes : N.onStart.length + 1 ≤ wakes calls) : Over x := by
  cases h with
  | returned hover _ => exact hover
  | running _ hlog hle =>
    rw [hlog, List.length_append] at hwakes
    omega

theorem log_of_over (hx : exec N.step N.fresh calls = some x) (hover : Over x) :
    x.st.log = N.onStart := by
  cases (progress_of_run hx).1 with
  | returned _ hlog => exact hlog
  | running htasks _ _ => exact absurd (htasks.symm.trans hover) (List.cons_ne_nil _ _)

/-! ## What `on_start` does -/

theorem onStart_of_ne (hmode : N.behaviorMode ≠ "BYZANTINE_SPOOF") : N.onStart = [] :=
  if_neg fun h => hmode h.1

/-- The fake messages. -/
def Node.fakes (N : Node) : List Act :=
  N.fakeMsg.toList.flatMap fun fakeMsg =>
    (N.peers.filter (· ∈ N.neighbourIds)).flatMap fun peer => [.sleep, .send peer fakeMsg]

theorem onStart_of_spoof (hmode : N.behaviorMode = "BYZANTINE_SPOOF")
    (hparent : N.network.hasParent = false) :
    N.onStart = N.fakes ++ ((if N.isSender then N.broadcasts else []) ++ [.sleep, .terminate]) := by
  rw [Node.onStart, if_pos ⟨hmode, hparent⟩, Node.triggerByzantineSpoof, if_neg (not_not.mpr hmode),
    hparent]
  rfl

/-- The acts of broadcast number `i`. -/
def Node.round (N : Node) (i : Nat) : List Act :=
  N.broadcastMessage (N.msgId i) ++ if (i : Int) < N.numMessages - 1 then [.sleep] else []

theorem mem_pause {b : Prop} [Decidable b] {a : Act} (h : a ∈ if b then [Act.sleep] else []) :
    a = .sleep := by
  split at h
  · exact List.mem_singleton.mp h
  · exact absurd h List.not_mem_nil

theorem broadcast_round (i : Nat) : (N.round i).filterMap Act.broadcast = [N.msgId i] := by
  have hsends : ∀ peers : List PeerId, (peers.map fun peer => Act.send peer
      ⟨N.msgId i, N.id, N.payload, []⟩).filterMap Act.broadcast = [] := fun peers => by
    simp [List.filterMap_map, Function.comp_def, Act.broadcast]
  rw [Node.round, Node.broadcastMessage, List.filterMap_append,
    List.filterMap_cons_some (f := Act.broadcast) (b := N.msgId i) rfl, hsends,
    List.filterMap_eq_nil_iff.mpr fun a ha => by rw [mem_pause ha]; rfl]
  rfl

theorem broadcast_broadcasts :
    N.broadcasts.filterMap Act.broadcast = (List.range N.numMessages.toNat).map N.msgId := by
  show ((List.range N.numMessages.toNat).flatMap N.round).filterMap Act.broadcast = _
  rw [List.filterMap_flatMap]
  simp only [broadcast_round]
  exact List.flatMap_pure_eq_map _ _

theorem msgId_injective (huuid : Function.Injective N.uuid) : Function.Injective N.msgId :=
  fun _ _ h => Nat.add_left_cancel (huuid h)

theorem mem_fakes {a : Act} (ha : a ∈ N.fakes) :
    a = .sleep ∨ ∃ peer, ∃ fakeMsg ∈ N.fakeMsg, a = .send peer fakeMsg := by
  obtain ⟨fakeMsg, hfake, ha⟩ := List.mem_flatMap.mp ha
  obtain ⟨peer, -, ha⟩ := List.mem_flatMap.mp ha
  rcases List.mem_cons.mp ha with rfl | ha
  · exact .inl rfl
  · exact .inr ⟨peer, fakeMsg, Option.mem_toList.mp hfake, List.mem_singleton.mp ha⟩

theorem broadcast_onStart (hmode : N.behaviorMode = "BYZANTINE_SPOOF")
    (hparent : N.network.hasParent = false) :
    N.onStart.filterMap Act.broadcast =
      if N.isSender then (List.range N.numMessages.toNat).map N.msgId else [] := by
  have hfakes : N.fakes.filterMap Act.broadcast = [] := by
    refine List.filterMap_eq_nil_iff.mpr fun a ha => ?_
    rcases mem_fakes ha with rfl | ⟨peer, fakeMsg, -, rfl⟩ <;> rfl
  have hend : [Act.sleep, .terminate].filterMap Act.broadcast = [] := rfl
  rw [onStart_of_spoof hmode hparent, List.filterMap_append, List.filterMap_append, hfakes, hend,
    List.append_nil, List.nil_append]
  split
  · exact broadcast_broadcasts
  · rfl

theorem mem_range_of_mem (hmode : N.behaviorMode = "BYZANTINE_SPOOF")
    (hparent : N.network.hasParent = false) (hm : m ∈ N.onStart.filterMap Act.broadcast) :
    N.isSender = true ∧ ∃ i < N.numMessages.toNat, N.msgId i = m := by
  rw [broadcast_onStart hmode hparent] at hm
  split at hm
  · next hsender =>
    obtain ⟨i, hi, him⟩ := List.mem_map.mp hm
    exact ⟨hsender, i, List.mem_range.mp hi, him⟩
  · exact absurd hm List.not_mem_nil

theorem sendsTo_round (hmode : N.behaviorMode ≠ "BYZANTINE_SELECTIVE") (hnodup : N.peers.Nodup)
    (hpeer : peer ∈ N.peers) (hnear : peer ∈ N.neighbourIds) (i : Nat) :
    (N.round i).countP (Act.sendsTo peer m) = if N.msgId i = m then 1 else 0 := by
  have htargets : N.targets = N.peers.filter (· ∈ N.neighbourIds) := if_neg hmode
  have hmem : peer ∈ N.targets := by
    rw [htargets]
    exact List.mem_filter.mpr ⟨hpeer, decide_eq_true hnear⟩
  have hpause : (if (i : Int) < N.numMessages - 1 then [Act.sleep] else []).countP
      (Act.sendsTo peer m) = 0 :=
    List.countP_eq_zero.mpr fun a ha => by rw [mem_pause ha]; exact Bool.false_ne_true
  have hcount : N.targets.countP (fun p => Act.sendsTo peer m
      (.send p ⟨N.msgId i, N.id, N.payload, []⟩)) = if N.msgId i = m then 1 else 0 := by
    split
    · next him =>
      have hone := List.count_eq_one_of_mem (htargets ▸ hnodup.filter _) hmem
      rw [← hone, List.count]
      refine List.countP_congr fun p _ => ?_
      simp [Act.sendsTo, him]
    · next him =>
      refine List.countP_eq_zero.mpr fun p _ => ?_
      simp [Act.sendsTo, him]
  rw [Node.round, Node.broadcastMessage, List.countP_append, hpause, Nat.add_zero,
    List.countP_cons_of_neg (by exact Bool.false_ne_true), List.countP_map]
  exact hcount

/-- Where the messages are sent to all neighbours, each is sent to each of them once. -/
theorem sendsTo_broadcasts (hmode : N.behaviorMode ≠ "BYZANTINE_SELECTIVE")
    (hnodup : N.peers.Nodup) (hpeer : peer ∈ N.peers) (hnear : peer ∈ N.neighbourIds)
    (is : List Nat) :
    (is.flatMap N.round).countP (Act.sendsTo peer m) = (is.map N.msgId).count m := by
  induction is with
  | nil => rfl
  | cons i is ih =>
    rw [List.flatMap_cons, List.countP_append, ih, sendsTo_round hmode hnodup hpeer hnear,
      List.map_cons, List.count_cons, Nat.add_comm]
    simp

/-- The fake message has an id of its own. -/
theorem msgId_ne_of_fake (huuid : Function.Injective N.uuid) {fakeMsg : DMsg String}
    (hfake : fakeMsg ∈ N.fakeMsg) (i : Nat) : fakeMsg.msgId ≠ N.msgId i := by
  have hlength : N.fakeMsg.toList.length = 1 := by
    rw [hfake]
    rfl
  have hid : fakeMsg.msgId = N.uuid 0 := by
    unfold Node.fakeMsg at hfake
    split at hfake
    · cases hfake
    · split at hfake
      · cases hfake
      · obtain rfl := Option.some.inj hfake
        rfl
  rw [hid, Node.msgId, hlength]
  exact fun h => absurd (huuid h) (by omega)

/-- In the one mode that gets there, every message goes to every neighbour, once. -/
theorem sent_once (hmode : N.behaviorMode = "BYZANTINE_SPOOF")
    (hparent : N.network.hasParent = false)
    (huuid : Function.Injective N.uuid) (hnodup : N.peers.Nodup)
    (hx : exec N.step N.fresh calls = some x) (hover : Over x) (hm : m ∈ x.st.broadcasts)
    (hpeer : peer ∈ N.peers) (hnear : peer ∈ N.neighbourIds) : x.st.sent peer m = 1 := by
  have hlog := log_of_over hx hover
  rw [NodeState.broadcasts, hlog] at hm
  obtain ⟨hsender, i, hi, rfl⟩ := mem_range_of_mem hmode hparent hm
  have hfakes : N.fakes.countP (Act.sendsTo peer (N.msgId i)) = 0 := by
    refine List.countP_eq_zero.mpr fun a ha => ?_
    rcases mem_fakes ha with rfl | ⟨p, fakeMsg, hfake, rfl⟩
    · exact Bool.false_ne_true
    · simp [Act.sendsTo, msgId_ne_of_fake huuid hfake i]
  have hend : [Act.sleep, .terminate].countP (Act.sendsTo peer (N.msgId i)) = 0 := rfl
  have hselective : N.behaviorMode ≠ "BYZANTINE_SELECTIVE" := by
    rw [hmode]
    decide
  rw [NodeState.sent, hlog, onStart_of_spoof hmode hparent, if_pos hsender, List.countP_append,
    List.countP_append, hfakes, hend, Nat.zero_add, Nat.add_zero]
  refine (sendsTo_broadcasts hselective hnodup hpeer hnear _).trans ?_
  exact List.count_eq_one_of_mem (List.nodup_range.map (msgId_injective huuid))
    (List.mem_map.mpr ⟨i, List.mem_range.mpr hi, rfl⟩)

theorem broadcasts_of_over (hmode : N.behaviorMode = "BYZANTINE_SPOOF")
    (hparent : N.network.hasParent = false) (hnum : 0 ≤ N.numMessages)
    (huuid : Function.Injective N.uuid) (hx : exec N.step N.fresh calls = some x)
    (hover : Over x) : N.Broadcasts x.st := by
  have hlog := log_of_over hx hover
  have hshows := (progress_of_run hx).2
  have hids : x.st.broadcasts = _ :=
    (congrArg _ hlog).trans (broadcast_onStart hmode hparent)
  refine ⟨?_, ?_, fun m hm => ?_, fun hhonest => absurd (hmode.symm.trans hhonest) (by decide), ?_⟩
  · rw [hids]
    split <;> simp [hnum]
  · rw [hids]
    split
    · exact List.nodup_range.map (msgId_injective huuid)
    · exact List.nodup_nil
  · obtain ⟨a, ha, ham⟩ := List.mem_filterMap.mp hm
    cases a with
    | record msgId =>
      obtain rfl := Option.some.inj ham
      exact hshows.delivered _ ha
    | send _ _ | sleep | terminate => cases ham
  · refine hshows.terminated ?_
    rw [hlog, onStart_of_spoof hmode hparent]
    simp

/-- In every other mode `on_start` returns at once, and nothing has terminated the node. -/
theorem not_startsUp_of_ne (hmode : N.behaviorMode ≠ "BYZANTINE_SPOOF") : ¬ N.StartsUp := by
  intro h
  have hx : exec N.step N.fresh [.wake (.start [])] = some ⟨{}, []⟩ := by
    rw [Node.fresh, onStart_of_ne hmode]
    rfl
  exact Bool.false_ne_true (h.2 _ _ hx rfl).terminated

/-- A node without a parent starts up as it should exactly in the mode in which it also lies. -/
theorem startsUp_iff (hparent : N.network.hasParent = false) (hnum : 0 ≤ N.numMessages)
    (huuid : Function.Injective N.uuid) : N.StartsUp ↔ N.behaviorMode = "BYZANTINE_SPOOF" := by
  refine ⟨fun h => ?_, fun hmode => ⟨⟨N.onStart.length + 1, fun calls x hx => ?_⟩,
    fun calls x hx => ?_⟩⟩
  · by_contra hmode
    exact not_startsUp_of_ne hmode h
  · exact (progress_of_run hx).1.over_of_wakes
  · exact broadcasts_of_over hmode hparent hnum huuid hx

/-- `s`, which is to broadcast two messages to `a` and `b`. -/
def sender (behaviorMode : String) : Node where
  network := square
  id := "s"
  isSender := true
  behaviorMode := behaviorMode
  numMessages := 2
  uuid k := String.ofList (List.replicate k '+')

theorem uuid_sender {behaviorMode : String} : Function.Injective (sender behaviorMode).uuid := by
  intro k k' h
  have hlist : List.replicate k '+' = List.replicate k' '+' := String.ofList_injective h
  simpa using congrArg List.length hlist

theorem startsUp_iff_sender :
    (sender "BYZANTINE_SPOOF").StartsUp ∧ ¬ (sender "HONEST").StartsUp :=
  ⟨(startsUp_iff rfl (by decide) uuid_sender).mpr rfl,
    fun h => absurd ((startsUp_iff rfl (by decide) uuid_sender).mp h) (by decide)⟩

/-- The honest sender neither broadcasts nor terminates. -/
theorem startsUp_broken : ¬ ∀ N : Node, N.network.hasParent = false → 0 ≤ N.numMessages →
    Function.Injective N.uuid → N.behaviorMode ≠ "BYZANTINE_SPOOF" → N.StartsUp :=
  fun h => not_startsUp_of_ne (N := sender "HONEST") (by decide)
    (h (sender "HONEST") rfl (by decide) uuid_sender (by decide))

end DistBench.Dolev.Standalone
