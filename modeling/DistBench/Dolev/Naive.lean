import DistBench.Dolev.Dolev
import DistBench.Lib.Packing

/-!
# Dolev without optimizations (dolev_naive.py)

A node records every path a message id comes on, sends the message on to the
neighbours that are not on the path, and delivers the id once a greedy search finds
`f + 1` recorded paths no two of which share an inner node (`distPaths`).

A message id no correct node has broadcast has its origin in a Byzantine node, and
the node it sent the message to has recorded it: the source of a message is the
neighbour it comes from, whatever its path says. So every path on which such an id
is recorded or handed on has a Byzantine node on it (`Evidence`), and there are not
enough Byzantine nodes for `f + 1` disjoint paths (`card_le_of_disjoint_hits`).
-/

namespace DistBench.DolevNaive

open DistBench.Async
open DistBench.Dolev (nextPeer)
open DistBench.Packing (card_le_of_disjoint_hits)

/-- `DMsg` (dolev_naive.py:14–19). -/
abbrev DMsg : Type := Dolev.DMsg String

/-- The nodes with their neighbours, and the message ids and payloads they
broadcast. -/
structure Network extends Deployment where
  f : Nat
  neighbours : PeerId → Finset PeerId
  broadcasts : PeerId → List (String × String)

/-- The state of a node. -/
structure NaiveState where
  paths : Dict String (List (List PeerId)) := ∅
  delivered : Finset String := ∅

/-- The suspension points. -/
inductive Cont where
  /-- `broadcast_message`, which has not begun. -/
  | broadcast (msgId payload : String)
  /-- `broadcast_message` in `peer.dolev`. -/
  | broadcasting (rest : List PeerId) (msg : DMsg)
  /-- The handler in `delay`, about to send to `peer`. -/
  | forwardTo (peer : PeerId) (rest : List PeerId) (msg : DMsg) (newPath : List PeerId)
  /-- The handler in `peer.dolev`. -/
  | forward (rest : List PeerId) (msg : DMsg) (newPath : List PeerId)
deriving DecidableEq, Repr

/-- What a segment leaves behind. -/
abbrev Seg : Type := Outcome PeerId DMsg NaiveState Cont

/-- `self.paths.setdefault(msg_id, [])`, and `append` unless it is there. -/
def NaiveState.addPath (s : NaiveState) (m : String) (path : List PeerId) : NaiveState :=
  let known := s.paths.get m []
  { s with paths := s.paths.insert m (if path ∈ known then known else known ++ [path]) }

/-- The inner nodes of a path (dolev_naive.py:156–158). -/
def internal (self source : PeerId) (path : List PeerId) : Finset PeerId :=
  (path.toFinset.erase source).erase self

/-- The loop of `distPaths` (dolev_naive.py:155–164). -/
def choose (needed : Nat) (self source : PeerId) :
    List (List PeerId) → List (Finset PeerId) → Bool
  | [], _ => false
  | path :: paths, chosen =>
    if chosen.any fun used => decide (¬ Disjoint (internal self source path) used) then
      choose needed self source paths chosen
    else if needed ≤ chosen.length + 1 then true
    else choose needed self source paths (chosen ++ [internal self source path])

namespace Network

variable (N : Network)

/-- `distPaths` (dolev_naive.py:151–166). -/
def distPaths (self : PeerId) (paths : List (List PeerId)) (source : PeerId) : Bool :=
  choose (N.f + 1) self source paths []

/-- `my_deliver` (dolev_naive.py:139–149). -/
def myDeliver (self : PeerId) (s : NaiveState) (msg : DMsg) : NaiveState :=
  if msg.msgId ∈ s.delivered then s
  else if N.distPaths self (s.paths.get msg.msgId []) msg.source then
    { s with delivered := insert msg.msgId s.delivered }
  else s

/-- The forwarding loop (dolev_naive.py:129–135) and the `my_deliver` after it. -/
def forwardLoop (self : PeerId) (s : NaiveState) (rest : List PeerId) (msg : DMsg)
    (newPath : List PeerId) : Seg :=
  match nextPeer (fun pid => pid ∈ N.neighbours self ∧ pid ∉ newPath) rest with
  | some (peer, rest) => { st := s, rest := some (.forwardTo peer rest msg newPath) }
  | none => { st := N.myDeliver self s msg }

/-- The handler `dolev` (dolev_naive.py:108–137). -/
def dolev (self : PeerId) (s : NaiveState) (src : PeerId) (msg : DMsg) : Seg :=
  if src ∉ N.neighbours self then { st := s }
  else
    let newPath := msg.path ++ [src]
    N.forwardLoop self (s.addPath msg.msgId newPath) (N.peers self) msg newPath

/-- The loop of `broadcast_message` (dolev_naive.py:103–106). -/
def broadcastLoop (self : PeerId) (s : NaiveState) (rest : List PeerId) (msg : DMsg) : Seg :=
  match nextPeer (fun peer => peer ∈ N.neighbours self) rest with
  | some (peer, rest) => { st := s, out := [(peer, msg)], rest := some (.broadcasting rest msg) }
  | none => { st := s }

/-- The next segment of a suspended coroutine. -/
def resume (self : PeerId) (s : NaiveState) : Cont → Seg
  | .broadcast msgId payload => N.broadcastLoop self s (N.peers self) ⟨msgId, self, payload, []⟩
  | .broadcasting rest msg => N.broadcastLoop self s rest msg
  | .forwardTo peer rest msg newPath =>
    { st := s
      out := [(peer, { msg with path := newPath })]
      rest := some (.forward rest msg newPath) }
  | .forward rest msg newPath => N.forwardLoop self s rest msg newPath

/-- The code of a correct node. -/
def protocol : Protocol PeerId DMsg NaiveState Cont where
  handle := N.dolev
  resume self s t := some (N.resume self s t)

/-- No broadcast has begun. -/
def initial : Config PeerId DMsg NaiveState Cont where
  st _ := {}
  tasks i := (N.broadcasts i).map fun b => .broadcast b.1 b.2
  net := []

/-- One step of the network. -/
abbrev next := step N.protocol N.parties

end Network

/-- A history of the network. -/
abbrev History : Type := Trace PeerId DMsg Cont

/-- A step of the network. -/
abbrev Action : Type := Label PeerId DMsg Cont

/-- The message whose handler the step runs. -/
def Action.processes : Action → Option DMsg
  | .recv e => some e.msg
  | .forge e => some e.msg
  | .wake _ (.forwardTo _ _ msg _) => some msg
  | .wake _ (.forward _ msg _) => some msg
  | .wake _ _ => none

/-! ## Disjoint paths -/

/-- The greedy search succeeds only if there are enough nodes for the paths. -/
theorem le_card_of_choose {needed : Nat} {self source : PeerId} {paths : List (List PeerId)}
    {chosen : List (Finset PeerId)} {B : Finset PeerId} (hdisj : chosen.Pairwise Disjoint)
    (hchosen : ∀ u ∈ chosen, ∃ x ∈ u, x ∈ B)
    (hpaths : ∀ path ∈ paths, ∃ x ∈ internal self source path, x ∈ B)
    (h : choose needed self source paths chosen = true) : needed ≤ B.card := by
  induction paths generalizing chosen with
  | nil => simp [choose] at h
  | cons path paths ih =>
    have hrest : ∀ path ∈ paths, ∃ x ∈ internal self source path, x ∈ B :=
      fun q hq => hpaths q (by simp [hq])
    rw [choose] at h
    split at h
    · exact ih hdisj hchosen hrest h
    · next hfree =>
      have hdisj' : (chosen ++ [internal self source path]).Pairwise Disjoint := by
        refine List.pairwise_append.2 ⟨hdisj, List.pairwise_singleton _ _, fun u hu v hv => ?_⟩
        obtain rfl : v = internal self source path := by simpa using hv
        by_contra hnot
        refine hfree (List.any_eq_true.2 ⟨u, hu, ?_⟩)
        simpa [disjoint_comm] using hnot
      have hchosen' : ∀ u ∈ chosen ++ [internal self source path], ∃ x ∈ u, x ∈ B := by
        intro u hu
        rcases List.mem_append.1 hu with hu | hu
        · exact hchosen u hu
        · obtain rfl : u = internal self source path := by simpa using hu
          exact hpaths path (by simp)
      split at h
      · next hneeded =>
        have hlen := card_le_of_disjoint_hits hdisj' hchosen'
        rw [List.length_append, List.length_singleton] at hlen
        omega
      · exact ih hdisj' hchosen' hrest h

/-! ## What a segment does -/

namespace Network

variable {N : Network} {i src : PeerId} {s : NaiveState} {rest : List PeerId} {msg : DMsg}
  {newPath : List PeerId} {m : String}

@[simp] theorem paths_myDeliver : (N.myDeliver i s msg).paths = s.paths := by
  unfold myDeliver
  split_ifs <;> rfl

/-- An id is delivered by the message that carries it, after the test. -/
theorem mem_delivered_myDeliver (h : m ∈ (N.myDeliver i s msg).delivered) :
    m ∈ s.delivered ∨
      msg.msgId = m ∧ N.distPaths i (s.paths.get m []) msg.source = true := by
  unfold myDeliver at h
  split_ifs at h with hdel htest
  · exact .inl h
  · rcases Finset.mem_insert.1 h with rfl | h
    · exact .inr ⟨rfl, htest⟩
    · exact .inl h
  · exact .inl h

/-- The forwarding loop records nothing and sends nothing before it is resumed. -/
theorem forwardLoop_spec (i : PeerId) (s : NaiveState) (rest : List PeerId) (msg : DMsg)
    (newPath : List PeerId) (m : String) :
    (N.forwardLoop i s rest msg newPath).st.paths = s.paths ∧
    (N.forwardLoop i s rest msg newPath).out = [] ∧
    (∀ t ∈ (N.forwardLoop i s rest msg newPath).rest,
      ∃ peer rest', t = .forwardTo peer rest' msg newPath) ∧
    (m ∈ (N.forwardLoop i s rest msg newPath).st.delivered → m ∈ s.delivered ∨
      msg.msgId = m ∧ N.distPaths i (s.paths.get m []) msg.source = true) := by
  unfold forwardLoop
  split
  · refine ⟨rfl, rfl, ?_, .inl⟩
    intro t ht
    exact ⟨_, _, (Option.some.inj ht).symm⟩
  · exact ⟨paths_myDeliver, rfl, by simp, mem_delivered_myDeliver⟩

theorem broadcastLoop_spec (i : PeerId) (s : NaiveState) (rest : List PeerId) (msg : DMsg) :
    (N.broadcastLoop i s rest msg).st = s ∧
    (∀ dm ∈ (N.broadcastLoop i s rest msg).out, dm.2 = msg) ∧
    ∀ t ∈ (N.broadcastLoop i s rest msg).rest, ∃ rest', t = .broadcasting rest' msg := by
  unfold broadcastLoop
  split
  · refine ⟨rfl, by simp, ?_⟩
    intro t ht
    exact ⟨_, (Option.some.inj ht).symm⟩
  · exact ⟨rfl, by simp, by simp⟩

/-- What is recorded after a message is the path it has come on, or was before. -/
theorem mem_paths_addPath {path : List PeerId}
    (h : path ∈ (s.addPath msg.msgId newPath).paths.get m []) :
    path ∈ s.paths.get m [] ∨ msg.msgId = m ∧ path = newPath :=
  Dict.mem_get_insert_append h

/-- An id a segment delivers is that of the message it processes, and the test
has passed on the recorded paths. -/
theorem distPaths_of_delivers {c base : Config PeerId DMsg NaiveState Cont} {l : Action}
    {o : Seg} (hseg : Segment N.protocol N.parties c l i o base)
    (hbefore : m ∉ (c.st i).delivered) (hafter : m ∈ o.st.delivered) :
    ∃ msg, l.processes = some msg ∧ msg.msgId = m ∧
      N.distPaths i (o.st.paths.get m []) msg.source = true := by
  -- a handler gets to its test through the forwarding loop
  have hloop : ∀ {s : NaiveState} {rest msg newPath}, s.delivered = (c.st i).delivered →
      m ∈ (N.forwardLoop i s rest msg newPath).st.delivered →
      msg.msgId = m ∧ N.distPaths i
        ((N.forwardLoop i s rest msg newPath).st.paths.get m []) msg.source = true := by
    intro s rest msg newPath hs h
    obtain ⟨hpaths, _, _, hdel⟩ := forwardLoop_spec (N := N) i s rest msg newPath m
    rw [hpaths]
    exact (hdel h).resolve_left fun hmem => hbefore (hs ▸ hmem)
  have hdolev : ∀ {src msg}, m ∈ (N.dolev i (c.st i) src msg).st.delivered →
      msg.msgId = m ∧ N.distPaths i
        ((N.dolev i (c.st i) src msg).st.paths.get m []) msg.source = true := by
    intro src msg h
    unfold dolev at h ⊢
    split at h
    · exact absurd h hbefore
    · next hsrc =>
      rw [if_neg hsrc]
      exact hloop rfl h
  cases hseg with
  | recv _ _ => exact ⟨_, rfl, hdolev hafter⟩
  | forge _ _ => exact ⟨_, rfl, hdolev hafter⟩
  | @wake _ t _ _ _ ho =>
    obtain rfl := Option.some.inj ho
    cases t with
    | broadcast msgId payload =>
      have hst : (N.resume i (c.st i) (.broadcast msgId payload)).st = c.st i :=
        (broadcastLoop_spec _ _ _ _).1
      exact absurd (hst ▸ hafter) hbefore
    | broadcasting rest msg =>
      have hst : (N.resume i (c.st i) (.broadcasting rest msg)).st = c.st i :=
        (broadcastLoop_spec _ _ _ _).1
      exact absurd (hst ▸ hafter) hbefore
    | forwardTo peer rest msg newPath => exact absurd hafter hbefore
    | forward rest msg newPath => exact ⟨msg, rfl, hloop rfl hafter⟩

/-! ## Evidence -/

variable (N)

/-- A correct node has broadcast the message id. -/
def Broadcast (ls : History) (m : String) : Prop :=
  ∃ i ∈ N.parties.correct, ∃ payload, Label.wake i (.broadcast m payload) ∈ ls

/-- An id that comes on the path has been broadcast, or a Byzantine node is on the
path. -/
def Evidence (ls : History) (m : String) (path : List PeerId) : Prop :=
  N.Broadcast ls m ∨ ∃ x ∈ path, x ∈ N.parties.byz

/-- A suspended coroutine sends only what there is evidence for. -/
def TaskOk (ls : History) : Cont → Prop
  | .broadcast _ _ => True
  | .broadcasting _ msg => N.Broadcast ls msg.msgId
  | .forwardTo _ _ msg newPath => N.Evidence ls msg.msgId newPath
  | .forward _ msg newPath => N.Evidence ls msg.msgId newPath

/-- There is evidence for everything recorded and sent. -/
def provenance : Assertion PeerId DMsg NaiveState Cont where
  node ls _ s ts :=
    (∀ m, ∀ path ∈ s.paths.get m [], N.Evidence ls m path) ∧ ∀ t ∈ ts, N.TaskOk ls t
  msg ls e := N.Evidence ls e.msg.msgId e.msg.path

variable {N} {ls : History} {path : List PeerId}

theorem Broadcast.append (h : N.Broadcast ls m) (ls' : History) : N.Broadcast (ls ++ ls') m := by
  obtain ⟨i, hi, payload, hmem⟩ := h
  exact ⟨i, hi, payload, List.mem_append_left _ hmem⟩

theorem Evidence.append (h : N.Evidence ls m path) (ls' : History) :
    N.Evidence (ls ++ ls') m path :=
  h.imp_left fun h => Broadcast.append h ls'

theorem Evidence.snoc (h : N.Evidence ls m path) (x : PeerId) : N.Evidence ls m (path ++ [x]) := by
  rcases h with h | ⟨y, hy, hbyz⟩
  · exact .inl h
  · exact .inr ⟨y, List.mem_append_left _ hy, hbyz⟩

theorem TaskOk.append {t : Cont} (h : N.TaskOk ls t) (ls' : History) : N.TaskOk (ls ++ ls') t := by
  cases t with
  | broadcast => exact trivial
  | broadcasting => exact Broadcast.append h ls'
  | forwardTo => exact Evidence.append h ls'
  | forward => exact Evidence.append h ls'

/-- What a handler records and leaves to be sent has the evidence of its message. -/
theorem evidence_dolev (hnode : ∀ m, ∀ path ∈ s.paths.get m [], N.Evidence ls m path)
    (hmsg : N.Evidence ls msg.msgId (msg.path ++ [src])) :
    (∀ m, ∀ path ∈ (N.dolev i s src msg).st.paths.get m [], N.Evidence ls m path) ∧
    (∀ t ∈ (N.dolev i s src msg).rest, N.TaskOk ls t) ∧ (N.dolev i s src msg).out = [] := by
  unfold dolev
  split
  · exact ⟨hnode, by simp, rfl⟩
  · obtain ⟨hpaths, hout, hrest, -⟩ := forwardLoop_spec (N := N) i
      (s.addPath msg.msgId (msg.path ++ [src])) (N.peers i) msg (msg.path ++ [src]) ""
    dsimp only
    refine ⟨?_, ?_, hout⟩
    · intro m path hpath
      rw [hpaths] at hpath
      rcases mem_paths_addPath hpath with hold | ⟨rfl, rfl⟩
      · exact hnode m path hold
      · exact hmsg
    · intro t ht
      obtain ⟨peer, rest', rfl⟩ := hrest t ht
      exact hmsg

/-- What a broadcast sends and leaves to be sent is its own message. -/
theorem evidence_broadcastLoop (i : PeerId) (s : NaiveState) (rest : List PeerId)
    (hmsg : N.Broadcast ls msg.msgId) :
    (∀ t ∈ (N.broadcastLoop i s rest msg).rest, N.TaskOk ls t) ∧
    ∀ dm ∈ (N.broadcastLoop i s rest msg).out, N.Evidence ls dm.2.msgId dm.2.path := by
  obtain ⟨-, hout, hrest⟩ := broadcastLoop_spec (N := N) i s rest msg
  refine ⟨fun t ht => ?_, fun dm hdm => ?_⟩
  · obtain ⟨rest', rfl⟩ := hrest t ht
    exact hmsg
  · rw [hout dm hdm]
    exact .inl hmsg

theorem provenance_inductive :
    N.provenance.Inductive N.protocol N.parties N.initial fun _ _ _ => True where
  init := by
    refine ⟨fun i _ => ⟨?_, ?_⟩, by simp [initial], by simp⟩
    · intro m path hpath
      simp [initial] at hpath
    · intro t ht
      obtain ⟨b, -, rfl⟩ := List.mem_map.1 ht
      exact trivial
  node_mono _ h :=
    ⟨fun m path hpath => Evidence.append (h.1 m path hpath) _, fun t ht => (h.2 t ht).append _⟩
  msg_mono h := Evidence.append h _
  segment := by
    intro ls c l i o base _ h _ hseg
    obtain ⟨hpaths, htasks⟩ := h.node i hseg.correct
    have hpaths' : ∀ m, ∀ path ∈ (c.st i).paths.get m [], N.Evidence (ls ++ [l]) m path :=
      fun m path hpath => Evidence.append (hpaths m path hpath) _
    -- the other coroutines of the node stay as they are
    have hold : ∀ t ∈ base.tasks i, N.TaskOk (ls ++ [l]) t :=
      fun t ht => (htasks t (hseg.mem_tasks_of_mem_base ht)).append _
    have hnode {paths : Prop} {rest : Option Cont} (hp : paths)
        (hrest : ∀ t ∈ rest, N.TaskOk (ls ++ [l]) t) :
        paths ∧ ∀ t ∈ rest.toList ++ base.tasks i, N.TaskOk (ls ++ [l]) t := by
      refine ⟨hp, fun t ht => ?_⟩
      rcases List.mem_append.1 ht with ht | ht
      · exact hrest t (by simpa using ht)
      · exact hold t ht
    cases hseg with
    | @recv e hnet _ =>
      have hmsg : N.Evidence (ls ++ [.recv e]) e.msg.msgId (e.msg.path ++ [e.src]) :=
        Evidence.append (Evidence.snoc (h.msg e hnet) e.src) _
      obtain ⟨hp, hrest, hout⟩ := evidence_dolev (i := e.dst) hpaths' hmsg
      exact ⟨hnode hp hrest, by simp [protocol, hout]⟩
    | @forge e hsrc _ =>
      -- a Byzantine node is on the path as the neighbour the message comes from
      have hmsg : N.Evidence (ls ++ [.forge e]) e.msg.msgId (e.msg.path ++ [e.src]) :=
        .inr ⟨e.src, by simp, hsrc⟩
      obtain ⟨hp, hrest, hout⟩ := evidence_dolev (i := e.dst) hpaths' hmsg
      exact ⟨hnode hp hrest, by simp [protocol, hout]⟩
    | @wake i t _ hi ht ho =>
      obtain rfl := Option.some.inj ho
      have htask : N.TaskOk (ls ++ [.wake i t]) t := (htasks t ht).append _
      cases t with
      | broadcast msgId payload =>
        have hb : N.Broadcast (ls ++ [.wake i (.broadcast msgId payload)]) msgId :=
          ⟨i, hi, payload, by simp⟩
        obtain ⟨hrest, hout⟩ := evidence_broadcastLoop i (c.st i) (N.peers i)
          (show N.Broadcast _ (⟨msgId, i, payload, []⟩ : DMsg).msgId from hb)
        refine ⟨hnode ?_ hrest, hout⟩
        rw [show (N.resume i (c.st i) (.broadcast msgId payload)).st = c.st i from
          (broadcastLoop_spec _ _ _ _).1]
        exact hpaths'
      | broadcasting rest msg =>
        obtain ⟨hrest, hout⟩ := evidence_broadcastLoop i (c.st i) rest htask
        refine ⟨hnode ?_ hrest, hout⟩
        rw [show (N.resume i (c.st i) (.broadcasting rest msg)).st = c.st i from
          (broadcastLoop_spec _ _ _ _).1]
        exact hpaths'
      | forwardTo peer rest msg newPath =>
        refine ⟨hnode hpaths' ?_, ?_⟩
        · intro t ht
          obtain rfl := Option.some.inj ht
          exact htask
        · intro dm hdm
          obtain rfl := List.mem_singleton.1 hdm
          exact htask
      | forward rest msg newPath =>
        obtain ⟨hp, hout, hrest, -⟩ := forwardLoop_spec (N := N) i (c.st i) rest msg newPath ""
        refine ⟨hnode ?_ ?_, by simp [resume, hout]⟩
        · rw [show (N.resume i (c.st i) (.forward rest msg newPath)).st.paths =
            (c.st i).paths from hp]
          exact hpaths'
        · intro t ht
          obtain ⟨peer, rest', rfl⟩ := hrest t ht
          exact htask

/-- A step that processes a message begins no broadcast. -/
theorem Broadcast.of_processes {l : Action} (hl : l.processes = some msg)
    (h : N.Broadcast (ls ++ [l]) m) : N.Broadcast ls m := by
  obtain ⟨i, hi, payload, hmem⟩ := h
  rcases List.mem_append.1 hmem with hmem | hmem
  · exact ⟨i, hi, payload, hmem⟩
  · obtain rfl : .wake i (.broadcast m payload) = l := by simpa using hmem
    cases hl

/-- With at most `f` Byzantine nodes, an id that a correct node delivers when it
processes a message under the name of a correct source has been broadcast by a
correct node. -/
theorem broadcast_of_delivered (hf : N.parties.byz.card ≤ N.f)
    {c c' : Config PeerId DMsg NaiveState Cont} {l : Action}
    (hc : exec N.next N.initial ls = some c) (hl : N.next c l = some c')
    (hmsg : l.processes = some msg) (hsource : msg.source ∈ N.parties.correct)
    (hbefore : m ∉ (c.st l.node).delivered) (hafter : m ∈ (c'.st l.node).delivered) :
    N.Broadcast ls m := by
  have hholds := Assertion.holds_of_run provenance_inductive (exec_snoc hc hl)
  obtain ⟨i, o, base, hseg, rfl⟩ := step_iff.1 hl
  obtain rfl := hseg.node_eq
  rw [Config.commit_st_self] at hafter
  obtain ⟨msg', hmsg', rfl, htest⟩ := distPaths_of_delivers hseg hbefore hafter
  obtain rfl : msg' = msg := Option.some.inj (hmsg'.symm.trans hmsg)
  by_contra hnot
  -- every recorded path of the id has a Byzantine node on it, which is neither the
  -- source nor the node itself
  have hbyz : ∀ path ∈ o.st.paths.get msg'.msgId [],
      ∃ x ∈ internal l.node msg'.source path, x ∈ N.parties.byz := by
    intro path hpath
    have hnode := (hholds.node l.node hseg.correct).1 msg'.msgId path
    rw [Config.commit_st_self] at hnode
    rcases hnode hpath with hb | ⟨x, hx, hbyz⟩
    · exact absurd (Broadcast.of_processes hmsg hb) hnot
    · refine ⟨x, ?_, hbyz⟩
      have hne : ∀ y ∈ N.parties.correct, x ≠ y := by
        rintro y hy rfl
        exact Parties.not_byz hy hbyz
      simp [internal, hx, hne _ hsource, hne _ hseg.correct]
  have hcard := le_card_of_choose .nil (by simp) hbyz htest
  omega

end Network

/-- Correct nodes s, a and t, each a neighbour of the others, and a Byzantine one. -/
def triangle : Network where
  toDeployment := Deployment.ofLists ["s", "a", "t"] ["b"] Dolev.nodup_relayed
  f := 1
  neighbours i := ({"s", "a", "t", "b"} : Finset PeerId).erase i
  broadcasts i := if i = "s" then [("m", "hello")] else []

/-- The message of s, with a path. -/
def hello (path : List PeerId) : DMsg := ⟨"m", "s", "hello", path⟩

/-- s sends its message to a and t, and a hands it on. -/
def triangleRun : History :=
  [.wake "s" (.broadcast "m" "hello"), .wake "s" (.broadcasting ["t", "b"] (hello [])),
    .recv ⟨"s", "t", hello []⟩, .recv ⟨"s", "a", hello []⟩,
    .wake "a" (.forwardTo "t" ["b"] (hello []) ["s"]), .recv ⟨"a", "t", hello ["s"]⟩,
    .wake "t" (.forwardTo "b" [] (hello ["s"]) ["s", "a"])]

/-- t, which has sent the message on to b, tests the two paths, the one from s itself
and the one over a. -/
def triangleDelivery : Action := .wake "t" (.forward [] (hello ["s"]) ["s", "a"])

theorem Network.broadcast_of_delivered_triangle :
    (∃ c c', exec triangle.next triangle.initial triangleRun = some c ∧
      triangle.next c triangleDelivery = some c' ∧ "m" ∉ (c.st "t").delivered ∧
      "m" ∈ (c'.st "t").delivered) ∧
    triangle.Broadcast triangleRun "m" := by
  obtain ⟨c, hc, htest⟩ : ∃ c, exec triangle.next triangle.initial triangleRun = some c ∧
      (decide ("m" ∉ (c.st "t").delivered) &&
        (triangle.next c triangleDelivery).any fun c' => decide ("m" ∈ (c'.st "t").delivered)) =
          true :=
    exists_exec_of_any _ _ _ _ (by decide)
  rw [Bool.and_eq_true, decide_eq_true_eq, Option.any_eq_true] at htest
  obtain ⟨hbefore, c', hstep, hafter⟩ := htest
  refine ⟨⟨c, c', hc, hstep, hbefore, of_decide_eq_true hafter⟩, ?_⟩
  have hmsg : triangleDelivery.processes = some (hello ["s"]) := rfl
  exact broadcast_of_delivered (by decide) hc hstep hmsg (by decide) hbefore
    (of_decide_eq_true hafter)

end DistBench.DolevNaive
