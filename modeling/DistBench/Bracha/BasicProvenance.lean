import DistBench.Bracha.Basic

/-!
# Where the votes come from

A node's `echos[msg_id]` and `readys[msg_id]` are exactly the sources of the
ECHOs and READYs for `msg_id` it has handled (`counted_of_run`), and every vote
of a correct node is traced back through the run to the step that made the node
take it on:

- an ECHO to the first SEND the node handled, or to its own `on_start`
  (`EchoReason`, `Echoed`);
- a READY, and every delivery, to a quorum of ECHOs (`QuorumEchoed`).

READYs amplify READYs, so the second is an induction over the run; `backed` is
the assertion that carries it. It is stated for a relation `R` between the
payload a vote carries and the payloads of the votes it rests on, and for runs
in which every threshold is tipped by votes that are so related
(`TipsBacked R`). The code keys its sets by `msg_id` alone: with the relation
that holds of all payloads the condition is met by every run, and the result is
`delivered_quorum_backed`.
-/

namespace DistBench.Bracha.Basic

open DistBench.Async

variable (S : System)

/-! ## Votes -/

/-- The sources of the `method` messages for `m`, with a payload accepted by
`ok`, that node `i` has handled. -/
def backers (ls : History) (i : PeerId) (method : Method) (m : String) (ok : String → Prop)
    [DecidablePred ok] : Finset PeerId :=
  (((envelopes ls).filter fun e => e.dst = i ∧ e.msg.method = method ∧ e.msg.msg.msgId = m ∧
    ok e.msg.msg.payload).map Envelope.src).toFinset

variable {S} {ls : History} {i j : PeerId} {method : Method} {m p : String}
  {ok : String → Prop} [DecidablePred ok] {l : Label PeerId Packet Task}
  {c base : Config PeerId Packet NodeState Task} {o : Seg}

theorem mem_backers : j ∈ backers ls i method m ok ↔ ∃ msg : BrachaMessage, msg.msgId = m ∧
    ok msg.payload ∧ Handled ls i j ⟨method, msg⟩ := by
  simp only [backers, List.mem_toFinset, List.mem_map, List.mem_filter, decide_eq_true_eq,
    mem_envelopes]
  constructor
  · rintro ⟨⟨src, dst, method', msg⟩, ⟨h, rfl, rfl, rfl, hok⟩, rfl⟩
    exact ⟨msg, rfl, hok, h⟩
  · rintro ⟨msg, hm, hok, h⟩
    exact ⟨⟨j, i, method, msg⟩, ⟨h, rfl, rfl, hm, hok⟩, rfl⟩

theorem backers_append (ls' : History) :
    backers (ls ++ ls') i method m ok =
      backers ls i method m ok ∪ backers ls' i method m ok := by
  simp [backers, envelopes]

/-- The vote an event adds to a node's sets. -/
def Event.voters (ev : Event) (method : Method) (m : String) : Finset PeerId :=
  match ev with
  | .handle src p => if p.method = method ∧ p.msg.msgId = m then {src} else ∅
  | .resume _ => ∅

theorem backers_singleton (hl : l.node = i) :
    backers [l] i method m (fun _ => True) = (event l).voters method m := by
  cases l with
  | wake i' t => simp [backers, envelopes, Label.envelope, event, Event.voters]
  | recv e | forge e =>
    obtain rfl : e.dst = i := hl
    by_cases hmethod : e.msg.method = method <;> by_cases hm : e.msg.msg.msgId = m <;>
      simp [backers, envelopes, Label.envelope, event, Event.voters, hmethod, hm]

theorem Deliver.slot {v v' : View} {msg : BrachaMessage} (h : Deliver S v msg v') (k : String) :
    (v'.slot k).echos = (v.slot k).echos ∧ (v'.slot k).readys = (v.slot k).readys := by
  cases h with
  | no _ => exact ⟨rfl, rfl⟩
  | yes _ _ =>
    constructor
    · exact View.map_set_slot Slot.echos (by rfl) k
    · exact View.map_set_slot Slot.readys (by rfl) k

/-- What a move does to the sets of votes. -/
theorem Move.votes {v v' : View} {ev : Event} {out : List (PeerId × Packet)} {rest : Option Task}
    (h : Move S i v ev v' out rest) (k : String) :
    (v'.slot k).echos = (v.slot k).echos ∪ ev.voters .echo k ∧
      (v'.slot k).readys = (v.slot k).readys ∪ ev.voters .ready k := by
  cases h with
  | sendSeen _ => simp [Event.voters]
  | @sendNew _ msg _ | @sendDone _ msg _ =>
    by_cases hk : k = msg.msgId
    · subst hk
      simp [Event.voters]
    · simp [Event.voters, View.set_slot_of_ne hk]
  | @echoTip src msg _ _ | @echoCount src msg _ | @readyTip src msg _ _ =>
    by_cases hk : k = msg.msgId
    · subst hk
      simp [Event.voters, Finset.union_comm]
    · simp [Event.voters, View.set_slot_of_ne hk, Ne.symm hk]
  | @readyCount src msg _ _ hdel =>
    rw [(hdel.slot k).1, (hdel.slot k).2]
    by_cases hk : k = msg.msgId
    · subst hk
      simp [Event.voters, Finset.union_comm]
    · simp [Event.voters, View.set_slot_of_ne hk, Ne.symm hk]
  | start _ | idle _ | serve | returns _ => simp [Event.voters]
  | readyDone hdel =>
    rw [(hdel.slot k).1, (hdel.slot k).2]
    simp [Event.voters]

/-- A node's sets hold the sources of the votes it has handled. -/
def counted : Assertion PeerId Packet NodeState Task where
  node ls i s _ := ∀ m,
    (s.view.slot m).echos = backers ls i .echo m (fun _ => True) ∧
      (s.view.slot m).readys = backers ls i .ready m (fun _ => True)
  msg _ _ := True

theorem backers_append_of_ne (hl : l.node ≠ i) :
    backers (ls ++ [l]) i method m ok = backers ls i method m ok := by
  rw [backers_append, Finset.union_eq_left]
  intro j hj
  obtain ⟨msg, -, -, h | h⟩ := mem_backers.mp hj
  all_goals
    rw [List.mem_singleton] at h
    subst h
    exact absurd rfl hl

theorem counted_inductive :
    counted.Inductive (protocol S) S.parties initial fun _ _ _ => True where
  init := by
    refine ⟨fun i _ m => ?_, fun _ _ => trivial, fun _ _ => trivial⟩
    simp [initial, NodeState.view, backers, envelopes]
  node_mono hl h m := by
    rw [backers_append_of_ne hl, backers_append_of_ne hl]
    exact h m
  msg_mono _ := trivial
  segment := by
    intro ls c l i o base hc hA _ hseg
    refine ⟨fun m => ?_, fun _ _ => trivial⟩
    obtain ⟨hechos, hreadys⟩ := (move_of_segment hc hseg).votes m
    obtain ⟨ihe, ihr⟩ := hA.node i hseg.correct m
    rw [backers_append, backers_append, backers_singleton hseg.node_eq,
      backers_singleton hseg.node_eq]
    exact ⟨hechos.trans (congrArg (· ∪ _) ihe), hreadys.trans (congrArg (· ∪ _) ihr)⟩

/-- In every run a correct node's sets are the votes it has handled. -/
theorem counted_of_run (hc : exec (next S) initial ls = some c) (hi : i ∈ S.parties.correct)
    (m : String) : ((c.st i).view.slot m).echos = backers ls i .echo m (fun _ => True) ∧
      ((c.st i).view.slot m).readys = backers ls i .ready m (fun _ => True) :=
  (Assertion.holds_of_run counted_inductive hc).node i hi m

theorem Deliver.seen_eq {v v' : View} {msg : BrachaMessage} (h : Deliver S v msg v') :
    v'.seen = v.seen := by
  cases h <;> rfl

theorem Move.seen_subset {v v' : View} {ev : Event} {out : List (PeerId × Packet)}
    {rest : Option Task} (h : Move S i v ev v' out rest) : v.seen ⊆ v'.seen := by
  cases h with
  | sendNew _ | sendDone => exact Finset.subset_insert _ _
  | readyCount _ hdel | readyDone hdel => exact hdel.seen_eq.symm.subset
  | _ => exact subset_rfl

theorem Move.mem_seen_of_send {v v' : View} {src : PeerId} {msg : BrachaMessage}
    {out : List (PeerId × Packet)} {rest : Option Task}
    (h : Move S i v (.handle src ⟨.send, msg⟩) v' out rest) : msg.msgId ∈ v'.seen := by
  cases h with
  | sendSeen h => exact h
  | sendNew _ => exact Finset.mem_insert_self _ _

/-- A node has seen the messages it has handled SENDs for. -/
def sendsSeen : Assertion PeerId Packet NodeState Task where
  node ls i s _ := ∀ src msg, Handled ls i src ⟨.send, msg⟩ → msg.msgId ∈ s.view.seen
  msg _ _ := True

theorem handled_of_event {src : PeerId} {pkt : Packet} (hl : l ∈ ls)
    (hev : event l = .handle src pkt) (hnode : l.node = j) : Handled ls j src pkt := by
  subst hnode
  cases l with
  | recv e =>
    obtain ⟨src', dst, pkt'⟩ := e
    cases hev
    exact .inl hl
  | forge e =>
    obtain ⟨src', dst, pkt'⟩ := e
    cases hev
    exact .inr hl
  | wake _ _ => cases hev

theorem event_of_handled {src : PeerId} {pkt : Packet} (h : Handled [l] i src pkt) :
    l.node = i ∧ event l = .handle src pkt := by
  rcases h with h | h
  all_goals
    rw [List.mem_singleton] at h
    subst h
    exact ⟨rfl, rfl⟩

theorem sendsSeen_inductive :
    sendsSeen.Inductive (protocol S) S.parties initial fun _ _ _ => True where
  init := by
    refine ⟨fun i _ src msg h => ?_, fun _ _ => trivial, fun _ _ => trivial⟩
    simp [Handled] at h
  node_mono hl h src msg hh := by
    rcases hh.of_append with hh | hh
    · exact h src msg hh
    · exact absurd (event_of_handled hh).1 hl
  msg_mono _ := trivial
  segment := by
    intro ls c l i o base hc hA _ hseg
    have hmove := move_of_segment hc hseg
    refine ⟨fun src msg hh => ?_, fun _ _ => trivial⟩
    rcases hh.of_append with hh | hh
    · exact hmove.seen_subset (hA.node i hseg.correct src msg hh)
    · rw [(event_of_handled hh).2] at hmove
      exact hmove.mem_seen_of_send

theorem seen_of_handled (hc : exec (next S) initial ls = some c) (hi : i ∈ S.parties.correct)
    {src : PeerId} {msg : BrachaMessage} (h : Handled ls i src ⟨.send, msg⟩) :
    msg.msgId ∈ (c.st i).vars.seenMessages :=
  (Assertion.holds_of_run sendsSeen_inductive hc).node i hi src msg h

/-- A coroutine resumed by a label was suspended at the node. -/
theorem mem_tasks_of_event (hseg : Segment (protocol S) S.parties c l i o base) {t : Task}
    (hev : event l = .resume t) : t ∈ c.tasks i ∧ l = .wake i t := by
  cases hseg with
  | recv _ _ => cases hev
  | forge _ _ => cases hev
  | wake _ ht _ =>
    cases hev
    exact ⟨ht, rfl⟩

/-- A message is handed to the transport by a broadcast loop alone. -/
theorem Move.out_eq {v v' : View} {ev : Event} {out : List (PeerId × Packet)}
    {rest : Option Task} (h : Move S i v ev v' out rest) {dp : PeerId × Packet}
    (hdp : dp ∈ out) :
    ∃ ps k, ev = .resume (.bracha dp.2.method dp.2.msg (dp.1 :: ps) k) := by
  cases h with
  | @serve method msg p ps k =>
    obtain rfl : dp = (p, ⟨method, msg⟩) := by simpa using hdp
    exact ⟨ps, k, rfl⟩
  | _ => simp at hdp

/-! ## The coroutines there are -/

/-- What a suspended coroutine of node `i` can be broadcasting, and what it does
then. -/
def Task.Shaped (S : System) (i : PeerId) : Task → Prop
  | .onStart => True
  | .bracha .send msg ps k => ps ⊆ S.peers i ∧ msg = initialSend S i ∧ k = .sendDone msg
  | .bracha .echo msg ps k =>
    ps ⊆ S.peers i ∧ (k = .handled ∨ k = .echoDone ∧ msg.msgId = S.uuid i)
  | .bracha .ready msg ps k => ps ⊆ S.peers i ∧ (k = .handled ∨ k = .readyDone msg)

/-- Coroutines have their shape, and messages go to other nodes. -/
def shaped (S : System) : Assertion PeerId Packet NodeState Task where
  node _ i _ ts := ∀ t ∈ ts, t.Shaped S i
  msg _ e := e.src ∈ S.parties.correct → e.dst ≠ e.src

theorem Task.Shaped.peers {msg : BrachaMessage} {ps : List PeerId} {k : Cont}
    (h : (Task.bracha method msg ps k).Shaped S i) : ps ⊆ S.peers i := by
  cases method with
  | send => exact h.1
  | echo => exact h.1
  | ready => exact h.1

theorem Move.rest_shaped {v v' : View} {ev : Event} {out : List (PeerId × Packet)}
    {rest : Option Task} (h : Move S i v ev v' out rest)
    (hev : ∀ t, ev = .resume t → t.Shaped S i) {t : Task} (ht : t ∈ rest) : t.Shaped S i := by
  cases h with
  | sendSeen _ | echoCount _ | idle _ | returns _ => cases ht
  | readyCount _ _ | readyDone _ => cases ht
  | sendNew _ | echoTip _ _ =>
    cases ht
    exact ⟨List.Subset.refl _, .inl rfl⟩
  | readyTip _ _ =>
    cases ht
    exact ⟨List.Subset.refl _, .inr rfl⟩
  | start _ =>
    cases ht
    exact ⟨List.Subset.refl _, rfl, rfl⟩
  | @serve method msg p ps k =>
    cases ht
    have hold := hev _ rfl
    have hps : ps ⊆ p :: ps := List.subset_cons_self p ps
    cases method with
    | send => exact ⟨fun q hq => hold.1 (hps hq), hold.2⟩
    | echo => exact ⟨fun q hq => hold.1 (hps hq), hold.2⟩
    | ready => exact ⟨fun q hq => hold.1 (hps hq), hold.2⟩
  | @sendDone method msg msg' =>
    cases ht
    have hold := hev _ rfl
    cases method with
    | send =>
      obtain ⟨-, rfl, hk⟩ := hold
      cases hk
      exact ⟨List.Subset.refl _, .inr ⟨rfl, rfl⟩⟩
    | echo => obtain ⟨-, hk | ⟨hk, -⟩⟩ := hold <;> cases hk
    | ready => obtain ⟨-, hk | hk⟩ := hold <;> cases hk

theorem shaped_inductive :
    (shaped S).Inductive (protocol S) S.parties initial fun _ _ _ => True where
  init := by
    refine ⟨fun i _ t ht => ?_, fun e he => ?_, fun e he => ?_⟩
    · obtain rfl : t = .onStart := by simpa [initial] using ht
      trivial
    · simp [initial] at he
    · simp at he
  node_mono _ h := h
  msg_mono h := h
  segment := by
    intro ls c l i o base hc hA _ hseg
    have hmove := move_of_segment hc hseg
    have htasks := hA.node i hseg.correct
    refine ⟨fun t ht => ?_, fun dp hdp _ => ?_⟩
    · rcases hseg.mem_rest_or_tasks ht with hrest | hold
      · exact hmove.rest_shaped (fun t hev => htasks t (mem_tasks_of_event hseg hev).1) hrest
      · exact htasks t hold
    · obtain ⟨ps, k, hev⟩ := hmove.out_eq hdp
      have hp := (htasks _ (mem_tasks_of_event hseg hev).1).peers List.mem_cons_self
      exact ((S.mem_peers i (S.mem_nodes_of_correct hseg.correct) dp.1).mp hp).2

theorem shaped_of_run (hc : exec (next S) initial ls = some c) (hi : i ∈ S.parties.correct)
    {t : Task} (ht : t ∈ c.tasks i) : t.Shaped S i :=
  (Assertion.holds_of_run shaped_inductive hc).node i hi t ht

/-- No correct node counts a vote of its own. -/
theorem not_mem_backers_self (hc : exec (next S) initial ls = some c)
    (hi : i ∈ S.parties.correct) : i ∉ backers ls i method m ok := by
  intro h
  obtain ⟨msg, -, -, hh⟩ := mem_backers.mp h
  exact (Assertion.holds_of_run shaped_inductive hc).received _ (hh.received hc hi) hi rfl

/-! ## What a vote rests on -/

/-- Why a node takes on an ECHO for `m` with payload `p`. -/
inductive EchoReason (S : System) (j : PeerId) (m p : String) :
    Config PeerId Packet NodeState Task → Label PeerId Packet Task → Prop
  /-- It handles a SEND for a message it has not seen. -/
  | firstSend {c : Config PeerId Packet NodeState Task} {l : Label PeerId Packet Task}
      {src : PeerId} {msg : BrachaMessage} (hnode : l.node = j)
      (hev : event l = .handle src ⟨.send, msg⟩)
      (hm : msg.msgId = m) (hp : msg.payload = p) (hnew : m ∉ (c.st j).vars.seenMessages) :
      EchoReason S j m p c l
  /-- It originates the message in `on_start`. -/
  | originated {c : Config PeerId Packet NodeState Task} (hsender : S.isSender j = true)
      (hm : m = S.uuid j) (hp : p = hello j) :
      EchoReason S j m p c (.wake j .onStart)

/-- Node `j` had a reason to take on an ECHO for `m` with payload `p`, and later
handed such an ECHO to the transport. -/
def Echoed (S : System) (ls : History) (j : PeerId) (m p : String) : Prop :=
  ∃ d msg, msg.msgId = m ∧ msg.payload = p ∧
    OccursThen (next S) initial ls (EchoReason S j m p)
      (Sends (protocol S) S.parties j d ⟨.echo, msg⟩)

/-- There is a quorum, not of all nodes, whose correct members have all
broadcast an ECHO for `m` with a payload accepted by `ok`. -/
def QuorumEchoed (S : System) (ls : History) (m : String) (ok : String → Prop) : Prop :=
  ∃ Q ⊂ S.parties.nodes, readyThreshold S.parties.nodes.card S.f ≤ Q.card ∧
    ∀ j ∈ Q, j ∈ S.parties.correct → ∃ p, ok p ∧ Echoed S ls j m p

/-- The votes that tip a threshold carry payloads related to the payload of the
message at hand: as many ECHOs as `echo` asks for, and for `ready`, whether it
amplifies or delivers, as many READYs as include a correct node's. -/
def TipsBacked (S : System) (R : String → String → Prop) [DecidableRel R] (ls : History)
    (c : Config PeerId Packet NodeState Task) (l : Label PeerId Packet Task) : Prop :=
  match event l with
  | .handle src ⟨.echo, msg⟩ =>
    let x := (c.st l.node).vars.slot msg.msgId
    x.sentReady = false →
      readyThreshold (S.N l.node) S.f ≤ (insert src x.echos).card →
      readyThreshold (S.N l.node) S.f ≤
        (backers (ls ++ [l]) l.node .echo msg.msgId (R msg.payload)).card
  | .handle src ⟨.ready, msg⟩ =>
    let x := (c.st l.node).vars.slot msg.msgId
    (x.sentReady = false ∧ S.f + 1 ≤ (insert src x.readys).card) ∨
      (x.delivered = false ∧ deliverThreshold S.f ≤ (insert src x.readys).card) →
      S.f + 1 ≤ (backers (ls ++ [l]) l.node .ready msg.msgId (R msg.payload)).card
  | _ => True

/-- What a suspended coroutine may still send rests on what has happened. -/
def Task.Backed (S : System) (R : String → String → Prop) (ls : History) (i : PeerId) :
    Task → Prop
  | .onStart => True
  | .bracha .ready msg _ _ => QuorumEchoed S ls msg.msgId (R msg.payload)
  | .bracha _ msg _ _ => Occurs (next S) initial ls (EchoReason S i msg.msgId msg.payload)

/-- A message in flight rests on what has happened. -/
def Backed (S : System) (R : String → String → Prop) (ls : History)
    (e : Envelope PeerId Packet) : Prop :=
  match e.msg with
  | ⟨.send, _⟩ => True
  | ⟨.echo, msg⟩ => Echoed S ls e.src msg.msgId msg.payload
  | ⟨.ready, msg⟩ => QuorumEchoed S ls msg.msgId (R msg.payload)

/-- Every vote and every delivery of a correct node is backed. -/
def backed (S : System) (R : String → String → Prop) :
    Assertion PeerId Packet NodeState Task where
  node ls i s ts :=
    (∀ m, (s.view.slot m).delivered = true → ∃ p, (m, p) ∈ s.deliveries) ∧
    (∀ m p, (m, p) ∈ s.deliveries → QuorumEchoed S ls m (R p)) ∧
    ∀ t ∈ ts, t.Backed S R ls i
  msg ls e := Backed S R ls e

variable {R : String → String → Prop} {ls' : History}

theorem Echoed.append (h : Echoed S ls j m p) : Echoed S (ls ++ ls') j m p := by
  obtain ⟨d, msg, hm, hp, hocc⟩ := h
  exact ⟨d, msg, hm, hp, hocc.append⟩

theorem QuorumEchoed.append {ok : String → Prop} (h : QuorumEchoed S ls m ok) :
    QuorumEchoed S (ls ++ ls') m ok := by
  obtain ⟨Q, hQ, hcard, hechoed⟩ := h
  refine ⟨Q, hQ, hcard, fun j hj hcorr => ?_⟩
  obtain ⟨p, hp, he⟩ := hechoed j hj hcorr
  exact ⟨p, hp, he.append⟩

theorem QuorumEchoed.mono {ok ok' : String → Prop} (hok : ∀ p, ok p → ok' p)
    (h : QuorumEchoed S ls m ok) : QuorumEchoed S ls m ok' := by
  obtain ⟨Q, hQ, hcard, hechoed⟩ := h
  refine ⟨Q, hQ, hcard, fun j hj hcorr => ?_⟩
  obtain ⟨p, hp, he⟩ := hechoed j hj hcorr
  exact ⟨p, hok p hp, he⟩

theorem Task.Backed.append {t : Task} (h : t.Backed S R ls i) : t.Backed S R (ls ++ ls') i := by
  cases t with
  | onStart => trivial
  | bracha method msg ps k =>
    cases method with
    | send => exact Occurs.append h
    | echo => exact Occurs.append h
    | ready => exact QuorumEchoed.append h

theorem Backed.append {e : Envelope PeerId Packet} (h : Backed S R ls e) :
    Backed S R (ls ++ ls') e := by
  obtain ⟨src, dst, method, msg⟩ := e
  cases method with
  | send => trivial
  | echo => exact Echoed.append h
  | ready => exact QuorumEchoed.append h

/-- A threshold of related ECHOs is a quorum of them. -/
theorem quorumEchoed_of_echos (hA : (backed S R).Holds S.parties ls c)
    (hc : exec (next S) initial ls = some c)
    (hseg : Segment (protocol S) S.parties c l i o base)
    (hcard : readyThreshold (S.N i) S.f ≤ (backers (ls ++ [l]) i .echo m ok).card) :
    QuorumEchoed S (ls ++ [l]) m ok := by
  have hnext : exec (next S) initial (ls ++ [l]) = some (base.commit i o) :=
    exec_snoc hc (step_iff.mpr ⟨i, o, base, hseg, rfl⟩)
  have hsub : backers (ls ++ [l]) i .echo m ok ⊆ S.parties.nodes := by
    intro j hj
    obtain ⟨msg, -, -, hh⟩ := mem_backers.mp hj
    exact hh.src_mem_nodes hnext rfl
  refine ⟨backers (ls ++ [l]) i .echo m ok, ?_, ?_, fun j hj hcorr => ?_⟩
  · exact (Finset.ssubset_iff_of_subset hsub).mpr
      ⟨i, S.mem_nodes_of_correct hseg.correct, not_mem_backers_self hnext hseg.correct⟩
  · rwa [S.N_eq (S.mem_nodes_of_correct hseg.correct)] at hcard
  · obtain ⟨msg, rfl, hok, hh⟩ := mem_backers.mp hj
    exact ⟨msg.payload, hok, Echoed.append (hA.msg_of_handled hc hseg hh hcorr)⟩

/-- `f + 1` related READYs include a correct node's, which rests on a quorum of
ECHOs. -/
theorem quorumEchoed_of_readys [DecidableRel R] (htrans : ∀ p q r, R p q → R q r → R p r)
    (hf : S.parties.byz.card ≤ S.f) (hA : (backed S R).Holds S.parties ls c)
    (hc : exec (next S) initial ls = some c)
    (hseg : Segment (protocol S) S.parties c l i o base)
    (hcard : S.f + 1 ≤ (backers (ls ++ [l]) i .ready m (R p)).card) :
    QuorumEchoed S (ls ++ [l]) m (R p) := by
  have hnext : exec (next S) initial (ls ++ [l]) = some (base.commit i o) :=
    exec_snoc hc (step_iff.mpr ⟨i, o, base, hseg, rfl⟩)
  have hsub : backers (ls ++ [l]) i .ready m (R p) ⊆ S.parties.nodes := by
    intro j hj
    obtain ⟨msg, -, -, hh⟩ := mem_backers.mp hj
    exact hh.src_mem_nodes hnext rfl
  obtain ⟨j, hj, hcorr⟩ := Parties.exists_correct_mem hsub hf hcard
  obtain ⟨msg, rfl, hR, hh⟩ := mem_backers.mp hj
  have hq : QuorumEchoed S ls msg.msgId (R msg.payload) := hA.msg_of_handled hc hseg hh hcorr
  exact (hq.mono fun q hq => htrans _ _ _ hR hq).append

/-! ## The assertion is inductive -/

/-- What a node marks delivered is in its log. -/
def View.Logged (v : View) : Prop :=
  ∀ m, (v.slot m).delivered = true → ∃ p, (m, p) ∈ v.deliveries

theorem View.Logged.set {v : View} {k : String} {x : Slot} (h : v.Logged)
    (hx : x.delivered = (v.slot k).delivered) : (v.set k x).Logged := by
  intro m hm
  rw [View.map_set_slot Slot.delivered hx] at hm
  exact h m hm

theorem Deliver.logged {v v' : View} {msg : BrachaMessage} (h : Deliver S v msg v')
    (hv : v.Logged) : v'.Logged := by
  cases h with
  | no _ => exact hv
  | yes _ _ =>
    intro m hm
    by_cases hk : m = msg.msgId
    · exact ⟨msg.payload, by simp [hk]⟩
    · have hm' : (v.slot m).delivered = true := by
        simpa [View.set_slot_of_ne hk] using hm
      obtain ⟨p, hp⟩ := hv m hm'
      exact ⟨p, List.mem_append_left _ hp⟩

theorem Move.logged {v v' : View} {ev : Event} {out : List (PeerId × Packet)}
    {rest : Option Task} (h : Move S i v ev v' out rest) (hv : v.Logged) : v'.Logged := by
  cases h with
  | sendSeen _ | start _ | idle _ | serve | returns _ => exact hv
  | sendNew _ | sendDone => exact hv.set rfl
  | echoTip _ _ | echoCount _ | readyTip _ _ => exact hv.set rfl
  | readyCount _ hdel => exact hdel.logged (hv.set rfl)
  | readyDone hdel => exact hdel.logged hv

theorem Deliver.mem_deliveries {v v' : View} {msg : BrachaMessage} (h : Deliver S v msg v')
    (hp : (m, p) ∈ v'.deliveries) : (m, p) ∈ v.deliveries ∨ m = msg.msgId ∧ p = msg.payload ∧
      (v.slot m).delivered = false ∧ deliverThreshold S.f ≤ (v.slot m).readys.card := by
  cases h with
  | no _ => exact .inl hp
  | yes hnew hcard =>
    rcases List.mem_append.mp hp with hold | hlast
    · exact .inl hold
    · obtain ⟨rfl, rfl⟩ : m = msg.msgId ∧ p = msg.payload := by simpa using hlast
      exact .inr ⟨rfl, rfl, hnew, hcard⟩

/-- A payload enters the log in the delivery test that ends `ready`, either at
once or when the node's own READYs have been sent. -/
theorem Move.mem_deliveries {v v' : View} {ev : Event} {out : List (PeerId × Packet)}
    {rest : Option Task} (h : Move S i v ev v' out rest) (hp : (m, p) ∈ v'.deliveries) :
    (m, p) ∈ v.deliveries ∨
    (∃ src msg, ev = .handle src ⟨.ready, msg⟩ ∧ msg.msgId = m ∧ msg.payload = p ∧
      (v.slot m).delivered = false ∧
      deliverThreshold S.f ≤ (insert src (v.slot m).readys).card) ∨
    ∃ method msg' msg, ev = .resume (.bracha method msg' [] (.readyDone msg)) ∧
      msg.msgId = m ∧ msg.payload = p := by
  cases h with
  | sendSeen _ | start _ | idle _ | serve | returns _ | sendNew _ | sendDone | echoTip _ _
  | echoCount _ | readyTip _ _ => exact .inl hp
  | @readyCount src msg _ _ hdel =>
    rcases hdel.mem_deliveries hp with hold | ⟨rfl, rfl, hnew, hcard⟩
    · exact .inl hold
    · rw [View.set_slot_self] at hnew hcard
      exact .inr (.inl ⟨src, msg, rfl, rfl, rfl, hnew, hcard⟩)
  | @readyDone method msg msg' _ hdel =>
    rcases hdel.mem_deliveries hp with hold | ⟨rfl, rfl, -, -⟩
    · exact .inl hold
    · exact .inr (.inr ⟨method, msg', msg, rfl, rfl, rfl⟩)

/-- What the events of a segment establish, so that the votes it takes on are
backed. -/
structure Grounded (S : System) (R : String → String → Prop) (ls : History) (i : PeerId)
    (v : View) (ev : Event) : Prop where
  task : ∀ t, ev = .resume t → t.Shaped S i ∧ t.Backed S R ls i
  start : ev = .resume .onStart → S.isSender i = true →
    Occurs (next S) initial ls (EchoReason S i (S.uuid i) (hello i))
  send : ∀ src msg, ev = .handle src ⟨.send, msg⟩ → msg.msgId ∉ v.seen →
    Occurs (next S) initial ls (EchoReason S i msg.msgId msg.payload)
  echo : ∀ src msg, ev = .handle src ⟨.echo, msg⟩ → (v.slot msg.msgId).sentReady = false →
    readyThreshold (S.N i) S.f ≤ (insert src (v.slot msg.msgId).echos).card →
    QuorumEchoed S ls msg.msgId (R msg.payload)
  ready : ∀ src msg, ev = .handle src ⟨.ready, msg⟩ →
    (v.slot msg.msgId).sentReady = false ∧
        S.f + 1 ≤ (insert src (v.slot msg.msgId).readys).card ∨
      (v.slot msg.msgId).delivered = false ∧
        deliverThreshold S.f ≤ (insert src (v.slot msg.msgId).readys).card →
    QuorumEchoed S ls msg.msgId (R msg.payload)

/-- The coroutine a grounded segment leaves behind is backed. -/
theorem Move.rest_backed {v v' : View} {ev : Event} {out : List (PeerId × Packet)}
    {rest : Option Task} (h : Move S i v ev v' out rest) (hg : Grounded S R ls i v ev)
    {t : Task} (ht : t ∈ rest) : t.Backed S R ls i := by
  cases h with
  | sendSeen _ | echoCount _ | idle _ | returns _ => cases ht
  | readyCount _ _ | readyDone _ => cases ht
  | @sendNew src msg hnew =>
    cases ht
    exact hg.send src msg rfl hnew
  | @echoTip src msg hnew hcard =>
    cases ht
    exact hg.echo src msg rfl hnew hcard
  | @readyTip src msg hnew hcard =>
    cases ht
    exact hg.ready src msg rfl (.inl ⟨hnew, hcard⟩)
  | start hsender =>
    cases ht
    exact hg.start rfl hsender
  | @serve method msg p ps k =>
    cases ht
    have hold := (hg.task _ rfl).2
    cases method with
    | send => exact hold
    | echo => exact hold
    | ready => exact hold
  | @sendDone method msg msg' =>
    cases ht
    obtain ⟨hshape, hold⟩ := hg.task _ rfl
    cases method with
    | send =>
      obtain ⟨-, -, hk⟩ := hshape
      obtain rfl : msg = msg' := Cont.sendDone.inj hk
      exact hold
    | echo => obtain ⟨-, hk | ⟨hk, -⟩⟩ := hshape <;> cases hk
    | ready => obtain ⟨-, hk | hk⟩ := hshape <;> cases hk

/-- What a grounded segment delivers is backed. -/
theorem Move.deliveries_backed {v v' : View} {ev : Event} {out : List (PeerId × Packet)}
    {rest : Option Task} (h : Move S i v ev v' out rest) (hg : Grounded S R ls i v ev)
    (hv : ∀ m p, (m, p) ∈ v.deliveries → QuorumEchoed S ls m (R p)) :
    ∀ m p, (m, p) ∈ v'.deliveries → QuorumEchoed S ls m (R p) := by
  intro m p hp
  rcases h.mem_deliveries hp with hold | ⟨src, msg, rfl, rfl, rfl, hnew, hcard⟩ |
    ⟨method, msg', msg, rfl, rfl, rfl⟩
  · exact hv m p hold
  · exact hg.ready src msg rfl (.inr ⟨hnew, hcard⟩)
  · obtain ⟨hshape, hq⟩ := hg.task _ rfl
    cases method with
    | send => cases hshape.2.2
    | echo => obtain ⟨-, hk | ⟨hk, -⟩⟩ := hshape <;> cases hk
    | ready =>
      obtain ⟨-, hk | hk⟩ := hshape <;> cases hk
      exact hq

/-- Under the assertion and its condition on the thresholds, every segment is
grounded. -/
theorem grounded_of_segment [DecidableRel R] (htrans : ∀ p q r, R p q → R q r → R p r)
    (hf : S.parties.byz.card ≤ S.f) (hA : (backed S R).Holds S.parties ls c)
    (hc : exec (next S) initial ls = some c) (hcond : TipsBacked S R ls c l)
    (hseg : Segment (protocol S) S.parties c l i o base) :
    Grounded S R (ls ++ [l]) i (c.st i).view (event l) where
  task t hev := by
    obtain ⟨ht, -⟩ := mem_tasks_of_event hseg hev
    exact ⟨shaped_of_run hc hseg.correct ht, ((hA.node i hseg.correct).2.2 t ht).append⟩
  start hev hsender := by
    obtain ⟨-, rfl⟩ := mem_tasks_of_event hseg hev
    exact occurs_last hc (.originated hsender rfl rfl)
  send src msg hev hnew := occurs_last hc (.firstSend hseg.node_eq hev rfl rfl hnew)
  echo src msg hev hnew hcard := by
    unfold TipsBacked at hcond
    rw [hev, hseg.node_eq] at hcond
    exact quorumEchoed_of_echos hA hc hseg (hcond hnew hcard)
  ready src msg hev htip := by
    unfold TipsBacked at hcond
    rw [hev, hseg.node_eq] at hcond
    exact quorumEchoed_of_readys htrans hf hA hc hseg (hcond htip)

theorem backed_inductive [DecidableRel R] (htrans : ∀ p q r, R p q → R q r → R p r)
    (hf : S.parties.byz.card ≤ S.f) :
    (backed S R).Inductive (protocol S) S.parties initial (TipsBacked S R) where
  init := by
    refine ⟨fun i _ => ⟨fun m hm => ?_, fun m p hp => ?_, fun t ht => ?_⟩, fun e he => ?_,
      fun e he => ?_⟩
    · simp [initial, NodeState.view] at hm
    · simp [initial] at hp
    · obtain rfl : t = .onStart := by simpa [initial] using ht
      trivial
    · simp [initial] at he
    · simp at he
  node_mono _ h :=
    ⟨h.1, fun m p hp => (h.2.1 m p hp).append, fun t ht => (h.2.2 t ht).append⟩
  msg_mono h := h.append
  segment := by
    intro ls c l i o base hc hA hcond hseg
    have hmove := move_of_segment hc hseg
    have hg := grounded_of_segment htrans hf hA hc hcond hseg
    obtain ⟨hlog, hdel, htasks⟩ := hA.node i hseg.correct
    refine ⟨⟨hmove.logged hlog, ?_, fun t ht => ?_⟩, fun dp hdp => ?_⟩
    · exact hmove.deliveries_backed hg fun m p hp => (hdel m p hp).append
    · rcases hseg.mem_rest_or_tasks ht with hrest | hold
      · exact hmove.rest_backed hg hrest
      · exact (htasks t hold).append
    · -- the coroutine that sends the message took it on earlier in the run
      obtain ⟨ps, k, hev⟩ := hmove.out_eq hdp
      obtain ⟨ht, -⟩ := mem_tasks_of_event hseg hev
      have htask := htasks _ ht
      obtain ⟨d, method, msg⟩ := dp
      cases method with
      | send => trivial
      | echo => exact ⟨d, msg, rfl, rfl, Occurs.then_last htask hc ⟨o, base, hseg, hdp⟩⟩
      | ready => exact QuorumEchoed.append htask

/-! ## Results -/

/-- Counting payloads of all kinds, as the code does, every threshold is backed
by the votes that tip it. -/
theorem tipsBacked_true (hc : exec (next S) initial ls = some c)
    (hseg : Segment (protocol S) S.parties c l i o base) :
    TipsBacked S (fun _ _ => True) ls c l := by
  unfold TipsBacked
  have hnode := hseg.node_eq
  have hvotes (m : String) := counted_of_run hc hseg.correct m
  have hback (method : Method) (src : PeerId) (msg : BrachaMessage)
      (hev : event l = .handle src ⟨method, msg⟩) :
      backers (ls ++ [l]) i method msg.msgId (fun _ => True) =
        insert src (backers ls i method msg.msgId fun _ => True) := by
    rw [backers_append, backers_singleton hnode, hev, Finset.union_comm]
    simp [Event.voters]
  split
  · rename_i src msg hev
    intro x hnew hcard
    rw [hnode, hback _ _ _ hev, ← (hvotes msg.msgId).1]
    have hx : x = (c.st i).view.slot msg.msgId := by rw [← hnode]; rfl
    rwa [← hx, ← hnode]
  · rename_i src msg hev
    intro x htip
    rw [hnode, hback _ _ _ hev, ← (hvotes msg.msgId).2]
    have hx : x = (c.st i).view.slot msg.msgId := by rw [← hnode]; rfl
    rw [← hx]
    rcases htip with ⟨-, hcard⟩ | ⟨-, hcard⟩
    · exact hcard
    · unfold deliverThreshold at hcard
      omega
  · trivial

/-- A reason for an ECHO is a SEND handled, or the node's own message. -/
theorem EchoReason.handled_or (h : Occurs (next S) initial ls (EchoReason S j m p)) :
    (∃ src msg, msg.msgId = m ∧ msg.payload = p ∧ Handled ls j src ⟨.send, msg⟩) ∨
      m = S.uuid j ∧ p = hello j := by
  obtain ⟨ls₁, l, ls₂, c, rfl, -, hE⟩ := h
  cases hE with
  | @firstSend _ src msg hnode hev hm hp _ =>
    exact .inl ⟨src, msg, hm, hp, handled_of_event (by simp) hev hnode⟩
  | originated _ hm hp => exact .inr ⟨hm, hp⟩

/-- A quorum of ECHOs includes a correct node that handled a SEND: the correct
members are at least two, and only one node drew this `msg_id`. -/
theorem QuorumEchoed.exists_handled_send {ok : String → Prop} (hf : S.parties.byz.card ≤ S.f)
    (h : QuorumEchoed S ls m ok) :
    ∃ j ∈ S.parties.correct, ∃ src msg, msg.msgId = m ∧ Handled ls j src ⟨.send, msg⟩ := by
  obtain ⟨Q, hQ, hcard, hechoed⟩ := h
  have hlt : Q.card < S.parties.nodes.card := Finset.card_lt_card hQ
  have hle := Parties.card_le_correct_add hQ.subset hf
  have htwo : 1 < (Q ∩ S.parties.correct).card := by
    unfold readyThreshold at hcard
    omega
  obtain ⟨j, hj, j', hj', hne⟩ := Finset.one_lt_card.mp htwo
  have hsource (x : PeerId) (hx : x ∈ Q ∩ S.parties.correct) :
      (∃ src msg, msg.msgId = m ∧ Handled ls x src ⟨.send, msg⟩) ∨ m = S.uuid x := by
    obtain ⟨hxQ, hxc⟩ := Finset.mem_inter.mp hx
    obtain ⟨p, -, d, msg, -, -, hocc⟩ := hechoed x hxQ hxc
    rcases EchoReason.handled_or hocc.occurs with ⟨src, msg, hm, -, hh⟩ | ⟨hm, -⟩
    · exact .inl ⟨src, msg, hm, hh⟩
    · exact .inr hm
  have hcorr := (Finset.mem_inter.mp hj).2
  have hcorr' := (Finset.mem_inter.mp hj').2
  rcases hsource j hj with hh | hm
  · exact ⟨j, hcorr, hh⟩
  rcases hsource j' hj' with hh' | hm'
  · exact ⟨j', hcorr', hh'⟩
  · exact absurd (S.uuid_inj j (S.mem_nodes_of_correct hcorr) j' (S.mem_nodes_of_correct hcorr')
      (hm.symm.trans hm')) hne

/-- In a run that meets `TipsBacked R` every delivery rests on a quorum of
ECHOs with related payloads. -/
theorem quorumEchoed_of_mem_deliveries [DecidableRel R] (htrans : ∀ p q r, R p q → R q r → R p r)
    (hf : S.parties.byz.card ≤ S.f) (hc : exec (next S) initial ls = some c)
    (hmeets : Meets (next S) initial (TipsBacked S R) ls) (hi : i ∈ S.parties.correct)
    (hdel : (m, p) ∈ (c.st i).deliveries) : QuorumEchoed S ls m (R p) :=
  ((Assertion.holds_of_meets (backed_inductive htrans hf) ls c hc hmeets).node i hi).2.1 m p hdel

/-- Every run meets `TipsBacked` for the relation that holds of all payloads. -/
theorem meets_tipsBacked_true (hc : exec (next S) initial ls = some c) :
    Meets (next S) initial (TipsBacked S fun _ _ => True) ls := by
  intro ls₁ l ls₂ s hls hs
  rw [hls] at hc
  obtain ⟨s₁, hs₁, hrest⟩ := exec_prefix hc
  obtain rfl : s = s₁ := Option.some.inj (hs.symm.trans hs₁)
  obtain ⟨s₂, hs₂, -⟩ := Option.bind_eq_some_iff.mp hrest
  obtain ⟨i, o, base, hseg, -⟩ := step_iff.mp hs₂
  exact tipsBacked_true hs hseg

/-- **Quorum-backed delivery.** If a correct node has `delivered[msg_id]`, then
`⌈(N + f + 1) / 2⌉ - f` correct nodes have broadcast an ECHO for it, each after
it handled its first SEND for it or originated it in `on_start`; and a correct
node has handled a SEND for it. -/
theorem delivered_quorum_backed (S : System) (hf : S.parties.byz.card ≤ S.f) (ls : History)
    (c : Config PeerId Packet NodeState Task) (hc : exec (next S) initial ls = some c)
    (i : PeerId) (hi : i ∈ S.parties.correct) (m : String)
    (hdel : (c.st i).vars.delivered.get m false = true) :
    (∃ Q ⊆ S.parties.correct,
      ⌈((S.parties.nodes.card + S.f + 1 : ℕ) : ℚ) / 2⌉₊ - S.f ≤ Q.card ∧
      ∀ j ∈ Q, ∃ p, Echoed S ls j m p) ∧
    ∃ j ∈ S.parties.correct, ∃ src msg, msg.msgId = m ∧ Handled ls j src ⟨.send, msg⟩ := by
  have hmeets := meets_tipsBacked_true hc
  have hslot : ((c.st i).view.slot m).delivered = true :=
    (wellKeyed_of_run hc hi).sameKeys.delivered_iff.mp hdel
  have hnode := (Assertion.holds_of_meets
    (backed_inductive (R := fun _ _ => True) (fun _ _ _ _ _ => trivial) hf) ls c hc hmeets).node
    i hi
  obtain ⟨p, hp⟩ := hnode.1 m hslot
  have hquorum := hnode.2.1 m p hp
  refine ⟨?_, hquorum.exists_handled_send hf⟩
  obtain ⟨Q, hQ, hcard, hechoed⟩ := hquorum
  refine ⟨Q ∩ S.parties.correct, Finset.inter_subset_right, ?_, fun j hj => ?_⟩
  · have hle := Parties.card_le_correct_add hQ.subset hf
    rw [← readyThreshold_eq_ceil]
    omega
  · obtain ⟨hjQ, hjc⟩ := Finset.mem_inter.mp hj
    obtain ⟨p, -, he⟩ := hechoed j hjQ hjc
    exact ⟨p, he⟩

/-- Three correct nodes of which `a` broadcasts, and one that is not. -/
def fourNodes : System where
  toDeployment := .ofLists ["a", "b", "c"] ["z"] (by decide)
  f := 1
  isSender i := i = "a"
  uuid i := "uuid of " ++ i
  uuid_inj := by decide

/-- `z` supports `a`'s message with an ECHO and a READY, until `b` misses one READY. -/
def supportedRun : History :=
  let sent := initialSend fourNodes "a"
  let echoed := { sent with phase := "echo" }
  let readied := { sent with phase := "ready" }
  [.wake "a" .onStart] ++ broadcast fourNodes "a" .send sent (.sendDone sent) ++
  [.recv ⟨"a", "b", .send, sent⟩] ++ broadcast fourNodes "b" .echo echoed .handled ++
  [.recv ⟨"a", "c", .send, sent⟩] ++ broadcast fourNodes "c" .echo echoed .handled ++
  [.recv ⟨"b", "a", .echo, echoed⟩, .recv ⟨"c", "a", .echo, echoed⟩,
    .forge ⟨"z", "a", .echo, echoed⟩] ++
  broadcast fourNodes "a" .ready readied .handled ++
  [.recv ⟨"a", "c", .ready, readied⟩, .forge ⟨"z", "c", .ready, readied⟩] ++
  broadcast fourNodes "c" .ready readied (.readyDone readied) ++
  [.recv ⟨"a", "b", .ready, readied⟩, .recv ⟨"c", "b", .ready, readied⟩] ++
  broadcast fourNodes "b" .ready readied (.readyDone readied)

/-- The READY comes from `z`. -/
def fourNodesRun : History :=
  supportedRun ++
    [.forge ⟨"z", "b", .ready, { initialSend fourNodes "a" with phase := "ready" }⟩]

theorem delivered_quorum_backed_fourNodes :
    ∃ c, exec (next fourNodes) initial fourNodesRun = some c ∧
      (∃ Q ⊆ fourNodes.parties.correct,
        ⌈((fourNodes.parties.nodes.card + fourNodes.f + 1 : ℕ) : ℚ) / 2⌉₊ - fourNodes.f ≤
          Q.card ∧
        ∀ j ∈ Q, ∃ p, Echoed fourNodes fourNodesRun j "uuid of a" p) ∧
      ∃ j ∈ fourNodes.parties.correct, ∃ src msg,
        msg.msgId = "uuid of a" ∧ Handled fourNodesRun j src ⟨.send, msg⟩ := by
  obtain ⟨c, hc, hdel⟩ := exists_exec_of_any (next fourNodes) initial fourNodesRun
    (fun c => (c.st "b").vars.delivered.get "uuid of a" false)
    (by decide)
  exact ⟨c, hc, delivered_quorum_backed fourNodes (by decide) fourNodesRun c hc "b" (by decide)
    "uuid of a" hdel⟩

end DistBench.Bracha.Basic
