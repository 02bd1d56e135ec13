import DistBench.Bracha.Committees
import DistBench.Bracha.OptimizedMoves

/-!
# Progress without interference

The invariant behind validity at quiescence, for one message (number `k` of node
`s`) in runs in which the nodes outside the protocol are silent.

- `Faithful`, `PacketOk`: packets about the message name `s` as the sender, and
  only nodes of the READY committee become ready and send READYs.
- `quota`: the ECHOs of others on which a node of the READY committee becomes
  ready. The trigger is tested when an ECHO arrives, so the node's own ECHO
  counts only if it was sent by then; with Echo Amplification it was.
- `Progress`: a threshold that is reached has had its effect or is about to,
  what is marked as sent has been broadcast, and what was handled is counted. A
  node that is not on the ECHO committee marks its ECHO as sent on a READY
  without sending it, hence the condition of `Progress.echoed`.
-/

namespace DistBench.Bracha.Optimized

open DistBench.Async

variable {S : System} {ls ls' : History} {i j s : PeerId} {k : Nat} {m : String}
  {l : Label PeerId Packet Task} {c base : Config PeerId Packet NodeState Task}
  {o : Outcome PeerId Packet NodeState Task} {e e' : Entry} {ev : Event} {acts : List Action}
  {rest : Option Cont} {ts : List Task}

/-- The nodes outside the protocol send nothing. -/
def Silent (ls : History) : Prop := ∀ e, .forge e ∉ ls

/-- They have sent nothing up to this step. -/
def SilentStep (ls : History) (_ : Config PeerId Packet NodeState Task)
    (l : Label PeerId Packet Task) : Prop := Silent (ls ++ [l])

theorem Silent.prefix (h : Silent (ls ++ ls')) : Silent ls :=
  fun e he => h e (List.mem_append_left _ he)

theorem Silent.meets (h : Silent ls) : Meets (next S) initial SilentStep ls := by
  rintro ls₁ l ls₂ _ rfl _
  rw [List.append_cons] at h
  exact h.prefix

/-! ## What is on the wire -/

/-- The action is one the protocol takes about message `k` of node `s`. -/
def ActOk (S : System) (s : PeerId) (k : Nat) (i : PeerId) (a : Action) : Prop :=
  a.message.msgId = S.uuid s k → a.message.sender = s ∧
    match a with
    | .bracha msg => msg.phase = "ready" → i ∈ readyCommittee S s
    | .sendTo p msg => msg.phase = "send" ∧ p ≠ i

/-- The packet is one the protocol sends about message `k` of node `s`. -/
structure PacketOk (S : System) (s : PeerId) (e : Envelope PeerId Packet) : Prop where
  sender : e.msg.msg.sender = s
  phase : e.msg.msg.phase = e.msg.phase
  dst : e.dst ≠ e.src
  ready : e.msg.phase = "ready" → e.src ∈ readyCommittee S s

/-- What a node is doing about message `k` of node `s`. -/
structure Faithful (S : System) (s : PeerId) (k : Nat) (i : PeerId) (e : Entry)
    (ts : List Task) : Prop where
  amplified : ∀ msg, .suspended (.echoAmplified msg) ∈ ts → msg.msgId = S.uuid s k → msg.sender = s
  launching : i = s → ∀ t ps, .suspended t ∈ ts → t.Launching S i k ps → ∀ p ∈ ps, p ≠ i
  ready : e.sentReady = true → i ∈ readyCommittee S s

/-- What `Move.faithful` needs to know of the event. -/
structure EventOk (S : System) (s : PeerId) (k : Nat) (i : PeerId) (ev : Event) : Prop where
  handle : ∀ src p, ev = .handle src p → p.msg.msgId = S.uuid s k →
    p.msg.sender = s ∧ p.msg.phase = p.phase
  amplified : ∀ msg, ev = .resume (.suspended (.echoAmplified msg)) →
    msg.msgId = S.uuid s k → msg.sender = s
  launching : i = s → ∀ t ps, ev = .resume (.suspended t) → t.Launching S i k ps → ∀ p ∈ ps, p ≠ i

theorem peers_ne (hi : i ∈ S.parties.nodes) {p : PeerId} (hp : p ∈ S.peers i) : p ≠ i :=
  ((S.mem_peers i hi p).mp hp).2

theorem neighbourPeers_ne (hi : i ∈ S.parties.nodes) {p : PeerId}
    (hp : p ∈ neighbourPeers S i) : p ≠ i := peers_ne hi (List.mem_of_mem_filter hp)

theorem Trigger.faithful (hi : i ∈ S.parties.nodes) (hs : s ∈ S.parties.nodes)
    {msg : BrachaMessage} {b : Bool} (h : Trigger S i msg e b acts rest)
    (hsender : msg.msgId = S.uuid s k → msg.sender = s) (hm : msg.msgId = S.uuid s k)
    (he : e.sentReady = true → i ∈ readyCommittee S s) :
    (∀ a ∈ acts, ActOk S s k i a) ∧ (b = true → i ∈ readyCommittee S s) := by
  cases h with
  | fires hnew hcard hmember =>
    rw [hsender hm, shouldGenerateReady_iff hi hs] at hmember
    refine ⟨fun a ha => ?_, fun _ => hmember⟩
    obtain rfl : a = .bracha { msg with phase := "ready" } := by simpa using ha
    exact fun _ => ⟨hsender hm, fun _ => hmember⟩
  | waits _ => exact ⟨by simp, he⟩

/-- A move sends what it may, and becomes ready only on the committee. -/
theorem Move.faithful (hids : UniqueIds S) (hi : i ∈ S.parties.nodes) (hs : s ∈ S.parties.nodes)
    (h : Move S i (S.uuid s k) e ev e' acts rest) (hev : EventOk S s k i ev)
    (he : e.sentReady = true → i ∈ readyCommittee S s) :
    (∀ a ∈ acts, ActOk S s k i a) ∧ (e'.sentReady = true → i ∈ readyCommittee S s) := by
  have hquiet {acts : List Action} {rest : Option Cont}
      (h : QuietAbout S i (S.uuid s k) acts rest) : ∀ a ∈ acts, ActOk S s k i a :=
    fun a ha hm => absurd hm (h.1 a ha)
  have hecho {msg : BrachaMessage} (hsender : msg.sender = s) :
      ∀ a ∈ [Action.bracha { msg with phase := "echo" }], ActOk S s k i a := by
    intro a ha
    obtain rfl : a = .bracha { msg with phase := "echo" } := by simpa using ha
    exact fun _ => ⟨hsender, fun h => absurd (show "echo" = "ready" from h) (by decide)⟩
  cases h with
  | other _ h | launched _ _ _ h => exact ⟨hquiet h, he⟩
  | sendSeen _ _ _ | sendSkip _ _ _ _ | startHop _ _ _ => exact ⟨by simp, he⟩
  | sendNew _ hm _ _ | echoAmplify _ hm _ _ _ _ =>
    exact ⟨hecho (hev.handle _ _ rfl hm).1, he⟩
  | @readyEcho src _ _ hm _ _ _ _ =>
    refine ⟨hecho (hev.handle _ _ rfl hm).1, ?_⟩
    rw [Entry.answer_sentReady]
    exact he
  | echoCount _ hm _ h => exact h.faithful hi hs (fun hm => (hev.handle _ _ rfl hm).1) hm he
  | amplified hm h => exact h.faithful hi hs (hev.amplified _ rfl) hm he
  | tested _ _ _ => exact ⟨by simp, he⟩
  | @readyTip src p hp hm _ _ hmember =>
    obtain ⟨hsender, hphase⟩ := hev.handle _ _ rfl hm
    rw [hsender, shouldGenerateReady_iff hi hs] at hmember
    refine ⟨fun a ha => ?_, fun _ => hmember⟩
    obtain rfl : a = .bracha p.msg := by simpa using ha
    exact fun _ => ⟨hsender, fun _ => hmember⟩
  | readyCount _ _ _ _ _ =>
    refine ⟨by simp, ?_⟩
    show (Entry.answer S i _ e).sentReady = true → _
    rw [Entry.answer_sentReady]
    exact he
  | @startSend _ k' _ hm _ =>
    obtain ⟨rfl, -⟩ := hids i hi s hs _ _ hm
    refine ⟨fun a ha => ?_, he⟩
    obtain rfl : a = .bracha (initialSend S i k') := by simpa using ha
    exact fun _ => ⟨rfl, fun h => absurd (show "send" = "ready" from h) (by decide)⟩
  | @hop k' q ps t hm ht =>
    obtain ⟨rfl, rfl⟩ := hids i hi s hs _ _ hm
    refine ⟨fun a ha => ?_, he⟩
    obtain rfl : a = .sendTo q (initialSend S i k') := by simpa using ha
    exact fun _ => ⟨rfl, rfl, hev.launching rfl t (q :: ps) rfl ht q List.mem_cons_self⟩
  | launchedEcho hm _ _ =>
    obtain ⟨rfl, -⟩ := hids i hi s hs _ _ hm
    exact ⟨hecho rfl, he⟩

theorem Cont.Launching.about {t : Cont} {ps : List PeerId} (h : t.Launching S i k ps) :
    t.About S i (S.uuid i k) := by
  cases h <;> rfl

/-- A coroutine that a move leaves behind goes on with what it was given. -/
theorem Move.rest_faithful (hi : i ∈ S.parties.nodes) (h : Move S i (S.uuid s k) e ev e' acts rest)
    (hev : EventOk S s k i ev) :
    (∀ msg, rest = some (.echoAmplified msg) → msg.msgId = S.uuid s k → msg.sender = s) ∧
      (i = s → ∀ t ps, rest = some t → t.Launching S i k ps → ∀ p ∈ ps, p ≠ i) := by
  have hquiet {acts : List Action} {rest : Option Cont}
      (h : QuietAbout S i (S.uuid s k) acts rest) :
      (∀ msg, rest = some (.echoAmplified msg) → msg.msgId = S.uuid s k → msg.sender = s) ∧
        (i = s → ∀ t ps, rest = some t → t.Launching S i k ps → ∀ p ∈ ps, p ≠ i) := by
    refine ⟨fun msg hrest hm => absurd hm (h.2 _ hrest), ?_⟩
    rintro rfl t ps hrest ht
    exact absurd ht.about (h.2 _ hrest)
  have htrigger {msg : BrachaMessage} {e : Entry} {b : Bool} {acts : List Action}
      {rest : Option Cont} (h : Trigger S i msg e b acts rest) : ∀ t ∈ rest, t = .handled := by
    cases h with
    | fires _ _ _ => simp
    | waits _ => simp
  cases h with
  | other _ h | launched _ _ _ h => exact hquiet h
  | sendSeen _ _ _ | sendSkip _ _ _ _ | readyCount _ _ _ _ _ | tested _ _ _ =>
    exact ⟨by simp, by simp⟩
  | sendNew _ _ _ _ | launchedEcho _ _ _ | readyEcho _ _ _ _ _ _ | readyTip _ _ _ _ _ =>
    refine ⟨by simp, fun _ t ps hrest ht => ?_⟩
    cases hrest
    cases ht
  | echoCount _ _ _ h | amplified _ h =>
    refine ⟨fun msg hrest => ?_, fun _ t ps hrest ht => ?_⟩
    · cases htrigger h _ hrest
    · obtain rfl := htrigger h _ hrest
      cases ht
  | @echoAmplify src p _ hm _ _ _ _ =>
    refine ⟨fun msg hrest _ => ?_, fun _ t ps hrest ht => ?_⟩
    · cases hrest
      exact (hev.handle _ _ rfl hm).1
    · cases hrest
      cases ht
  | startHop _ _ _ =>
    refine ⟨by simp, fun _ t ps hrest ht => ?_⟩
    cases hrest
    cases ht
    exact fun p hp => neighbourPeers_ne hi hp
  | startSend _ _ _ =>
    refine ⟨by simp, fun _ t ps hrest ht => ?_⟩
    cases hrest
    cases ht
    simp
  | @hop k' q ps t hm ht =>
    refine ⟨by simp, fun his t' ps' hrest ht' => ?_⟩
    cases hrest
    cases ht'
    exact fun p hp => hev.launching his t (q :: ps) rfl ht p (List.mem_cons_of_mem _ hp)

/-- Nodes and messages are faithful to message `k` of node `s`. -/
def faithful (S : System) (s : PeerId) (k : Nat) : Assertion PeerId Packet NodeState Task where
  node _ i st ts := Faithful S s k i (entry st.vars (S.uuid s k)) ts
  msg _ e := e.msg.msg.msgId = S.uuid s k → PacketOk S s e

/-- What is handled in a silent step has been in flight. -/
theorem mem_net_of_event (hseg : Segment (protocol S) S.parties c l i o base)
    (hsilent : SilentStep ls c l) {src : PeerId} {p : Packet} (hev : event l = .handle src p) :
    (⟨src, i, p⟩ : Envelope PeerId Packet) ∈ c.net := by
  cases hseg with
  | recv hnet _ =>
    cases hev
    exact hnet
  | forge _ _ => exact absurd (List.mem_append_right _ List.mem_cons_self) (hsilent _)
  | wake _ _ _ => cases hev

/-- An event that is not of the nodes outside the protocol is faithful. -/
theorem eventOk_of_segment (hA : (faithful S s k).Holds S.parties ls c)
    (hseg : Segment (protocol S) S.parties c l i o base) (hsilent : SilentStep ls c l) :
    EventOk S s k i (event l) := by
  have hnode := hA.node i hseg.correct
  refine ⟨fun src p hev hm => ?_, fun msg hev => ?_, fun his t ps hev => ?_⟩
  · have hmsg := hA.msg _ (mem_net_of_event hseg hsilent hev) hm
    exact ⟨hmsg.sender, hmsg.phase⟩
  · exact hnode.amplified msg (mem_tasks_of_event hseg hev).1
  · exact hnode.launching his t ps (mem_tasks_of_event hseg hev).1

theorem mem_transmit {a : Action} {dm : PeerId × Packet} (h : dm ∈ transmit S i a) :
    dm.2.msg = a.message ∧
      ((∃ msg, a = .bracha msg ∧ dm.2.method = .dolev ∧ dm.1 ∈ S.peers i) ∨
        ∃ msg, a = .sendTo dm.1 msg ∧ dm.2.method = .send) := by
  cases a with
  | bracha msg =>
    obtain ⟨p, hp, rfl⟩ := List.mem_map.mp h
    exact ⟨rfl, .inl ⟨msg, rfl, rfl, hp⟩⟩
  | sendTo p msg =>
    obtain rfl : dm = (p, ⟨.send, msg⟩) := by simpa [transmit] using h
    exact ⟨rfl, .inr ⟨msg, rfl, rfl⟩⟩

/-- What an action that is in order puts on the wire. -/
theorem ActOk.packetOk (hi : i ∈ S.parties.nodes) {a : Action} (h : ActOk S s k i a)
    {dm : PeerId × Packet} (hdm : dm ∈ transmit S i a) (hm : dm.2.msg.msgId = S.uuid s k) :
    PacketOk S s ⟨i, dm.1, dm.2⟩ := by
  obtain ⟨hmsg, hway⟩ := mem_transmit hdm
  rw [hmsg] at hm
  obtain ⟨hsender, hrest⟩ := h hm
  rcases hway with ⟨msg, rfl, hmethod, hpeer⟩ | ⟨msg, rfl, hmethod⟩
  · have hphase : dm.2.phase = msg.phase := by
      rw [Packet.phase, hmethod]
      exact congrArg BrachaMessage.phase hmsg
    refine ⟨hmsg ▸ hsender, ?_, peers_ne hi hpeer, fun hr => hrest (hphase ▸ hr)⟩
    rw [hphase, hmsg]
    rfl
  · have hphase : dm.2.phase = "send" := by rw [Packet.phase, hmethod]
    refine ⟨hmsg ▸ hsender, ?_, hrest.2, fun hr => ?_⟩
    · rw [hphase, hmsg]
      exact hrest.1
    · rw [hphase] at hr
      exact absurd hr (by decide)

theorem faithful_inductive (hids : UniqueIds S) (hs : s ∈ S.parties.nodes) :
    (faithful S s k).Inductive (protocol S) S.parties initial SilentStep where
  init := by
    refine ⟨fun i _ => ⟨?_, ?_, ?_⟩, fun e he => ?_, fun e he => ?_⟩
    · simp [initial]
    · simp [initial]
    · simp [initial, entry]
    · simp [initial] at he
    · simp at he
  node_mono _ h := h
  msg_mono h := h
  segment := by
    intro ls c l i o base hc hA hsilent hseg
    have hi := S.mem_nodes_of_correct hseg.correct
    have hnode : Faithful S s k i (entry (c.st i).vars (S.uuid s k)) (c.tasks i) :=
      hA.node i hseg.correct
    have hev := eventOk_of_segment hA hseg hsilent
    obtain ⟨t, rfl, hmove⟩ := move_of_segment hids hc hseg (S.uuid s k)
    obtain ⟨hacts, hready⟩ := hmove.faithful hids hi hs hev hnode.ready
    obtain ⟨hamp, hlaunch⟩ := hmove.rest_faithful hi hev
    have htask {k' : Cont} (hk' : .suspended k' ∈ (perform S i t).rest.toList ++ base.tasks i) :
        t.rest = some k' ∨ .suspended k' ∈ c.tasks i := by
      rcases hseg.mem_rest_or_tasks hk' with hrest | hold
      · exact .inl (by simpa [perform] using hrest)
      · exact .inr hold
    refine ⟨⟨fun msg hmsg => ?_, fun his t' ps ht' => ?_, hready⟩, fun dm hdm hm => ?_⟩
    · rcases htask hmsg with hrest | hold
      · exact hamp msg hrest
      · exact hnode.amplified msg hold
    · rcases htask ht' with hrest | hold
      · exact hlaunch his t' ps hrest
      · exact hnode.launching his t' ps hold
    · obtain ⟨a, ha, hdm⟩ := List.mem_flatMap.mp hdm
      exact (hacts a ha).packetOk hi hdm hm

theorem faithful_of_silent (hids : UniqueIds S) (hs : s ∈ S.parties.nodes)
    (hc : exec (next S) initial ls = some c) (hsilent : Silent ls) :
    (faithful S s k).Holds S.parties ls c :=
  Assertion.holds_of_meets (faithful_inductive hids hs) ls c hc hsilent.meets

/-! ## What a move owes -/

/-- The ECHOs of others on which a node of the READY committee becomes ready.
With Echo Amplification its own has been counted by then. -/
def quota (S : System) (i : PeerId) : Nat :=
  if S.enableEchoAmplification then readyThreshold (S.N i) S.f - 1 else readyThreshold (S.N i) S.f

/-- No quota is empty. -/
theorem quota_pos (hb : Bounds S) (hi : i ∈ S.parties.nodes) : S.f + 1 ≤ quota S i := by
  have hpos := hb.pos
  have hnodes := hb.nodes
  unfold quota readyThreshold
  rw [S.N_eq hi]
  split <;> omega

theorem Trigger.ready {msg : BrachaMessage} {b : Bool} (h : Trigger S i msg e b acts rest)
    (hmember : shouldGenerateReady S i msg.sender = true)
    (hcard : readyThreshold (S.N i) S.f ≤ e.echos.card) : b = true := by
  cases h with
  | fires _ _ _ => rfl
  | waits h =>
    rcases h with h | h | h
    · exact h
    · exact absurd hcard (Nat.not_le.mpr h)
    · rw [hmember] at h
      cases h

theorem Trigger.mono {msg : BrachaMessage} {b : Bool} (h : Trigger S i msg e b acts rest)
    (he : e.sentReady = true) : b = true := by
  cases h with
  | fires _ _ _ => rfl
  | waits _ => exact he

theorem Trigger.readied {msg : BrachaMessage} {b : Bool} (h : Trigger S i msg e b acts rest)
    (hm : msg.msgId = m) (hb : b = true) : e.sentReady = true ∨
      ∃ msg, .bracha msg ∈ acts ∧ msg.msgId = m ∧ msg.phase = "ready" := by
  cases h with
  | fires _ _ _ => exact .inr ⟨_, List.mem_singleton_self _, hm, rfl⟩
  | waits _ => exact .inl hb

theorem Deliver.delivered {b : Bool} (h : Deliver S e b)
    (hcard : deliverThreshold S.f ≤ e.readys.card) : b = true := by
  cases h with
  | yes _ _ => rfl
  | no h => exact h.resolve_right (Nat.not_lt.mpr hcard)

theorem Deliver.card {b : Bool} (h : Deliver S e b) (hb : b = true)
    (he : e.delivered = true → deliverThreshold S.f ≤ e.readys.card) :
    deliverThreshold S.f ≤ e.readys.card := by
  cases h with
  | yes _ hcard => exact hcard
  | no _ => exact he hb

theorem Entry.sentEcho_answer (src : PeerId) (hamp : S.enableEchoAmplification = true) :
    (e.answer S i src).sentEcho = true := by
  simp only [Entry.answer]
  split
  · rfl
  · rename_i h
    simpa [hamp] using h

theorem Entry.sentEcho_answer_of (src : PeerId) (he : e.sentEcho = true) :
    (e.answer S i src).sentEcho = true := by
  simp only [Entry.answer]
  split
  · rfl
  · exact he

theorem Entry.own_answer (src : PeerId) (hown : e.sentEcho = true → i ∈ e.echos)
    (h : (e.answer S i src).sentEcho = true) : i ∈ (e.answer S i src).echos := by
  simp only [Entry.answer] at h ⊢
  split
  · exact Finset.mem_insert_self _ _
  · rename_i hno
    rw [if_neg hno] at h
    exact hown h

theorem Entry.erase_echos_answer (src : PeerId) :
    (e.answer S i src).echos.erase i = e.echos.erase i := by
  simp only [Entry.answer]
  split
  · exact Finset.erase_insert_eq_erase _ _
  · rfl

section Moves

theorem Move.sentEcho_mono (h : Move S i m e ev e' acts rest) (he : e.sentEcho = true) :
    e'.sentEcho = true := by
  cases h with
  | sendNew _ _ _ _ | echoAmplify _ _ _ _ _ _ | launchedEcho _ _ _ => rfl
  | readyEcho _ _ _ _ _ _ | readyTip _ _ _ _ _ | readyCount _ _ _ _ _ =>
    exact Entry.sentEcho_answer_of _ he
  | _ => exact he

theorem Move.sentReady_mono (h : Move S i m e ev e' acts rest) (he : e.sentReady = true) :
    e'.sentReady = true := by
  cases h with
  | readyEcho _ _ _ _ _ _ | readyCount _ _ _ _ _ =>
    show (Entry.answer S i _ e).sentReady = true
    rwa [Entry.answer_sentReady]
  | readyTip _ _ _ _ _ => rfl
  | echoCount _ _ _ h | amplified _ h => exact h.mono he
  | _ => exact he

theorem Move.seen_mono (h : Move S i m e ev e' acts rest) (he : e.seen = true) :
    e'.seen = true := by
  cases h with
  | readyEcho _ _ _ _ _ _ | readyTip _ _ _ _ _ | readyCount _ _ _ _ _ =>
    show (Entry.answer S i _ e).seen = true
    rwa [Entry.answer_seen]
  | sendNew _ _ _ _ | sendSkip _ _ _ _ | launchedEcho _ _ _ | launched _ _ _ _ => rfl
  | _ => exact he

theorem Move.own (h : Move S i m e ev e' acts rest) (hown : e.sentEcho = true → i ∈ e.echos) :
    e'.sentEcho = true → i ∈ e'.echos := by
  cases h with
  | sendNew _ _ _ _ | echoAmplify _ _ _ _ _ _ | launchedEcho _ _ _ =>
    exact fun _ => Finset.mem_insert_self _ _
  | readyEcho _ _ _ _ _ _ | readyTip _ _ _ _ _ | readyCount _ _ _ _ _ =>
    exact Entry.own_answer _ hown
  | echoCount _ _ _ _ => exact fun he => Finset.mem_insert_of_mem (hown he)
  | _ => exact hown

/-- Apart from its own, a node's ECHOs change only when it handles one. -/
theorem Move.erase_echos (h : Move S i m e ev e' acts rest) :
    e'.echos.erase i = e.echos.erase i ∨
      ∃ src p, ev = .handle src p ∧ p.phase = "echo" ∧ p.msg.msgId = m := by
  cases h with
  | sendNew _ _ _ _ | launchedEcho _ _ _ => exact .inl (Finset.erase_insert_eq_erase _ _)
  | readyEcho _ _ _ _ _ _ | readyTip _ _ _ _ _ | readyCount _ _ _ _ _ =>
    exact .inl (Entry.erase_echos_answer _)
  | echoAmplify hp hm _ _ _ _ | echoCount hp hm _ _ => exact .inr ⟨_, _, rfl, hp, hm⟩
  | _ => exact .inl rfl

theorem Move.readys (h : Move S i m e ev e' acts rest) :
    e'.readys = e.readys ∨
      ∃ src p, ev = .handle src p ∧ p.phase = "ready" ∧ p.msg.msgId = m ∧
        e'.readys = insert src e.readys := by
  cases h with
  | readyEcho hp hm _ _ _ _ | readyTip hp hm _ _ _ | readyCount hp hm _ _ _ =>
    exact .inr ⟨_, _, rfl, hp, hm, Entry.answer_readys S i _ e⟩
  | _ => exact .inl rfl

/-- With Echo Amplification `f + 1` ECHOs make a node of the ECHO committee send
its own … -/
theorem Move.amplify (hi : i ∈ S.parties.nodes) (hs : s ∈ S.parties.nodes)
    (h : Move S i (S.uuid s k) e ev e' acts rest) (hev : EventOk S s k i ev)
    (hamp : S.enableEchoAmplification = true) (hmember : i ∈ echoCommittee S s)
    (he : S.f + 1 ≤ e.echos.card → e.sentEcho = true) :
    S.f + 1 ≤ e'.echos.card → e'.sentEcho = true := by
  cases h with
  | sendNew _ _ _ _ | echoAmplify _ _ _ _ _ _ | launchedEcho _ _ _ => exact fun _ => rfl
  | readyEcho _ _ _ _ _ _ | readyTip _ _ _ _ _ | readyCount _ _ _ _ _ =>
    exact fun _ => Entry.sentEcho_answer _ hamp
  | @echoCount src p _ _ _ _ hm hno _ =>
    intro hcard
    rw [(hev.handle _ _ rfl hm).1] at hno
    rcases hno with hno | hno | hno | hno
    · rw [hamp] at hno
      cases hno
    · exact hno
    · exact absurd hcard (Nat.not_le.mpr hno)
    · rw [(shouldGenerateEcho_iff hi hs).mpr hmember] at hno
      cases hno
  | _ => exact he

/-- … and so does a READY any node's. -/
theorem Move.answered (h : Move S i m e ev e' acts rest)
    (hamp : S.enableEchoAmplification = true) (he : e.readys.Nonempty → e.sentEcho = true) :
    e'.readys.Nonempty → e'.sentEcho = true := by
  cases h with
  | sendNew _ _ _ _ | echoAmplify _ _ _ _ _ _ | launchedEcho _ _ _ => exact fun _ => rfl
  | readyEcho _ _ _ _ _ _ | readyTip _ _ _ _ _ | readyCount _ _ _ _ _ =>
    exact fun _ => Entry.sentEcho_answer _ hamp
  | _ => exact he

/-- Has node `i` to ECHO the message of `s` when it sees it? -/
def Obliged (S : System) (s i : PeerId) : Prop :=
  S.enableSingleHopSend = true ∧ i ≠ s ∨ i ∈ echoCommittee S s

theorem Move.saw (hids : UniqueIds S) (hi : i ∈ S.parties.nodes) (hs : s ∈ S.parties.nodes)
    (h : Move S i (S.uuid s k) e ev e' acts rest) (hev : EventOk S s k i ev)
    (hobl : Obliged S s i) (he : e.seen = true → e.sentEcho = true) :
    e'.seen = true → e'.sentEcho = true := by
  cases h with
  | sendNew _ _ _ _ | echoAmplify _ _ _ _ _ _ | launchedEcho _ _ _ => exact fun _ => rfl
  | readyEcho _ _ _ _ _ _ | readyTip _ _ _ _ _ | readyCount _ _ _ _ _ =>
    intro hseen
    refine Entry.sentEcho_answer_of _ (he ?_)
    rwa [← Entry.answer_seen S i]
  | @sendSkip src p _ hm _ hno =>
    intro _
    rw [SendEchoes, (hev.handle _ _ rfl hm).1] at hno
    split at hno
    · exact Bool.not_eq_false _ ▸ hno
    · rename_i hhop
      rw [not_or, shouldGenerateEcho_iff hi hs] at hno
      rcases hobl with hobl | hobl
      · exact absurd hobl.1 hhop
      · exact absurd hobl hno.2
  | launched hm _ hmember _ =>
    intro _
    obtain ⟨rfl, -⟩ := hids i hi s hs _ _ hm
    rcases hobl with hobl | hobl
    · exact absurd rfl hobl.2
    · rw [(shouldGenerateEcho_iff hi hi).mpr hobl] at hmember
      cases hmember
  | _ => exact he

theorem Move.delivered_card (h : Move S i m e ev e' acts rest)
    (he : e.delivered = true → deliverThreshold S.f ≤ e.readys.card) :
    e'.delivered = true → deliverThreshold S.f ≤ e'.readys.card := by
  have hanswer {src : PeerId} : (e.answer S i src).delivered = true →
      deliverThreshold S.f ≤ (e.answer S i src).readys.card := by
    rw [Entry.answer_delivered, Entry.answer_readys]
    exact fun h => (he h).trans (Finset.card_le_card (Finset.subset_insert _ _))
  cases h with
  | readyEcho _ _ _ _ _ _ | readyTip _ _ _ _ _ => exact hanswer
  | readyCount _ _ _ _ h => exact fun hb => h.card hb hanswer
  | tested _ _ h => exact fun hb => h.card hb he
  | _ => exact he

/-- A threshold of others' ECHOs that is reached makes a node of the READY
committee ready, at the latest after the amplifying ECHO it broadcasts. -/
theorem Move.tripped (hb : Bounds S) (hi : i ∈ S.parties.nodes) (hs : s ∈ S.parties.nodes)
    (h : Move S i (S.uuid s k) e ev e' acts rest) (hev : EventOk S s k i ev)
    (hmember : i ∈ readyCommittee S s) (hown : e.sentEcho = true → i ∈ e.echos)
    (hamplify : S.enableEchoAmplification = true → S.f + 1 ≤ e.echos.card → e.sentEcho = true)
    (hk : quota S i ≤ (e'.echos.erase i).card) :
    e'.sentReady = true ∨
    (∃ msg, rest = some (.echoAmplified msg) ∧ msg.msgId = S.uuid s k) ∨
    quota S i ≤ (e.echos.erase i).card ∧ e.sentReady = false ∧
      ∀ msg, ev = .resume (.suspended (.echoAmplified msg)) → msg.msgId ≠ S.uuid s k := by
  -- with its own ECHO, or without Echo Amplification, the node counts a threshold
  have hreach {X : Finset PeerId} (hX : quota S i ≤ (X.erase i).card)
      (hin : S.enableEchoAmplification = true → i ∈ X) :
      readyThreshold (S.N i) S.f ≤ X.card := by
    unfold quota at hX
    split at hX
    · rename_i hamp
      rw [Finset.card_erase_of_mem (hin hamp)] at hX
      have := Finset.card_pos.mpr ⟨i, hin hamp⟩
      omega
    · exact hX.trans (Finset.card_le_card (Finset.erase_subset _ _))
  have hmore {X : Finset PeerId} (hX : quota S i ≤ (X.erase i).card) : S.f + 1 ≤ X.card := by
    have hle := Finset.card_le_card (Finset.erase_subset i X)
    exact (quota_pos hb hi).trans (hX.trans hle)
  cases hsent : e.sentReady with
  | true => exact .inl (h.sentReady_mono hsent)
  | false =>
  rcases h.erase_echos with hsame | ⟨src, p, rfl, hp, hm⟩
  · rw [hsame] at hk
    by_cases hwake : ∃ msg, ev = .resume (.suspended (.echoAmplified msg)) ∧
        msg.msgId = S.uuid s k
    swap
    · exact .inr (.inr ⟨hk, rfl, fun msg hev hm => hwake ⟨msg, hev, hm⟩⟩)
    obtain ⟨msg, rfl, hm⟩ := hwake
    cases h with
    | other hev _ => exact absurd hm hev
    | startHop hev _ _ | startSend hev _ _ => exact absurd hm hev
    | amplified _ h =>
      refine .inl (h.ready ?_ (hreach hk fun hamp => hown (hamplify hamp (hmore hk))))
      rwa [hev.amplified msg rfl hm, shouldGenerateReady_iff hi hs]
    | tested _ hk _ => rcases hk with hk | hk <;> cases hk
    | hop _ ht | launchedEcho _ ht _ | launched _ ht _ _ => cases ht
  · have hsender := (hev.handle _ _ rfl hm).1
    cases h with
    | other hev _ | startHop hev _ _ | startSend hev _ _ => exact absurd ⟨hm, .inr (.inl hp)⟩ hev
    | echoAmplify _ _ _ _ _ _ => exact .inr (.inl ⟨p.msg, rfl, hm⟩)
    | echoCount _ _ hno h =>
      refine .inl (h.ready ?_ (hreach hk fun hamp => Finset.mem_insert_of_mem (hown ?_)))
      · rwa [hsender, shouldGenerateReady_iff hi hs]
      · rw [hsender, shouldGenerateEcho_false_iff hi hs] at hno
        rcases hno with hno | hno | hno | hno
        · rw [hamp] at hno
          cases hno
        · exact hno
        · exact absurd (hmore hk) (Nat.not_le.mpr hno)
        · exact absurd (readyCommittee_subset hb.nodes hmember) hno
    | sendSeen hp' _ _ | sendNew hp' _ _ _ | sendSkip hp' _ _ _ =>
      exact absurd (hp.symm.trans hp') (by decide)
    | readyEcho hp' _ _ _ _ _ | readyTip hp' _ _ _ _ | readyCount hp' _ _ _ _ =>
      exact absurd (hp.symm.trans hp') (by decide)

/-- The delivery threshold, once reached, has led to the delivery or will after
the broadcast that was started, unless it had been reached before and the
segment is not the end of that broadcast. -/
theorem Move.delivering (h : Move S i m e ev e' acts rest)
    (hk : deliverThreshold S.f ≤ e'.readys.card) :
    e'.delivered = true ∨
    (∃ msg, (rest = some (.echoGenerated msg) ∨ rest = some (.readyDone msg)) ∧ msg.msgId = m) ∨
    deliverThreshold S.f ≤ e.readys.card ∧ e.delivered = false ∧
      ∀ msg, (ev = .resume (.suspended (.echoGenerated msg)) ∨
        ev = .resume (.suspended (.readyDone msg))) → msg.msgId ≠ m := by
  cases hdel : e.delivered with
  | true =>
    refine .inl ?_
    cases h with
    | readyEcho _ _ _ _ _ _ | readyTip _ _ _ _ _ =>
      show (Entry.answer S i _ e).delivered = true
      rwa [Entry.answer_delivered]
    | readyCount _ _ _ _ h => exact h.delivered hk
    | tested _ _ h => exact h.delivered hk
    | _ => exact hdel
  | false =>
  cases h with
  | readyCount _ _ _ _ h => exact .inl (h.delivered hk)
  | tested _ _ h => exact .inl (h.delivered hk)
  | @readyEcho src p _ hm _ _ _ _ => exact .inr (.inl ⟨p.msg, .inl rfl, hm⟩)
  | @readyTip src p _ hm _ _ _ => exact .inr (.inl ⟨p.msg, .inr rfl, hm⟩)
  | other hev _ | startHop hev _ _ | startSend hev _ _ =>
    refine .inr (.inr ⟨hk, rfl, ?_⟩)
    rintro msg (rfl | rfl) hm
    · exact hev hm
    · exact hev hm
  | sendSeen _ _ _ | sendNew _ _ _ _ | sendSkip _ _ _ _ | echoAmplify _ _ _ _ _ _
  | echoCount _ _ _ _ | amplified _ _ => exact .inr (.inr ⟨hk, rfl, by simp⟩)
  | hop _ ht | launchedEcho _ ht _ | launched _ ht _ _ =>
    refine .inr (.inr ⟨hk, rfl, ?_⟩)
    rintro msg (hev | hev)
    · cases hev
      cases ht
    · cases hev
      cases ht

/-- A node marks its ECHO as sent when it sends it, or when it handles a READY
and is not on the ECHO committee. -/
theorem Move.echoed (hb : Bounds S) (hi : i ∈ S.parties.nodes) (hs : s ∈ S.parties.nodes)
    (h : Move S i (S.uuid s k) e ev e' acts rest) (hev : EventOk S s k i ev)
    (hanswered : S.enableEchoAmplification = true → e.readys.Nonempty → e.sentEcho = true)
    (hk : e'.sentEcho = true) (hway : i ∈ echoCommittee S s ∨ e'.readys = ∅) :
    e.sentEcho = true ∧ (i ∈ echoCommittee S s ∨ e.readys = ∅) ∨
      ∃ msg, .bracha msg ∈ acts ∧ msg.msgId = S.uuid s k ∧ msg.phase = "echo" := by
  -- a READY that is handled leaves no way but the committee
  have hready {src : PeerId} (hway : i ∈ echoCommittee S s ∨ (e.answer S i src).readys = ∅) :
      i ∈ echoCommittee S s := by
    refine hway.resolve_right fun hempty => ?_
    rw [Entry.answer_readys] at hempty
    exact Finset.insert_ne_empty _ _ hempty
  have hold {src : PeerId} (hk : (e.answer S i src).sentEcho = true)
      (hno : S.enableEchoAmplification = true → e.sentEcho = true) : e.sentEcho = true := by
    simp only [Entry.answer] at hk
    split at hk
    · rename_i hcond
      exact hno hcond.1
    · exact hk
  cases h with
  | sendNew _ hm _ _ | echoAmplify _ hm _ _ _ _ | launchedEcho hm _ _ =>
    exact .inr ⟨_, List.mem_singleton_self _, hm, rfl⟩
  | readyEcho _ hm _ _ _ _ => exact .inr ⟨_, List.mem_singleton_self _, hm, rfl⟩
  | readyTip _ _ _ hcard _ =>
    refine .inl ⟨hold hk fun hamp => ?_, .inl (hready hway)⟩
    -- the READYs are f + 1, so this one is not the first
    refine hanswered hamp (Finset.nonempty_iff_ne_empty.mpr fun hempty => ?_)
    rw [hempty, insert_empty_eq, Finset.card_singleton] at hcard
    have := hb.pos
    omega
  | @readyCount src p _ _ hm _ hquiet _ =>
    refine .inl ⟨hold hk fun hamp => ?_, .inl (hready hway)⟩
    by_contra hnew
    have hno := hquiet hamp (Bool.eq_false_iff.mpr hnew)
    rw [(hev.handle _ _ rfl hm).1, shouldGenerateEcho_false_iff hi hs] at hno
    exact hno (hready hway)
  | _ => exact .inl ⟨hk, hway⟩

/-- A node marks its READY as sent when it sends it. -/
theorem Move.readied (h : Move S i (S.uuid s k) e ev e' acts rest) (hev : EventOk S s k i ev)
    (hk : e'.sentReady = true) :
    e.sentReady = true ∨
      ∃ msg, .bracha msg ∈ acts ∧ msg.msgId = S.uuid s k ∧ msg.phase = "ready" := by
  cases h with
  | readyEcho _ _ _ _ _ _ | readyCount _ _ _ _ _ =>
    refine .inl ?_
    rwa [← Entry.answer_sentReady S i]
  | readyTip hp hm _ _ _ =>
    exact .inr ⟨_, List.mem_singleton_self _, hm, (hev.handle _ _ rfl hm).2.trans hp⟩
  | echoCount _ hm _ h | amplified hm h => exact h.readied hm hk
  | _ => exact .inl hk

/-- What handling a message counts. -/
theorem Move.counts {src : PeerId} {p : Packet} (h : Move S i m e (.handle src p) e' acts rest)
    (hm : p.msg.msgId = m) :
    (p.phase = "send" → e'.seen = true) ∧ (p.phase = "echo" → src ∈ e'.echos) ∧
      (p.phase = "ready" → src ∈ e'.readys) := by
  have honly {x y : String} {P : Prop} (hx : p.phase = x) (hne : x ≠ y) : p.phase = y → P :=
    fun hy => absurd (hx.symm.trans hy) hne
  cases h with
  | other hev _ | startHop hev _ _ | startSend hev _ _ =>
    exact ⟨fun hp => absurd ⟨hm, .inl hp⟩ hev, fun hp => absurd ⟨hm, .inr (.inl hp)⟩ hev,
      fun hp => absurd ⟨hm, .inr (.inr hp)⟩ hev⟩
  | sendSeen hp _ hseen => exact ⟨fun _ => hseen, honly hp (by decide), honly hp (by decide)⟩
  | sendNew hp _ _ _ | sendSkip hp _ _ _ =>
    exact ⟨fun _ => rfl, honly hp (by decide), honly hp (by decide)⟩
  | echoAmplify hp _ _ _ _ _ =>
    exact ⟨honly hp (by decide),
      fun _ => Finset.mem_insert_of_mem (Finset.mem_insert_self _ _), honly hp (by decide)⟩
  | echoCount hp _ _ _ =>
    exact ⟨honly hp (by decide), fun _ => Finset.mem_insert_self _ _, honly hp (by decide)⟩
  | readyEcho hp _ _ _ _ _ | readyTip hp _ _ _ _ | readyCount hp _ _ _ _ =>
    refine ⟨honly hp (by decide), honly hp (by decide), fun _ => ?_⟩
    show src ∈ (Entry.answer S i src e).readys
    rw [Entry.answer_readys]
    exact Finset.mem_insert_self _ _

/-- Counted votes stay counted. -/
theorem Move.echos_mono (h : Move S i m e ev e' acts rest) : e.echos ⊆ e'.echos := by
  have hanswer {src : PeerId} : e.echos ⊆ (e.answer S i src).echos := by
    simp only [Entry.answer]
    split
    · exact Finset.subset_insert _ _
    · exact Finset.Subset.refl _
  cases h with
  | sendNew _ _ _ _ | launchedEcho _ _ _ | echoCount _ _ _ _ => exact Finset.subset_insert _ _
  | echoAmplify _ _ _ _ _ _ =>
    exact (Finset.subset_insert _ _).trans (Finset.subset_insert _ _)
  | readyEcho _ _ _ _ _ _ | readyTip _ _ _ _ _ | readyCount _ _ _ _ _ => exact hanswer
  | _ => exact Finset.Subset.refl _

theorem Move.readys_mono (h : Move S i m e ev e' acts rest) : e.readys ⊆ e'.readys := by
  rcases h.readys with hsame | ⟨src, p, -, -, -, hins⟩
  · rw [hsame]
  · rw [hins]
    exact Finset.subset_insert _ _

/-- `on_start` goes on with its SENDs. -/
theorem Move.launch {t : Cont} {ps : List PeerId}
    (h : Move S s (S.uuid s k) e (.resume (.suspended t)) e' acts rest) (hids : UniqueIds S)
    (hs : s ∈ S.parties.nodes) (ht : t.Launching S s k ps) :
    (∃ q qs, ps = q :: qs ∧ .sendTo q (initialSend S s k) ∈ acts ∧
      rest = some (.singleHop k qs)) ∨ ps = [] ∧ e'.seen = true := by
  have hkey {k' : Nat} {ps' : List PeerId} (hk' : S.uuid s k' = S.uuid s k)
      (ht' : t.Launching S s k' ps') : k' = k ∧ ps' = ps := by
    obtain rfl := (hids s hs s hs _ _ hk').2
    refine ⟨rfl, ?_⟩
    cases ht with
    | sleeping => cases ht'; rfl
    | singleHop _ => cases ht'; rfl
    | sent => cases ht'; rfl
  cases h with
  | other hev _ | startHop hev _ _ | startSend hev _ _ => exact absurd ht.about hev
  | amplified _ _ => cases ht
  | tested _ hk _ => rcases hk with rfl | rfl <;> cases ht
  | hop hm ht' =>
    obtain ⟨rfl, rfl⟩ := hkey hm ht'
    exact .inl ⟨_, _, rfl, List.mem_singleton_self _, rfl⟩
  | launchedEcho hm ht' _ | launched hm ht' _ _ =>
    obtain ⟨-, rfl⟩ := hkey hm ht'
    exact .inr ⟨rfl, rfl⟩

/-- `on_start` takes up the message. -/
theorem Move.start (h : Move S s (S.uuid s k) e ev e' acts rest)
    (hrest : rest = some (.sent k) ∨ rest = some (.sleeping k)) :
    S.enableSingleHopSend = true ∧ rest = some (.sleeping k) ∨
      S.enableSingleHopSend = false ∧ rest = some (.sent k) ∧
        .bracha (initialSend S s k) ∈ acts := by
  have hquiet {P : Prop} {acts : List Action} {rest : Option Cont}
      (h : QuietAbout S s (S.uuid s k) acts rest)
      (hrest : rest = some (.sent k) ∨ rest = some (.sleeping k)) : P := by
    rcases hrest with hrest | hrest
    · exact absurd rfl (h.2 _ hrest)
    · exact absurd rfl (h.2 _ hrest)
  have htrigger {P : Prop} {msg : BrachaMessage} {e : Entry} {b : Bool} {acts : List Action}
      {rest : Option Cont} (h : Trigger S s msg e b acts rest)
      (hrest : rest = some (.sent k) ∨ rest = some (.sleeping k)) : P := by
    cases h with
    | fires _ _ _ => rcases hrest with hrest | hrest <;> cases hrest
    | waits _ => rcases hrest with hrest | hrest <;> cases hrest
  cases h with
  | other _ h | launched _ _ _ h => exact hquiet h hrest
  | echoCount _ _ _ h | amplified _ h => exact htrigger h hrest
  | startHop _ _ hhop =>
    rcases hrest with hrest | hrest
    · cases hrest
    · exact .inl ⟨hhop, hrest⟩
  | startSend _ _ hhop =>
    rcases hrest with hrest | hrest
    · cases hrest
      exact .inr ⟨hhop, rfl, List.mem_singleton_self _⟩
    · cases hrest
  | _ => rcases hrest with hrest | hrest <;> cases hrest

end Moves

/-! ## The invariant -/

/-- Node `i` has broadcast a vote for message `m`. -/
def Voted (S : System) (ls : History) (i : PeerId) (phase m : String) : Prop :=
  ∃ msg : BrachaMessage, msg.msgId = m ∧ msg.phase = phase ∧
    ∀ p ∈ S.peers i, Occurs (next S) initial ls (Sends (protocol S) S.parties i p ⟨.dolev, msg⟩)

/-- `on_start` of node `s` has sent its message `k` to `p`. -/
def SendSent (S : System) (ls : History) (s : PeerId) (k : Nat) (p : PeerId) : Prop :=
  ∃ q : Packet, q.msg = initialSend S s k ∧ q.phase = "send" ∧
    Occurs (next S) initial ls (Sends (protocol S) S.parties s p q)

/-- Whom the SENDs of node `s` go to. -/
def targets (S : System) (s : PeerId) : List PeerId :=
  if S.enableSingleHopSend then neighbourPeers S s else S.peers s

/-- The SENDs of message `k` are on their way, or all sent. -/
def Launched (S : System) (ls : History) (s : PeerId) (k : Nat) (e : Entry)
    (ts : List Task) : Prop :=
  (∃ t ps, .suspended t ∈ ts ∧ t.Launching S s k ps ∧
      ∀ p ∈ targets S s, p ∈ ps ∨ SendSent S ls s k p) ∨
    e.seen = true ∧ ∀ p ∈ targets S s, SendSent S ls s k p

/-- What node `i` owes the others about message `k` of node `s` has been done or
is being done. -/
structure Progress (S : System) (s : PeerId) (k : Nat) (ls : History) (i : PeerId) (e : Entry)
    (ts : List Task) : Prop where
  own : e.sentEcho = true → i ∈ e.echos
  amplify : S.enableEchoAmplification = true → i ∈ echoCommittee S s →
    S.f + 1 ≤ e.echos.card → e.sentEcho = true
  answered : S.enableEchoAmplification = true → e.readys.Nonempty → e.sentEcho = true
  saw : Obliged S s i → e.seen = true → e.sentEcho = true
  echoed : e.sentEcho = true → i ∈ echoCommittee S s ∨ e.readys = ∅ →
    Voted S ls i "echo" (S.uuid s k)
  tripped : i ∈ readyCommittee S s → quota S i ≤ (e.echos.erase i).card → e.sentReady = true ∨
    ∃ msg, .suspended (.echoAmplified msg) ∈ ts ∧ msg.msgId = S.uuid s k
  readied : e.sentReady = true → Voted S ls i "ready" (S.uuid s k)
  delivering : deliverThreshold S.f ≤ e.readys.card → e.delivered = true ∨
    ∃ t msg, .suspended t ∈ ts ∧ (t = .echoGenerated msg ∨ t = .readyDone msg) ∧
      msg.msgId = S.uuid s k
  delivered : e.delivered = true → deliverThreshold S.f ≤ e.readys.card
  /-- What has been handled has been counted. -/
  counted : ∀ src p, Handled ls i src p → p.msg.msgId = S.uuid s k →
    (p.phase = "send" → e.seen = true) ∧ (p.phase = "echo" → src ∈ e.echos) ∧
      (p.phase = "ready" → src ∈ e.readys)
  /-- READYs come from the others on the READY committee. -/
  backed : ∀ j ∈ e.readys, j ∈ S.parties.correct ∧ j ∈ readyCommittee S s ∧ j ≠ i ∧
    Voted S ls j "ready" (S.uuid s k)
  launched : i = s → Occurs (next S) initial ls (Originates S s (S.uuid s k)) →
    Launched S ls s k e ts

theorem Voted.append {phase : String} (h : Voted S ls i phase m) :
    Voted S (ls ++ ls') i phase m := by
  obtain ⟨msg, hm, hphase, hsent⟩ := h
  exact ⟨msg, hm, hphase, fun p hp => (hsent p hp).append⟩

theorem SendSent.append {p : PeerId} (h : SendSent S ls s k p) :
    SendSent S (ls ++ ls') s k p := by
  obtain ⟨q, hmsg, hphase, hsent⟩ := h
  exact ⟨q, hmsg, hphase, hsent.append⟩

theorem Launched.append (h : Launched S ls s k e ts) : Launched S (ls ++ ls') s k e ts := by
  rcases h with ⟨t, ps, hmem, ht, hall⟩ | ⟨hseen, hall⟩
  · exact .inl ⟨t, ps, hmem, ht, fun p hp => (hall p hp).imp_right SendSent.append⟩
  · exact .inr ⟨hseen, fun p hp => (hall p hp).append⟩

/-- A vote a segment broadcasts is broadcast. -/
theorem voted_of_mem (hc : exec (next S) initial ls = some c) {t : Turn NodeState Cont}
    (hseg : Segment (protocol S) S.parties c l i (perform S i t) base) {msg : BrachaMessage}
    (hmsg : .bracha msg ∈ t.acts) : Voted S (ls ++ [l]) i msg.phase msg.msgId :=
  ⟨msg, rfl, rfl, fun p hp => occurs_last hc ⟨_, _, hseg,
    List.mem_flatMap.mpr ⟨_, hmsg, List.mem_map.mpr ⟨p, hp, rfl⟩⟩⟩⟩

/-- A vote that was sent to one peer was sent to all. -/
theorem voted_of_sent {p : Packet} (h : Occurs (next S) initial ls
    (Sends (protocol S) S.parties i j p)) (hp : p.phase ≠ "send") :
    Voted S ls i p.msg.phase p.msg.msgId := by
  obtain ⟨ls₁, l, ls₂, c, rfl, hc, o, base, hseg, hout⟩ := h
  obtain rfl := turn_of_segment hseg
  obtain ⟨a, ha, hdm⟩ := List.mem_flatMap.mp hout
  obtain ⟨hmsg, ⟨msg, rfl, -, -⟩ | ⟨msg, rfl, hmethod⟩⟩ := mem_transmit hdm
  · obtain rfl : p.msg = msg := hmsg
    rw [List.append_cons]
    exact (voted_of_mem hc hseg ha).append
  · refine absurd ?_ hp
    rw [Packet.phase, show p.method = .send from hmethod]

/-- A message a label hands to the handler of node `i`. -/
theorem event_of_handled {src : PeerId} {p : Packet} (h : Handled [l] i src p) :
    l.node = i ∧ event l = .handle src p := by
  rcases h with h | h
  all_goals
    rw [← List.mem_singleton.mp h]
    exact ⟨rfl, rfl⟩

/-- A step of another node originates nothing here. -/
theorem Originates.node_eq (h : Originates S s m c l) : l.node = s := by
  obtain ⟨k, -, o, base, hseg, -⟩ := h
  exact hseg.node_eq

/-- `Progress` of every correct node. -/
def progress (S : System) (s : PeerId) (k : Nat) : Assertion PeerId Packet NodeState Task where
  node ls i st ts := Progress S s k ls i (entry st.vars (S.uuid s k)) ts
  msg _ _ := True

theorem Progress.append (hl : l.node ≠ i) (h : Progress S s k ls i e ts) :
    Progress S s k (ls ++ [l]) i e ts where
  own := h.own
  amplify := h.amplify
  answered := h.answered
  saw := h.saw
  echoed he hway := (h.echoed he hway).append
  tripped := h.tripped
  readied he := (h.readied he).append
  delivering := h.delivering
  delivered := h.delivered
  counted src p hh := by
    rcases hh.of_append with hold | hnew
    · exact h.counted src p hold
    · exact absurd (event_of_handled hnew).1 hl
  backed j hj := by
    obtain ⟨hcorr, hmember, hji, hvote⟩ := h.backed j hj
    exact ⟨hcorr, hmember, hji, hvote.append⟩
  launched his hocc := by
    rcases hocc.exists_last_or with hold | ⟨c, -, horig⟩
    · exact (h.launched his hold).append
    · exact absurd (horig.node_eq.trans his.symm) hl

theorem progress_initial (hb : Bounds S) (hi : i ∈ S.parties.nodes) :
    Progress S s k [] i {} [.onStart] where
  own h := by cases h
  amplify _ _ h := by simp at h
  answered _ h := by simp at h
  saw _ h := by cases h
  echoed h := by cases h
  tripped _ h := by
    have := quota_pos hb hi
    simp at h
    omega
  readied h := by cases h
  delivering h := by simp [deliverThreshold] at h
  delivered h := by cases h
  counted src p h := by
    rcases h with h | h <;> cases h
  backed j hj := by simp at hj
  launched _ h := absurd h not_occurs_nil

/-- The SENDs go on. -/
theorem Launched.segment (hids : UniqueIds S) (hc : exec (next S) initial ls = some c)
    (hseg : Segment (protocol S) S.parties c l s o base)
    (h : Launched S ls s k (entry (c.st s).vars (S.uuid s k)) (c.tasks s)) :
    Launched S (ls ++ [l]) s k (entry o.st.vars (S.uuid s k)) (o.rest.toList ++ base.tasks s) := by
  obtain ⟨t', rfl, hmove⟩ := move_of_segment hids hc hseg (S.uuid s k)
  rcases h with ⟨t, ps, hmem, ht, hall⟩ | ⟨hseen, hall⟩
  swap
  · exact .inr ⟨hmove.seen_mono hseen, fun p hp => (hall p hp).append⟩
  rcases hseg.mem_base_tasks_or hmem with hbase | rfl
  · exact .inl ⟨t, ps, List.mem_append_right _ hbase, ht,
      fun p hp => (hall p hp).imp_right SendSent.append⟩
  rcases hmove.launch hids (S.mem_nodes_of_correct hseg.correct) ht with
    ⟨q, qs, rfl, hact, hrest⟩ | ⟨rfl, hseen⟩
  · refine .inl ⟨.singleHop k qs, qs, ?_, .singleHop qs, fun p hp => ?_⟩
    · refine List.mem_append_left _ (Option.mem_toList.mpr ?_)
      simp [perform, hrest]
    · rcases hall p hp with hin | hsent
      · rcases List.mem_cons.mp hin with rfl | hin
        · refine .inr ⟨⟨.send, _⟩, rfl, rfl, occurs_last hc ⟨_, _, hseg, ?_⟩⟩
          exact List.mem_flatMap.mpr ⟨_, hact, List.mem_singleton_self _⟩
        · exact .inl hin
      · exact .inr hsent.append
  · exact .inr ⟨hseen, fun p hp => ((hall p hp).resolve_left List.not_mem_nil).append⟩

/-- The SENDs begin. -/
theorem launched_of_originates (hids : UniqueIds S) (hc : exec (next S) initial ls = some c)
    (hseg : Segment (protocol S) S.parties c l s o base)
    (h : Originates S s (S.uuid s k) c l) :
    Launched S (ls ++ [l]) s k (entry o.st.vars (S.uuid s k)) (o.rest.toList ++ base.tasks s) := by
  obtain ⟨k', hk', o', base', hseg', hrest⟩ := h
  have hs := S.mem_nodes_of_correct hseg.correct
  obtain ⟨-, rfl, rfl⟩ := hseg.unique hseg'
  obtain rfl := (hids s hs s hs _ _ hk').2
  obtain ⟨t, rfl, hmove⟩ := move_of_segment hids hc hseg (S.uuid s k)
  have hrest' : t.rest = some (.sent k) ∨ t.rest = some (.sleeping k) := by
    simpa [perform] using hrest
  rcases hmove.start hrest' with ⟨hhop, hsleep⟩ | ⟨hhop, hsent, hact⟩
  · refine .inl ⟨.sleeping k, _, ?_, .sleeping, fun p hp => .inl ?_⟩
    · simp [perform, hsleep]
    · rwa [targets, if_pos hhop] at hp
  · refine .inl ⟨.sent k, _, ?_, .sent, fun p hp => .inr ⟨⟨.dolev, _⟩, rfl, rfl, ?_⟩⟩
    · simp [perform, hsent]
    · refine occurs_last hc ⟨_, _, hseg, ?_⟩
      rw [targets, if_neg (Bool.eq_false_iff.mp hhop)] at hp
      exact List.mem_flatMap.mpr ⟨_, hact, List.mem_map.mpr ⟨p, hp, rfl⟩⟩

/-- Every segment keeps `Progress`. -/
theorem Progress.segment (hb : Bounds S) (hids : UniqueIds S) (hs : s ∈ S.parties.nodes)
    (hc : exec (next S) initial ls = some c)
    (hseg : Segment (protocol S) S.parties c l i o base)
    (hA : (faithful S s k).Holds S.parties ls c) (hsilent : SilentStep ls c l)
    (h : Progress S s k ls i (entry (c.st i).vars (S.uuid s k)) (c.tasks i)) :
    Progress S s k (ls ++ [l]) i (entry o.st.vars (S.uuid s k))
      (o.rest.toList ++ base.tasks i) := by
  have hi := S.mem_nodes_of_correct hseg.correct
  have hev := eventOk_of_segment hA hseg hsilent
  obtain ⟨t, rfl, hmove⟩ := move_of_segment hids hc hseg (S.uuid s k)
  have hleft {k' : Cont} (hrest : t.rest = some k') :
      .suspended k' ∈ (perform S i t).rest.toList ++ base.tasks i := by
    simp [perform, hrest]
  refine
    { own := hmove.own h.own
      amplify := fun hamp hmember => hmove.amplify hi hs hev hamp hmember (h.amplify hamp hmember)
      answered := fun hamp => hmove.answered hamp (h.answered hamp)
      saw := fun hobl => hmove.saw hids hi hs hev hobl (h.saw hobl)
      echoed := fun he hway => ?_
      tripped := fun hmember hk => ?_
      readied := fun he => ?_
      delivering := fun hk => ?_
      delivered := hmove.delivered_card h.delivered
      counted := fun src p hh hm => ?_
      backed := fun j hj => ?_
      launched := ?_ }
  · -- echoed
    rcases hmove.echoed hb hi hs hev h.answered he hway with ⟨hold, hway'⟩ | ⟨msg, hact, hm, hp⟩
    · exact (h.echoed hold hway').append
    · exact hm ▸ hp ▸ voted_of_mem hc hseg hact
  · -- tripped
    rcases hmove.tripped hb hi hs hev hmember h.own
      (fun hamp => h.amplify hamp (readyCommittee_subset hb.nodes hmember)) hk with
        hready | ⟨msg, hrest, hm⟩ | ⟨hk', hnot, hno⟩
    · exact .inl hready
    · exact .inr ⟨msg, hleft hrest, hm⟩
    · rcases h.tripped hmember hk' with hold | ⟨msg, hmem, hm⟩
      · rw [hnot] at hold
        cases hold
      · rcases hseg.mem_base_tasks_or hmem with hbase | rfl
        · exact .inr ⟨msg, List.mem_append_right _ hbase, hm⟩
        · exact absurd hm (hno msg rfl)
  · -- readied
    rcases hmove.readied hev he with hold | ⟨msg, hact, hm, hp⟩
    · exact (h.readied hold).append
    · exact hm ▸ hp ▸ voted_of_mem hc hseg hact
  · -- delivering
    rcases hmove.delivering hk with hdel | ⟨msg, hrest | hrest, hm⟩ | ⟨hk', hnot, hno⟩
    · exact .inl hdel
    · exact .inr ⟨_, msg, hleft hrest, .inl rfl, hm⟩
    · exact .inr ⟨_, msg, hleft hrest, .inr rfl, hm⟩
    · rcases h.delivering hk' with hold | ⟨t', msg, hmem, ht', hm⟩
      · rw [hnot] at hold
        cases hold
      · rcases hseg.mem_base_tasks_or hmem with hbase | rfl
        · exact .inr ⟨t', msg, List.mem_append_right _ hbase, ht', hm⟩
        · refine absurd hm (hno msg ?_)
          rcases ht' with rfl | rfl
          · exact .inl rfl
          · exact .inr rfl
  · -- counted
    rcases hh.of_append with hold | hnew
    · obtain ⟨hsend, hecho, hready⟩ := h.counted src p hold hm
      exact ⟨fun hp => hmove.seen_mono (hsend hp), fun hp => hmove.echos_mono (hecho hp),
        fun hp => hmove.readys_mono (hready hp)⟩
    · rw [(event_of_handled hnew).2] at hmove
      exact hmove.counts hm
  · -- backed
    have hold (hj : j ∈ (entry (c.st i).vars (S.uuid s k)).readys) := h.backed j hj
    rcases hmove.readys with hsame | ⟨src, p, hevent, hp, hm, hins⟩
    · exact (hold (hsame ▸ hj)).imp_right (And.imp_right (And.imp_right Voted.append))
    rw [hins] at hj
    rcases Finset.mem_insert.mp hj with rfl | hj
    · have hnet := mem_net_of_event hseg hsilent hevent
      have hok := hA.msg _ hnet hm
      obtain ⟨hcorr, hsent⟩ := sent_of_in_flight rfl ls c hc _ hnet
      refine ⟨hcorr, hok.ready hp, hok.dst.symm, ?_⟩
      have hvote := voted_of_sent hsent (by rw [hp]; decide)
      rw [hm, hok.phase, hp] at hvote
      exact hvote.append
    · exact (hold hj).imp_right (And.imp_right (And.imp_right Voted.append))
  · -- launched
    rintro rfl hocc
    rcases hocc.last_or hc with hold | horig
    · exact (h.launched rfl hold).segment hids hc hseg
    · exact launched_of_originates hids hc hseg horig

theorem progress_inductive (hb : Bounds S) (hids : UniqueIds S) (hs : s ∈ S.parties.nodes) :
    (progress S s k).Inductive (protocol S) S.parties initial SilentStep where
  init := by
    refine ⟨fun i hi => ?_, fun _ _ => trivial, fun _ _ => trivial⟩
    have hentry : entry (initial.st i).vars (S.uuid s k) = {} := by simp [initial, entry]
    show Progress S s k [] i (entry (initial.st i).vars (S.uuid s k)) [.onStart]
    rw [hentry]
    exact progress_initial hb (S.mem_nodes_of_correct hi)
  node_mono hl h := h.append hl
  msg_mono _ := trivial
  segment hc hA hsilent hseg :=
    ⟨(hA.node _ hseg.correct).segment hb hids hs hc hseg
      (faithful_of_silent hids hs hc hsilent.prefix) hsilent, fun _ _ => trivial⟩

theorem progress_of_silent (hb : Bounds S) (hids : UniqueIds S) (hs : s ∈ S.parties.nodes)
    (hc : exec (next S) initial ls = some c) (hsilent : Silent ls) (hi : i ∈ S.parties.correct) :
    Progress S s k ls i (entry (c.st i).vars (S.uuid s k)) (c.tasks i) :=
  (Assertion.holds_of_meets (progress_inductive hb hids hs) ls c hc hsilent.meets).node i hi

end DistBench.Bracha.Optimized
