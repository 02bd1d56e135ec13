import DistBench.Bracha.OptimizedOrigin

/-!
# What a segment does to one message

A handler of the optimised Bracha only touches the entries of the message it
handles, and its branches are many: this module says once, for a message `m`,
everything a segment can do about it (`Move`). What is proved about progress is
proved of moves.

- `Event`, `turn`, `turn_of_segment`: a segment is the turn of its event.
- `Confined`, `WellKeyed`: a turn keeps to its messages, and finds the entries it
  indexes.
- `Entry`: what a node keeps about one message.
- `Move`, `move_of_segment`: the refinement. A turn that ends the message `k` of
  `on_start` may start the message `k + 1` as well, so a move leaves open what a
  turn does about other messages (`QuietAbout`).
-/

namespace DistBench.Bracha.Optimized

open DistBench.Async

variable (S : System)

/-- What starts or continues a coroutine. -/
inductive Event where
  | handle (src : PeerId) (p : Packet)
  | resume (t : Task)

/-- What a label starts or continues, whoever sent the message. -/
def event : Label PeerId Packet Task → Event
  | .recv e => .handle e.src e.msg
  | .forge e => .handle e.src e.msg
  | .wake _ t => .resume t

/-- The turn an event causes. -/
def turn (i : PeerId) (s : NodeState) : Event → Turn NodeState Cont
  | .handle src p => receive S i s src p
  | .resume t => proceed S i s t

/-- The ids `uuid4` draws are all different. -/
def UniqueIds : Prop :=
  ∀ i ∈ S.parties.nodes, ∀ j ∈ S.parties.nodes, ∀ k k', S.uuid i k = S.uuid j k' →
    i = j ∧ k = k'

variable {S} {ls : History} {i : PeerId} {m : String} {l : Label PeerId Packet Task}
  {c base : Config PeerId Packet NodeState Task} {s : NodeState}
  {o : Outcome PeerId Packet NodeState Task}

theorem turn_of_segment (h : Segment (protocol S) S.parties c l i o base) :
    o = perform S i (turn S i (c.st i) (event l)) := by
  cases h with
  | recv _ _ => rfl
  | forge _ _ => rfl
  | wake _ _ ho => exact (Option.some.inj ho).symm

/-! ## Turns keep to their messages -/

/-- What is left of the coroutine to do concerns the message `m`. -/
def Cont.About (S : System) (i : PeerId) (m : String) : Cont → Prop
  | .sleeping k | .singleHop k _ | .sent k => S.uuid i k = m
  | .echoed _ | .handled => False
  | .echoAmplified msg | .echoGenerated msg | .readyDone msg => msg.msgId = m

/-- The entries of the message the coroutine is about exist. -/
def Cont.Keyed (S : System) (i : PeerId) (v : BrachaState) (k : Cont) : Prop :=
  ∀ m, k.About S i m → m ∈ v.echos

/-- The dictionaries of a node agree on their keys, and its suspended
coroutines will find the entries they index. -/
structure WellKeyed (S : System) (i : PeerId) (v : BrachaState) (ts : List Task) : Prop where
  sameKeys : v.SameKeys
  keyed : ∀ k, .suspended k ∈ ts → k.Keyed S i v

/-- The turn, taken from `v`, only concerns the messages `P`; it writes entries
only where there are any, and suspends where there are. -/
structure Confined (S : System) (i : PeerId) (P : String → Prop) (v : BrachaState)
    (t : Turn NodeState Cont) : Prop where
  writes : v.Writes P t.st.vars
  acts : ∀ a ∈ t.acts, P a.message.msgId
  rest : ∀ k ∈ t.rest, ∀ m, k.About S i m → P m ∧ m ∈ t.st.vars.echos

section Confined

variable {P : String → Prop} {v : BrachaState} {src : PeerId} {msg : BrachaMessage}

theorem Confined.silent (h : v.Writes P s.vars) : Confined S i P v { st := s } :=
  ⟨h, by simp, by simp⟩

/-- A turn that broadcasts one message. -/
theorem Confined.vote (msg : BrachaMessage) {k : Cont} (h : v.Writes P s.vars) (hm : P msg.msgId)
    (hkey : msg.msgId ∈ s.vars.echos)
    (hk : k = .echoAmplified msg ∨ k = .echoGenerated msg ∨ k = .readyDone msg ∨ k = .handled) :
    Confined S i P v { st := s, acts := [.bracha msg], rest := some k } := by
  refine ⟨h, by simpa [Action.message] using hm, fun k' hk' m hk'm => ?_⟩
  obtain rfl : k = k' := by simpa using hk'
  rcases hk with rfl | rfl | rfl | rfl
  · exact hk'm ▸ ⟨hm, hkey⟩
  · exact hk'm ▸ ⟨hm, hkey⟩
  · exact hk'm ▸ ⟨hm, hkey⟩
  · exact hk'm.elim

theorem writes_countOwnEcho {w : BrachaState} (h : v.Writes P w) (hm : P m) (hkey : m ∈ w.echos) :
    v.Writes P (countOwnEcho i w m) := (h.markSentEcho hm hkey).addEcho i hm hkey

theorem mem_countOwnEcho {w : BrachaState} (hm : m ∈ w.echos) : m ∈ (countOwnEcho i w m).echos :=
  (BrachaState.mem_addEcho (s := w.markSentEcho m) hm).mpr hm

theorem confined_deliverIfReady (h : v.Writes P s.vars) (hm : P msg.msgId)
    (hkey : msg.msgId ∈ s.vars.echos) : Confined S i P v { st := deliverIfReady S s msg } := by
  refine .silent ?_
  unfold deliverIfReady
  split
  · rw [vars_checkCompletion]
    exact h.markDelivered hm hkey
  · exact h

theorem confined_send : Confined S i (· = msg.msgId) s.vars (send S i s src msg) := by
  have hinit : s.vars.Writes (· = msg.msgId) (s.vars.initState msg.msgId) := .initState .refl rfl
  have hsee := hinit.see rfl
  have hkey : msg.msgId ∈ ((s.vars.initState msg.msgId).see msg.msgId).echos :=
    BrachaState.mem_initState
  have hown := writes_countOwnEcho (i := i) hsee rfl hkey
  simp only [send]
  split
  · split
    · split
      · exact .vote { msg with phase := "echo" } (s := ⟨_, _, _, _⟩) hown rfl
          (mem_countOwnEcho hkey) (by simp)
      · exact .silent (s := ⟨_, _, _, _⟩) hsee
    · split
      · exact .vote { msg with phase := "echo" } (s := ⟨_, _, _, _⟩) hown rfl
          (mem_countOwnEcho hkey) (by simp)
      · exact .silent (s := ⟨_, _, _, _⟩) hsee
  · exact .silent (s := registerMessage ⟨_, _, _, _⟩ _) hinit

theorem confined_readyTrigger (h : v.Writes P s.vars) (hm : P msg.msgId)
    (hkey : msg.msgId ∈ s.vars.echos) : Confined S i P v (readyTrigger S i s msg) := by
  unfold readyTrigger
  split
  · exact .vote { msg with phase := "ready" } (h.markSentReady hm hkey) hm hkey (by simp)
  · exact .silent h

theorem confined_echo : Confined S i (· = msg.msgId) s.vars (echo S i s src msg) := by
  have hadd : s.vars.Writes (· = msg.msgId)
      ((s.vars.initState msg.msgId).addEcho msg.msgId src) :=
    .addEcho _ (.initState .refl rfl) rfl BrachaState.mem_initState
  have hkey : msg.msgId ∈ ((s.vars.initState msg.msgId).addEcho msg.msgId src).echos :=
    BrachaState.mem_initState_addEcho
  simp only [echo, registerMessage]
  split
  · refine ⟨writes_countOwnEcho hadd rfl hkey, by simp [Action.message], fun k hk m hkm => ?_⟩
    obtain rfl : Cont.echoAmplified msg = k := by simpa using hk
    exact ⟨hkm.symm, hkm ▸ mem_countOwnEcho hkey⟩
  · exact confined_readyTrigger hadd rfl hkey

theorem confined_readyAmplify (h : v.Writes P s.vars) (hm : P msg.msgId)
    (hkey : msg.msgId ∈ s.vars.echos) {will : Bool} :
    Confined S i P v (readyAmplify S s msg will) := by
  unfold readyAmplify
  split
  · exact .vote msg (h.markSentReady hm hkey) hm hkey (by simp)
  · exact confined_deliverIfReady h hm hkey

theorem confined_ready : Confined S i (· = msg.msgId) s.vars (ready S i s src msg) := by
  have hadd : s.vars.Writes (· = msg.msgId)
      ((s.vars.initState msg.msgId).addReady msg.msgId src) :=
    .addReady _ (.initState .refl rfl) rfl BrachaState.mem_initState
  have hkey : msg.msgId ∈ ((s.vars.initState msg.msgId).addReady msg.msgId src).echos :=
    BrachaState.mem_initState
  have hown := writes_countOwnEcho (i := i) hadd rfl hkey
  simp only [ready, registerMessage]
  split
  · split
    · refine ⟨hown, by simp [Action.message], fun k hk m hkm => ?_⟩
      obtain rfl : Cont.echoGenerated msg = k := by simpa using hk
      exact ⟨hkm.symm, hkm ▸ mem_countOwnEcho hkey⟩
    · exact confined_readyAmplify (s := ⟨_, _, _, _⟩) hown rfl (mem_countOwnEcho hkey)
  · exact confined_readyAmplify (s := ⟨_, _, _, _⟩) hadd rfl hkey

theorem confined_startMessage (h : v.Writes P s.vars) {k : Nat} (hm : P (S.uuid i k)) :
    Confined S i P v (startMessage S i s k) := by
  simp only [startMessage, registerMessage]
  split
  · split
    · refine ⟨h.initState hm, by simp, fun k' hk' m hkm => ?_⟩
      obtain rfl : Cont.sleeping k = k' := by simpa using hk'
      exact hkm ▸ ⟨hm, BrachaState.mem_initState⟩
    · refine ⟨h.initState hm, by simpa [Action.message, initialSend] using hm,
        fun k' hk' m hkm => ?_⟩
      obtain rfl : Cont.sent k = k' := by simpa using hk'
      exact hkm ▸ ⟨hm, BrachaState.mem_initState⟩
  · exact .silent h

theorem confined_singleHop {k : Nat} (hkey : S.uuid i k ∈ s.vars.echos) (ps : List PeerId) :
    Confined S i (fun m => m = S.uuid i k ∨ m = S.uuid i (k + 1)) s.vars
      (singleHop S i s k ps) := by
  cases ps with
  | cons p ps =>
    refine ⟨.refl, by simp [singleHop, Action.message, initialSend], fun k' hk' m hkm => ?_⟩
    obtain rfl : Cont.singleHop k ps = k' := by simpa [singleHop] using hk'
    exact hkm ▸ ⟨.inl rfl, hkey⟩
  | nil =>
    have hsee : s.vars.Writes (fun m => m = S.uuid i k ∨ m = S.uuid i (k + 1))
        (s.vars.see (S.uuid i k)) := .see .refl (.inl rfl)
    simp only [singleHop, afterSend]
    split
    · refine ⟨writes_countOwnEcho hsee (.inl rfl) hkey, by simp [Action.message, initialSend],
        fun k' hk' m hkm => ?_⟩
      obtain rfl : Cont.echoed k = k' := by simpa using hk'
      exact hkm.elim
    · exact confined_startMessage (s := ⟨_, _, _, _⟩) hsee (.inr rfl)

/-- The messages an event may concern. -/
def Event.Touches (S : System) (i : PeerId) (m : String) : Event → Prop
  | .handle _ p => m = p.msg.msgId
  | .resume .onStart => m = S.uuid i 0
  | .resume (.suspended k) =>
    match k with
    | .sleeping k | .singleHop k _ | .sent k => m = S.uuid i k ∨ m = S.uuid i (k + 1)
    | .echoed k => m = S.uuid i (k + 1)
    | .handled => False
    | .echoAmplified msg | .echoGenerated msg | .readyDone msg => m = msg.msgId

theorem confined_turn {ts : List Task} (hv : WellKeyed S i s.vars ts) {ev : Event}
    (hev : ∀ t, ev = .resume t → t ∈ ts) :
    Confined S i (fun m => ev.Touches S i m) s.vars (turn S i s ev) := by
  cases ev with
  | handle src p =>
    show Confined S i (· = p.msg.msgId) s.vars (receive S i s src p)
    rw [receive_eq]
    split
    · exact confined_send
    · split
      · exact confined_echo
      · split
        · exact confined_ready
        · exact .silent .refl
  | resume t =>
    cases t with
    | onStart =>
      show Confined S i (· = S.uuid i 0) s.vars (onStart S i s)
      unfold onStart
      split
      · exact confined_startMessage .refl rfl
      · exact .silent .refl
    | suspended k =>
      have hk := hv.keyed k (hev _ rfl)
      cases k with
      | sleeping k => exact confined_singleHop (hk _ rfl) _
      | singleHop k ps => exact confined_singleHop (hk _ rfl) ps
      | sent k => exact confined_singleHop (hk _ rfl) []
      | echoed k => exact confined_startMessage .refl rfl
      | handled => exact .silent .refl
      | echoAmplified msg => exact confined_readyTrigger .refl rfl (hk _ rfl)
      | echoGenerated msg => exact confined_deliverIfReady .refl rfl (hk _ rfl)
      | readyDone msg => exact confined_deliverIfReady .refl rfl (hk _ rfl)

end Confined

/-- A coroutine that goes on was suspended. -/
theorem mem_tasks_of_event (h : Segment (protocol S) S.parties c l i o base) {t : Task}
    (ht : event l = .resume t) : t ∈ c.tasks i ∧ l = .wake i t := by
  cases h with
  | recv _ _ => cases ht
  | forge _ _ => cases ht
  | wake _ hmem _ =>
    cases ht
    exact ⟨hmem, rfl⟩

/-- `WellKeyed` of every correct node. -/
def wellKeyed (S : System) : Assertion PeerId Packet NodeState Task where
  node _ i s ts := WellKeyed S i s.vars ts
  msg _ _ := True

theorem wellKeyed_inductive :
    (wellKeyed S).Inductive (protocol S) S.parties initial fun _ _ _ => True where
  init := by
    refine ⟨fun i _ => ⟨BrachaState.sameKeys_empty, fun k hk => ?_⟩, fun _ _ => trivial,
      fun _ _ => trivial⟩
    simp [initial] at hk
  node_mono _ h := h
  msg_mono _ := trivial
  segment := by
    intro ls c l i o base _ hA _ hseg
    have hwf : WellKeyed S i (c.st i).vars (c.tasks i) := hA.node i hseg.correct
    have hconf := confined_turn hwf fun t ht => (mem_tasks_of_event hseg ht).1
    obtain rfl := turn_of_segment hseg
    refine ⟨⟨hconf.writes.sameKeys hwf.sameKeys, fun k hk m hkm => ?_⟩, fun _ _ => trivial⟩
    rcases hseg.mem_rest_or_tasks hk with hrest | hold
    · have hrest' : (turn S i (c.st i) (event l)).rest = some k := by simpa [perform] using hrest
      exact (hconf.rest k hrest' m hkm).2
    · exact hconf.writes.mem (hwf.keyed k hold m hkm)

/-- In every run the dictionaries of a correct node agree on their keys. -/
theorem wellKeyed_of_run (hc : exec (next S) initial ls = some c) (hi : i ∈ S.parties.correct) :
    WellKeyed S i (c.st i).vars (c.tasks i) :=
  (Assertion.holds_of_run wellKeyed_inductive hc).node i hi

/-! ## Moves -/

/-- What a node keeps about one message. -/
@[ext] structure Entry extends Slot where
  seen : Bool := false

/-- The entry of message `m`. -/
def entry (v : BrachaState) (m : String) : Entry :=
  { v.slot m with seen := m ∈ v.seenMessages }

/-- The event runs code that concerns the message `m`. -/
def Event.About (S : System) (i : PeerId) (m : String) : Event → Prop
  | .handle _ p =>
    p.msg.msgId = m ∧ (p.phase = "send" ∨ p.phase = "echo" ∨ p.phase = "ready")
  | .resume .onStart => False
  | .resume (.suspended k) => k.About S i m

/-- The turn gives nothing away and leaves nothing to do about `m`. -/
def QuietAbout (S : System) (i : PeerId) (m : String) (acts : List Action)
    (rest : Option Cont) : Prop :=
  (∀ a ∈ acts, a.message.msgId ≠ m) ∧ ∀ k ∈ rest, ¬ k.About S i m

/-- `on_start` of node `i` is at the SENDs of message `k`, with these peers
left to send it to. -/
inductive Cont.Launching (S : System) (i : PeerId) (k : Nat) : Cont → List PeerId → Prop
  | sleeping : Launching S i k (.sleeping k) (neighbourPeers S i)
  | singleHop (ps : List PeerId) : Launching S i k (.singleHop k ps) ps
  | sent : Launching S i k (.sent k) []

variable (S)

/-- The READY trigger, and the `sent_ready` it leaves. -/
inductive Trigger (i : PeerId) (msg : BrachaMessage) (e : Entry) :
    Bool → List Action → Option Cont → Prop
  | fires (hnew : e.sentReady = false) (hcard : readyThreshold (S.N i) S.f ≤ e.echos.card)
      (hmember : shouldGenerateReady S i msg.sender = true) :
      Trigger i msg e true [.bracha { msg with phase := "ready" }] (some .handled)
  | waits (h : e.sentReady = true ∨ e.echos.card < readyThreshold (S.N i) S.f ∨
      shouldGenerateReady S i msg.sender = false) : Trigger i msg e e.sentReady [] none

/-- The delivery test, and the `delivered` it leaves. -/
inductive Deliver (e : Entry) : Bool → Prop
  | yes (hnew : e.delivered = false) (hcard : deliverThreshold S.f ≤ e.readys.card) :
      Deliver e true
  | no (h : e.delivered = true ∨ e.readys.card < deliverThreshold S.f) : Deliver e e.delivered

/-- The entry after the node has marked and counted its own ECHO. -/
def Entry.countOwnEcho (i : PeerId) (e : Entry) : Entry :=
  { e with sentEcho := true, echos := insert i e.echos }

/-- The entry after `ready` has counted a READY, and the node's own ECHO if Echo
Amplification is on and it has not sent one. -/
def Entry.answer (i src : PeerId) (e : Entry) : Entry :=
  let e' := { e with readys := insert src e.readys }
  if S.enableEchoAmplification = true ∧ e.sentEcho = false then e'.countOwnEcho i else e'

section Answer

variable (i src : PeerId) (e : Entry)

@[simp] theorem Entry.answer_readys : (e.answer S i src).readys = insert src e.readys := by
  simp only [Entry.answer]
  split <;> rfl

@[simp] theorem Entry.answer_sentReady : (e.answer S i src).sentReady = e.sentReady := by
  simp only [Entry.answer]
  split <;> rfl

@[simp] theorem Entry.answer_delivered : (e.answer S i src).delivered = e.delivered := by
  simp only [Entry.answer]
  split <;> rfl

@[simp] theorem Entry.answer_seen : (e.answer S i src).seen = e.seen := by
  simp only [Entry.answer]
  split <;> rfl

end Answer

/-- `send` broadcasts an ECHO for a message it has not seen. -/
def SendEchoes (i : PeerId) (msg : BrachaMessage) (e : Entry) : Prop :=
  if S.enableSingleHopSend then e.sentEcho = false
  else S.enableReducedMessages = false ∨ shouldGenerateEcho S i msg.sender = true

/-- Everything a segment can do about the message `m`. -/
inductive Move (i : PeerId) (m : String) (e : Entry) :
    Event → Entry → List Action → Option Cont → Prop
  | other {ev acts rest} (hev : ¬ ev.About S i m) (h : QuietAbout S i m acts rest) :
      Move i m e ev e acts rest
  | sendSeen {src p} (hp : p.phase = "send") (hm : p.msg.msgId = m) (hseen : e.seen = true) :
      Move i m e (.handle src p) e [] none
  | sendNew {src p} (hp : p.phase = "send") (hm : p.msg.msgId = m) (hseen : e.seen = false)
      (hecho : SendEchoes S i p.msg e) :
      Move i m e (.handle src p) (Entry.countOwnEcho i { e with seen := true })
        [.bracha { p.msg with phase := "echo" }] (some .handled)
  | sendSkip {src p} (hp : p.phase = "send") (hm : p.msg.msgId = m) (hseen : e.seen = false)
      (hecho : ¬ SendEchoes S i p.msg e) :
      Move i m e (.handle src p) { e with seen := true } [] none
  | echoAmplify {src p} (hp : p.phase = "echo") (hm : p.msg.msgId = m)
      (hamp : S.enableEchoAmplification = true) (hnew : e.sentEcho = false)
      (hcard : S.f + 1 ≤ (insert src e.echos).card)
      (hmember : shouldGenerateEcho S i p.msg.sender = true) :
      Move i m e (.handle src p) (Entry.countOwnEcho i { e with echos := insert src e.echos })
        [.bracha { p.msg with phase := "echo" }] (some (.echoAmplified p.msg))
  | echoCount {src p b acts rest} (hp : p.phase = "echo") (hm : p.msg.msgId = m)
      (hno : S.enableEchoAmplification = false ∨ e.sentEcho = true ∨
        (insert src e.echos).card < S.f + 1 ∨ shouldGenerateEcho S i p.msg.sender = false)
      (h : Trigger S i p.msg { e with echos := insert src e.echos } b acts rest) :
      Move i m e (.handle src p) { e with echos := insert src e.echos, sentReady := b } acts rest
  | readyEcho {src p} (hp : p.phase = "ready") (hm : p.msg.msgId = m)
      (hamp : S.enableEchoAmplification = true) (hnew : e.sentEcho = false)
      (hno : e.sentReady = true ∨ (insert src e.readys).card < S.f + 1 ∨
        shouldGenerateReady S i p.msg.sender = false)
      (hmember : shouldGenerateEcho S i p.msg.sender = true) :
      Move i m e (.handle src p) (e.answer S i src)
        [.bracha { p.msg with phase := "echo" }] (some (.echoGenerated p.msg))
  | readyTip {src p} (hp : p.phase = "ready") (hm : p.msg.msgId = m) (hnew : e.sentReady = false)
      (hcard : S.f + 1 ≤ (insert src e.readys).card)
      (hmember : shouldGenerateReady S i p.msg.sender = true) :
      Move i m e (.handle src p) { e.answer S i src with sentReady := true } [.bracha p.msg]
        (some (.readyDone p.msg))
  | readyCount {src p b} (hp : p.phase = "ready") (hm : p.msg.msgId = m)
      (hno : e.sentReady = true ∨ (insert src e.readys).card < S.f + 1 ∨
        shouldGenerateReady S i p.msg.sender = false)
      (hquiet : S.enableEchoAmplification = true → e.sentEcho = false →
        shouldGenerateEcho S i p.msg.sender = false)
      (h : Deliver S (e.answer S i src) b) :
      Move i m e (.handle src p) { e.answer S i src with delivered := b } [] none
  | amplified {msg b acts rest} (hm : msg.msgId = m) (h : Trigger S i msg e b acts rest) :
      Move i m e (.resume (.suspended (.echoAmplified msg))) { e with sentReady := b } acts rest
  | tested {msg k b} (hm : msg.msgId = m) (hk : k = .echoGenerated msg ∨ k = .readyDone msg)
      (h : Deliver S e b) : Move i m e (.resume (.suspended k)) { e with delivered := b } [] none
  | startHop {ev k} (hev : ¬ ev.About S i m) (hm : S.uuid i k = m)
      (hhop : S.enableSingleHopSend = true) : Move i m e ev e [] (some (.sleeping k))
  | startSend {ev k} (hev : ¬ ev.About S i m) (hm : S.uuid i k = m)
      (hhop : S.enableSingleHopSend = false) :
      Move i m e ev e [.bracha (initialSend S i k)] (some (.sent k))
  | hop {k q ps t} (hm : S.uuid i k = m) (ht : t.Launching S i k (q :: ps)) :
      Move i m e (.resume (.suspended t)) e [.sendTo q (initialSend S i k)]
        (some (.singleHop k ps))
  | launchedEcho {k t} (hm : S.uuid i k = m) (ht : t.Launching S i k [])
      (hmember : shouldGenerateEcho S i i = true) :
      Move i m e (.resume (.suspended t)) (Entry.countOwnEcho i { e with seen := true })
        [.bracha { initialSend S i k with phase := "echo" }] (some (.echoed k))
  | launched {k t acts rest} (hm : S.uuid i k = m) (ht : t.Launching S i k [])
      (hmember : shouldGenerateEcho S i i = false) (h : QuietAbout S i m acts rest) :
      Move i m e (.resume (.suspended t)) { e with seen := true } acts rest

/-! ## The code refines the moves -/

variable {S} {src : PeerId} {msg : BrachaMessage} {p : Packet} {v : BrachaState} {k : Nat}

@[simp] theorem entry_initState (m' : String) : entry (v.initState m') m = entry v m := by
  simp [entry]

@[simp] theorem entry_see : entry (v.see m) m = { entry v m with seen := true } := by
  simp [entry]

theorem entry_addEcho (hkey : m ∈ v.echos) (x : PeerId) :
    entry (v.addEcho m x) m = { entry v m with echos := insert x (entry v m).echos } := by
  rw [entry, BrachaState.slot_addEcho hkey, Function.update_self]
  rfl

theorem entry_addReady (hkey : m ∈ v.echos) (x : PeerId) :
    entry (v.addReady m x) m = { entry v m with readys := insert x (entry v m).readys } := by
  rw [entry, BrachaState.slot_addReady hkey, Function.update_self]
  rfl

theorem entry_countOwnEcho (hkey : m ∈ v.echos) :
    entry (countOwnEcho i v m) m = (entry v m).countOwnEcho i := by
  have hmark : entry (v.markSentEcho m) m = { entry v m with sentEcho := true } := by
    rw [entry, BrachaState.slot_markSentEcho hkey, Function.update_self]
    rfl
  rw [countOwnEcho, entry_addEcho (v := v.markSentEcho m) hkey, hmark]
  rfl

theorem entry_markSentReady (hkey : m ∈ v.echos) :
    entry (v.markSentReady m) m = { entry v m with sentReady := true } := by
  rw [entry, BrachaState.slot_markSentReady hkey, Function.update_self]
  rfl

theorem entry_markDelivered (hkey : m ∈ v.echos) :
    entry (v.markDelivered m) m = { entry v m with delivered := true } := by
  rw [entry, BrachaState.slot_markDelivered hkey, Function.update_self]
  rfl

theorem deliver_deliverIfReady (hkey : msg.msgId ∈ s.vars.echos) :
    ∃ b, Deliver S (entry s.vars msg.msgId) b ∧
      entry (deliverIfReady S s msg).vars msg.msgId =
        { entry s.vars msg.msgId with delivered := b } := by
  unfold deliverIfReady
  rw [BrachaState.get_delivered hkey, BrachaState.get_readys hkey]
  split
  · rename_i h
    rw [vars_checkCompletion, entry_markDelivered hkey]
    exact ⟨true, .yes h.1 h.2, rfl⟩
  · rename_i h
    rw [not_and_or, Bool.not_eq_false, Nat.not_le] at h
    exact ⟨_, .no h, rfl⟩

theorem trigger_readyTrigger (hkey : msg.msgId ∈ s.vars.echos) :
    ∃ b, Trigger S i msg (entry s.vars msg.msgId) b (readyTrigger S i s msg).acts
        (readyTrigger S i s msg).rest ∧
      entry (readyTrigger S i s msg).st.vars msg.msgId =
        { entry s.vars msg.msgId with sentReady := b } := by
  unfold readyTrigger
  rw [BrachaState.get_sentReady hkey, BrachaState.get_echos hkey]
  split
  · rename_i h
    rw [entry_markSentReady hkey]
    exact ⟨true, .fires h.1 h.2.1 h.2.2, rfl⟩
  · rename_i h
    rw [not_and_or, not_and_or, Bool.not_eq_false, Nat.not_le, Bool.not_eq_true] at h
    exact ⟨_, .waits h, rfl⟩

theorem move_send (hp : p.phase = "send") :
    Move S i p.msg.msgId (entry s.vars p.msg.msgId) (.handle src p)
      (entry (send S i s src p.msg).st.vars p.msg.msgId) (send S i s src p.msg).acts
      (send S i s src p.msg).rest := by
  have hkey : p.msg.msgId ∈ ((s.vars.initState p.msg.msgId).see p.msg.msgId).echos :=
    BrachaState.mem_initState
  have hsee : entry ((s.vars.initState p.msg.msgId).see p.msg.msgId) p.msg.msgId =
      { entry s.vars p.msg.msgId with seen := true } := by
    rw [entry_see, entry_initState]
  have hown : entry (countOwnEcho i ((s.vars.initState p.msg.msgId).see p.msg.msgId)
      p.msg.msgId) p.msg.msgId =
        Entry.countOwnEcho i { entry s.vars p.msg.msgId with seen := true } := by
    rw [entry_countOwnEcho hkey, hsee]
  have hsent : ((s.vars.initState p.msg.msgId).see p.msg.msgId).sentEcho.get p.msg.msgId false =
      (entry s.vars p.msg.msgId).sentEcho := by
    rw [BrachaState.get_sentEcho hkey]
    simp [entry]
  simp only [send]
  split
  · rename_i hnew
    have hseen : (entry s.vars p.msg.msgId).seen = false := by
      simpa [registerMessage, entry] using hnew
    split
    · rename_i hhop
      split
      · rename_i hecho
        show Move S i _ _ _ (entry (countOwnEcho i ((s.vars.initState _).see _) _) _) _ _
        rw [hown]
        refine .sendNew hp rfl hseen ?_
        rw [SendEchoes, if_pos hhop]
        exact hsent.symm.trans hecho
      · rename_i hecho
        show Move S i _ _ _ (entry ((s.vars.initState _).see _) _) _ _
        rw [hsee]
        refine .sendSkip hp rfl hseen ?_
        rw [SendEchoes, if_pos hhop]
        exact fun h => hecho (hsent.trans h)
    · rename_i hhop
      split
      · rename_i hecho
        show Move S i _ _ _ (entry (countOwnEcho i ((s.vars.initState _).see _) _) _) _ _
        rw [hown]
        refine .sendNew hp rfl hseen ?_
        rw [SendEchoes, if_neg hhop]
        exact hecho
      · rename_i hecho
        show Move S i _ _ _ (entry ((s.vars.initState _).see _) _) _ _
        rw [hsee]
        refine .sendSkip hp rfl hseen ?_
        rw [SendEchoes, if_neg hhop]
        exact hecho
  · rename_i hold
    show Move S i _ _ _ (entry (s.vars.initState p.msg.msgId) _) _ _
    rw [entry_initState]
    refine .sendSeen hp rfl ?_
    simpa [registerMessage, entry] using hold

theorem move_echo (hp : p.phase = "echo") :
    Move S i p.msg.msgId (entry s.vars p.msg.msgId) (.handle src p)
      (entry (echo S i s src p.msg).st.vars p.msg.msgId) (echo S i s src p.msg).acts
      (echo S i s src p.msg).rest := by
  have hkey : p.msg.msgId ∈ ((s.vars.initState p.msg.msgId).addEcho p.msg.msgId src).echos :=
    BrachaState.mem_initState_addEcho
  have hadd : entry ((s.vars.initState p.msg.msgId).addEcho p.msg.msgId src) p.msg.msgId =
      { entry s.vars p.msg.msgId with echos := insert src (entry s.vars p.msg.msgId).echos } := by
    rw [entry_addEcho BrachaState.mem_initState, entry_initState]
  simp only [echo, registerMessage, BrachaState.get_sentEcho hkey, BrachaState.get_echos hkey,
    BrachaState.slot_initState_addEcho, Function.update_self]
  split
  · rename_i h
    rw [entry_countOwnEcho hkey, hadd]
    exact .echoAmplify hp rfl h.1 h.2.1 h.2.2.1 h.2.2.2
  · rename_i h
    rw [not_and_or, not_and_or, not_and_or, Bool.not_eq_true, Bool.not_eq_false, Nat.not_le,
      Bool.not_eq_true] at h
    obtain ⟨b, htrigger, hentry⟩ := trigger_readyTrigger (S := S) (i := i)
      (s := ⟨(s.vars.initState p.msg.msgId).addEcho p.msg.msgId src,
        insert p.msg.msgId s.expectedMessages, s.terminated, s.deliveries⟩) hkey
    rw [hadd] at htrigger
    rw [hentry, hadd]
    exact .echoCount hp rfl h htrigger

/-- What `ready` does once it has settled the node's own ECHO. -/
theorem move_readyAmplify {e : Entry} {will : Bool} (hp : p.phase = "ready")
    (hkey : p.msg.msgId ∈ s.vars.echos)
    (hanswer : entry s.vars p.msg.msgId = e.answer S i src)
    (hwill : will = true ↔ e.sentReady = false ∧ S.f + 1 ≤ (insert src e.readys).card ∧
      shouldGenerateReady S i p.msg.sender = true)
    (hquiet : will = false → S.enableEchoAmplification = true → e.sentEcho = false →
      shouldGenerateEcho S i p.msg.sender = false) :
    Move S i p.msg.msgId e (.handle src p)
      (entry (readyAmplify S s p.msg will).st.vars p.msg.msgId) (readyAmplify S s p.msg will).acts
      (readyAmplify S s p.msg will).rest := by
  cases will with
  | true =>
    obtain ⟨hnew, hcard, hmember⟩ := hwill.mp rfl
    show Move S i _ _ _ (entry (s.vars.markSentReady _) _) _ _
    rw [entry_markSentReady hkey, hanswer]
    exact .readyTip hp rfl hnew hcard hmember
  | false =>
    have hno := mt hwill.mpr Bool.false_ne_true
    rw [not_and_or, not_and_or, Bool.not_eq_false, Nat.not_le, Bool.not_eq_true] at hno
    obtain ⟨b, hdel, hentry⟩ := deliver_deliverIfReady (S := S) hkey
    show Move S i _ _ _ (entry (deliverIfReady S s p.msg).vars _) _ _
    rw [hentry, hanswer]
    exact .readyCount hp rfl hno (hquiet rfl) (hanswer ▸ hdel)

theorem move_ready (hp : p.phase = "ready") :
    Move S i p.msg.msgId (entry s.vars p.msg.msgId) (.handle src p)
      (entry (ready S i s src p.msg).st.vars p.msg.msgId) (ready S i s src p.msg).acts
      (ready S i s src p.msg).rest := by
  have hkey : p.msg.msgId ∈ ((s.vars.initState p.msg.msgId).addReady p.msg.msgId src).echos :=
    BrachaState.mem_initState
  have hadd : entry ((s.vars.initState p.msg.msgId).addReady p.msg.msgId src) p.msg.msgId =
      { entry s.vars p.msg.msgId with readys := insert src (entry s.vars p.msg.msgId).readys } := by
    rw [entry_addReady BrachaState.mem_initState, entry_initState]
  have hwill : willSendReadyNow S i ((s.vars.initState p.msg.msgId).addReady p.msg.msgId src)
      p.msg = true ↔ (entry s.vars p.msg.msgId).sentReady = false ∧
        S.f + 1 ≤ (insert src (entry s.vars p.msg.msgId).readys).card ∧
          shouldGenerateReady S i p.msg.sender = true := by
    rw [willSendReadyNow, decide_eq_true_eq, BrachaState.get_sentReady hkey,
      BrachaState.get_readys hkey, BrachaState.slot_initState_addReady, Function.update_self]
    rfl
  simp only [ready, registerMessage, BrachaState.get_sentEcho hkey,
    BrachaState.slot_initState_addReady, Function.update_self]
  split
  · rename_i h
    have hown : S.enableEchoAmplification = true ∧ (entry s.vars p.msg.msgId).sentEcho = false := h
    have hanswer : entry (countOwnEcho i
        ((s.vars.initState p.msg.msgId).addReady p.msg.msgId src) p.msg.msgId) p.msg.msgId =
          (entry s.vars p.msg.msgId).answer S i src := by
      rw [entry_countOwnEcho hkey, hadd, Entry.answer, if_pos hown]
    split
    · rename_i h
      have hno := mt hwill.mpr (ne_true_of_eq_false h.1)
      rw [not_and_or, not_and_or, Bool.not_eq_false, Nat.not_le, Bool.not_eq_true] at hno
      rw [hanswer]
      exact .readyEcho hp rfl hown.1 hown.2 hno h.2
    · rename_i h
      rw [not_and_or, Bool.not_eq_true (shouldGenerateEcho _ _ _)] at h
      exact move_readyAmplify (s := ⟨_, _, _, _⟩) hp (mem_countOwnEcho hkey) hanswer hwill
        fun hw _ _ => h.resolve_left (not_not_intro hw)
  · rename_i h
    have hown : ¬ (S.enableEchoAmplification = true ∧
      (entry s.vars p.msg.msgId).sentEcho = false) := h
    have hanswer : entry ((s.vars.initState p.msg.msgId).addReady p.msg.msgId src) p.msg.msgId =
        (entry s.vars p.msg.msgId).answer S i src := by
      rw [hadd, Entry.answer, if_neg hown]
    exact move_readyAmplify (s := ⟨_, _, _, _⟩) hp hkey hanswer hwill
      fun _ hamp hnew => absurd ⟨hamp, hnew⟩ hown

/-- `on_start` takes up its message `k`. -/
theorem move_startMessage {ev : Event} (hev : ¬ ev.About S i (S.uuid i k)) :
    Move S i (S.uuid i k) (entry s.vars (S.uuid i k)) ev
      (entry (startMessage S i s k).st.vars (S.uuid i k)) (startMessage S i s k).acts
      (startMessage S i s k).rest := by
  simp only [startMessage, registerMessage]
  split
  · split
    · rename_i hhop
      rw [entry_initState]
      exact .startHop hev rfl hhop
    · rename_i hhop
      rw [entry_initState]
      exact .startSend hev rfl (Bool.eq_false_iff.mpr hhop)
  · exact .other hev ⟨by simp, by simp⟩

/-- A turn that keeps to other messages does nothing about `m` … -/
theorem Confined.quiet {P : String → Prop} {t : Turn NodeState Cont} (h : Confined S i P v t)
    (hm : ¬ P m) : QuietAbout S i m t.acts t.rest :=
  ⟨fun a ha hma => hm (hma ▸ h.acts a ha), fun k hk hkm => hm (h.rest k hk m hkm).1⟩

theorem Confined.entry_eq {P : String → Prop} {t : Turn NodeState Cont} (h : Confined S i P v t)
    (hm : ¬ P m) : entry t.st.vars m = entry v m := by
  rw [entry, entry, h.writes.slot_eq hm]
  simp [h.writes.mem_seenMessages_iff hm]

/-- … so it is no move of `m`. -/
theorem Confined.move {P : String → Prop} {t : Turn NodeState Cont} {ev : Event}
    (h : Confined S i P s.vars t) (hm : ¬ P m) (hev : ¬ ev.About S i m) :
    Move S i m (entry s.vars m) ev (entry t.st.vars m) t.acts t.rest := by
  rw [h.entry_eq hm]
  exact .other hev (h.quiet hm)

/-- `on_start` at the SENDs of its message `k`. -/
theorem move_launching (hids : UniqueIds S) (hi : i ∈ S.parties.nodes) {t : Cont}
    {ps : List PeerId} (ht : t.Launching S i k ps) (hkey : S.uuid i k ∈ s.vars.echos)
    (hm : m = S.uuid i k ∨ m = S.uuid i (k + 1)) :
    Move S i m (entry s.vars m) (.resume (.suspended t))
      (entry (singleHop S i s k ps).st.vars m) (singleHop S i s k ps).acts
      (singleHop S i s k ps).rest := by
  have hne : S.uuid i (k + 1) ≠ S.uuid i k := by
    intro heq
    have := (hids i hi i hi (k + 1) k heq).2
    omega
  have habout (m : String) : (Event.resume (.suspended t)).About S i m ↔ S.uuid i k = m := by
    cases ht <;> rfl
  have hnot : ¬ (Event.resume (.suspended t)).About S i (S.uuid i (k + 1)) := by
    rw [habout]
    exact hne.symm
  cases ps with
  | cons q ps =>
    rcases hm with rfl | rfl
    · exact .hop rfl ht
    · refine .other hnot ⟨?_, ?_⟩
      · simpa [singleHop, Action.message, initialSend] using hne.symm
      · simpa [singleHop, Cont.About] using hne.symm
  | nil =>
    have hsee : entry (s.vars.see (S.uuid i k)) (S.uuid i (k + 1)) =
        entry s.vars (S.uuid i (k + 1)) := by
      simp [entry, hne]
    simp only [singleHop, afterSend]
    split
    · rename_i hmember
      rcases hm with rfl | rfl
      · rw [entry_countOwnEcho (v := s.vars.see (S.uuid i k)) hkey, entry_see]
        exact .launchedEcho rfl ht hmember
      · have hown : (s.vars.see (S.uuid i k)).Writes (· = S.uuid i k)
            (countOwnEcho i (s.vars.see (S.uuid i k)) (S.uuid i k)) :=
          writes_countOwnEcho .refl rfl hkey
        have hconf : Confined S i (· = S.uuid i k) (s.vars.see (S.uuid i k))
            { st := { s with vars := countOwnEcho i (s.vars.see (S.uuid i k)) (S.uuid i k) }
              acts := [.bracha { initialSend S i k with phase := "echo" }]
              rest := some (.echoed k) } :=
          ⟨hown, by simp [Action.message, initialSend], by simp [Cont.About]⟩
        rw [hconf.entry_eq hne, hsee]
        exact .other hnot (hconf.quiet hne)
    · rename_i hmember
      rcases hm with rfl | rfl
      · -- what the turn does next is about the next message
        have hconf : Confined S i (· = S.uuid i (k + 1)) (s.vars.see (S.uuid i k))
            (startMessage S i { s with vars := s.vars.see (S.uuid i k) } (k + 1)) :=
          confined_startMessage (s := ⟨_, _, _, _⟩) .refl rfl
        rw [hconf.entry_eq hne.symm, entry_see]
        exact .launched rfl ht (Bool.eq_false_iff.mpr hmember) (hconf.quiet hne.symm)
      · rw [← hsee]
        exact move_startMessage (s := { s with vars := s.vars.see (S.uuid i k) }) hnot

/-- A turn is a move of every message. -/
theorem move_turn (hids : UniqueIds S) (hi : i ∈ S.parties.nodes) {ts : List Task}
    (hv : WellKeyed S i s.vars ts) {ev : Event} (hev : ∀ t, ev = .resume t → t ∈ ts) (m : String) :
    Move S i m (entry s.vars m) ev (entry (turn S i s ev).st.vars m) (turn S i s ev).acts
      (turn S i s ev).rest := by
  have hconf := confined_turn hv hev
  by_cases hm : ev.Touches S i m
  swap
  · refine hconf.move hm fun habout => hm ?_
    cases ev with
    | handle src p => exact habout.1.symm
    | resume t =>
      cases t with
      | onStart => exact habout.elim
      | suspended k =>
        cases k with
        | sleeping _ | singleHop _ _ | sent _ => exact .inl habout.symm
        | echoed _ | handled => exact habout.elim
        | echoAmplified _ | echoGenerated _ | readyDone _ => exact habout.symm
  cases ev with
  | handle src p =>
    obtain rfl : m = p.msg.msgId := hm
    simp only [turn, receive_eq]
    split
    · rename_i hp
      exact move_send hp
    · rename_i hsend
      split
      · rename_i hp
        exact move_echo hp
      · rename_i hecho
        split
        · rename_i hp
          exact move_ready hp
        · rename_i hready
          refine .other (fun habout => ?_) ⟨by simp, by simp⟩
          rcases habout.2 with hp | hp | hp
          · exact hsend hp
          · exact hecho hp
          · exact hready hp
  | resume t =>
    cases t with
    | onStart =>
      obtain rfl : m = S.uuid i 0 := hm
      show Move S i _ _ _ (entry (onStart S i s).st.vars _) (onStart S i s).acts
        (onStart S i s).rest
      unfold onStart
      split
      · exact move_startMessage id
      · exact .other id ⟨by simp, by simp⟩
    | suspended k =>
      have hk := hv.keyed k (hev _ rfl)
      cases k with
      | sleeping k => exact move_launching hids hi .sleeping (hk _ rfl) hm
      | singleHop k ps => exact move_launching hids hi (.singleHop ps) (hk _ rfl) hm
      | sent k => exact move_launching hids hi .sent (hk _ rfl) hm
      | echoed k =>
        obtain rfl : m = S.uuid i (k + 1) := hm
        exact move_startMessage id
      | handled => exact hm.elim
      | echoAmplified msg =>
        obtain rfl : m = msg.msgId := hm
        obtain ⟨b, htrigger, hentry⟩ := trigger_readyTrigger (S := S) (i := i) (hk _ rfl)
        show Move S i _ _ _ (entry (readyTrigger S i s msg).st.vars _) _ _
        rw [hentry]
        exact .amplified rfl htrigger
      | echoGenerated msg =>
        obtain rfl : m = msg.msgId := hm
        obtain ⟨b, hdel, hentry⟩ := deliver_deliverIfReady (S := S) (hk _ rfl)
        show Move S i _ _ _ (entry (deliverIfReady S s msg).vars _) _ _
        rw [hentry]
        exact .tested rfl (.inl rfl) hdel
      | readyDone msg =>
        obtain rfl : m = msg.msgId := hm
        obtain ⟨b, hdel, hentry⟩ := deliver_deliverIfReady (S := S) (hk _ rfl)
        show Move S i _ _ _ (entry (deliverIfReady S s msg).vars _) _ _
        rw [hentry]
        exact .tested rfl (.inr rfl) hdel

/-- **Refinement**: every segment of a run is a move of every message. -/
theorem move_of_segment (hids : UniqueIds S) (hc : exec (next S) initial ls = some c)
    (hseg : Segment (protocol S) S.parties c l i o base) (m : String) :
    ∃ t, o = perform S i t ∧
      Move S i m (entry (c.st i).vars m) (event l) (entry o.st.vars m) t.acts t.rest := by
  refine ⟨_, turn_of_segment hseg, ?_⟩
  rw [turn_of_segment hseg]
  exact move_turn hids (S.mem_nodes_of_correct hseg.correct) (wellKeyed_of_run hc hseg.correct)
    (fun t ht => (mem_tasks_of_event hseg ht).1) m

end DistBench.Bracha.Optimized
