import DistBench.Bracha.Optimized

/-!
# Nothing is delivered out of nothing

A message is `Genuine` once a correct node has handled a SEND for it or
originated it in `on_start`. Over an ideal broadcast layer the ECHOs and READYs
of `f` nodes never suffice for a threshold, so a correct node only votes for
genuine messages — with one exception: with Echo Amplification `ready`
broadcasts an ECHO on a single READY. `EchoesGrounded` says of one step that it
does not do that for a message that is not genuine unless `f + 1` READYs have
been counted; in runs of such steps every delivered message is genuine.

Otherwise one node outside the protocol makes all correct nodes ECHO, become
ready and deliver a message nobody sent (`nothingRun`).
-/

namespace DistBench.Bracha.Optimized

open DistBench.Async

/-- The handler a message on the wire reaches. -/
def Packet.phase (p : Packet) : String :=
  match p.method with
  | .dolev => p.msg.phase
  | .send => "send"
  | .echo => "echo"
  | .ready => "ready"

variable {S : System} {ls ls' : History} {i j src : PeerId} {m : String} {msg : BrachaMessage}
  {l : Label PeerId Packet Task} {c base : Config PeerId Packet NodeState Task}
  {s : NodeState} {v : BrachaState} {p : Packet}

theorem receive_eq : receive S i s src p =
    if p.phase = "send" then send S i s src p.msg
    else if p.phase = "echo" then echo S i s src p.msg
    else if p.phase = "ready" then ready S i s src p.msg
    else { st := s } := by
  obtain ⟨method, msg⟩ := p
  cases method <;> rfl

/-- In this step `on_start` of node `j` takes up the message `m`. -/
def Originates (S : System) (j : PeerId) (m : String) (c : Config PeerId Packet NodeState Task)
    (l : Label PeerId Packet Task) : Prop :=
  ∃ k, m = S.uuid j k ∧ ∃ o base, Segment (protocol S) S.parties c l j o base ∧
    (o.rest = some (.suspended (.sent k)) ∨ o.rest = some (.suspended (.sleeping k)))

/-- Some correct node has handled a SEND for `m` or originated it. -/
def Genuine (S : System) (ls : History) (m : String) : Prop :=
  ∃ j ∈ S.parties.correct,
    (∃ src p, Handled ls j src p ∧ p.phase = "send" ∧ p.msg.msgId = m) ∨
      Occurs (next S) initial ls (Originates S j m)

/-- If the step makes `ready` broadcast an ECHO (Echo Amplification is on, the
node has not sent an ECHO and is not about to send a READY, and is on the ECHO
committee), then it has counted `f + 1` READYs or the message is genuine. -/
def EchoesGrounded (S : System) (ls : History) (c : Config PeerId Packet NodeState Task)
    (l : Label PeerId Packet Task) : Prop :=
  ∀ e ∈ l.envelope, e.msg.phase = "ready" →
    let msg := e.msg.msg
    let v := ((c.st e.dst).vars.initState msg.msgId).addReady msg.msgId e.src
    S.enableEchoAmplification = true → v.sentEcho.get msg.msgId false = false →
      willSendReadyNow S e.dst v msg = false → shouldGenerateEcho S e.dst msg.sender = true →
      S.f + 1 ≤ (v.readys.get msg.msgId ∅).card ∨ Genuine S ls msg.msgId

theorem Genuine.append (h : Genuine S ls m) : Genuine S (ls ++ ls') m := by
  obtain ⟨j, hj, hsend | hstart⟩ := h
  · obtain ⟨src, p, hh, hp⟩ := hsend
    exact ⟨j, hj, .inl ⟨src, p, hh.append, hp⟩⟩
  · exact ⟨j, hj, .inr hstart.append⟩

/-! ## Sound dictionaries -/

/-- Every entry of node `i` is its own, of a node outside the protocol, or about
a message that is good (`G`). -/
structure Sound (S : System) (G : String → Prop) (i : PeerId) (v : BrachaState) : Prop where
  echos : ∀ m, ∀ j ∈ v.echos.get m ∅, j = i ∨ j ∈ S.parties.byz ∨ G m
  own : ∀ m, i ∈ v.echos.get m ∅ → v.sentEcho.get m false = true ∨ G m
  readys : ∀ m, ∀ j ∈ v.readys.get m ∅, j ∈ S.parties.byz ∨ G m
  delivered : ∀ m, v.delivered.get m false = true → G m

namespace Sound

variable {G G' : String → Prop}

theorem mono (hG : ∀ m, G m → G' m) (h : Sound S G i v) : Sound S G' i v where
  echos m j hj := (h.echos m j hj).imp_right (Or.imp_right (hG m))
  own m hi := (h.own m hi).imp_right (hG m)
  readys m j hj := (h.readys m j hj).imp_right (hG m)
  delivered m hd := hG m (h.delivered m hd)

theorem empty : Sound S G i {} := by
  constructor <;> simp

theorem initState (h : Sound S G i v) : Sound S G i (v.initState m) := by
  unfold BrachaState.initState
  split
  · exact h
  rename_i hm
  -- the entries that are created hold nothing
  refine ⟨fun k => ?_, fun k => ?_, fun k => ?_, fun k => ?_⟩ <;> by_cases hk : k = m
  · simp [hk]
  · simpa only [Dict.get_insert_of_ne hk] using h.echos k
  · simp [hk]
  · simpa only [Dict.get_insert_of_ne hk] using h.own k
  · simp [hk]
  · simpa only [Dict.get_insert_of_ne hk] using h.readys k
  · simp [hk]
  · simpa only [Dict.get_insert_of_ne hk] using h.delivered k

theorem see (h : Sound S G i v) : Sound S G i (v.see m) := ⟨h.echos, h.own, h.readys, h.delivered⟩

theorem addEcho (hi : i ∈ S.parties.correct) (h : Sound S G i v)
    (hsrc : src ∈ S.parties.byz ∨ G m) : Sound S G i (v.addEcho m src) where
  echos k j hj := by
    by_cases hk : k = m
    · subst hk
      rw [BrachaState.addEcho, Dict.get_insert_self, Finset.mem_insert] at hj
      rcases hj with rfl | hj
      · exact .inr hsrc
      · exact h.echos k j hj
    · rw [BrachaState.addEcho, Dict.get_insert_of_ne hk] at hj
      exact h.echos k j hj
  own k hik := by
    by_cases hk : k = m
    · subst hk
      rw [BrachaState.addEcho, Dict.get_insert_self, Finset.mem_insert] at hik
      rcases hik with rfl | hik
      · exact .inr (hsrc.resolve_left (Parties.not_byz hi))
      · exact h.own k hik
    · rw [BrachaState.addEcho, Dict.get_insert_of_ne hk] at hik
      exact h.own k hik
  readys := h.readys
  delivered := h.delivered

theorem countOwnEcho (h : Sound S G i v) : Sound S G i (countOwnEcho i v m) where
  echos k j hj := by
    by_cases hk : k = m
    · subst hk
      rw [Optimized.countOwnEcho, BrachaState.addEcho, Dict.get_insert_self,
        Finset.mem_insert] at hj
      rcases hj with rfl | hj
      · exact .inl rfl
      · exact h.echos k j hj
    · rw [Optimized.countOwnEcho, BrachaState.addEcho, Dict.get_insert_of_ne hk] at hj
      exact h.echos k j hj
  own k hik := by
    by_cases hk : k = m
    · subst hk
      exact .inl Dict.get_insert_self
    · rw [Optimized.countOwnEcho, BrachaState.addEcho, Dict.get_insert_of_ne hk] at hik
      refine (h.own k hik).imp_left fun hsent => ?_
      show Dict.get (AList.insert m true v.sentEcho) k false = true
      rwa [Dict.get_insert_of_ne hk]
  readys := h.readys
  delivered := h.delivered

theorem addReady (h : Sound S G i v) (hsrc : src ∈ S.parties.byz ∨ G m) :
    Sound S G i (v.addReady m src) where
  echos := h.echos
  own := h.own
  readys k j hj := by
    by_cases hk : k = m
    · subst hk
      rw [BrachaState.addReady, Dict.get_insert_self, Finset.mem_insert] at hj
      rcases hj with rfl | hj
      · exact hsrc
      · exact h.readys k j hj
    · rw [BrachaState.addReady, Dict.get_insert_of_ne hk] at hj
      exact h.readys k j hj
  delivered := h.delivered

theorem markSentReady (h : Sound S G i v) : Sound S G i (v.markSentReady m) :=
  ⟨h.echos, h.own, h.readys, h.delivered⟩

theorem markDelivered (h : Sound S G i v) (hm : G m) : Sound S G i (v.markDelivered m) where
  echos := h.echos
  own := h.own
  readys := h.readys
  delivered k hk := by
    by_cases hkm : k = m
    · subst hkm
      exact hm
    · rw [BrachaState.markDelivered, Dict.get_insert_of_ne hkm] at hk
      exact h.delivered k hk

/-! What can be counted is good. -/

/-- `f + 1` READYs include a good one. -/
theorem of_readys (hf : S.parties.byz.card ≤ S.f) (h : Sound S G i v)
    (hcard : S.f + 1 ≤ (v.readys.get m ∅).card) : G m := by
  by_contra hm
  have hsub : v.readys.get m ∅ ⊆ S.parties.byz :=
    fun j hj => (h.readys m j hj).resolve_right hm
  have := Finset.card_le_card hsub
  omega

/-- So do `f + 1` ECHOs before the node's own … -/
theorem of_echos (hf : S.parties.byz.card ≤ S.f) (h : Sound S G i v)
    (hown : v.sentEcho.get m false = false) (hcard : S.f + 1 ≤ (v.echos.get m ∅).card) : G m := by
  by_contra hm
  have hsub : v.echos.get m ∅ ⊆ S.parties.byz := by
    intro j hj
    rcases h.echos m j hj with rfl | hbyz | hgood
    · rcases h.own m hj with hsent | hgood
      · rw [hown] at hsent
        cases hsent
      · exact absurd hgood hm
    · exact hbyz
    · exact absurd hgood hm
  have := Finset.card_le_card hsub
  omega

/-- … and `f + 2` with it. -/
theorem of_echos_own (hf : S.parties.byz.card ≤ S.f) (h : Sound S G i v)
    (hcard : S.f + 2 ≤ (v.echos.get m ∅).card) : G m := by
  by_contra hm
  have hsub : v.echos.get m ∅ ⊆ insert i S.parties.byz := by
    intro j hj
    rcases h.echos m j hj with rfl | hbyz | hgood
    · exact Finset.mem_insert_self _ _
    · exact Finset.mem_insert_of_mem hbyz
    · exact absurd hgood hm
  have := (Finset.card_le_card hsub).trans (Finset.card_insert_le _ _)
  omega

end Sound

/-! ## Sound turns -/

/-- The turn leaves sound dictionaries and votes for good messages only; once
`on_start` has suspended in a message's SENDs, it goes on if that is good. -/
structure SoundTurn (S : System) (G : String → Prop) (i : PeerId) (t : Turn NodeState Cont) :
    Prop where
  vars : Sound S G i t.st.vars
  acts : ∀ msg, .bracha msg ∈ t.acts → msg.phase ≠ "send" → G msg.msgId
  rest : ∀ k, t.rest = some (.echoed k) ∨ (∃ ps, t.rest = some (.singleHop k ps)) →
    G (S.uuid i k)

/-- What the threshold arithmetic of the turns needs. -/
structure Bounds (S : System) : Prop where
  byz : S.parties.byz.card ≤ S.f
  pos : 1 ≤ S.f
  nodes : 3 * S.f + 1 ≤ S.parties.nodes.card

/-- An ECHO quorum outnumbers the nodes outside the protocol and one more. -/
theorem Bounds.lt_readyThreshold (h : Bounds S) (hi : i ∈ S.parties.correct) :
    S.f + 2 ≤ readyThreshold (S.N i) S.f := by
  rw [S.N_eq (S.mem_nodes_of_correct hi)]
  have := h.pos
  have := h.nodes
  unfold readyThreshold
  omega

section Turns

variable {G : String → Prop}

/-- A turn that gives nothing away and ends its coroutine. -/
theorem SoundTurn.silent (h : Sound S G i s.vars) : SoundTurn S G i { st := s } :=
  ⟨h, by simp, by simp⟩

/-- A turn that broadcasts one vote for a good message. -/
theorem SoundTurn.vote (msg : BrachaMessage) {k : Cont} (h : Sound S G i s.vars)
    (hmsg : G msg.msgId)
    (hk : (∃ msg, k = .echoAmplified msg ∨ k = .echoGenerated msg ∨ k = .readyDone msg) ∨
      k = .handled) :
    SoundTurn S G i { st := s, acts := [.bracha msg], rest := some k } := by
  refine ⟨h, fun msg' hmsg' _ => ?_, fun n hn => ?_⟩
  · obtain rfl : msg' = msg := by simpa using hmsg'
    exact hmsg
  · obtain ⟨msg', rfl | rfl | rfl⟩ | rfl := hk <;> simp at hn

theorem sound_deliverIfReady (hb : Bounds S) (h : Sound S G i s.vars) :
    Sound S G i (deliverIfReady S s msg).vars := by
  unfold deliverIfReady
  split
  · rename_i hcond
    rw [vars_checkCompletion]
    refine h.markDelivered (h.of_readys hb.byz ?_)
    have := hcond.2
    unfold deliverThreshold at this
    omega
  · exact h

theorem soundTurn_send (h : Sound S G i s.vars) (hmsg : G msg.msgId) :
    SoundTurn S G i (send S i s src msg) := by
  have hinit : Sound S G i (s.vars.initState msg.msgId) := h.initState
  simp only [send]
  split
  · split
    · split
      · exact .vote { msg with phase := "echo" } (s := ⟨_, _, _, _⟩)
          hinit.see.countOwnEcho hmsg (.inr rfl)
      · exact .silent (s := ⟨_, _, _, _⟩) hinit.see
    · split
      · exact .vote { msg with phase := "echo" } (s := ⟨_, _, _, _⟩)
          hinit.see.countOwnEcho hmsg (.inr rfl)
      · exact .silent (s := ⟨_, _, _, _⟩) hinit.see
  · exact .silent (s := registerMessage ⟨_, _, _, _⟩ _) hinit

theorem soundTurn_readyTrigger (hb : Bounds S) (hi : i ∈ S.parties.correct)
    (h : Sound S G i s.vars) : SoundTurn S G i (readyTrigger S i s msg) := by
  unfold readyTrigger
  split
  · rename_i hcond
    have hgood : G msg.msgId :=
      h.of_echos_own hb.byz ((hb.lt_readyThreshold hi).trans hcond.2.1)
    exact .vote { msg with phase := "ready" } h.markSentReady hgood (.inr rfl)
  · exact .silent h

theorem soundTurn_echo (hb : Bounds S) (hi : i ∈ S.parties.correct) (h : Sound S G i s.vars)
    (hsrc : src ∈ S.parties.byz ∨ G msg.msgId) : SoundTurn S G i (echo S i s src msg) := by
  have hadd : Sound S G i ((s.vars.initState msg.msgId).addEcho msg.msgId src) :=
    h.initState.addEcho hi hsrc
  simp only [echo, registerMessage]
  split
  · rename_i hcond
    have hgood : G msg.msgId := hadd.of_echos hb.byz hcond.2.1 hcond.2.2.1
    exact .vote { msg with phase := "echo" } hadd.countOwnEcho hgood
      (.inl ⟨msg, .inl rfl⟩)
  · exact soundTurn_readyTrigger hb hi hadd

theorem soundTurn_readyAmplify (hb : Bounds S) (h : Sound S G i s.vars) {will : Bool}
    (hwill : will = true → G msg.msgId) : SoundTurn S G i (readyAmplify S s msg will) := by
  unfold readyAmplify
  split
  · rename_i hcond
    exact .vote msg h.markSentReady (hwill hcond) (.inl ⟨msg, .inr (.inr rfl)⟩)
  · exact .silent (sound_deliverIfReady hb h)

theorem soundTurn_ready (hb : Bounds S) (h : Sound S G i s.vars)
    (hsrc : src ∈ S.parties.byz ∨ G msg.msgId)
    (hecho : let v := (s.vars.initState msg.msgId).addReady msg.msgId src
      S.enableEchoAmplification = true → v.sentEcho.get msg.msgId false = false →
        willSendReadyNow S i v msg = false → shouldGenerateEcho S i msg.sender = true →
        S.f + 1 ≤ (v.readys.get msg.msgId ∅).card ∨ G msg.msgId) :
    SoundTurn S G i (ready S i s src msg) := by
  have hadd : Sound S G i ((s.vars.initState msg.msgId).addReady msg.msgId src) :=
    h.initState.addReady hsrc
  have hwill : willSendReadyNow S i ((s.vars.initState msg.msgId).addReady msg.msgId src) msg =
      true → G msg.msgId := by
    intro hw
    have hcond := of_decide_eq_true hw
    exact hadd.of_readys hb.byz hcond.2.1
  simp only [ready, registerMessage]
  split
  · rename_i hamp
    split
    · rename_i hgen
      refine .vote { msg with phase := "echo" } hadd.countOwnEcho ?_
        (.inl ⟨msg, .inr (.inl rfl)⟩)
      rcases hecho hamp.1 hamp.2 hgen.1 hgen.2 with hcard | hgood
      · exact hadd.of_readys hb.byz hcard
      · exact hgood
    · exact soundTurn_readyAmplify hb hadd.countOwnEcho hwill
  · exact soundTurn_readyAmplify hb hadd hwill

theorem soundTurn_startMessage (h : Sound S G i s.vars) (k : Nat) :
    SoundTurn S G i (startMessage S i s k) := by
  simp only [startMessage]
  split
  · split
    · exact ⟨h.initState, by simp, by simp⟩
    · refine ⟨h.initState, fun msg hmsg hphase => ?_, by simp⟩
      obtain rfl : msg = initialSend S i k := by simpa using hmsg
      exact absurd rfl hphase
  · exact .silent h

theorem soundTurn_afterSend (h : Sound S G i s.vars) {k : Nat} (hk : G (S.uuid i k)) :
    SoundTurn S G i (afterSend S i s k) := by
  simp only [afterSend]
  split
  · refine ⟨h.see.countOwnEcho, fun msg hmsg _ => ?_, fun k' hk' => ?_⟩
    · obtain rfl : msg = { initialSend S i k with phase := "echo" } := by simpa using hmsg
      exact hk
    · obtain rfl : k = k' := by simpa using hk'
      exact hk
  · exact soundTurn_startMessage (s := ⟨_, _, _, _⟩) h.see (k + 1)

theorem soundTurn_singleHop (h : Sound S G i s.vars) {k : Nat} (hk : G (S.uuid i k))
    (ps : List PeerId) : SoundTurn S G i (singleHop S i s k ps) := by
  cases ps with
  | nil => exact soundTurn_afterSend h hk
  | cons p ps =>
    refine ⟨h, by simp [singleHop], fun k' hk' => ?_⟩
    obtain rfl : k = k' := by
      rcases hk' with hk' | ⟨ps', hk'⟩
      · simp [singleHop] at hk'
      · have h' : k = k' ∧ ps = ps' := by simpa [singleHop] using hk'
        exact h'.1
    exact hk

/-- The message `on_start` is at when suspended there. -/
def Cont.message : Cont → Option Nat
  | .sleeping k | .singleHop k _ | .sent k | .echoed k => some k
  | _ => none

theorem soundTurn_resume (hb : Bounds S) (hi : i ∈ S.parties.correct) (h : Sound S G i s.vars)
    {k : Cont} (hk : ∀ n ∈ k.message, G (S.uuid i n)) : SoundTurn S G i (resume S i s k) := by
  cases k with
  | sleeping k => exact soundTurn_singleHop h (hk k rfl) _
  | singleHop k ps => exact soundTurn_singleHop h (hk k rfl) ps
  | sent k => exact soundTurn_afterSend h (hk k rfl)
  | echoed k => exact soundTurn_startMessage h (k + 1)
  | handled => exact .silent h
  | echoAmplified msg => exact soundTurn_readyTrigger hb hi h
  | echoGenerated msg => exact .silent (sound_deliverIfReady hb h)
  | readyDone msg => exact .silent (sound_deliverIfReady hb h)

theorem soundTurn_onStart (h : Sound S G i s.vars) : SoundTurn S G i (onStart S i s) := by
  unfold onStart
  split
  · exact soundTurn_startMessage h 0
  · exact .silent h

end Turns

/-! ## The assertion -/

/-- A vote on the wire is for a genuine message. -/
def VoteGenuine (S : System) (ls : History) (e : Envelope PeerId Packet) : Prop :=
  e.msg.phase ≠ "send" → Genuine S ls e.msg.msg.msgId

/-- Dictionaries are sound, `on_start` is at genuine messages, and votes on the
wire are for genuine messages. -/
def grounded (S : System) : Assertion PeerId Packet NodeState Task where
  node ls i s ts := Sound S (Genuine S ls) i s.vars ∧
    ∀ k, Task.suspended k ∈ ts → ∀ n ∈ k.message, Genuine S ls (S.uuid i n)
  msg ls e := VoteGenuine S ls e

/-- A handled message that is not from outside the protocol is a vote for a
genuine message, or a SEND. -/
theorem byz_or_genuine (hA : (grounded S).Holds S.parties ls c) {e : Envelope PeerId Packet}
    (he : e ∈ c.net ∨ e.src ∈ S.parties.byz) (hphase : e.msg.phase ≠ "send") :
    e.src ∈ S.parties.byz ∨ Genuine S ls e.msg.msg.msgId := by
  rcases he with he | he
  · exact .inr (hA.msg e he hphase)
  · exact .inl he

/-- Receiving a message is a sound turn. -/
theorem soundTurn_receive (hb : Bounds S) (hA : (grounded S).Holds S.parties ls c)
    (hcond : EchoesGrounded S ls c l) {e : Envelope PeerId Packet} (hl : l.envelope = some e)
    (he : e ∈ c.net ∨ e.src ∈ S.parties.byz) (hdst : e.dst ∈ S.parties.correct) :
    SoundTurn S (Genuine S (ls ++ [l])) e.dst
      (receive S e.dst (c.st e.dst) e.src e.msg) := by
  have hsound : Sound S (Genuine S (ls ++ [l])) e.dst (c.st e.dst).vars :=
    (hA.node e.dst hdst).1.mono fun _ h => h.append
  have hsrc (hphase : e.msg.phase ≠ "send") :
      e.src ∈ S.parties.byz ∨ Genuine S (ls ++ [l]) e.msg.msg.msgId :=
    (byz_or_genuine hA he hphase).imp_right Genuine.append
  rw [receive_eq]
  split
  · rename_i hphase
    -- handling a SEND is what makes the message genuine
    have hl' : l = .recv e ∨ l = .forge e := by
      cases l <;> simp_all [Label.envelope]
    refine soundTurn_send hsound ⟨e.dst, hdst, .inl ⟨e.src, e.msg, ?_, hphase, rfl⟩⟩
    rcases hl' with rfl | rfl
    · exact .inl (by simp)
    · exact .inr (by simp)
  · rename_i hsend
    split
    · exact soundTurn_echo hb hdst hsound (hsrc hsend)
    · split
      · rename_i hphase
        refine soundTurn_ready hb hsound (hsrc hsend) fun hamp hown hwill hcommittee => ?_
        exact (hcond e hl hphase hamp hown hwill hcommittee).imp_right Genuine.append
      · exact .silent hsound

/-- Performing a sound turn re-establishes the assertion. -/
theorem grounded_perform (hA : (grounded S).Holds S.parties ls c)
    {t : Turn NodeState Cont}
    (hseg : Segment (protocol S) S.parties c l i (perform S i t) base)
    (ht : SoundTurn S (Genuine S (ls ++ [l])) i t)
    (hc : exec (next S) initial ls = some c) :
    (grounded S).node (ls ++ [l]) i (perform S i t).st
        ((perform S i t).rest.toList ++ base.tasks i) ∧
      ∀ dm ∈ (perform S i t).out, (grounded S).msg (ls ++ [l]) ⟨i, dm.1, dm.2⟩ := by
  refine ⟨⟨ht.vars, fun k hk n hn => ?_⟩, fun dm hdm hphase => ?_⟩
  · rcases hseg.mem_rest_or_tasks hk with hk | hk
    · have hrest : t.rest = some k := by simpa [perform] using hk
      have horig : t.rest = some (.sent n) ∨ t.rest = some (.sleeping n) →
          Genuine S (ls ++ [l]) (S.uuid i n) := by
        intro hn
        refine ⟨i, hseg.correct, .inr (occurs_last hc ⟨n, rfl, _, base, hseg, ?_⟩)⟩
        rcases hn with hn | hn <;> simp [perform, hn]
      cases k with
      | sleeping k =>
        cases hn
        exact horig (.inr hrest)
      | singleHop k ps =>
        cases hn
        exact ht.rest n (.inr ⟨ps, hrest⟩)
      | sent k =>
        cases hn
        exact horig (.inl hrest)
      | echoed k =>
        cases hn
        exact ht.rest n (.inl hrest)
      | _ => cases hn
    · exact ((hA.node i hseg.correct).2 k hk n hn).append
  · obtain ⟨a, ha, hdm⟩ := List.mem_flatMap.mp hdm
    cases a with
    | bracha msg =>
      obtain ⟨p, -, rfl⟩ := List.mem_map.mp hdm
      exact ht.acts msg ha hphase
    | sendTo p msg =>
      obtain rfl : dm = (p, ⟨.send, msg⟩) := by simpa [transmit] using hdm
      exact absurd rfl hphase

theorem grounded_inductive (hb : Bounds S) :
    (grounded S).Inductive (protocol S) S.parties initial (EchoesGrounded S) where
  init := by
    refine ⟨fun i _ => ⟨.empty, fun k hk => ?_⟩, fun e he => ?_, fun e he => ?_⟩
    · simp [initial] at hk
    · simp [initial] at he
    · simp at he
  node_mono _ h :=
    ⟨h.1.mono fun _ hg => hg.append, fun k hk n hn => (h.2 k hk n hn).append⟩
  msg_mono h hphase := (h hphase).append
  segment := by
    intro ls c l i o base hc hA hcond hseg
    have hseg' := hseg
    cases hseg with
    | recv hnet hdst =>
      exact grounded_perform hA hseg' (soundTurn_receive hb hA hcond rfl (.inl hnet) hdst) hc
    | forge hsrc hdst =>
      exact grounded_perform hA hseg' (soundTurn_receive hb hA hcond rfl (.inr hsrc) hdst) hc
    | @wake i t o hi ht ho =>
      obtain rfl : perform S i (proceed S i (c.st i) t) = o := Option.some.inj ho
      have hnode := hA.node i hi
      have hsound : Sound S (Genuine S (ls ++ [.wake i t])) i (c.st i).vars :=
        hnode.1.mono fun _ h => h.append
      refine grounded_perform hA hseg' ?_ hc
      cases t with
      | onStart => exact soundTurn_onStart hsound
      | suspended k => exact soundTurn_resume hb hi hsound fun n hn => (hnode.2 k ht n hn).append

/-- **No delivery out of nothing**: in a run whose steps keep their ECHOs
grounded, a message a correct node has delivered is genuine. -/
theorem delivered_genuine (S : System) (hpos : 1 ≤ S.f)
    (hN : 3 * S.f + 1 ≤ S.parties.nodes.card) (hf : S.parties.byz.card ≤ S.f) (ls : History)
    (c : Config PeerId Packet NodeState Task) (hc : exec (next S) initial ls = some c)
    (hmeets : Meets (next S) initial (EchoesGrounded S) ls) (i : PeerId)
    (hi : i ∈ S.parties.correct) (m : String)
    (hdel : (c.st i).vars.delivered.get m false = true) : Genuine S ls m :=
  ((Assertion.holds_of_meets (grounded_inductive ⟨hf, hpos, hN⟩) ls c hc hmeets).node i
    hi).1.delivered m hdel

/-! ## Handlers originate nothing -/

/-- The coroutine the turn leaves behind is not `on_start`'s. -/
def OfHandler (t : Turn NodeState Cont) : Prop := ∀ k ∈ t.rest, k.message = none

theorem ofHandler_send : OfHandler (send S i s src msg) := by
  simp only [send]
  split
  · split
    · split <;> simp [OfHandler, Cont.message]
    · split <;> simp [OfHandler, Cont.message]
  · simp [OfHandler]

theorem ofHandler_readyTrigger : OfHandler (readyTrigger S i s msg) := by
  unfold readyTrigger
  split <;> simp [OfHandler, Cont.message]

theorem ofHandler_echo : OfHandler (echo S i s src msg) := by
  simp only [echo]
  split
  · simp [OfHandler, Cont.message]
  · exact ofHandler_readyTrigger

theorem ofHandler_readyAmplify {will : Bool} : OfHandler (readyAmplify S s msg will) := by
  unfold readyAmplify
  split <;> simp [OfHandler, Cont.message]

theorem ofHandler_ready : OfHandler (ready S i s src msg) := by
  simp only [ready]
  split
  · split
    · simp [OfHandler, Cont.message]
    · exact ofHandler_readyAmplify
  · exact ofHandler_readyAmplify

theorem ofHandler_receive : OfHandler (receive S i s src p) := by
  rw [receive_eq]
  split
  · exact ofHandler_send
  · split
    · exact ofHandler_echo
    · split
      · exact ofHandler_ready
      · simp [OfHandler]

/-- A message is originated where a coroutine of the node goes on. -/
theorem Originates.wake (h : Originates S j m c l) : ∃ t, l = .wake j t := by
  obtain ⟨k, -, o, base, hseg, hrest⟩ := h
  have hnot {i src : PeerId} {s : NodeState} {p : Packet}
      (hrest : (perform S i (receive S i s src p)).rest = some (.suspended (.sent k)) ∨
        (perform S i (receive S i s src p)).rest = some (.suspended (.sleeping k))) : False := by
    rcases hrest with hrest | hrest
    all_goals
      obtain ⟨k', hk', heq⟩ := Option.map_eq_some_iff.mp hrest
      cases heq
      cases ofHandler_receive _ hk'
  cases hseg with
  | recv _ _ => exact (hnot hrest).elim
  | forge _ _ => exact (hnot hrest).elim
  | wake _ _ _ => exact ⟨_, rfl⟩

/-! ## Two runs of four nodes -/

/-- Four nodes with all optimisations on. -/
def fourOptimizedNodes (correct byz : List PeerId) (h : (correct ++ byz).Nodup) : System where
  toDeployment := .ofLists correct byz h
  f := 1
  isSender i := i = "a"
  enableEchoAmplification := true
  enableSingleHopSend := true
  enableReducedMessages := true
  admissible _ := rfl
  numMessages := 1
  uuid i k := "uuid of " ++ i ++ toString k
  neighbours i := (correct ++ byz).toFinset.erase i

/-- `d` does not follow the protocol. -/
abbrev oneByzantine : System := fourOptimizedNodes ["a", "b", "c"] ["d"] Cluster.nodup_threeAndOne

/-- `a` originates a message, and `b` delivers it with the READY of `d`. -/
def genuineRun : History :=
  let sent := initialSend oneByzantine "a" 0
  let echoed : Packet := ⟨.dolev, { sent with phase := "echo" }⟩
  let readied : Packet := ⟨.dolev, { sent with phase := "ready" }⟩
  [.wake "a" .onStart, .wake "a" (.suspended (.sleeping 0)),
    .wake "a" (.suspended (.singleHop 0 ["c", "d"])),
    .wake "a" (.suspended (.singleHop 0 ["d"])), .wake "a" (.suspended (.singleHop 0 [])),
    .recv ⟨"a", "b", .send, sent⟩, .recv ⟨"a", "c", .send, sent⟩,
    .recv ⟨"b", "a", echoed⟩, .recv ⟨"c", "a", echoed⟩, .recv ⟨"b", "c", echoed⟩,
    .recv ⟨"a", "c", echoed⟩,
    .recv ⟨"a", "b", readied⟩, .recv ⟨"c", "b", readied⟩, .forge ⟨"d", "b", readied⟩,
    .wake "b" (.suspended (.readyDone { sent with phase := "ready" }))]

/-- No READY is handled before the node's own ECHO. -/
def NoReadyBeforeEcho (_ : History) (c : Config PeerId Packet NodeState Task)
    (l : Label PeerId Packet Task) : Prop :=
  ∀ e ∈ l.envelope, e.msg.phase = "ready" →
    let m := e.msg.msg.msgId
    (((c.st e.dst).vars.initState m).addReady m e.src).sentEcho.get m false = true

instance {ls : History} {c : Config PeerId Packet NodeState Task}
    {l : Label PeerId Packet Task} : Decidable (NoReadyBeforeEcho ls c l) := by
  unfold NoReadyBeforeEcho
  infer_instance

theorem delivered_genuine_oneByzantine :
    ∃ c, exec (next oneByzantine) initial genuineRun = some c ∧
      (c.st "b").deliveries = [("uuid of a0", "hello - a - 0")] ∧
      Genuine oneByzantine genuineRun "uuid of a0" := by
  obtain ⟨c, hc, hrun⟩ := exists_exec_of_any (next oneByzantine) initial genuineRun
    (fun c => (c.st "b").vars.delivered.get "uuid of a0" false ∧
      (c.st "b").deliveries = [("uuid of a0", "hello - a - 0")]) (by decide)
  obtain ⟨hdel, hlog⟩ := of_decide_eq_true hrun
  have hmeets : Meets (next oneByzantine) initial NoReadyBeforeEcho genuineRun :=
    meets_of_meetsFrom (by decide)
  refine ⟨c, hc, hlog, delivered_genuine oneByzantine (by decide) (by decide) (by decide) genuineRun
    c hc (fun ls₁ l ls₂ s hls hs e he hphase _ hown => ?_) "b" (by decide) _ hdel⟩
  have hecho := hmeets ls₁ l ls₂ s hls hs e he hphase
  exact absurd (hown.symm.trans hecho) Bool.false_ne_true

/-- `d` sends a READY for a message of its own making to each of the others. -/
def nothingRun : History :=
  let forged : BrachaMessage :=
    { phase := "ready", sender := "a", msgId := "nothing", payload := "forged" }
  let echoed : Packet := ⟨.dolev, { forged with phase := "echo" }⟩
  let readied : Packet := ⟨.dolev, forged⟩
  ["a", "b", "c"].map (fun i => .forge ⟨"d", i, .dolev, forged⟩) ++
  [.recv ⟨"b", "a", echoed⟩, .recv ⟨"c", "a", echoed⟩, .recv ⟨"a", "b", echoed⟩,
    .recv ⟨"c", "b", echoed⟩, .recv ⟨"a", "c", echoed⟩, .recv ⟨"b", "c", echoed⟩,
    .recv ⟨"b", "a", readied⟩, .recv ⟨"c", "a", readied⟩]

/-- At `N = 4`, `f = 1`, and with the default flags, one node's READYs alone
make a correct node deliver. -/
theorem nothingRun_delivers :
    ¬ ∀ (S : System) (ls : History) (c : Config PeerId Packet NodeState Task), 1 ≤ S.f →
      3 * S.f + 1 ≤ S.parties.nodes.card → S.parties.byz.card ≤ S.f →
      exec (next S) initial ls = some c → ∀ i ∈ S.parties.correct, ∀ m,
        (c.st i).vars.delivered.get m false = true → Genuine S ls m := by
  intro h
  obtain ⟨c, hc, hdel⟩ := exists_exec_of_any (next oneByzantine) initial nothingRun
    (fun c => (c.st "a").vars.delivered.get "nothing" false) (by decide)
  obtain ⟨j, -, ⟨src, p, hh, hphase, -⟩ | ⟨ls₁, l, ls₂, c₁, hls, -, k, -, o, base, hseg, hrest⟩⟩ :=
    h oneByzantine nothingRun c (by decide) (by decide) (by decide) hc "a" (by decide) "nothing"
      hdel
  · -- no message of the run is a SEND
    have hnone : ∀ e ∈ envelopes nothingRun, e.msg.phase ≠ "send" := by decide
    exact hnone ⟨src, j, p⟩ (mem_envelopes.mpr hh) hphase
  · -- and no `on_start` runs
    have hnone : ∀ l ∈ nothingRun, l.envelope.isSome = true := by decide
    have hl : l.envelope.isSome = true := hnone l (hls ▸ by simp)
    obtain ⟨t, rfl⟩ := Originates.wake ⟨k, rfl, o, base, hseg, hrest⟩
    cases hl

end DistBench.Bracha.Optimized
