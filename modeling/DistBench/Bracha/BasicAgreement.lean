import DistBench.Bracha.BasicProvenance

/-!
# Agreement on content

Two correct nodes that deliver one `msg_id` deliver one payload, and the
sender's if it is correct — as long as the sets the code keys by `msg_id` do
not mix payloads. `PayloadsMatch` says of one step that they do not: a tipped
threshold has enough votes with the payload of the message that tips it, and no
node is handed, as its first SEND for a correct sender's message, somebody
else's content. Then the argument is the usual one: two quorums of ECHOs share
a correct node, and a correct node takes on one payload per message.

Without the condition a single READY with another payload, sent as the last of
a quorum, makes a node deliver that payload (`evilRun`).
-/

namespace DistBench.Bracha.Basic

open DistBench.Async

variable {S : System} {ls : History} {i j : PeerId} {m p q : String}
  {l : Label PeerId Packet Task} {c : Config PeerId Packet NodeState Task}

/-- The first SEND a node handles for a correct sender's message has the
payload of that sender's `on_start`. -/
def SendsGenuine (S : System) (c : Config PeerId Packet NodeState Task)
    (l : Label PeerId Packet Task) : Prop :=
  match event l with
  | .handle _ ⟨.send, msg⟩ => msg.msgId ∉ (c.st l.node).vars.seenMessages →
    ∀ s ∈ S.parties.correct, S.isSender s = true → msg.msgId = S.uuid s → msg.payload = hello s
  | _ => True

/-- No payload is mixed with another one in this step. -/
def PayloadsMatch (S : System) (ls : History) (c : Config PeerId Packet NodeState Task)
    (l : Label PeerId Packet Task) : Prop :=
  TipsBacked S (· = ·) ls c l ∧ SendsGenuine S c l

instance : Decidable (SendsGenuine S c l) := by
  unfold SendsGenuine
  split <;> infer_instance

/-- Correct nodes deliver one payload per `msg_id`, and for the `msg_id` of a
correct node's `on_start` the payload it broadcast. -/
def AgreesOnContent (S : System) (ls : History) (c : Config PeerId Packet NodeState Task) : Prop :=
  (∀ i ∈ S.parties.correct, ∀ j ∈ S.parties.correct, ∀ m p q,
    (m, p) ∈ (c.st i).deliveries → (m, q) ∈ (c.st j).deliveries → p = q) ∧
  ∀ s ∈ S.parties.correct, S.isSender s = true → .wake s .onStart ∈ ls →
    ∀ i ∈ S.parties.correct, ∀ p, (S.uuid s, p) ∈ (c.st i).deliveries → p = hello s

/-! ## A correct node takes on one payload per message -/

/-- A correct node's reason to ECHO a correct sender's message is that sender's
payload. -/
theorem EchoReason.genuine (hmeets : Meets (next S) initial (fun _ => SendsGenuine S) ls)
    {s : PeerId} (hs : s ∈ S.parties.correct) (hsender : S.isSender s = true)
    (hj : j ∈ S.parties.correct) (h : Occurs (next S) initial ls (EchoReason S j (S.uuid s) p)) :
    p = hello s := by
  obtain ⟨ls₁, l, ls₂, c, hls, hc, hE⟩ := h
  generalize hm : S.uuid s = m at hE
  cases hE with
  | @firstSend _ src msg hnode hev hmsg hp hnew =>
    have hcond : SendsGenuine S c l := hmeets ls₁ l ls₂ c hls hc
    unfold SendsGenuine at hcond
    rw [hev, hnode] at hcond
    rw [← hp]
    exact hcond (hmsg ▸ hnew) s hs hsender (hmsg.trans hm.symm)
  | originated _ hm' hp =>
    obtain rfl : s = j := S.uuid_inj s (S.mem_nodes_of_correct hs) j (S.mem_nodes_of_correct hj)
      (hm.trans hm')
    exact hp

/-- Node `j` handles its first SEND for `m`, with payload `p`. -/
def HandlesFirst (j : PeerId) (m p : String) (c : Config PeerId Packet NodeState Task)
    (l : Label PeerId Packet Task) : Prop :=
  l.node = j ∧ m ∉ (c.st j).vars.seenMessages ∧
    ∃ src msg, event l = .handle src ⟨.send, msg⟩ ∧ msg.msgId = m ∧ msg.payload = p

theorem HandlesFirst.handled (h : Occurs (next S) initial ls (HandlesFirst j m p)) :
    ∃ src msg, msg.msgId = m ∧ Handled ls j src ⟨.send, msg⟩ := by
  obtain ⟨ls₁, l, ls₂, c, rfl, -, hnode, -, src, msg, hev, hm, -⟩ := h
  exact ⟨src, msg, hm, handled_of_event (by simp) hev hnode⟩

/-- The first SEND is handled once. -/
theorem HandlesFirst.unique (hj : j ∈ S.parties.correct) :
    ∀ ls c, exec (next S) initial ls = some c →
      Occurs (next S) initial ls (HandlesFirst j m p) →
      Occurs (next S) initial ls (HandlesFirst j m q) → p = q := by
  -- once one has been handled the message is seen, and none is the first again
  have hstale {ls c l p q} (hc : exec (next S) initial ls = some c)
      (hold : Occurs (next S) initial ls (HandlesFirst j m p)) : ¬ HandlesFirst j m q c l := by
    rintro ⟨-, hnew, -⟩
    obtain ⟨src, msg, rfl, hh⟩ := HandlesFirst.handled hold
    exact hnew (seen_of_handled hc hj hh)
  refine run_induction (P := fun (ls : History) (_ : Config PeerId Packet NodeState Task) =>
    Occurs (next S) initial ls (HandlesFirst j m p) →
      Occurs (next S) initial ls (HandlesFirst j m q) → p = q) ?_ ?_
  · intro h
    exact absurd h not_occurs_nil
  · intro ls c l c' hc ih _ hp hq
    rcases hp.last_or hc with hp | hp
    · rcases hq.last_or hc with hq | hq
      · exact ih hp hq
      · exact absurd hq (hstale hc hp)
    · rcases hq.last_or hc with hq | hq
      · exact absurd hp (hstale hc hq)
      · obtain ⟨-, -, src, msg, hev, -, rfl⟩ := hp
        obtain ⟨-, -, src', msg', hev', -, rfl⟩ := hq
        cases hev.symm.trans hev'
        rfl

theorem EchoReason.first_or (h : Occurs (next S) initial ls (EchoReason S j m p)) :
    Occurs (next S) initial ls (HandlesFirst j m p) ∨ S.isSender j = true ∧ m = S.uuid j := by
  obtain ⟨ls₁, l, ls₂, c, hls, hc, hE⟩ := h
  cases hE with
  | @firstSend _ src msg hnode hev hm hp hnew =>
    exact .inl ⟨ls₁, l, ls₂, c, hls, hc, hnode, hnew, src, msg, hev, hm, hp⟩
  | originated hsender hm _ => exact .inr ⟨hsender, hm⟩

theorem EchoReason.unique (hc : exec (next S) initial ls = some c)
    (hmeets : Meets (next S) initial (fun _ => SendsGenuine S) ls) (hj : j ∈ S.parties.correct)
    (hp : Occurs (next S) initial ls (EchoReason S j m p))
    (hq : Occurs (next S) initial ls (EchoReason S j m q)) : p = q := by
  rcases EchoReason.first_or hp with hp' | ⟨hsender, rfl⟩
  · rcases EchoReason.first_or hq with hq' | ⟨hsender, rfl⟩
    · exact HandlesFirst.unique hj ls c hc hp' hq'
    · rw [EchoReason.genuine hmeets hj hsender hj hp, EchoReason.genuine hmeets hj hsender hj hq]
  · rw [EchoReason.genuine hmeets hj hsender hj hp, EchoReason.genuine hmeets hj hsender hj hq]

/-! ## Quorums of one message agree -/

theorem Echoed.reason (h : Echoed S ls j m p) :
    Occurs (next S) initial ls (EchoReason S j m p) := by
  obtain ⟨d, msg, -, -, hocc⟩ := h
  exact hocc.occurs

theorem QuorumEchoed.agree (hf : S.parties.byz.card ≤ S.f)
    (hc : exec (next S) initial ls = some c)
    (hmeets : Meets (next S) initial (fun _ => SendsGenuine S) ls)
    (hp : QuorumEchoed S ls m (p = ·)) (hq : QuorumEchoed S ls m (q = ·)) : p = q := by
  obtain ⟨A, hA, hAcard, hAechoed⟩ := hp
  obtain ⟨B, hB, hBcard, hBechoed⟩ := hq
  have hlt := lt_two_mul_readyThreshold S.parties.nodes.card S.f
  obtain ⟨j, hjA, hjB, hj⟩ := Parties.exists_correct_mem_inter hA.subset hB.subset hf (by omega)
  obtain ⟨_, rfl, hep⟩ := hAechoed j hjA hj
  obtain ⟨_, rfl, heq⟩ := hBechoed j hjB hj
  exact EchoReason.unique hc hmeets hj hep.reason heq.reason

theorem QuorumEchoed.genuine (hf : S.parties.byz.card ≤ S.f)
    (hmeets : Meets (next S) initial (fun _ => SendsGenuine S) ls) {s : PeerId}
    (hs : s ∈ S.parties.correct) (hsender : S.isSender s = true)
    (hp : QuorumEchoed S ls (S.uuid s) (p = ·)) : p = hello s := by
  obtain ⟨Q, hQ, hcard, hechoed⟩ := hp
  have hlt : Q.card < S.parties.nodes.card := Finset.card_lt_card hQ
  have hbig : S.f < Q.card := by
    unfold readyThreshold at hcard
    omega
  obtain ⟨j, hjQ, hj⟩ := Parties.exists_correct_mem hQ.subset hf hbig
  obtain ⟨_, rfl, he⟩ := hechoed j hjQ hj
  exact EchoReason.genuine hmeets hs hsender hj he.reason

/-- **Agreement on content**: in a run in which no step mixes payloads, correct
nodes deliver one payload per `msg_id`, and a correct sender's own. -/
theorem agreesOnContent_of_payloadsMatch (S : System) (hf : S.parties.byz.card ≤ S.f)
    (ls : History) (c : Config PeerId Packet NodeState Task)
    (hc : exec (next S) initial ls = some c)
    (hmeets : Meets (next S) initial (PayloadsMatch S) ls) : AgreesOnContent S ls c := by
  have htips : Meets (next S) initial (TipsBacked S (· = ·)) ls :=
    fun ls₁ l ls₂ s hls hs => (hmeets ls₁ l ls₂ s hls hs).1
  have hsends : Meets (next S) initial (fun _ => SendsGenuine S) ls :=
    fun ls₁ l ls₂ s hls hs => (hmeets ls₁ l ls₂ s hls hs).2
  have hquorum {i m p} (hi : i ∈ S.parties.correct) (hdel : (m, p) ∈ (c.st i).deliveries) :
      QuorumEchoed S ls m (p = ·) :=
    quorumEchoed_of_mem_deliveries (fun _ _ _ h h' => h.trans h') hf hc htips hi hdel
  refine ⟨fun i hi j hj m p q hp hq => ?_, fun s hs hsender _ i hi p hp => ?_⟩
  · exact (hquorum hi hp).agree hf hc hsends (hquorum hj hq)
  · exact (hquorum hi hp).genuine hf hsends hs hsender

instance {R : String → String → Prop} [DecidableRel R] : Decidable (TipsBacked S R ls c l) := by
  unfold TipsBacked
  split <;> infer_instance

instance : Decidable (PayloadsMatch S ls c l) := inferInstanceAs (Decidable (_ ∧ _))

theorem agreesOnContent_of_payloadsMatch_fourNodes :
    ∃ c, exec (next fourNodes) initial fourNodesRun = some c ∧
      (c.st "b").deliveries = [("uuid of a", "hello - a")] ∧
      AgreesOnContent fourNodes fourNodesRun c := by
  obtain ⟨c, hc, hdel⟩ := exists_exec_of_any (next fourNodes) initial fourNodesRun
    (fun c => (c.st "b").deliveries = [("uuid of a", "hello - a")])
    (by decide)
  exact ⟨c, hc, of_decide_eq_true hdel, agreesOnContent_of_payloadsMatch fourNodes (by decide)
    fourNodesRun c hc (meets_of_meetsFrom (by decide))⟩

/-! ## Mixed payloads break agreement -/

/-- The READY comes from `z`, with another payload. -/
def evilRun : History :=
  let readied := { initialSend fourNodes "a" with phase := "ready" }
  supportedRun ++
    [.forge ⟨"z", "b", .ready, { readied with payload := "evil" }⟩,
      .recv ⟨"b", "c", .ready, readied⟩]

/-- At `N = 4`, `f = 1` one node that sends a READY with another payload makes
two correct nodes deliver different payloads. -/
theorem evilRun_disagrees :
    ¬ ∀ (S : System) (ls : History) (c : Config PeerId Packet NodeState Task),
      S.parties.byz.card ≤ S.f → 3 * S.f + 1 ≤ S.parties.nodes.card →
      exec (next S) initial ls = some c → AgreesOnContent S ls c := by
  intro h
  obtain ⟨c, hc, hdel⟩ := exists_exec_of_any (next fourNodes) initial evilRun
    (fun c => (c.st "b").deliveries = [("uuid of a", "evil")] ∧
      (c.st "c").deliveries = [("uuid of a", "hello - a")]) (by decide)
  obtain ⟨hb, hc'⟩ := of_decide_eq_true hdel
  have hagree := (h fourNodes evilRun c (by decide) (by decide) hc).1 "b" (by decide)
    "c" (by decide) "uuid of a" "evil" "hello - a" (by simp [hb]) (by simp [hc'])
  exact absurd hagree (by decide)

end DistBench.Bracha.Basic
