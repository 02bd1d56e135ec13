import DistBench.Bracha.AtMostOnce
import DistBench.Bracha.StackRefinement

/-!
# What Bracha on top of Dolev delivers

When the nodes outside the protocol are silent, all that goes around is what `on_start` of a
correct sender has written: the handlers change the phase of a message and nothing else. So
over the ideal layer only such messages are delivered, and a node, which on its own delivers
an id at most once, does so in the network. Both then hold of the nodes that run on their
Dolev children (`Stack.delivered_written`).

- `calls_of_run`: what a node of the network does, it does on its own.
- `Written`, `written_inductive`.
-/

namespace DistBench.Bracha

open DistBench.Async

namespace Optimized

variable {S : System} {ls : History} {c base : Config PeerId Packet NodeState Task} {i src : PeerId}

/-! ## A node of the network on its own -/

/-- The handler a message on the wire is for. -/
def Method.handler : Method → Handler
  | .dolev => .dolevDeliver
  | .send => .send
  | .echo => .echo
  | .ready => .ready

/-- The coroutines that have been suspended. -/
def Task.conts : Task → Multiset Cont
  | .onStart => 0
  | .suspended k => {k}

theorem call_handler {s : NodeState} {p : Packet} :
    (handlers S i).call p.method.handler s src p.msg = receive S i s src p := by
  obtain ⟨method, msg⟩ := p
  cases method <;> rfl

theorem conts_perform {t : Turn NodeState Cont} :
    (perform S i t).left.bind Task.conts = ↑t.rest.toList := by
  cases h : t.rest <;> simp [perform, Outcome.left, h, Task.conts]

/-- The node on its own is where the node of the network is. -/
structure Matches (i : PeerId) (c : Config PeerId Packet NodeState Task)
    (x : Local NodeState Cont) : Prop where
  st : x.st = c.st i
  suspended : (x.suspended : Multiset Cont) = (c.tasks i : Multiset Task).bind Task.conts

theorem Matches.step {l : Label PeerId Packet Task} {o : Outcome PeerId Packet NodeState Task}
    {x : Local NodeState Cont} (h : Matches i c x)
    (hseg : Segment (protocol S) S.parties c l i o base) :
    ∃ call x', (handlers S i).step x call = some x' ∧ Matches i (base.commit i o) x' := by
  have haccount := congrArg (Multiset.bind · Task.conts) hseg.tasks_account
  simp only [Multiset.add_bind, ← h.suspended] at haccount
  have hrun {t : Turn NodeState Cont} {ks : List Cont} (ho : o = perform S i t)
      (hks : (ks : Multiset Cont) + l.consumed.bind Task.conts = x.suspended) :
      Matches i (base.commit i o) (t.settle ks).1 := by
    subst ho
    refine ⟨by rw [Config.commit_st_self]; rfl, ?_⟩
    rw [conts_perform, ← hks, ← add_assoc] at haccount
    exact (add_right_cancel haccount).symm
  cases hseg with
  | @recv e _ _ | @forge e _ _ =>
    refine ⟨.call e.msg.method.handler e.src e.msg.msg, _, rfl, hrun ?_ (add_zero _)⟩
    rw [call_handler, h.st]
    rfl
  | @wake i t o _ ht ho =>
    obtain rfl := Option.some.inj ho
    cases t with
    | onStart => exact ⟨.start, _, rfl, hrun (h.st ▸ rfl) (add_zero _)⟩
    | suspended k =>
      have hk : k ∈ x.suspended := by
        rw [← Multiset.mem_coe, h.suspended]
        exact Multiset.mem_bind.mpr ⟨_, ht, Multiset.mem_singleton_self k⟩
      refine ⟨.wake k, _, if_pos hk, hrun (h.st ▸ rfl) ?_⟩
      rw [Label.consumed, Multiset.singleton_bind, Task.conts, add_comm, Multiset.singleton_add,
        Multiset.cons_coe]
      exact Multiset.coe_eq_coe.mpr (List.perm_cons_erase hk).symm

/-- **What a node of the network does, it does on its own.** -/
theorem calls_of_run : ∀ (ls : History) (c : Config PeerId Packet NodeState Task),
    exec (next S) initial ls = some c →
      ∃ calls x, exec (handlers S i).step ⟨{}, []⟩ calls = some x ∧ Matches i c x := by
  refine run_induction (P := fun (_ : History) (c : Config PeerId Packet NodeState Task) =>
    ∃ calls x, exec (handlers S i).step ⟨{}, []⟩ calls = some x ∧ Matches i c x)
    ⟨[], _, rfl, rfl, rfl⟩ ?_
  intro ls c l c' _ ih hl
  obtain ⟨calls, x, hx, hmatch⟩ := ih
  obtain ⟨j, o, base, hseg, rfl⟩ := step_iff.mp hl
  by_cases hj : i = j
  · subst hj
    obtain ⟨call, x', hstep, hmatch'⟩ := hmatch.step hseg
    exact ⟨calls ++ [call], x', exec_snoc hx hstep, hmatch'⟩
  · refine ⟨calls, x, hx, ?_, ?_⟩
    · rw [Config.commit_st_of_ne hj, hseg.base_st]
      exact hmatch.st
    · rw [Config.commit_tasks_of_ne hj, hseg.base_tasks_of_ne hj]
      exact hmatch.suspended

/-- A node delivers an id at most once, whatever the network does. -/
theorem nodup_deliveries (hc : exec (next S) initial ls = some c) :
    ((c.st i).deliveries.map Prod.fst).Nodup := by
  obtain ⟨calls, x, hx, hmatch⟩ := calls_of_run (i := i) ls c hc
  have hinv := guarded.inv_of_run rfl rfl calls x hx
  rw [← hmatch.st]
  exact hinv.consistent.nodup

/-! ## What is delivered -/

/-- The message is one that `on_start` of a correct sender has written, in some phase. -/
def Written (S : System) (msg : BrachaMessage) : Prop :=
  ∃ s ∈ S.parties.correct, S.isSender s = true ∧ ∃ k < S.numMessages, ∃ phase,
    msg = { initialSend S s k with phase := phase }

/-- So is the message a coroutine is about. -/
def Cont.Written (S : System) (i : PeerId) : Cont → Prop
  | .sleeping k | .singleHop k _ | .sent k | .echoed k => S.isSender i = true ∧ k < S.numMessages
  | .handled => True
  | .echoAmplified msg | .echoGenerated msg | .readyDone msg => Optimized.Written S msg

/-- All that a turn from `s` gives away, goes on with or delivers is. -/
structure WrittenTurn (S : System) (i : PeerId) (s : NodeState) (t : Turn NodeState Cont) :
    Prop where
  acts : ∀ a ∈ t.acts, Written S a.message
  rest : ∀ k ∈ t.rest, k.Written S i
  deliveries : ∀ d ∈ t.st.deliveries,
    d ∈ s.deliveries ∨ ∃ msg, Written S msg ∧ d = (msg.msgId, msg.payload)

section Turns

variable {s s' : NodeState} {msg : BrachaMessage} {k : Nat}

theorem Written.phase (h : Written S msg) (phase : String) :
    Written S { msg with phase := phase } := by
  obtain ⟨s, hs, hsender, k, hk, _, rfl⟩ := h
  exact ⟨s, hs, hsender, k, hk, phase, rfl⟩

/-- A turn that gives nothing away and is not suspended. -/
theorem WrittenTurn.silent (h : s'.deliveries = s.deliveries) : WrittenTurn S i s { st := s' } :=
  ⟨nofun, nofun, fun _ hd => .inl (h ▸ hd)⟩

/-- A turn that gives one message away. -/
theorem WrittenTurn.gives {a : Action} {cont : Cont} (h : s'.deliveries = s.deliveries)
    (ha : Written S a.message) (hcont : cont.Written S i) :
    WrittenTurn S i s { st := s', acts := [a], rest := some cont } where
  acts _ ha' := List.mem_singleton.mp ha' ▸ ha
  rest _ hcont' := Option.some.inj hcont' ▸ hcont
  deliveries _ hd := .inl (h ▸ hd)

theorem WrittenTurn.congr {t : Turn NodeState Cont} (h : WrittenTurn S i s' t)
    (hs : s'.deliveries = s.deliveries) : WrittenTurn S i s t :=
  { h with deliveries := fun d hd => hs ▸ h.deliveries d hd }

theorem written_send (h : Written S msg) : WrittenTurn S i s (send S i s src msg) := by
  simp only [send]
  split
  · split
    · split
      · exact .gives rfl (h.phase _) trivial
      · exact .silent rfl
    · split
      · exact .gives rfl (h.phase _) trivial
      · exact .silent rfl
  · exact .silent rfl

theorem written_readyTrigger (h : Written S msg) : WrittenTurn S i s (readyTrigger S i s msg) := by
  unfold readyTrigger
  split_ifs
  · exact .gives rfl (h.phase _) trivial
  · exact .silent rfl

theorem written_echo (h : Written S msg) : WrittenTurn S i s (echo S i s src msg) := by
  simp only [echo]
  split_ifs
  · exact .gives rfl (h.phase _) h
  · exact (written_readyTrigger h).congr rfl

theorem written_deliverIfReady (h : Written S msg) :
    WrittenTurn S i s { st := deliverIfReady S s msg } := by
  refine ⟨nofun, nofun, fun d hd => ?_⟩
  have hcheck (s : NodeState) : (checkCompletion s).deliveries = s.deliveries := by
    unfold checkCompletion
    split_ifs <;> rfl
  unfold deliverIfReady at hd
  split_ifs at hd
  · simp only [hcheck, List.mem_append, List.mem_singleton] at hd
    exact hd.imp_right fun hd => ⟨msg, h, hd⟩
  · exact .inl hd

theorem written_readyAmplify {will : Bool} (h : Written S msg) :
    WrittenTurn S i s (readyAmplify S s msg will) := by
  unfold readyAmplify
  split_ifs
  · exact .gives rfl h h
  · exact written_deliverIfReady h

theorem written_ready (h : Written S msg) : WrittenTurn S i s (ready S i s src msg) := by
  simp only [ready]
  split_ifs
  · exact .gives rfl (h.phase _) h
  · exact (written_readyAmplify h).congr rfl
  · exact (written_readyAmplify h).congr rfl

theorem written_dolevDeliver (h : Written S msg) :
    WrittenTurn S i s (dolevDeliver S i s src msg) := by
  unfold dolevDeliver
  split_ifs
  · exact written_send h
  · exact written_echo h
  · exact written_ready h
  · exact .silent rfl

theorem written_receive {p : Packet} (h : Written S p.msg) :
    WrittenTurn S i s (receive S i s src p) := by
  obtain ⟨method, msg⟩ := p
  cases method with
  | dolev => exact written_dolevDeliver h
  | send => exact @written_send S i src s msg h
  | echo => exact written_echo h
  | ready => exact written_ready h

theorem written_startMessage (hi : i ∈ S.parties.correct) (hsender : S.isSender i = true) :
    WrittenTurn S i s (startMessage S i s k) := by
  simp only [startMessage]
  split_ifs with hk
  · refine ⟨List.forall_mem_nil _, fun cont hcont => ?_, fun _ => .inl⟩
    obtain rfl := Option.some.inj hcont
    exact ⟨hsender, hk⟩
  · exact .gives rfl ⟨i, hi, hsender, k, hk, "send", rfl⟩ ⟨hsender, hk⟩
  · exact .silent rfl

theorem written_afterSend (hi : i ∈ S.parties.correct) (hsender : S.isSender i = true)
    (hk : k < S.numMessages) : WrittenTurn S i s (afterSend S i s k) := by
  simp only [afterSend]
  split_ifs
  · exact .gives rfl ⟨i, hi, hsender, k, hk, "echo", rfl⟩ ⟨hsender, hk⟩
  · exact (written_startMessage hi hsender).congr rfl

theorem written_singleHop {ps : List PeerId} (hi : i ∈ S.parties.correct)
    (hsender : S.isSender i = true) (hk : k < S.numMessages) :
    WrittenTurn S i s (singleHop S i s k ps) := by
  cases ps with
  | nil => exact written_afterSend hi hsender hk
  | cons p ps => exact .gives rfl ⟨i, hi, hsender, k, hk, "send", rfl⟩ ⟨hsender, hk⟩

theorem written_onStart (hi : i ∈ S.parties.correct) : WrittenTurn S i s (onStart S i s) := by
  unfold onStart
  split_ifs with hsender
  · exact written_startMessage hi hsender
  · exact .silent rfl

theorem written_resume {cont : Cont} (hi : i ∈ S.parties.correct) (h : cont.Written S i) :
    WrittenTurn S i s (resume S i s cont) := by
  cases cont with
  | sleeping k => exact written_singleHop hi h.1 h.2
  | singleHop k ps => exact written_singleHop hi h.1 h.2
  | sent k => exact written_afterSend hi h.1 h.2
  | echoed k => exact written_startMessage hi h.1
  | handled => exact .silent rfl
  | echoAmplified msg => exact written_readyTrigger h
  | echoGenerated msg | readyDone msg => exact written_deliverIfReady h

end Turns

/-- The assertion that nothing else goes around. -/
def written (S : System) : Assertion PeerId Packet NodeState Task where
  node _ i s ts := (∀ k, .suspended k ∈ ts → k.Written S i) ∧
    ∀ d ∈ s.deliveries, ∃ msg, Written S msg ∧ d = (msg.msgId, msg.payload)
  msg _ e := Written S e.msg.msg

theorem written_inductive :
    (written S).Inductive (protocol S) S.parties initial fun _ _ l => ∀ e, l ≠ .forge e where
  init := ⟨fun _ _ => ⟨by simp [initial], by simp [initial]⟩, nofun, nofun⟩
  node_mono _ h := h
  msg_mono h := h
  segment := by
    intro ls c l i o base _ hA hsilent hseg
    have hi := hseg.correct
    obtain ⟨hconts, hdelivered⟩ := hA.node i hi
    have hturn {t : Turn NodeState Cont} (ht : WrittenTurn S i (c.st i) t)
        (ho : o = perform S i t) : (written S).node (ls ++ [l]) i o.st
          (o.rest.toList ++ base.tasks i) ∧ ∀ dm ∈ o.out, Written S dm.2.msg := by
      subst ho
      refine ⟨⟨fun k hk => ?_, fun d hd => ?_⟩, fun dm hdm => ?_⟩
      · rcases hseg.mem_rest_or_tasks hk with hnew | hold
        · obtain ⟨k', hk', heq⟩ := Option.map_eq_some_iff.mp hnew
          exact Task.suspended.inj heq ▸ ht.rest k' hk'
        · exact hconts k hold
      · exact (ht.deliveries d hd).elim (hdelivered d) id
      · obtain ⟨a, ha, hdm⟩ := List.mem_flatMap.mp hdm
        have hwritten := ht.acts a ha
        cases a with
        | bracha msg =>
          obtain ⟨p, -, rfl⟩ := List.mem_map.mp hdm
          exact hwritten
        | sendTo p msg =>
          obtain rfl := List.mem_singleton.mp hdm
          exact hwritten
    cases hseg with
    | @recv e hnet _ => exact hturn (written_receive (hA.msg e hnet)) rfl
    | forge _ _ => exact absurd rfl (hsilent _)
    | @wake i t o _ ht ho =>
      obtain rfl := Option.some.inj ho
      cases t with
      | onStart => exact hturn (written_onStart hi) rfl
      | suspended k => exact hturn (written_resume hi (hconts k ht)) rfl

end Optimized

namespace Stack

/-- **What Bracha on top of Dolev delivers.** Unless a node outside the protocol says something,
a correct node delivers nothing but the messages of correct senders, with the payload their
`on_start` has given them, and none of them twice. -/
theorem delivered_written (S : System) (ls : History) (c : Config PeerId Packet NodeState Task)
    (hc : exec (next S) initial ls = some c) (hsilent : ∀ e, .forge e ∉ ls) (i : PeerId)
    (hi : i ∈ S.parties.correct) :
    (∀ d ∈ (c.st i).bracha.deliveries, ∃ s ∈ S.parties.correct, S.isSender s = true ∧
      ∃ k < S.numMessages, d = (S.uuid s k, Optimized.hello s k)) ∧
    ((c.st i).bracha.deliveries.map Prod.fst).Nodup := by
  obtain ⟨B, d, b, pending, h⟩ := simulates_of_run ls c hc
    (genuine_of_original (original_of_silent ls c hc hsilent))
  have hst : b.st i = (c.st i).bracha := h.above.st i
  rw [← hst]
  refine ⟨fun d hd => ?_, Optimized.nodup_deliveries h.bracha⟩
  have hmeets : Meets (Optimized.next S.toSystem) Optimized.initial (fun _ _ l => ∀ e, l ≠ .forge e)
      (ls.filterMap (brachaLabel S)) := by
    rintro ls₁ l ls₂ _ heq _ e rfl
    exact bracha_silent hc hsilent e (heq ▸ by simp)
  obtain ⟨msg, ⟨s, hs, hsender, k, hk, phase, rfl⟩, rfl⟩ :=
    ((Assertion.holds_of_meets Optimized.written_inductive _ _ h.bracha hmeets).node i hi).2 d hd
  exact ⟨s, hs, hsender, k, hk, rfl⟩

/-- `a` and `b` are neighbours, and `a` sends. -/
def pair : System where
  toDeployment := .ofLists ["a", "b"] [] (by decide)
  f := 0
  isSender i := i = "a"
  enableEchoAmplification := true
  enableSingleHopSend := false
  enableReducedMessages := true
  admissible _ := rfl
  numMessages := 1
  uuid i k := i ++ String.ofList (List.replicate k '+')
  neighbours i := {"a", "b"} \ {i}
  dolevF := 0
  nx := .allPaths
  irrefl i := by simp

/-- `a` broadcasts, and everything is handled. -/
def pairRun : History := schedule (protocol pair) pair.parties ["a", "b"] 60 initial

theorem delivered_written_pair :
    ∃ c, exec (next pair) initial pairRun = some c ∧
      ("a", "hello - a - 0") ∈ (c.st "a").bracha.deliveries ∧
      ((c.st "a").bracha.deliveries.map Prod.fst).Nodup ∧
      ∃ s ∈ pair.parties.correct, pair.isSender s = true ∧ ∃ k < pair.numMessages,
        ("a", "hello - a - 0") = (pair.uuid s k, Optimized.hello s k) := by
  obtain ⟨c, hc, hdel⟩ := exists_exec_of_any (next pair) initial pairRun
    (fun c => ("a", "hello - a - 0") ∈ (c.st "a").bracha.deliveries) (by decide +kernel)
  have hmem := of_decide_eq_true hdel
  obtain ⟨hwritten, hnodup⟩ := delivered_written pair pairRun c hc
    (fun _ => forge_not_mem_schedule) "a" (by decide)
  exact ⟨c, hc, hmem, hnodup, hwritten _ hmem⟩

end Stack

end DistBench.Bracha
