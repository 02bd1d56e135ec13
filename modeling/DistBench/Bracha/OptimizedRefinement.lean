import DistBench.Bracha.Plain
import DistBench.Bracha.Optimized

/-!
# Optimised Bracha without its optimisations

With the three flags off, `bracha_optimized.py` is meant to be `bracha.py`. The handlers
are compared in lockstep. Two things differ. The payloads of `on_start` carry the number
of the message (`onStart_plain`). And `echo` and `ready` ask `should_generate_ready` for
leave to broadcast a READY, and `on_start` asks `should_generate_echo` for leave to
broadcast the own ECHO, without looking at `enable_reduced_messages`.

- `AgreesOn`: states that differ at most in `sent_ready` of some messages, which is all
  that a READY leaves behind.
- `SameTurn`, `Lockstep`: on the committees the nodes do the same, in any interleaving of
  deliveries and resumptions.
- `Ends`, `AtRest`: off them, and with deliveries handled one after the other, they differ in
  READYs only.
- `flagsOff_refines_plain`: the results.
-/

namespace DistBench.Bracha.Optimized

/-- Reduced to `bracha.py`. -/
def System.plain (S : System) : Plain.System where
  toMembership := S.toMembership
  isSender := S.isSender
  uuid i := S.uuid i 0

/-- All three optimisations are off. -/
structure System.FlagsOff (S : System) : Prop where
  echoAmplification : S.enableEchoAmplification = false
  singleHopSend : S.enableSingleHopSend = false
  reducedMessages : S.enableReducedMessages = false

/-- The point of `bracha.py` a handler is suspended at, here. -/
def embed : Plain.Cont → Cont
  | .sendDone _ => .sent 0
  | .echoDone => .echoed 0
  | .handled => .handled
  | .readyDone msg => .readyDone msg

/-- A handler, not `on_start`, is suspended there. -/
def Plain.Cont.OfHandler : Plain.Cont → Prop
  | .sendDone _ => False
  | .echoDone => False
  | .handled => True
  | .readyDone _ => True

/-- The two nodes have the same dictionaries, and handlers suspended at the same
points. -/
structure Corresponds (x : Local Plain.NodeState Plain.Cont) (y : Local NodeState Cont) :
    Prop where
  vars : x.st.vars = y.st.vars
  suspended : y.suspended = x.suspended.map embed
  ofHandler : ∀ k ∈ x.suspended, Plain.Cont.OfHandler k

/-- The node is on the READY committee of the sender a delivery names. -/
def OnReadyCommittee (S : System) (i : PeerId) : Input → Prop
  | .start => False
  | .deliver _ msg => msg.phase = "echo" ∨ msg.phase = "ready" →
    shouldGenerateReady S i msg.sender = true
  | .resume _ => True

instance (S : System) (i : PeerId) : DecidablePred (OnReadyCommittee S i)
  | .start => inferInstanceAs (Decidable False)
  | .deliver _ _ => inferInstanceAs (Decidable (_ → _))
  | .resume _ => inferInstanceAs (Decidable True)

variable {S : System} {i src : PeerId} {s : Plain.NodeState} {s' : NodeState} {msg : BrachaMessage}
  {P : String → Prop}

@[simp] theorem plain_toMembership : S.plain.toMembership = S.toMembership := rfl

/-! ## States that agree -/

/-- The dictionaries are the same, except for whether READYs have been sent for messages
other than these. -/
structure AgreesOn (P : String → Prop) (v w : BrachaState) : Prop where
  seenMessages : v.seenMessages = w.seenMessages
  echos : v.echos = w.echos
  readys : v.readys = w.readys
  sentEcho : v.sentEcho = w.sentEcho
  delivered : v.delivered = w.delivered
  sentReady : ∀ m, P m → v.sentReady.get m false = w.sentReady.get m false

/-- The test that ends `ready`, as a change of the dictionaries. -/
def deliverVars (f : Nat) (v : BrachaState) (m : String) : BrachaState :=
  if v.delivered.get m false = false ∧ deliverThreshold f ≤ (v.readys.get m ∅).card then
    v.markDelivered m
  else v

namespace AgreesOn

variable {v w : BrachaState} {m : String} {x : PeerId}

theorem of_eq (h : v = w) : AgreesOn P v w := by
  subst h
  exact ⟨rfl, rfl, rfl, rfl, rfl, fun _ _ => rfl⟩

theorem symm (h : AgreesOn P v w) : AgreesOn P w v :=
  ⟨h.seenMessages.symm, h.echos.symm, h.readys.symm, h.sentEcho.symm, h.delivered.symm,
    fun m hm => (h.sentReady m hm).symm⟩

theorem initState (h : AgreesOn P v w) : AgreesOn P (v.initState m) (w.initState m) := by
  unfold BrachaState.initState
  rw [h.echos]
  split
  · exact h
  · refine ⟨h.seenMessages, rfl, ?_, ?_, ?_, fun k hk => ?_⟩
    · simp only [h.readys]
    · simp only [h.sentEcho]
    · simp only [h.delivered]
    · by_cases hkm : k = m
      · simp [hkm]
      · simp [Dict.get_insert_of_ne hkm, h.sentReady k hk]

theorem see (h : AgreesOn P v w) : AgreesOn P (v.see m) (w.see m) :=
  ⟨congrArg (insert m) h.seenMessages, h.echos, h.readys, h.sentEcho, h.delivered, h.sentReady⟩

theorem addEcho (h : AgreesOn P v w) : AgreesOn P (v.addEcho m x) (w.addEcho m x) :=
  ⟨h.seenMessages, by simp only [BrachaState.addEcho, h.echos], h.readys, h.sentEcho, h.delivered,
    h.sentReady⟩

theorem addReady (h : AgreesOn P v w) : AgreesOn P (v.addReady m x) (w.addReady m x) :=
  ⟨h.seenMessages, h.echos, by simp only [BrachaState.addReady, h.readys], h.sentEcho, h.delivered,
    h.sentReady⟩

theorem markSentEcho (h : AgreesOn P v w) : AgreesOn P (v.markSentEcho m) (w.markSentEcho m) :=
  ⟨h.seenMessages, h.echos, h.readys, by simp only [BrachaState.markSentEcho, h.sentEcho],
    h.delivered, h.sentReady⟩

theorem deliverVars {f : Nat} (h : AgreesOn P v w) :
    AgreesOn P (deliverVars f v m) (deliverVars f w m) := by
  unfold Optimized.deliverVars
  rw [h.delivered, h.readys]
  split
  · exact ⟨h.seenMessages, h.echos, h.readys, h.sentEcho,
      by simp only [BrachaState.markDelivered, h.delivered], h.sentReady⟩
  · exact h

theorem markSentReady (h : AgreesOn P v w) :
    AgreesOn P (v.markSentReady m) (w.markSentReady m) := by
  refine ⟨h.seenMessages, h.echos, h.readys, h.sentEcho, h.delivered, fun k hk => ?_⟩
  by_cases hkm : k = m
  · simp [BrachaState.markSentReady, hkm]
  · simp [BrachaState.markSentReady, Dict.get_insert_of_ne hkm, h.sentReady k hk]

/-- A READY for another message may be sent by one of the nodes. -/
theorem markSentReady_right (h : AgreesOn P v w) (hm : ¬ P m) :
    AgreesOn P v (w.markSentReady m) := by
  refine ⟨h.seenMessages, h.echos, h.readys, h.sentEcho, h.delivered, fun k hk => ?_⟩
  have hkm : k ≠ m := fun heq => hm (heq ▸ hk)
  simp [BrachaState.markSentReady, Dict.get_insert_of_ne hkm, h.sentReady k hk]

end AgreesOn

theorem plain_vars_deliverIfReady :
    (Plain.deliverIfReady S.plain s msg).vars = deliverVars S.f s.vars msg.msgId := by
  unfold Plain.deliverIfReady deliverVars
  rw [plain_toMembership]
  split
  · exact Plain.vars_checkCompletion _
  · rfl

theorem vars_deliverIfReady :
    (deliverIfReady S s' msg).vars = deliverVars S.f s'.vars msg.msgId := by
  unfold deliverIfReady deliverVars
  split
  · exact vars_checkCompletion _
  · rfl

/-- The test does not ask whether a READY has been sent. -/
theorem deliverVars_markSentReady {f : Nat} {v : BrachaState} {m k : String} :
    deliverVars f (v.markSentReady k) m = (deliverVars f v m).markSentReady k := by
  unfold deliverVars
  by_cases htest : v.delivered.get m false = false ∧ deliverThreshold f ≤ (v.readys.get m ∅).card
  · rw [if_pos htest]
    exact if_pos htest
  · rw [if_neg htest]
    exact if_neg htest

/-! ## Handlers that do the same -/

/-- Two turns with the same effect, as far as `AgreesOn` tells. -/
structure SameTurn (P : String → Prop) (t : Turn Plain.NodeState Plain.Cont)
    (u : Turn NodeState Cont) : Prop where
  vars : AgreesOn P t.st.vars u.st.vars
  acts : t.acts = u.acts
  rest : u.rest = t.rest.map embed
  ofHandler : ∀ k ∈ t.rest, Plain.Cont.OfHandler k

theorem sameTurn_send (hoff : S.FlagsOff) (h : AgreesOn P s.vars s'.vars) :
    SameTurn P (Plain.send i s src msg) (send S i s' src msg) := by
  have hinit : AgreesOn P (s.vars.initState msg.msgId) (s'.vars.initState msg.msgId) := h.initState
  unfold Plain.send send
  simp only [registerMessage, hinit.seenMessages, hoff.singleHopSend, hoff.reducedMessages, true_or,
    if_true, Bool.false_eq_true, if_false]
  split
  · exact ⟨hinit.see.markSentEcho.addEcho, rfl, rfl, by simp [Plain.Cont.OfHandler]⟩
  · exact ⟨hinit, rfl, rfl, by simp⟩

theorem sameTurn_echo (hoff : S.FlagsOff) (h : AgreesOn P s.vars s'.vars) (hP : P msg.msgId)
    (hready : shouldGenerateReady S i msg.sender = true) :
    SameTurn P (Plain.echo S.plain i s src msg) (echo S i s' src msg) := by
  have hadded : AgreesOn P ((s.vars.initState msg.msgId).addEcho msg.msgId src)
      ((s'.vars.initState msg.msgId).addEcho msg.msgId src) := h.initState.addEcho
  unfold Plain.echo echo readyTrigger
  simp only [registerMessage, hadded.sentReady _ hP, hadded.echos, hoff.echoAmplification, hready,
    and_true, Bool.false_eq_true, false_and, if_false, plain_toMembership]
  split
  · exact ⟨hadded.markSentReady, rfl, rfl, by simp [Plain.Cont.OfHandler]⟩
  · exact ⟨hadded, rfl, rfl, by simp⟩

theorem sameTurn_deliverIfReady (h : AgreesOn P s.vars s'.vars) :
    SameTurn P { st := Plain.deliverIfReady S.plain s msg } { st := deliverIfReady S s' msg } := by
  refine ⟨?_, rfl, rfl, by simp⟩
  rw [plain_vars_deliverIfReady, vars_deliverIfReady]
  exact h.deliverVars

theorem sameTurn_ready (hoff : S.FlagsOff) (h : AgreesOn P s.vars s'.vars) (hP : P msg.msgId)
    (hready : shouldGenerateReady S i msg.sender = true) :
    SameTurn P (Plain.ready S.plain s src msg) (ready S i s' src msg) := by
  have hadded : AgreesOn P ((s.vars.initState msg.msgId).addReady msg.msgId src)
      ((s'.vars.initState msg.msgId).addReady msg.msgId src) := h.initState.addReady
  unfold Plain.ready ready readyAmplify willSendReadyNow
  simp only [registerMessage, hadded.sentReady _ hP, hadded.readys, hoff.echoAmplification, hready,
    and_true, Bool.false_eq_true, false_and, if_false, decide_eq_true_eq, plain_toMembership]
  split
  · exact ⟨hadded.markSentReady, rfl, rfl, by simp [Plain.Cont.OfHandler]⟩
  · exact sameTurn_deliverIfReady hadded

/-- A delivery about a message for which the committee does not matter. -/
theorem sameTurn_dolevDeliver (hoff : S.FlagsOff) (h : AgreesOn P s.vars s'.vars)
    (hP : msg.phase = "echo" ∨ msg.phase = "ready" →
      P msg.msgId ∧ shouldGenerateReady S i msg.sender = true) :
    SameTurn P (Plain.dolevDeliver S.plain i s src msg) (dolevDeliver S i s' src msg) := by
  unfold Plain.dolevDeliver dolevDeliver
  by_cases hsend : msg.phase = "send"
  · rw [if_pos hsend, if_pos hsend]
    exact sameTurn_send hoff h
  rw [if_neg hsend, if_neg hsend]
  by_cases hecho : msg.phase = "echo"
  · rw [if_pos hecho, if_pos hecho]
    obtain ⟨hm, hready⟩ := hP (.inl hecho)
    exact sameTurn_echo hoff h hm hready
  rw [if_neg hecho, if_neg hecho]
  by_cases hphase : msg.phase = "ready"
  · rw [if_pos hphase, if_pos hphase]
    obtain ⟨hm, hready⟩ := hP (.inr hphase)
    exact sameTurn_ready hoff h hm hready
  · rw [if_neg hphase, if_neg hphase]
    exact ⟨h, rfl, rfl, by simp⟩

theorem sameTurn_resume (h : AgreesOn P s.vars s'.vars) {k : Plain.Cont}
    (hk : Plain.Cont.OfHandler k) :
    SameTurn P (Plain.resume S.plain i s k) (resume S i s' (embed k)) := by
  cases k with
  | sendDone msg => exact absurd hk id
  | echoDone => exact absurd hk id
  | handled => exact ⟨h, rfl, rfl, by simp [Plain.resume]⟩
  | readyDone msg => exact sameTurn_deliverIfReady h

/-! ## Any interleaving -/

/-- The two nodes agree, and have handlers suspended at the same points. -/
structure Lockstep (P : String → Prop) (x : Local Plain.NodeState Plain.Cont)
    (y : Local NodeState Cont) : Prop where
  vars : AgreesOn P x.st.vars y.st.vars
  suspended : y.suspended = x.suspended.map embed
  ofHandler : ∀ k ∈ x.suspended, Plain.Cont.OfHandler k

theorem Corresponds.lockstep {x : Local Plain.NodeState Plain.Cont} {y : Local NodeState Cont}
    (h : Corresponds x y) : Lockstep P x y := ⟨.of_eq h.vars, h.suspended, h.ofHandler⟩

/-- Taking two turns with the same effect leaves the nodes in lockstep. -/
theorem SameTurn.settle {t : Turn Plain.NodeState Plain.Cont} {u : Turn NodeState Cont}
    {ks : List Plain.Cont} (h : SameTurn P t u) (hks : ∀ k ∈ ks, Plain.Cont.OfHandler k) :
    Lockstep P (t.settle ks).1 (u.settle (ks.map embed)).1 ∧
      (t.settle ks).2 = (u.settle (ks.map embed)).2 := by
  refine ⟨⟨h.vars, ?_, fun k hk => ?_⟩, h.acts⟩
  · show u.rest.toList ++ _ = (t.rest.toList ++ ks).map embed
    rw [h.rest, List.map_append]
    cases t.rest <;> rfl
  · rcases List.mem_append.mp hk with hk | hk
    · exact h.ofHandler k (Option.mem_toList.mp hk)
    · exact hks k hk

/-- One input, on the committee. -/
theorem lockstep_step (hoff : S.FlagsOff) (x : Local Plain.NodeState Plain.Cont)
    (y : Local NodeState Cont) (inp : Input) (hinp : OnReadyCommittee S i inp)
    (h : Lockstep (fun _ => True) x y) :
    Lockstep (fun _ => True) ((Plain.code S.plain i).step x inp).1 ((code S i).step y inp).1 ∧
      ((Plain.code S.plain i).step x inp).2 = ((code S i).step y inp).2 := by
  cases inp with
  | start => exact absurd hinp id
  | deliver src msg =>
    have hturn : SameTurn (fun _ => True) (Plain.dolevDeliver S.plain i x.st src msg)
        (dolevDeliver S i y.st src msg) :=
      sameTurn_dolevDeliver hoff h.vars fun hphase => ⟨trivial, hinp hphase⟩
    have hsettle := hturn.settle h.ofHandler
    rwa [← h.suspended] at hsettle
  | resume n =>
    unfold Code.step
    simp only [h.suspended, List.getElem?_map]
    cases hk : x.suspended[n]? with
    | none => exact ⟨h, rfl⟩
    | some k =>
      have hmem : k ∈ x.suspended := List.mem_of_getElem? hk
      have hturn := sameTurn_resume (S := S) (i := i) h.vars (h.ofHandler k hmem)
      have hothers : ∀ k ∈ x.suspended.eraseIdx n, Plain.Cont.OfHandler k :=
        fun k hk => h.ofHandler k (List.mem_of_mem_eraseIdx hk)
      have hsettle := hturn.settle hothers
      rw [← List.eraseIdx_map] at hsettle
      exact hsettle

/-! ## One delivery after the other -/

/-- What is broadcast, without READYs for messages other than these. -/
def compared (P : String → Prop) [DecidablePred P] (acts : List Action) : List Action :=
  acts.filter fun a => a.message.phase = "ready" → P a.message.msgId

/-- Between two deliveries: the two nodes agree, and no handler is suspended. -/
structure AtRest (P : String → Prop) (x : Local Plain.NodeState Plain.Cont)
    (y : Local NodeState Cont) : Prop where
  vars : AgreesOn P x.st.vars y.st.vars
  left : x.suspended = []
  right : y.suspended = []

/-- A handler that has run to its end and has left this behind, apart from READYs for one
message. -/
structure Ends {A K : Type} (m : String) (v : BrachaState) (t : Turn A K) (w : BrachaState) :
    Prop where
  rest : t.rest = none
  vars : w = v ∨ w = v.markSentReady m
  acts : ∀ a ∈ t.acts, a.message.phase = "ready" ∧ a.message.msgId = m

theorem SameTurn.finish {t : Turn Plain.NodeState Plain.Cont} {u : Turn NodeState Cont}
    (h : SameTurn P t u) :
    SameTurn P ((Plain.code S.plain i).finish t) ((code S i).finish u) ∧
      ((Plain.code S.plain i).finish t).rest = none := by
  have hrest := h.rest
  cases hk : t.rest with
  | none =>
    rw [hk] at hrest
    have hu : u.rest = none := hrest
    simp only [Code.finish, hk, hu]
    exact ⟨h, trivial⟩
  | some k =>
    rw [hk] at hrest
    have hu : u.rest = some (embed k) := hrest
    have hhandler := h.ofHandler k hk
    have hturn := sameTurn_resume (S := S) (i := i) h.vars hhandler
    simp only [Code.finish, hk, hu]
    refine ⟨⟨hturn.vars, ?_, hturn.rest, hturn.ofHandler⟩, ?_⟩
    · show _ ++ (Plain.resume S.plain i t.st k).acts = _ ++ (resume S i u.st (embed k)).acts
      rw [h.acts, hturn.acts]
    · cases k with
      | sendDone msg | echoDone => exact hhandler.elim
      | handled | readyDone msg => rfl

theorem plain_ends_echo : Ends msg.msgId ((s.vars.initState msg.msgId).addEcho msg.msgId src)
    ((Plain.code S.plain i).finish (Plain.echo S.plain i s src msg))
    ((Plain.code S.plain i).finish (Plain.echo S.plain i s src msg)).st.vars := by
  unfold Plain.echo
  dsimp only
  split
  · exact ⟨rfl, .inr rfl, by simp [Code.finish, Plain.code, Plain.resume, Action.message]⟩
  · exact ⟨rfl, .inl rfl, by simp [Code.finish]⟩

theorem ends_echo (hoff : S.FlagsOff) :
    Ends msg.msgId ((s'.vars.initState msg.msgId).addEcho msg.msgId src)
      ((code S i).finish (echo S i s' src msg))
      ((code S i).finish (echo S i s' src msg)).st.vars := by
  unfold echo readyTrigger
  simp only [hoff.echoAmplification, Bool.false_eq_true, false_and, if_false]
  split
  · exact ⟨rfl, .inr rfl, by simp [Code.finish, code, resume, Action.message]⟩
  · exact ⟨rfl, .inl rfl, by simp [Code.finish]⟩

theorem plain_ends_ready (hphase : msg.phase = "ready") :
    Ends msg.msgId
      (deliverVars S.f ((s.vars.initState msg.msgId).addReady msg.msgId src) msg.msgId)
      ((Plain.code S.plain i).finish (Plain.ready S.plain s src msg))
      ((Plain.code S.plain i).finish (Plain.ready S.plain s src msg)).st.vars := by
  unfold Plain.ready
  dsimp only
  split
  · refine ⟨rfl, .inr ?_, by simp [Code.finish, Plain.code, Plain.resume, Action.message, hphase]⟩
    exact plain_vars_deliverIfReady.trans deliverVars_markSentReady
  · exact ⟨rfl, .inl plain_vars_deliverIfReady, by simp [Code.finish]⟩

theorem ends_ready (hoff : S.FlagsOff) (hphase : msg.phase = "ready") :
    Ends msg.msgId
      (deliverVars S.f ((s'.vars.initState msg.msgId).addReady msg.msgId src) msg.msgId)
      ((code S i).finish (ready S i s' src msg))
      ((code S i).finish (ready S i s' src msg)).st.vars := by
  unfold ready readyAmplify
  simp only [hoff.echoAmplification, Bool.false_eq_true, false_and, if_false]
  split
  · refine ⟨rfl, .inr ?_, by simp [Code.finish, code, resume, Action.message, hphase]⟩
    exact vars_deliverIfReady.trans deliverVars_markSentReady
  · exact ⟨rfl, .inl vars_deliverIfReady, by simp [Code.finish]⟩

theorem Ends.agreesOn {A B K L : Type} {m : String} {v w v' w' : BrachaState} {t : Turn A K}
    {u : Turn B L} (h : Ends m v t v') (h' : Ends m w u w') (hm : ¬ P m) (hvw : AgreesOn P v w) :
    AgreesOn P v' w' := by
  rcases h.vars with rfl | rfl
  all_goals rcases h'.vars with rfl | rfl
  · exact hvw
  · exact hvw.markSentReady_right hm
  · exact (hvw.symm.markSentReady_right hm).symm
  · exact hvw.markSentReady

section Compared

variable [DecidablePred P]

/-- READYs for another message are not compared. -/
theorem Ends.compared_eq {A K : Type} {m : String} {v w : BrachaState} {t : Turn A K}
    (h : Ends m v t w) (hm : ¬ P m) : compared P t.acts = [] := by
  refine List.filter_eq_nil_iff.mpr fun a ha => ?_
  obtain ⟨hphase, hid⟩ := h.acts a ha
  simp [hphase, hid, hm]

/-- One delivery, on the committee where the message is one of these. -/
theorem atRest_handle (hoff : S.FlagsOff) (x : Local Plain.NodeState Plain.Cont)
    (y : Local NodeState Cont) (d : PeerId × BrachaMessage)
    (hP : P d.2.msgId → OnReadyCommittee S i (.deliver d.1 d.2)) (h : AtRest P x y) :
    AtRest P ((Plain.code S.plain i).handle x d).1 ((code S i).handle y d).1 ∧
      compared P ((Plain.code S.plain i).handle x d).2 =
        compared P ((code S i).handle y d).2 := by
  obtain ⟨s, _⟩ := x
  obtain ⟨s', _⟩ := y
  obtain ⟨hvars, hleft, hright⟩ := h
  obtain rfl : _ = [] := hleft
  obtain rfl : _ = [] := hright
  obtain ⟨src, msg⟩ := d
  rw [Code.handle_eq, Code.handle_eq]
  have hdone {t : Turn Plain.NodeState Plain.Cont} {u : Turn NodeState Cont}
      (ht : t.rest = none) (hu : u.rest = none) (hst : AgreesOn P t.st.vars u.st.vars)
      (hacts : compared P t.acts = compared P u.acts) :
      AtRest P (t.settle []).1 (u.settle []).1 ∧
        compared P (t.settle []).2 = compared P (u.settle []).2 :=
    ⟨⟨hst, by simp [Turn.settle, ht], by simp [Turn.settle, hu]⟩, hacts⟩
  by_cases hsame : msg.phase = "echo" ∨ msg.phase = "ready" →
      P msg.msgId ∧ shouldGenerateReady S i msg.sender = true
  · have hturn : SameTurn P (Plain.dolevDeliver S.plain i s src msg)
        (dolevDeliver S i s' src msg) := sameTurn_dolevDeliver hoff hvars hsame
    obtain ⟨hfinish, hrest⟩ := hturn.finish (S := S) (i := i)
    refine hdone hrest ?_ hfinish.vars (congrArg _ hfinish.acts)
    have hu := hfinish.rest
    rw [hrest] at hu
    exact hu
  · -- an ECHO or a READY about another message
    push Not at hsame
    obtain ⟨hphase, hoffCommittee⟩ := hsame
    have hm : ¬ P msg.msgId := fun hm => hoffCommittee hm (hP hm hphase)
    have hends {t : Turn Plain.NodeState Plain.Cont} {u : Turn NodeState Cont} {v w : BrachaState}
        (ht : Ends msg.msgId v t t.st.vars) (hu : Ends msg.msgId w u u.st.vars)
        (hvw : AgreesOn P v w) :
        AtRest P (t.settle []).1 (u.settle []).1 ∧
          compared P (t.settle []).2 = compared P (u.settle []).2 :=
      hdone ht.rest hu.rest (ht.agreesOn hu hm hvw)
        ((ht.compared_eq hm).trans (hu.compared_eq hm).symm)
    rcases hphase with hecho | hready
    · have hdeliver : (Plain.code S.plain i).deliver s src msg =
          Plain.echo S.plain i s src msg := by
        simp [Plain.code, Plain.dolevDeliver, hecho]
      have hdeliver' : (code S i).deliver s' src msg = echo S i s' src msg := by
        simp [code, dolevDeliver, hecho]
      simp only [hdeliver, hdeliver']
      exact hends plain_ends_echo (ends_echo hoff) hvars.initState.addEcho
    · have hdeliver : (Plain.code S.plain i).deliver s src msg = Plain.ready S.plain s src msg := by
        simp [Plain.code, Plain.dolevDeliver, hready]
      have hdeliver' : (code S i).deliver s' src msg = ready S i s' src msg := by
        simp [code, dolevDeliver, hready]
      simp only [hdeliver, hdeliver']
      exact hends (plain_ends_ready hready) (ends_ready hoff hready)
        hvars.initState.addReady.deliverVars

end Compared

/-! ## `on_start` -/

/-- A payload of `on_start` with the number of the first message. -/
def numbered : Action → Action
  | .bracha msg => .bracha { msg with payload := msg.payload ++ " - 0" }
  | .sendTo p msg => .sendTo p msg

/-- `on_start`, run to its end without interruption. -/
def startInputs : List Input := [.start, .resume 0, .resume 0]

theorem initialSend_zero : initialSend S i 0 =
    { Plain.initialSend S.plain i with
      payload := (Plain.initialSend S.plain i).payload ++ " - 0" } := by
  have hpayload : hello i 0 = "hello - " ++ i ++ " - 0" := by
    have hassoc : "hello - " ++ i ++ " - " ++ toString 0 =
        "hello - " ++ i ++ (" - " ++ toString 0) := String.append_assoc
    have hnumber : " - " ++ toString 0 = " - 0" := by decide
    rw [hello, hassoc, hnumber]
  rw [initialSend, hpayload]
  rfl

/-- `on_start` broadcasts what `bracha.py` does, with numbered payloads. -/
theorem onStart_plain (hoff : S.FlagsOff) (hnum : S.numMessages = 1)
    (hecho : shouldGenerateEcho S i i = true) (hvars : s.vars = s'.vars) :
    ((code S i).run ⟨s', []⟩ startInputs).map (fun r => (r.1, r.2.vars.delivered)) =
      ((Plain.code S.plain i).run ⟨s, []⟩ startInputs).map
        fun r => (r.1.map numbered, r.2.vars.delivered) := by
  cases hsender : S.isSender i with
  | false =>
    have hplain : S.plain.isSender i = false := hsender
    simp [startInputs, Code.run, outputs, Code.step, code, Plain.code, onStart, Plain.onStart,
      hsender, hplain, Turn.settle, hvars]
  | true =>
    have hplain : S.plain.isSender i = true := hsender
    simp [startInputs, Code.run, outputs, Code.step, code, Plain.code, onStart, Plain.onStart,
      hsender, hplain, Turn.settle, hvars, startMessage, hnum, hoff.singleHopSend, resume,
      Plain.resume, afterSend, hecho, numbered, initialSend_zero, registerMessage, countOwnEcho]
    exact ⟨rfl, rfl⟩

/-- The SENDs among what is broadcast. -/
def sends (acts : List Action) : List Action := acts.filter fun a => a.message.phase = "send"

/-- On the committee or not, the SEND is the same. -/
theorem onStart_sends (hoff : S.FlagsOff) (hnum : S.numMessages = 1) (hvars : s.vars = s'.vars) :
    ((code S i).run ⟨s', []⟩ startInputs).map (fun r => (sends r.1, r.2.vars.delivered)) =
      ((Plain.code S.plain i).run ⟨s, []⟩ startInputs).map
        fun r => ((sends r.1).map numbered, r.2.vars.delivered) := by
  cases hsender : S.isSender i with
  | false =>
    have hplain : S.plain.isSender i = false := hsender
    simp [startInputs, Code.run, outputs, Code.step, code, Plain.code, onStart, Plain.onStart,
      hsender, hplain, Turn.settle, hvars, sends]
  | true =>
    have hplain : S.plain.isSender i = true := hsender
    cases hecho : shouldGenerateEcho S i i with
    | false | true =>
      simp [startInputs, Code.run, outputs, Code.step, code, Plain.code, onStart, Plain.onStart,
        hsender, hplain, Turn.settle, hvars, startMessage, hnum, hoff.singleHopSend, resume,
        Plain.resume, afterSend, hecho, initialSend_zero, registerMessage, countOwnEcho, sends,
        Action.message]
      exact ⟨⟨rfl, rfl⟩, rfl⟩

/-! ## Results -/

/-- On every sequence of deliveries and resumptions the two nodes broadcast the
same messages and have the same `delivered` map after each input. -/
def DeliveriesAgree (S : System) (i : PeerId) (ok : Input → Prop) : Prop :=
  ∀ x y, Corresponds x y → ∀ inps : List Input, (∀ inp ∈ inps, ok inp) →
    ((Plain.code S.plain i).run x inps).map (Prod.map id fun s => s.vars.delivered) =
      ((code S i).run y inps).map (Prod.map id fun s => s.vars.delivered)

/-- The ids that no ECHO or READY of the sequence names together with a sender on whose READY
committee the node is not. -/
def OnCommitteeFor (S : System) (i : PeerId) (ds : List (PeerId × BrachaMessage)) (m : String) :
    Prop :=
  ∀ d ∈ ds, d.2.msgId = m → OnReadyCommittee S i (.deliver d.1 d.2)

instance (S : System) (i : PeerId) (ds : List (PeerId × BrachaMessage)) :
    DecidablePred (OnCommitteeFor S i ds) :=
  fun m => inferInstanceAs (Decidable (∀ d ∈ ds, d.2.msgId = m → _))

/-- On every sequence of deliveries, each handled to its end, the two nodes broadcast the same
messages, apart from READYs for ids named with a sender off whose committee the node is, and
have the same `delivered` map after each delivery. -/
def WholeDeliveriesAgree (S : System) (i : PeerId) : Prop :=
  ∀ (s : Plain.NodeState) (s' : NodeState), s.vars = s'.vars →
    ∀ ds : List (PeerId × BrachaMessage),
      ((Plain.code S.plain i).runWhole ⟨s, []⟩ ds).map
          (Prod.map (compared (OnCommitteeFor S i ds)) fun s => s.vars.delivered) =
        ((code S i).runWhole ⟨s', []⟩ ds).map
          (Prod.map (compared (OnCommitteeFor S i ds)) fun s => s.vars.delivered)

/-- From corresponding states `on_start` broadcasts the same messages up to
`rename`, with the same `delivered` map after each step. -/
def OnStartAgrees (S : System) (i : PeerId) (rename : Action → Action) : Prop :=
  ∀ (s : Plain.NodeState) (s' : NodeState), s.vars = s'.vars →
    ((code S i).run ⟨s', []⟩ startInputs).map (fun r => (r.1, r.2.vars.delivered)) =
      ((Plain.code S.plain i).run ⟨s, []⟩ startInputs).map
        fun r => (r.1.map rename, r.2.vars.delivered)

/-- The same for its SENDs. -/
def OnStartSendsAgree (S : System) (i : PeerId) (rename : Action → Action) : Prop :=
  ∀ (s : Plain.NodeState) (s' : NodeState), s.vars = s'.vars →
    ((code S i).run ⟨s', []⟩ startInputs).map (fun r => (sends r.1, r.2.vars.delivered)) =
      ((Plain.code S.plain i).run ⟨s, []⟩ startInputs).map
        fun r => ((sends r.1).map rename, r.2.vars.delivered)

/-- Four nodes with all optimisations off. -/
def fourPlainNodes : System where
  toDeployment := .ofLists ["a", "b", "c", "d"] [] Cluster.nodup_four
  f := 1
  isSender i := i = "a"
  enableEchoAmplification := false
  enableSingleHopSend := false
  enableReducedMessages := false
  admissible h := h
  numMessages := 1
  uuid i k := "uuid of " ++ i ++ toString k
  neighbours i := ({"a", "b", "c", "d"} : Finset PeerId).erase i

/-- `b` handles `a`'s SEND and then two ECHOs, which make it ready. -/
def echoInputs (S : System) : List Input :=
  let msg := initialSend S "a" 0
  [.deliver "a" msg, .resume 0, .deliver "a" { msg with phase := "echo" },
    .deliver "c" { msg with phase := "echo" }, .resume 0]

/-- Five nodes with all optimisations off. -/
def fivePlainNodes : System where
  toDeployment := .ofLists ["a", "b", "c", "d", "e"] [] (by decide)
  f := 1
  isSender i := i = "a"
  enableEchoAmplification := false
  enableSingleHopSend := false
  enableReducedMessages := false
  admissible h := h
  numMessages := 1
  uuid i k := "uuid of " ++ i ++ toString k
  neighbours i := ({"a", "b", "c", "d", "e"} : Finset PeerId).erase i

/-- `a` gets four ECHOs for its own message, and then the READYs of three others. -/
def ownInputs (S : System) : List (PeerId × BrachaMessage) :=
  ["b", "c", "d", "e"].map (fun j => (j, { initialSend S "a" 0 with phase := "echo" })) ++
    ["b", "c", "d"].map fun j => (j, { initialSend S "a" 0 with phase := "ready" })

end DistBench.Bracha.Optimized
