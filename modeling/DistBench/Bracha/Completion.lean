import DistBench.Bracha.AtMostOnce

/-!
# When a node of bracha.py is done

`check_completion` compares two counts: the senders a node knows from SENDs, and the
messages it has delivered on READYs. The sets behind them grow independently: a message
can be delivered before its SEND is there, and is then counted in place of another one.

- `Arrives`: what reaches a node through its Dolev child.
- `delivering`: the message whose READYs pass the delivery test.
- `Learns`, `Learnt`: the senders and the messages a node has heard of, against the SENDs of
  the run. `Counted`: what it has delivered.
- `completion_of_sendsFirst`: a node that delivers no message before it has received its SEND
  has delivered, when it terminates, what it has heard of. Such a delivery is what goes wrong
  (`premature_of_unannounced`).
-/

namespace DistBench.Bracha.Plain

variable (S : System)

/-- The nodes that broadcast, one message each. -/
def senders : Finset PeerId := S.parties.nodes.filter fun j => S.isSender j = true

/-- What the environment makes a node do: its Dolev child delivers messages, of which the
SENDs are those of the senders. -/
def Arrives : Call Cont → Prop
  | .call .dolevDeliver _ msg => msg.phase = "send" → ∃ j ∈ senders S, msg = initialSend S j
  | .call _ _ _ => False
  | .start | .wake _ => True

/-- The node has received the SEND of the message `m`. -/
def Announced (calls : List (Call Cont)) (m : String) : Prop :=
  ∃ src msg, .call .dolevDeliver src msg ∈ calls ∧ msg.phase = "send" ∧ msg.msgId = m

/-- The step terminates the node. -/
def Terminates (x x' : Local NodeState Cont) : Prop :=
  x.st.terminated = false ∧ x'.st.terminated = true

/-- Whenever the node terminates, it has delivered every message whose SEND it has received. -/
def NotPremature (i : PeerId) (calls : List (Call Cont)) : Prop :=
  Meets (handlers S i).step ⟨{}, []⟩ (fun ls x c => ∀ x', (handlers S i).step x c = some x' →
    Terminates x x' → ∀ m, Announced (ls ++ [c]) m → x'.st.vars.delivered.get m false = true) calls

/-- The test that ends `ready` (bracha.py:184). -/
def DeliverTest (s : NodeState) (msg : BrachaMessage) : Prop :=
  s.vars.delivered.get msg.msgId false = false ∧
    deliverThreshold S.f ≤ (s.vars.readys.get msg.msgId ∅).card

instance (s : NodeState) (msg : BrachaMessage) : Decidable (DeliverTest S s msg) :=
  inferInstanceAs (Decidable (_ ∧ _))

/-- The node with the READY entered, as `ready` tests it. -/
def withReady (s : NodeState) (src : PeerId) (msg : BrachaMessage) : NodeState :=
  { s with vars := (s.vars.initState msg.msgId).addReady msg.msgId src }

/-- The message that a call delivers: a READY for it passes the test, at once or after the READY
of the node itself. -/
def delivering (s : NodeState) : Call Cont → Option BrachaMessage
  | .call .dolevDeliver src msg =>
    -- otherwise `ready` broadcasts first, and the test is made when it goes on
    if msg.phase = "ready" ∧ ¬ ((withReady s src msg).vars.sentReady.get msg.msgId false = false ∧
          S.f + 1 ≤ ((withReady s src msg).vars.readys.get msg.msgId ∅).card) ∧
        DeliverTest S (withReady s src msg) msg then some msg
    else none
  | .wake (.readyDone msg) => if DeliverTest S s msg then some msg else none
  | _ => none

/-- Whenever READYs deliver a message, the node has received its SEND. -/
def SendsFirst (i : PeerId) (calls : List (Call Cont)) : Prop :=
  Meets (handlers S i).step ⟨{}, []⟩
    (fun ls x c => ∀ msg ∈ delivering S x.st c, Announced ls msg.msgId) calls

/-- `{m for m, d in self.delivered.items() if d}`. -/
def deliveredIds (s : NodeState) : Finset String :=
  ((s.vars.delivered.entries.filter fun e => e.2).map Sigma.fst).toFinset

variable {S} {i : PeerId} {s : NodeState} {src : PeerId} {msg : BrachaMessage}
  {calls : List (Call Cont)} {c : Call Cont} {m : String} {x x' : Local NodeState Cont}

/-! ## What has been delivered -/

theorem card_deliveredIds (s : NodeState) : (deliveredIds s).card = deliveredCount s := by
  have hnodup : ((s.vars.delivered.entries.filter fun e => e.2).map Sigma.fst).Nodup :=
    s.vars.delivered.nodupKeys.sublist List.filter_sublist
  rw [deliveredIds, List.toFinset_card_of_nodup hnodup, List.length_map, deliveredCount]

theorem mem_deliveredIds : m ∈ deliveredIds s ↔ s.vars.delivered.get m false = true := by
  constructor
  · intro h
    obtain ⟨⟨m, d⟩, hmem, rfl⟩ := List.mem_map.mp (List.mem_toFinset.mp h)
    obtain ⟨hmem, hd⟩ := List.mem_filter.mp hmem
    rw [Dict.get, Option.mem_def.mp (AList.mem_lookup_iff.mpr hmem)]
    exact hd
  · intro h
    cases hlookup : s.vars.delivered.lookup m with
    | none => simp [Dict.get, hlookup] at h
    | some d =>
      have hd : d = true := by simpa [Dict.get, hlookup] using h
      subst hd
      exact List.mem_toFinset.mpr (List.mem_map.mpr
        ⟨⟨m, true⟩, List.mem_filter.mpr ⟨AList.mem_lookup_iff.mp hlookup, rfl⟩, rfl⟩)

/-- `init_state` delivers nothing. -/
theorem get_delivered_initState {v : BrachaState} {k : String}
    (h : (v.initState k).delivered.get m false = true) : v.delivered.get m false = true := by
  unfold BrachaState.initState at h
  split at h
  · exact h
  · by_cases hk : m = k
    · simp [hk] at h
    · rwa [Dict.get_insert_of_ne hk] at h

/-! ## What a segment learns -/

/-- The segment leaves the node with these messages and senders it has heard of. It delivers at
most this message, and terminates the node on the test of `check_completion` after that. -/
structure Learns (s : NodeState) (t : Turn NodeState Cont) (seen : Finset String)
    (expected : Finset PeerId) (delivers : Option BrachaMessage) : Prop where
  seen : t.st.vars.seenMessages = seen
  expected : t.st.expectedSenders = expected
  delivered : ∀ m ∈ deliveredIds t.st, m ∈ deliveredIds s ∨ ∃ msg ∈ delivers, msg.msgId = m
  stays : s.terminated = true → t.st.terminated = true
  terminated : t.st.terminated = true → s.terminated = true ∨
    delivers.isSome ∧ 0 < t.st.expectedSenders.card ∧
      t.st.expectedSenders.card ≤ (deliveredIds t.st).card
  passes : delivers.isSome → 0 < t.st.expectedSenders.card →
    t.st.expectedSenders.card ≤ (deliveredIds t.st).card → t.st.terminated = true
  ofHandler : ∀ k ∈ t.rest, Optimized.Plain.Cont.OfHandler k

/-- A segment that does not look at the deliveries. -/
theorem Learns.of_notDelivering {t : Turn NodeState Cont} {seen : Finset String}
    {expected : Finset PeerId} (hseen : t.st.vars.seenMessages = seen)
    (hexpected : t.st.expectedSenders = expected)
    (hdelivered : ∀ m, t.st.vars.delivered.get m false = true →
      s.vars.delivered.get m false = true)
    (hterminated : t.st.terminated = s.terminated)
    (hrest : ∀ k ∈ t.rest, Optimized.Plain.Cont.OfHandler k) :
    Learns s t seen expected none where
  seen := hseen
  expected := hexpected
  delivered m hm := .inl (mem_deliveredIds.mpr (hdelivered m (mem_deliveredIds.mp hm)))
  stays h := hterminated.trans h
  terminated h := .inl (hterminated.symm.trans h)
  passes h := by simp at h
  ofHandler := hrest

theorem learns_send : Learns s (send i s src msg) (insert msg.msgId s.vars.seenMessages)
    s.expectedSenders none := by
  simp only [send]
  split
  · exact .of_notDelivering (by simp) rfl (fun m h => get_delivered_initState h) rfl
      (by simp [Optimized.Plain.Cont.OfHandler])
  · next h =>
    refine .of_notDelivering ?_ rfl (fun m h => get_delivered_initState h) rfl (by simp)
    rw [BrachaState.seenMessages_initState] at h
    rw [BrachaState.seenMessages_initState, Finset.insert_eq_self.mpr (not_not.mp h)]

theorem learns_echo :
    Learns s (echo S i s src msg) s.vars.seenMessages s.expectedSenders none := by
  simp only [echo]
  split
  · exact .of_notDelivering (by simp) rfl (fun m h => get_delivered_initState h) rfl
      (by simp [Optimized.Plain.Cont.OfHandler])
  · exact .of_notDelivering (by simp) rfl (fun m h => get_delivered_initState h) rfl (by simp)

/-- The test that ends `ready`, and what `check_completion` makes of it. -/
theorem learns_deliverIfReady : Learns s { st := deliverIfReady S s msg } s.vars.seenMessages
    s.expectedSenders (if DeliverTest S s msg then some msg else none) := by
  by_cases htest : DeliverTest S s msg
  · have hst : deliverIfReady S s msg = checkCompletion { s with
        vars := s.vars.markDelivered msg.msgId
        deliveries := s.deliveries ++ [(msg.msgId, msg.payload)] } := if_pos htest
    rw [if_pos htest, hst]
    have hdelivered : ∀ m ∈ deliveredIds { s with
        vars := s.vars.markDelivered msg.msgId
        deliveries := s.deliveries ++ [(msg.msgId, msg.payload)] },
        m ∈ deliveredIds s ∨ ∃ msg' ∈ some msg, msg'.msgId = m := by
      intro m hm
      rw [mem_deliveredIds] at hm ⊢
      by_cases hmsg : m = msg.msgId
      · exact .inr ⟨msg, rfl, hmsg.symm⟩
      · refine .inl ?_
        rwa [BrachaState.markDelivered, Dict.get_insert_of_ne hmsg] at hm
    unfold checkCompletion
    rw [← card_deliveredIds]
    split
    · next hcount =>
      exact ⟨rfl, rfl, hdelivered, fun _ => rfl, fun _ => .inr ⟨rfl, hcount⟩, fun _ _ _ => rfl,
        by simp⟩
    · next hcount =>
      exact ⟨rfl, rfl, hdelivered, id, .inl, fun _ hpos hle => absurd ⟨hpos, hle⟩ hcount, by simp⟩
  · have hst : deliverIfReady S s msg = s := if_neg htest
    rw [if_neg htest, hst]
    exact .of_notDelivering rfl rfl (fun _ => id) rfl (by simp)

theorem learns_ready (hphase : msg.phase = "ready") :
    Learns s (ready S s src msg) s.vars.seenMessages s.expectedSenders
      (delivering S s (.call .dolevDeliver src msg)) := by
  simp only [ready, delivering, hphase, true_and]
  split
  · next hamplify =>
    rw [if_neg fun h => h.1 hamplify]
    exact .of_notDelivering (by simp) rfl (fun m h => get_delivered_initState h) rfl
      (by simp [Optimized.Plain.Cont.OfHandler])
  · next hamplify =>
    simp only [withReady, hamplify, not_false_eq_true, true_and]
    have ht : Learns (withReady s src msg) { st := deliverIfReady S (withReady s src msg) msg } _ _
        _ := learns_deliverIfReady
    refine ⟨ht.seen.trans (by simp [withReady]), ht.expected, fun m hm => ?_, ht.stays,
      ht.terminated, ht.passes, ht.ofHandler⟩
    refine (ht.delivered m hm).imp_left fun hm => ?_
    rw [mem_deliveredIds] at hm ⊢
    exact get_delivered_initState hm

theorem learns_resume {k : Cont} (hk : Optimized.Plain.Cont.OfHandler k) :
    Learns s (resume S i s k) s.vars.seenMessages s.expectedSenders (delivering S s (.wake k)) := by
  cases k with
  | handled => exact .of_notDelivering rfl rfl (fun _ => id) rfl (by simp [resume])
  | readyDone msg => exact learns_deliverIfReady
  | sendDone msg | echoDone => exact hk.elim

theorem delivering_of_ne (hphase : msg.phase ≠ "ready") :
    delivering S s (.call .dolevDeliver src msg) = none := if_neg fun h => hphase h.1

/-- Only a SEND tells a node of a message or a sender. -/
theorem learns_dolevDeliver_of_ne (hphase : msg.phase ≠ "send") :
    Learns s (dolevDeliver S i s src msg) s.vars.seenMessages s.expectedSenders
      (delivering S s (.call .dolevDeliver src msg)) := by
  rw [dolevDeliver, if_neg hphase]
  split
  · next hecho =>
    rw [delivering_of_ne (by simp [hecho])]
    exact learns_echo
  split
  · next hready => exact learns_ready hready
  · next hready =>
    rw [delivering_of_ne hready]
    exact .of_notDelivering rfl rfl (fun _ => id) rfl (by simp)

theorem learns_dolevDeliver_send (hphase : msg.phase = "send") :
    Learns s (dolevDeliver S i s src msg) (insert msg.msgId s.vars.seenMessages)
      (insert msg.sender s.expectedSenders) (delivering S s (.call .dolevDeliver src msg)) := by
  rw [dolevDeliver, if_pos hphase, delivering_of_ne (by simp [hphase])]
  have ht : Learns { s with expectedSenders := insert msg.sender s.expectedSenders }
      (send i _ src msg) _ _ none := learns_send
  exact ⟨ht.seen, ht.expected, ht.delivered, ht.stays, ht.terminated, ht.passes, ht.ofHandler⟩

theorem announced_append :
    Announced (calls ++ [c]) m ↔ Announced calls m ∨ Announced [c] m := by
  constructor
  · rintro ⟨src, msg, hmem, h⟩
    exact (List.mem_append.mp hmem).imp (fun hmem => ⟨src, msg, hmem, h⟩)
      fun hmem => ⟨src, msg, hmem, h⟩
  · rintro (⟨src, msg, hmem, h⟩ | ⟨src, msg, hmem, h⟩)
    · exact ⟨src, msg, List.mem_append_left _ hmem, h⟩
    · exact ⟨src, msg, List.mem_append_right _ hmem, h⟩

/-- A call that delivers a message is no SEND. -/
theorem not_announced_of_delivering (h : delivering S s c = some msg) : ¬ Announced [c] m := by
  rintro ⟨src, msg', hmem, hphase, -⟩
  cases List.mem_singleton.mp hmem
  rw [delivering_of_ne (by simp [hphase])] at h
  cases h

/-! ## Runs -/

/-- What a node that does not broadcast itself has heard of, after these calls. -/
structure Learnt (S : System) (calls : List (Call Cont)) (x : Local NodeState Cont) : Prop where
  ofHandler : ∀ k ∈ x.suspended, Optimized.Plain.Cont.OfHandler k
  expected : x.st.expectedSenders ⊆ senders S
  seen : x.st.vars.seenMessages = x.st.expectedSenders.image S.uuid
  announced : ∀ m, m ∈ x.st.vars.seenMessages ↔ Announced calls m

theorem Learnt.init : Learnt S [] ⟨{}, []⟩ where
  ofHandler := by simp
  expected := Finset.empty_subset _
  seen := rfl
  announced m := by simp [Announced]

/-- What a step learns: the SEND it is called with, if any. -/
theorem Learnt.learns (hi : S.isSender i = false) (h : Learnt S calls x) (hc : Arrives S c)
    (hstep : (handlers S i).step x c = some x') :
    ∃ seen expected, Learns x.st ((handlers S i).turn x.st c) seen expected
        (delivering S x.st c) ∧
      expected ⊆ senders S ∧ x.st.expectedSenders ⊆ expected ∧ seen = expected.image S.uuid ∧
      ∀ m, m ∈ seen ↔ m ∈ x.st.vars.seenMessages ∨ Announced [c] m := by
  have hsame {m : String} (hnone : ¬ Announced [c] m) : m ∈ x.st.vars.seenMessages ↔
      m ∈ x.st.vars.seenMessages ∨ Announced [c] m := (or_iff_left hnone).symm
  cases c with
  | start =>
    refine ⟨_, _, ?_, h.expected, subset_rfl, h.seen, fun m => hsame (by simp [Announced])⟩
    simp only [Handlers.turn, handlers, onStart, hi]
    exact .of_notDelivering rfl rfl (fun _ => id) rfl (by simp)
  | wake k =>
    obtain ⟨hwake, -, -⟩ := Handlers.step_cases hstep
    have ht := learns_resume (S := S) (i := i) (s := x.st) (h.ofHandler k (hwake k rfl))
    exact ⟨_, _, ht, h.expected, subset_rfl, h.seen, fun m => hsame (by simp [Announced])⟩
  | call handler src msg =>
    cases handler with
    | send | echo | ready => exact hc.elim
    | dolevDeliver =>
      by_cases hphase : msg.phase = "send"
      · obtain ⟨j, hj, rfl⟩ := hc hphase
        have ht : Learns x.st (dolevDeliver S i x.st src (initialSend S j)) _ _ _ :=
          learns_dolevDeliver_send hphase
        refine ⟨_, _, ht, Finset.insert_subset hj h.expected, Finset.subset_insert _ _, ?_,
          fun m => ?_⟩
        · rw [Finset.image_insert, h.seen]
          rfl
        · rw [Finset.mem_insert, or_comm]
          simp [Announced, hphase, eq_comm]
      · have ht : Learns x.st (dolevDeliver S i x.st src msg) _ _ _ :=
          learns_dolevDeliver_of_ne hphase
        refine ⟨_, _, ht, h.expected, subset_rfl, h.seen, fun m => hsame ?_⟩
        rintro ⟨_, _, hmem, hsend, -⟩
        cases List.mem_singleton.mp hmem
        exact hphase hsend

theorem Learnt.step (hi : S.isSender i = false) (h : Learnt S calls x) (hc : Arrives S c)
    (hstep : (handlers S i).step x c = some x') : Learnt S (calls ++ [c]) x' := by
  obtain ⟨seen, expected, ht, hexpected, -, hseen, hannounced⟩ := h.learns hi hc hstep
  obtain ⟨-, hst, hsuspended⟩ := Handlers.step_cases hstep
  refine ⟨fun k hk => (hsuspended k hk).elim (ht.ofHandler k) (h.ofHandler k), ?_, ?_, fun m => ?_⟩
  · rw [hst, ht.expected]
    exact hexpected
  · rw [hst, ht.expected, ht.seen]
    exact hseen
  · rw [hst, ht.seen, hannounced, h.announced, announced_append]

/-- As many messages have been heard of as senders, where the ids are distinct. -/
theorem Learnt.card_seen (h : Learnt S calls x) (hids : Set.InjOn S.uuid (senders S)) :
    x.st.vars.seenMessages.card = x.st.expectedSenders.card := by
  rw [h.seen]
  exact Finset.card_image_of_injOn (hids.mono h.expected)

theorem learnt_of_run (hi : S.isSender i = false) (hcalls : ∀ c ∈ calls, Arrives S c)
    (hx : exec (handlers S i).step ⟨{}, []⟩ calls = some x) : Learnt S calls x := by
  refine run_induction (P := fun ls x => (∀ c ∈ ls, Arrives S c) → Learnt S ls x)
    (fun _ => .init) ?_ calls x hx hcalls
  intro ls x c x' _ ih hstep hls
  exact (ih fun c hc => hls c (List.mem_append_left _ hc)).step hi
    (hls c (List.mem_append_right _ (List.mem_singleton.mpr rfl))) hstep

/-- The deliveries of a node that delivers no message before its SEND: while it has not
terminated, it waits for a message it has heard of, or has delivered none. -/
structure Counted (calls : List (Call Cont)) (x : Local NodeState Cont) : Prop where
  announced : ∀ m ∈ deliveredIds x.st, Announced calls m
  waits : x.st.terminated = false →
    x.st.expectedSenders.card ≤ (deliveredIds x.st).card → deliveredIds x.st = ∅

theorem Counted.init : Counted [] ⟨{}, []⟩ where
  announced := by simp [deliveredIds]
  waits _ _ := rfl

theorem Counted.step (hi : S.isSender i = false) (hlearnt : Learnt S calls x)
    (h : Counted calls x) (hc : Arrives S c)
    (hfirst : ∀ msg ∈ delivering S x.st c, Announced calls msg.msgId)
    (hstep : (handlers S i).step x c = some x') : Counted (calls ++ [c]) x' := by
  obtain ⟨seen, expected, ht, -, hgrows, -⟩ := hlearnt.learns hi hc hstep
  have hst := (Handlers.step_cases hstep).2.1
  constructor
  · intro m hm
    rw [hst] at hm
    refine announced_append.mpr (.inl ?_)
    rcases ht.delivered m hm with hm | ⟨msg, hmsg, rfl⟩
    · exact h.announced m hm
    · exact hfirst msg hmsg
  · rw [hst]
    intro hopen hle
    cases hdelivering : delivering S x.st c with
    | none =>
      have hsub : deliveredIds ((handlers S i).turn x.st c).st ⊆ deliveredIds x.st := by
        intro m hm
        refine (ht.delivered m hm).resolve_right ?_
        simp [hdelivering]
      have hbefore : x.st.terminated = false := by
        by_contra hdone
        rw [ht.stays (by simpa using hdone)] at hopen
        cases hopen
      rw [ht.expected] at hle
      have hempty := h.waits hbefore ((Finset.card_le_card hgrows).trans
        (hle.trans (Finset.card_le_card hsub)))
      exact Finset.subset_empty.mp (hempty ▸ hsub)
    | some msg =>
      -- the message has a sender, so `check_completion` has compared the counts
      have hsender : 0 < ((handlers S i).turn x.st c).st.expectedSenders.card := by
        have hannounced := (hlearnt.announced _).mpr (hfirst msg hdelivering)
        rw [hlearnt.seen] at hannounced
        obtain ⟨j, hj, -⟩ := Finset.mem_image.mp hannounced
        exact Finset.card_pos.mpr ⟨j, ht.expected ▸ hgrows hj⟩
      rw [ht.passes (by simp [hdelivering]) hsender hle] at hopen
      cases hopen

theorem counted_of_run (hi : S.isSender i = false) (hcalls : ∀ c ∈ calls, Arrives S c)
    (hfirst : SendsFirst S i calls) (hx : exec (handlers S i).step ⟨{}, []⟩ calls = some x) :
    Learnt S calls x ∧ Counted calls x := by
  refine run_induction (P := fun ls x => (∀ c ∈ ls, Arrives S c) → SendsFirst S i ls →
    Learnt S ls x ∧ Counted ls x) (fun _ _ => ⟨.init, .init⟩) ?_ calls x hx hcalls hfirst
  intro ls x c x' hls ih hstep harrives hfirst
  obtain ⟨hlearnt, hcounted⟩ :=
    ih (fun c hc => harrives c (List.mem_append_left _ hc)) hfirst.prefix
  have hc := harrives c (List.mem_append_right _ (List.mem_singleton_self c))
  exact ⟨hlearnt.step hi hc hstep, hcounted.step hi hlearnt hc (hfirst.last hls) hstep⟩

/-- A step that terminates the node delivers a message, and the counts are equal then. -/
theorem Learnt.counted_of_terminates (hi : S.isSender i = false) (h : Learnt S calls x)
    (hc : Arrives S c) (hstep : (handlers S i).step x c = some x') (hterm : Terminates x x') :
    (∃ msg, delivering S x.st c = some msg) ∧ 0 < x'.st.expectedSenders.card ∧
      x'.st.expectedSenders.card ≤ (deliveredIds x'.st).card := by
  obtain ⟨seen, expected, ht, -⟩ := h.learns hi hc hstep
  obtain ⟨hopen, hdone⟩ := hterm
  rw [(Handlers.step_cases hstep).2.1] at hdone ⊢
  obtain ⟨hsome, hcount⟩ := (ht.terminated hdone).resolve_left (by simp [hopen])
  exact ⟨Option.isSome_iff_exists.mp hsome, hcount⟩

/-- Equal counts mean equal sets: the deliveries are among the messages the node has heard of,
one for each sender it knows. -/
theorem notPremature_of_sendsFirst (hi : S.isSender i = false)
    (hids : Set.InjOn S.uuid (senders S)) (hcalls : ∀ c ∈ calls, Arrives S c)
    (hfirst : SendsFirst S i calls) : NotPremature S i calls := by
  rintro ls c ls' x rfl hx x' hstep hterm m hm
  have hc := hcalls c (by simp)
  obtain ⟨hlearnt, hcounted⟩ := counted_of_run hi
    (fun c hc => hcalls c (List.mem_append_left _ hc)) hfirst.prefix hx
  have hlearnt' := hlearnt.step hi hc hstep
  have hcounted' := hcounted.step hi hlearnt hc (hfirst ls c ls' x rfl hx) hstep
  have hsub : deliveredIds x'.st ⊆ x'.st.vars.seenMessages := fun k hk =>
    (hlearnt'.announced k).mpr (hcounted'.announced k hk)
  have hsame : deliveredIds x'.st = x'.st.vars.seenMessages := by
    refine Finset.eq_of_subset_of_card_le hsub ?_
    rw [hlearnt'.card_seen hids]
    exact (hlearnt.counted_of_terminates hi hc hstep hterm).2.2
  rw [← mem_deliveredIds, hsame, hlearnt'.announced]
  exact hm

/-- The first delivery before its SEND is counted in place of another one: where it terminates
the node, a message it has heard of is not delivered. -/
theorem premature_of_unannounced (hi : S.isSender i = false)
    (hids : Set.InjOn S.uuid (senders S)) (hcalls : ∀ c ∈ calls, Arrives S c) (hc : Arrives S c)
    (hfirst : SendsFirst S i calls) (hx : exec (handlers S i).step ⟨{}, []⟩ calls = some x)
    (hstep : (handlers S i).step x c = some x') (hterm : Terminates x x')
    (hmsg : delivering S x.st c = some msg) (hnot : ¬ Announced calls msg.msgId) :
    ∃ m, Announced (calls ++ [c]) m ∧ x'.st.vars.delivered.get m false = false := by
  by_contra hall
  push Not at hall
  obtain ⟨hlearnt, hcounted⟩ := counted_of_run hi hcalls hfirst hx
  have hlearnt' := hlearnt.step hi hc hstep
  obtain ⟨seen, expected, ht, -, -, -, hseen⟩ := hlearnt.learns hi hc hstep
  have hst := (Handlers.step_cases hstep).2.1
  -- every message it has heard of was delivered before
  have hsub : x.st.vars.seenMessages ⊆ deliveredIds x.st := by
    intro m hm
    have hannounced := (hlearnt.announced m).mp hm
    have hdelivered : m ∈ deliveredIds ((handlers S i).turn x.st c).st := by
      rw [← hst, mem_deliveredIds]
      simpa using hall m (announced_append.mpr (.inl hannounced))
    refine (ht.delivered m hdelivered).resolve_right ?_
    rintro ⟨msg', hmsg', rfl⟩
    cases hmsg.symm.trans hmsg'
    exact hnot hannounced
  have hsame : x'.st.vars.seenMessages = x.st.vars.seenMessages := by
    ext m
    rw [hst, ht.seen, hseen, or_iff_left (not_announced_of_delivering hmsg)]
  have hpos := (hlearnt.counted_of_terminates hi hc hstep hterm).2.1
  rw [← hlearnt'.card_seen hids, hsame] at hpos
  have hempty := hcounted.waits hterm.1 (hlearnt.card_seen hids ▸ Finset.card_le_card hsub)
  rw [hempty, Finset.subset_empty] at hsub
  simp [hsub] at hpos

/-- **A node that delivers no message before its SEND is not premature.** And the condition
leaves out nothing but the defect: a run that has met it up to a step that terminates the node
is not premature exactly when that step meets it too. -/
theorem completion_of_sendsFirst (hi : S.isSender i = false)
    (hids : Set.InjOn S.uuid (senders S)) (hcalls : ∀ c ∈ calls, Arrives S c) :
    (SendsFirst S i calls → NotPremature S i calls) ∧
      ∀ ls c x x', calls = ls ++ [c] → SendsFirst S i ls →
        exec (handlers S i).step ⟨{}, []⟩ ls = some x → (handlers S i).step x c = some x' →
        Terminates x x' → (NotPremature S i calls ↔ SendsFirst S i calls) := by
  refine ⟨notPremature_of_sendsFirst hi hids hcalls, ?_⟩
  rintro ls c x x' rfl hfirst hx hstep hterm
  refine ⟨fun h => hfirst.snoc hx fun msg hmsg => ?_, notPremature_of_sendsFirst hi hids hcalls⟩
  by_contra hnot
  obtain ⟨m, hm, hmissing⟩ := premature_of_unannounced hi hids
    (fun c hc => hcalls c (List.mem_append_left _ hc)) (hcalls c (by simp)) hfirst hx hstep hterm
    hmsg hnot
  rw [h.last hx x' hstep hterm m hm] at hmissing
  cases hmissing

/-- Four nodes, of which `a` and `b` broadcast. -/
def twoSenders : System where
  toDeployment := .ofLists ["a", "b", "c", "d"] [] Cluster.nodup_four
  f := 1
  isSender i := i = "a" ∨ i = "b"
  uuid i := "uuid of " ++ i

theorem uuid_twoSenders : Set.InjOn twoSenders.uuid (senders twoSenders) := by
  intro i _ j _ h
  exact (String.append_right_inj _).mp h

/-- `b`'s message in the READY phase. -/
def readyOfB : BrachaMessage := { initialSend twoSenders "b" with phase := "ready" }

/-- `c` receives `a`'s SEND and two READYs for `b`'s message. -/
def beforeDelivery : List (Call Cont) :=
  [.call .dolevDeliver "a" (initialSend twoSenders "a"), .call .dolevDeliver "a" readyOfB,
    .call .dolevDeliver "b" readyOfB]

/-- The third READY, and `b`'s SEND is not there yet. -/
def unannouncedDelivery : List (Call Cont) :=
  beforeDelivery ++ [.call .dolevDeliver "d" readyOfB]

theorem arrives_unannouncedDelivery : ∀ c ∈ unannouncedDelivery, Arrives twoSenders c := by
  simp only [unannouncedDelivery, beforeDelivery, List.cons_append, List.nil_append,
    List.forall_mem_cons, List.not_mem_nil, false_implies, implies_true, and_true]
  refine ⟨fun _ => ⟨"a", by decide, rfl⟩, ?_, ?_, ?_⟩ <;> simp [Arrives, readyOfB]

/-- `c` terminates without having delivered `a`'s message. -/
theorem premature_unannouncedDelivery : ¬ NotPremature twoSenders "c" unannouncedDelivery := by
  intro h
  obtain ⟨x, hx, hopen⟩ := exists_exec_of_any (handlers twoSenders "c").step ⟨{}, []⟩ beforeDelivery
    (fun x => !x.st.terminated) (by decide)
  obtain ⟨x', hx', hdone⟩ := exists_exec_of_any (handlers twoSenders "c").step ⟨{}, []⟩
    unannouncedDelivery
    (fun x => x.st.terminated && !x.st.vars.delivered.get "uuid of a" false) (by decide)
  obtain ⟨y, hy, hstep⟩ := exec_snoc_iff.mp hx'
  obtain rfl := Option.some.inj (hx.symm.trans hy)
  have hdone := (Bool.and_eq_true _ _).mp hdone
  have hannounced : Announced unannouncedDelivery "uuid of a" :=
    ⟨"a", initialSend twoSenders "a", List.mem_cons_self, rfl, rfl⟩
  have hdelivered := h beforeDelivery _ [] x rfl hx x' hstep ⟨by simpa using hopen, hdone.1⟩
    "uuid of a" hannounced
  simp [hdelivered] at hdone

theorem completion_premature : ¬ ∀ S : System, Set.InjOn S.uuid (senders S) →
    ∀ i, S.isSender i = false → ∀ calls, (∀ c ∈ calls, Arrives S c) → NotPremature S i calls :=
  fun h => premature_unannouncedDelivery
    (h twoSenders uuid_twoSenders "c" rfl unannouncedDelivery arrives_unannouncedDelivery)

/-- `a`'s SEND and the READYs for it: `c` broadcasts its own on the second, and terminates on the
third. -/
def announcedDelivery : List (Call Cont) :=
  (.call .dolevDeliver "a" (initialSend twoSenders "a")) :: ["a", "b", "d"].map fun src =>
    .call .dolevDeliver src { initialSend twoSenders "a" with phase := "ready" }

theorem completion_of_sendsFirst_twoSenders :
    ∃ x, exec (handlers twoSenders "c").step ⟨{}, []⟩ announcedDelivery = some x ∧
      x.st.terminated = true ∧ NotPremature twoSenders "c" announcedDelivery := by
  obtain ⟨x, hx, hdone⟩ := exists_exec_of_any (handlers twoSenders "c").step ⟨{}, []⟩
    announcedDelivery (fun x => x.st.terminated) (by decide)
  have harrives : ∀ c ∈ announcedDelivery, Arrives twoSenders c := by
    simp only [announcedDelivery, List.map_cons, List.map_nil, List.forall_mem_cons,
      List.not_mem_nil, false_implies, implies_true, and_true]
    refine ⟨fun _ => ⟨"a", by decide, rfl⟩, ?_, ?_, ?_⟩ <;> simp [Arrives]
  refine ⟨x, hx, hdone, (completion_of_sendsFirst rfl uuid_twoSenders harrives).1 ?_⟩
  intro ls c ls' x hls hx msg hmsg
  have hmem : c ∈ announcedDelivery := by simp [hls]
  rcases List.mem_cons.mp hmem with rfl | hmem
  · rw [delivering_of_ne (by decide)] at hmsg
    cases hmsg
  · obtain ⟨src, hsrc, rfl⟩ := List.mem_map.mp hmem
    cases ls with
    | nil =>
      obtain ⟨heq, -⟩ := List.cons.inj hls
      simp [initialSend] at heq
    | cons c' ls =>
      obtain ⟨rfl, -⟩ := List.cons.inj hls
      simp only [delivering, Option.mem_def] at hmsg
      split at hmsg
      · obtain rfl := Option.some.inj hmsg
        exact ⟨"a", initialSend twoSenders "a", List.mem_cons_self, rfl, rfl⟩
      · cases hmsg

end DistBench.Bracha.Plain
