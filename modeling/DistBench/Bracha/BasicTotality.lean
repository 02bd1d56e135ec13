import DistBench.Bracha.BasicAgreement

/-!
# Validity and totality at quiescence

A node does not count its own ECHO and READY. What it can count on are the
other correct nodes, and where these alone reach both thresholds
(`CorrectSuffice`), a quiescent state is one in which a message whose sender
has finished, or that one correct node has delivered, is delivered by all.

`Progress` is the invariant: a threshold that is reached has had its effect,
and a vote that was taken on has been sent to every peer or is being sent.

At `N = 3f + 1` with `f` silent nodes the correct nodes do not suffice, and no
node delivers (`silentRun`).
-/

namespace DistBench.Bracha.Basic

open DistBench.Async

variable {S : System} {ls ls' : History} {i j : PeerId} {method : Method} {m : String}
  {msg : BrachaMessage} {l : Label PeerId Packet Task}
  {c base : Config PeerId Packet NodeState Task} {o : Seg} {ts : List Task}

/-- Node `i` has sent the message to each of its peers, or is about to. -/
def Broadcasting (S : System) (ls : History) (i : PeerId) (method : Method) (msg : BrachaMessage)
    (ts : List Task) : Prop :=
  ∀ p ∈ S.peers i,
    Occurs (next S) initial ls (Sends (protocol S) S.parties i p ⟨method, msg⟩) ∨
      ∃ ps k, .bracha method msg ps k ∈ ts ∧ p ∈ ps

/-- What node `i` owes the others has been done or is being done. -/
structure Progress (S : System) (ls : History) (i : PeerId) (v : View) (ts : List Task) :
    Prop where
  /-- A threshold of `echo` or `ready` that is reached makes the node ready. -/
  tipped : ∀ m, readyThreshold (S.N i) S.f ≤ (v.slot m).echos.card ∨
    S.f + 1 ≤ (v.slot m).readys.card → (v.slot m).sentReady = true
  delivering : ∀ m, deliverThreshold S.f ≤ (v.slot m).readys.card →
    (v.slot m).delivered = true ∨
      ∃ method msg' ps msg, .bracha method msg' ps (.readyDone msg) ∈ ts ∧ msg.msgId = m
  delivered : ∀ m, (v.slot m).delivered = true →
    deliverThreshold S.f ≤ (v.slot m).readys.card
  echoing : ∀ m ∈ v.seen, ∃ msg, msg.msgId = m ∧ Broadcasting S ls i .echo msg ts
  readying : ∀ m, (v.slot m).sentReady = true →
    ∃ msg, msg.msgId = m ∧ Broadcasting S ls i .ready msg ts
  starting : S.isSender i = true → .onStart ∈ ts ∨
    Broadcasting S ls i .send (initialSend S i) ts ∧
      (S.uuid i ∈ v.seen ∨
        ∃ ps, .bracha .send (initialSend S i) ps (.sendDone (initialSend S i)) ∈ ts)

/-! ## A broadcast loop makes progress -/

theorem Broadcasting.append (h : Broadcasting S ls i method msg ts) :
    Broadcasting S (ls ++ ls') i method msg ts :=
  fun p hp => (h p hp).imp_left Occurs.append

/-- A segment serves the next peer of the loop it runs, and leaves the other
loops of its node alone. -/
theorem Broadcasting.segment (hc : exec (next S) initial ls = some c)
    (hseg : Segment (protocol S) S.parties c l i o base)
    (h : Broadcasting S ls i method msg (c.tasks i)) :
    Broadcasting S (ls ++ [l]) i method msg (o.rest.toList ++ base.tasks i) := by
  intro p hp
  rcases h p hp with hocc | ⟨ps, k, ht, hps⟩
  · exact .inl hocc.append
  rcases hseg.mem_base_tasks_or ht with hbase | rfl
  · exact .inr ⟨ps, k, List.mem_append_right _ hbase, hps⟩
  cases hseg with
  | wake hi ht ho =>
    cases ps with
    | nil => cases hps
    | cons q ps =>
      obtain rfl : resume S i (c.st i) (.bracha method msg (q :: ps) k) = o := Option.some.inj ho
      rcases List.mem_cons.mp hps with rfl | hps
      · exact .inl (occurs_last hc ⟨_, _, .wake hi ht ho, by simp [resume]⟩)
      · exact .inr ⟨ps, k, by simp [resume], hps⟩

/-- A broadcast loop that starts has all peers to serve. -/
theorem broadcasting_bracha {rest : Option Task} {k : Cont}
    (h : bracha S i method msg k ∈ rest) : Broadcasting S ls i method msg (rest.toList ++ ts) :=
  fun _ hp => .inr ⟨S.peers i, k, List.mem_append_left _ (Option.mem_toList.mpr h), hp⟩

/-- In a state without such a loop the broadcast is over. -/
theorem Broadcasting.sent (h : Broadcasting S ls i method msg ts)
    (hts : ∀ ps k, .bracha method msg ps k ∉ ts) {p : PeerId} (hp : p ∈ S.peers i) :
    Occurs (next S) initial ls (Sends (protocol S) S.parties i p ⟨method, msg⟩) := by
  rcases h p hp with hocc | ⟨ps, k, ht, -⟩
  · exact hocc
  · exact absurd ht (hts ps k)

/-! ## What a move owes -/

section Moves

variable {v v' : View} {ev : Event} {out : List (PeerId × Packet)} {rest : Option Task}

theorem Deliver.sentReady_eq (h : Deliver S v msg v') (k : String) :
    (v'.slot k).sentReady = (v.slot k).sentReady := by
  cases h with
  | no _ => rfl
  | yes _ _ => exact View.map_set_slot Slot.sentReady (by rfl) k

theorem Deliver.delivered_mono (h : Deliver S v msg v') (k : String)
    (hk : (v.slot k).delivered = true) : (v'.slot k).delivered = true := by
  cases h with
  | no _ => exact hk
  | yes _ _ =>
    by_cases hkm : k = msg.msgId
    · subst hkm
      simp
    · simpa [View.set_slot_of_ne hkm] using hk

theorem Deliver.delivered_of_card (h : Deliver S v msg v')
    (hcard : deliverThreshold S.f ≤ (v.slot msg.msgId).readys.card) :
    (v'.slot msg.msgId).delivered = true := by
  cases h with
  | yes _ _ => simp
  | no h =>
    rcases h with h | h
    · exact h
    · omega

theorem Deliver.card_of_delivered (h : Deliver S v msg v') (k : String)
    (hk : (v'.slot k).delivered = true) :
    (v.slot k).delivered = true ∨ deliverThreshold S.f ≤ (v.slot k).readys.card := by
  cases h with
  | no _ => exact .inl hk
  | yes _ hcard =>
    by_cases hkm : k = msg.msgId
    · subst hkm
      exact .inr hcard
    · exact .inl (by simpa [View.set_slot_of_ne hkm] using hk)

/-- A node becomes ready as it starts to broadcast so … -/
theorem Move.sentReady_or (h : Move S i v ev v' out rest) {k : String}
    (hk : (v'.slot k).sentReady = true) : (v.slot k).sentReady = true ∨
      ∃ msg cont, msg.msgId = k ∧ bracha S i .ready msg cont ∈ rest := by
  cases h with
  | sendSeen _ | start _ | idle _ | serve | returns _ => exact .inl hk
  | sendNew _ | sendDone | echoCount _ =>
    exact .inl ((View.map_set_slot Slot.sentReady (by rfl) k).symm.trans hk)
  | @echoTip _ msg _ _ =>
    by_cases hkm : k = msg.msgId
    · exact .inr ⟨{ msg with phase := "ready" }, .handled, hkm.symm, rfl⟩
    · exact .inl (by simpa [View.set_slot_of_ne hkm] using hk)
  | @readyTip _ msg _ _ =>
    by_cases hkm : k = msg.msgId
    · exact .inr ⟨msg, .readyDone msg, hkm.symm, rfl⟩
    · exact .inl (by simpa [View.set_slot_of_ne hkm] using hk)
  | readyCount _ hdel =>
    rw [hdel.sentReady_eq] at hk
    exact .inl ((View.map_set_slot Slot.sentReady (by rfl) k).symm.trans hk)
  | readyDone hdel => exact .inl (by rwa [hdel.sentReady_eq] at hk)

/-- … and has seen a message as it starts to broadcast an ECHO for it. -/
theorem Move.seen_or (h : Move S i v ev v' out rest) {k : String} (hk : k ∈ v'.seen) :
    k ∈ v.seen ∨ ∃ msg cont, msg.msgId = k ∧ bracha S i .echo msg cont ∈ rest := by
  cases h with
  | @sendNew _ msg _ =>
    rcases Finset.mem_insert.mp hk with rfl | hk
    · exact .inr ⟨{ msg with phase := "echo" }, .handled, rfl, rfl⟩
    · exact .inl hk
  | @sendDone _ msg _ =>
    rcases Finset.mem_insert.mp hk with rfl | hk
    · exact .inr ⟨{ msg with phase := "echo" }, .echoDone, rfl, rfl⟩
    · exact .inl hk
  | readyCount _ hdel | readyDone hdel => exact .inl (by rwa [hdel.seen_eq] at hk)
  | _ => exact .inl hk

/-- A threshold that is reached makes a node ready in the same segment. -/
theorem Move.tipped (h : Move S i v ev v' out rest)
    (hv : ∀ m, readyThreshold (S.N i) S.f ≤ (v.slot m).echos.card ∨
      S.f + 1 ≤ (v.slot m).readys.card → (v.slot m).sentReady = true) (k : String)
    (hk : readyThreshold (S.N i) S.f ≤ (v'.slot k).echos.card ∨
      S.f + 1 ≤ (v'.slot k).readys.card) : (v'.slot k).sentReady = true := by
  -- a move writes one slot: it is enough that what it writes is tipped
  have hset {m : String} {x : Slot}
      (hx : readyThreshold (S.N i) S.f ≤ x.echos.card ∨ S.f + 1 ≤ x.readys.card →
        x.sentReady = true)
      (hk : readyThreshold (S.N i) S.f ≤ ((v.set m x).slot k).echos.card ∨
        S.f + 1 ≤ ((v.set m x).slot k).readys.card) : ((v.set m x).slot k).sentReady = true := by
    by_cases hkm : k = m
    · subst hkm
      rw [View.set_slot_self] at hk ⊢
      exact hx hk
    · rw [View.set_slot_of_ne hkm] at hk ⊢
      exact hv k hk
  cases h with
  | sendSeen _ | start _ | idle _ | serve | returns _ => exact hv k hk
  | @sendNew _ msg _ | @sendDone _ msg _ => exact hset (hv msg.msgId) hk
  | echoTip _ _ | readyTip _ _ => exact hset (fun _ => rfl) hk
  | @echoCount src msg hno =>
    -- the ECHO counts and does not tip the threshold
    refine hset (fun hx => ?_) hk
    rcases hno with hsent | hlt
    · exact hsent
    · rcases hx with hx | hx
      · exact absurd hx (not_le.mpr hlt)
      · exact hv msg.msgId (.inr hx)
  | @readyCount src msg _ hno hdel =>
    rw [hdel.sentReady_eq]
    rw [(hdel.slot k).1, (hdel.slot k).2] at hk
    refine hset (fun hx => ?_) hk
    rcases hno with hsent | hlt
    · exact hsent
    · rcases hx with hx | hx
      · exact hv msg.msgId (.inl hx)
      · exact absurd hx (not_le.mpr hlt)
  | readyDone hdel =>
    rw [hdel.sentReady_eq]
    rw [(hdel.slot k).1, (hdel.slot k).2] at hk
    exact hv k hk

/-- A delivered message has its READYs. -/
theorem Move.delivered_card (h : Move S i v ev v' out rest)
    (hv : ∀ m, (v.slot m).delivered = true → deliverThreshold S.f ≤ (v.slot m).readys.card)
    (k : String) (hk : (v'.slot k).delivered = true) :
    deliverThreshold S.f ≤ (v'.slot k).readys.card := by
  have hgrow : (v.slot k).readys.card ≤ (v'.slot k).readys.card := by
    rw [(h.votes k).2]
    exact Finset.card_le_card Finset.subset_union_left
  cases h with
  | sendSeen _ | start _ | idle _ | serve | returns _ => exact hv k hk
  | sendNew _ | sendDone | echoTip _ _ | echoCount _ | readyTip _ _ =>
    have hold := (View.map_set_slot Slot.delivered (by rfl) k).symm.trans hk
    exact (hv k hold).trans hgrow
  | readyCount _ hdel =>
    rcases hdel.card_of_delivered k hk with hset | hcard
    · have hold := (View.map_set_slot Slot.delivered (by rfl) k).symm.trans hset
      exact (hv k hold).trans hgrow
    · rwa [(hdel.slot k).2]
  | readyDone hdel =>
    rcases hdel.card_of_delivered k hk with hold | hcard
    · exact (hv k hold).trans hgrow
    · rwa [(hdel.slot k).2]

theorem Move.sentReady_mono (h : Move S i v ev v' out rest) (k : String)
    (hk : (v.slot k).sentReady = true) : (v'.slot k).sentReady = true := by
  cases h with
  | sendSeen _ | start _ | idle _ | serve | returns _ => exact hk
  | sendNew _ | sendDone | echoCount _ =>
    exact (View.map_set_slot Slot.sentReady (by rfl) k).trans hk
  | @echoTip _ msg hnew _ | @readyTip _ msg hnew _ =>
    -- the slot that the tip writes was not ready: it is another one
    have hkm : k ≠ msg.msgId := by
      rintro rfl
      exact absurd (hk.symm.trans hnew) (by decide)
    rw [View.set_slot_of_ne hkm, hk]
  | readyCount _ hdel =>
    rw [hdel.sentReady_eq]
    exact (View.map_set_slot Slot.sentReady (by rfl) k).trans hk
  | readyDone hdel => rwa [hdel.sentReady_eq]

/-- Whoever starts to broadcast a READY, or goes on with it, is ready. -/
theorem Move.sentReady_of_rest (h : Move S i v ev v' out rest)
    (hev : ∀ msg ps k, ev = .resume (.bracha .ready msg ps k) →
      (v.slot msg.msgId).sentReady = true) {ps : List PeerId} {k : Cont}
    (ht : .bracha .ready msg ps k ∈ rest) : (v'.slot msg.msgId).sentReady = true := by
  cases h with
  | sendSeen _ | echoCount _ | idle _ | returns _ => cases ht
  | readyCount _ _ | readyDone _ => cases ht
  | sendNew _ | sendDone | start _ => cases ht
  | echoTip _ _ | readyTip _ _ =>
    cases ht
    simp
  | serve =>
    cases ht
    exact hev _ _ _ rfl

theorem Move.delivered_mono (h : Move S i v ev v' out rest) (k : String)
    (hk : (v.slot k).delivered = true) : (v'.slot k).delivered = true := by
  cases h with
  | sendSeen _ | start _ | idle _ | serve | returns _ => exact hk
  | sendNew _ | sendDone | echoTip _ _ | echoCount _ | readyTip _ _ =>
    exact (View.map_set_slot Slot.delivered (by rfl) k).trans hk
  | readyCount _ hdel =>
    exact hdel.delivered_mono k ((View.map_set_slot Slot.delivered (by rfl) k).trans hk)
  | readyDone hdel => exact hdel.delivered_mono k hk

/-- The delivery threshold, once reached, has led to the delivery or will after
the broadcast that was started, unless it had been reached before and the
segment is not the end of that broadcast. -/
theorem Move.delivering (h : Move S i v ev v' out rest) {k : String}
    (hk : deliverThreshold S.f ≤ (v'.slot k).readys.card) :
    (v'.slot k).delivered = true ∨
    (∃ msg, bracha S i .ready msg (.readyDone msg) ∈ rest ∧ msg.msgId = k) ∨
    deliverThreshold S.f ≤ (v.slot k).readys.card ∧ (v.slot k).delivered = false ∧
      ∀ method msg' msg, ev = .resume (.bracha method msg' [] (.readyDone msg)) →
        msg.msgId ≠ k := by
  cases hdk : (v.slot k).delivered with
  | true => exact .inl (h.delivered_mono k hdk)
  | false =>
  have hold (hno : ev.voters .ready k = ∅) : deliverThreshold S.f ≤ (v.slot k).readys.card := by
    rwa [(h.votes k).2, hno, Finset.union_empty] at hk
  cases h with
  | sendSeen _ | start _ | idle _ | serve | sendNew _ | sendDone | echoTip _ _ | echoCount _ =>
    exact .inr (.inr ⟨hold (by simp [Event.voters]), rfl, by simp⟩)
  | returns hret =>
    refine .inr (.inr ⟨hold rfl, rfl, ?_⟩)
    rintro method msg' msg hev
    cases hev
    rcases hret with h | h <;> cases h
  | @readyTip _ msg _ _ =>
    by_cases hkm : k = msg.msgId
    · exact .inr (.inl ⟨msg, Option.mem_some_self _, hkm.symm⟩)
    · exact .inr (.inr ⟨hold (by simp [Event.voters, Ne.symm hkm]), rfl, by simp⟩)
  | @readyCount _ msg _ _ hdel =>
    by_cases hkm : k = msg.msgId
    · subst hkm
      rw [(hdel.slot _).2] at hk
      exact .inl (hdel.delivered_of_card hk)
    · exact .inr (.inr ⟨hold (by simp [Event.voters, Ne.symm hkm]), rfl, by simp⟩)
  | @readyDone _ msg _ _ hdel =>
    by_cases hkm : k = msg.msgId
    · subst hkm
      rw [(hdel.slot _).2] at hk
      exact .inl (hdel.delivered_of_card hk)
    · refine .inr (.inr ⟨hold rfl, rfl, ?_⟩)
      rintro method msg' msg'' hev rfl
      cases hev
      exact hkm rfl

end Moves

/-! ## The invariant -/

/-- `Progress` of every correct node. -/
def progress (S : System) : Assertion PeerId Packet NodeState Task where
  node ls i s ts := Progress S ls i s.view ts
  msg _ _ := True

theorem Progress.append {v : View} (h : Progress S ls i v ts) : Progress S (ls ++ ls') i v ts where
  tipped := h.tipped
  delivering := h.delivering
  delivered := h.delivered
  echoing m hm := by
    obtain ⟨msg, hmsg, hb⟩ := h.echoing m hm
    exact ⟨msg, hmsg, hb.append⟩
  readying m hm := by
    obtain ⟨msg, hmsg, hb⟩ := h.readying m hm
    exact ⟨msg, hmsg, hb.append⟩
  starting hs := (h.starting hs).imp_right fun ⟨hb, hrest⟩ => ⟨hb.append, hrest⟩

theorem progress_initial : Progress S [] i (NodeState.view {}) [.onStart] where
  tipped m hm := by
    simp [NodeState.view, readyThreshold] at hm
  delivering m hm := by
    simp [NodeState.view, deliverThreshold] at hm
  delivered m hm := by
    simp [NodeState.view] at hm
  echoing m hm := by
    simp [NodeState.view] at hm
  readying m hm := by
    simp [NodeState.view] at hm
  starting _ := .inl (by simp)

/-- A broadcast loop with its continuation goes on until it ends. -/
theorem mem_loop_or (hseg : Segment (protocol S) S.parties c l i o base) {ps : List PeerId}
    {k : Cont} (ht : .bracha method msg ps k ∈ c.tasks i) :
    (∃ ps', .bracha method msg ps' k ∈ o.rest.toList ++ base.tasks i) ∨
      l = .wake i (.bracha method msg [] k) := by
  rcases hseg.mem_base_tasks_or ht with hbase | rfl
  · exact .inl ⟨ps, List.mem_append_right _ hbase⟩
  cases ps with
  | nil => exact .inr rfl
  | cons p ps =>
    cases hseg with
    | wake _ _ ho =>
      obtain rfl : resume S i (c.st i) (.bracha method msg (p :: ps) k) = o := Option.some.inj ho
      exact .inl ⟨ps, by simp [resume]⟩

/-- Every segment keeps `Progress`. -/
theorem Progress.segment (hc : exec (next S) initial ls = some c)
    (hseg : Segment (protocol S) S.parties c l i o base)
    (h : Progress S ls i (c.st i).view (c.tasks i)) :
    Progress S (ls ++ [l]) i o.st.view (o.rest.toList ++ base.tasks i) := by
  have hmove := move_of_segment hc hseg
  refine ⟨hmove.tipped h.tipped, fun m hm => ?_, hmove.delivered_card h.delivered, fun m hm => ?_,
    fun m hm => ?_, fun hs => ?_⟩
  · -- delivering
    rcases hmove.delivering hm with hdel | ⟨msg, hrest, rfl⟩ | ⟨hcard, hnot, hev⟩
    · exact .inl hdel
    · exact .inr ⟨.ready, msg, S.peers i, msg,
        List.mem_append_left _ (Option.mem_toList.mpr hrest), rfl⟩
    · rcases h.delivering m hcard with hdel | ⟨method, msg', ps, msg, ht, rfl⟩
      · rw [hnot] at hdel
        cases hdel
      · rcases mem_loop_or hseg ht with ⟨ps', ht'⟩ | rfl
        · exact .inr ⟨method, msg', ps', msg, ht', rfl⟩
        · exact absurd rfl (hev method msg' msg rfl)
  · -- echoing
    rcases hmove.seen_or hm with hold | ⟨msg, k, rfl, hrest⟩
    · obtain ⟨msg, hmsg, hb⟩ := h.echoing m hold
      exact ⟨msg, hmsg, hb.segment hc hseg⟩
    · exact ⟨msg, rfl, broadcasting_bracha hrest⟩
  · -- readying
    rcases hmove.sentReady_or hm with hold | ⟨msg, k, rfl, hrest⟩
    · obtain ⟨msg, hmsg, hb⟩ := h.readying m hold
      exact ⟨msg, hmsg, hb.segment hc hseg⟩
    · exact ⟨msg, rfl, broadcasting_bracha hrest⟩
  · -- starting
    rcases h.starting hs with hstart | ⟨hb, hseen | ⟨ps, ht⟩⟩
    · rcases hseg.mem_base_tasks_or hstart with hbase | rfl
      · exact .inl (List.mem_append_right _ hbase)
      · cases hseg with
        | wake _ _ ho =>
          obtain rfl : onStart S i (c.st i) = o := Option.some.inj ho
          have hrest : bracha S i .send (initialSend S i) (.sendDone (initialSend S i)) ∈
              (onStart S i (c.st i)).rest := by
            simp [onStart, hs]
          exact .inr ⟨broadcasting_bracha hrest, .inr ⟨S.peers i,
            List.mem_append_left _ (Option.mem_toList.mpr hrest)⟩⟩
    · exact .inr ⟨hb.segment hc hseg, .inl (hmove.seen_subset hseen)⟩
    · refine .inr ⟨hb.segment hc hseg, ?_⟩
      rcases mem_loop_or hseg ht with ⟨ps', ht'⟩ | rfl
      · exact .inr ⟨ps', ht'⟩
      · cases hseg with
        | wake _ _ ho =>
          obtain rfl : resume S i (c.st i)
            (.bracha .send (initialSend S i) [] (.sendDone (initialSend S i))) = o :=
              Option.some.inj ho
          exact .inl (Finset.mem_insert_self _ _)

theorem progress_inductive :
    (progress S).Inductive (protocol S) S.parties initial fun _ _ _ => True where
  init := ⟨fun _ _ => progress_initial, fun _ _ => trivial, fun _ _ => trivial⟩
  node_mono _ h := h.append
  msg_mono _ := trivial
  segment hc hA _ hseg := ⟨(hA.node _ hseg.correct).segment hc hseg, fun _ _ => trivial⟩

theorem progress_of_run (hc : exec (next S) initial ls = some c) (hi : i ∈ S.parties.correct) :
    Progress S ls i (c.st i).view (c.tasks i) :=
  (Assertion.holds_of_run progress_inductive hc).node i hi

/-- Who broadcasts a READY, or has, is ready. -/
def readySent : Assertion PeerId Packet NodeState Task where
  node ls i s ts := ∀ msg ps k,
    .bracha .ready msg ps k ∈ ts ∨ .wake i (.bracha .ready msg ps k) ∈ ls →
      (s.view.slot msg.msgId).sentReady = true
  msg _ _ := True

theorem readySent_inductive :
    readySent.Inductive (protocol S) S.parties initial fun _ _ _ => True where
  init := by
    refine ⟨fun i _ msg ps k h => ?_, fun _ _ => trivial, fun _ _ => trivial⟩
    simp [initial] at h
  node_mono hl h msg ps k ht := by
    refine h msg ps k (ht.imp_right fun hmem => ?_)
    rcases List.mem_append.mp hmem with hmem | hmem
    · exact hmem
    · rw [← List.mem_singleton.mp hmem] at hl
      exact absurd rfl hl
  msg_mono _ := trivial
  segment := by
    intro ls c l i o base hc hA _ hseg
    have hmove := move_of_segment hc hseg
    have hold := hA.node i hseg.correct
    refine ⟨fun msg ps k ht => ?_, fun _ _ => trivial⟩
    have hrun (h : .bracha .ready msg ps k ∈ c.tasks i) :
        (o.st.view.slot msg.msgId).sentReady = true :=
      hmove.sentReady_mono _ (hold msg ps k (.inl h))
    rcases ht with ht | hmem
    · rcases hseg.mem_rest_or_tasks ht with hrest | hmem
      · refine hmove.sentReady_of_rest (fun msg ps k hev => ?_) hrest
        exact hold msg ps k (.inl (mem_tasks_of_event hseg hev).1)
      · exact hrun hmem
    · rcases List.mem_append.mp hmem with hmem | hmem
      · exact hmove.sentReady_mono _ (hold msg ps k (.inr hmem))
      · rw [← List.mem_singleton.mp hmem] at hseg
        exact hrun (mem_tasks_of_event hseg rfl).1

/-- A correct node whose READY was counted is ready. -/
theorem sentReady_of_backer (hc : exec (next S) initial ls = some c)
    (hj : j ∈ backers ls i .ready m fun _ => True) (hcorr : j ∈ S.parties.correct) :
    ((c.st j).view.slot m).sentReady = true := by
  obtain ⟨msg, rfl, -, hh⟩ := mem_backers.mp hj
  obtain ⟨-, ls₁, l, ls₂, c₁, rfl, hc₁, o, base, hseg, hout⟩ :=
    sent_of_received rfl ls c hc _ (hh.received hc hcorr)
  obtain ⟨ps, k, hev⟩ := (move_of_segment hc₁ hseg).out_eq hout
  obtain ⟨-, rfl⟩ := mem_tasks_of_event hseg hev
  exact (Assertion.holds_of_run readySent_inductive hc).node j hcorr msg (i :: ps) k
    (.inr (List.mem_append_right _ List.mem_cons_self))

/-! ## Quiescent states -/

/-- Is this a coroutine of `on_start`, and not of a handler? -/
def Task.ofOnStart : Task → Bool
  | .onStart => true
  | .bracha _ _ _ (.sendDone _) => true
  | .bracha _ _ _ .echoDone => true
  | .bracha _ _ _ _ => false

/-- Every message to a correct node has been handled, to the handler's end. -/
def Quiescent (S : System) (c : Config PeerId Packet NodeState Task) : Prop :=
  (∀ e ∈ c.net, e.dst ∉ S.parties.correct) ∧
    ∀ i ∈ S.parties.correct, ∀ t ∈ c.tasks i, t.ofOnStart = true

/-- The node's `on_start` has returned. -/
def OnStartCompleted (c : Config PeerId Packet NodeState Task) (s : PeerId) : Prop :=
  ∀ t ∈ c.tasks s, t.ofOnStart = false

/-- What a correct sender has broadcast, or some correct node has delivered,
every correct node has delivered. -/
def DeliveredByAll (S : System) (c : Config PeerId Packet NodeState Task) : Prop :=
  ∀ m, (∃ s ∈ S.parties.correct, S.isSender s = true ∧ m = S.uuid s ∧ OnStartCompleted c s) ∨
      (∃ i ∈ S.parties.correct, (c.st i).vars.delivered.get m false = true) →
    ∀ j ∈ S.parties.correct, (c.st j).vars.delivered.get m false = true

/-- The correct nodes other than any one of them reach both thresholds. -/
def CorrectSuffice (S : System) : Prop :=
  readyThreshold S.parties.nodes.card S.f < S.parties.correct.card ∧
    deliverThreshold S.f < S.parties.correct.card

/-- In a quiescent state what was broadcast to the peers has been handled by the
correct ones. -/
theorem Broadcasting.handled (hc : exec (next S) initial ls = some c) (hq : Quiescent S c)
    (h : Broadcasting S ls i method msg (c.tasks i))
    (hts : ∀ ps k, .bracha method msg ps k ∉ c.tasks i) (hi : i ∈ S.parties.correct)
    (hj : j ∈ S.parties.correct) (hji : j ≠ i) : Handled ls j i ⟨method, msg⟩ := by
  have hpeer : j ∈ S.peers i :=
    (S.mem_peers i (S.mem_nodes_of_correct hi) j).mpr ⟨S.mem_nodes_of_correct hj, hji⟩
  rcases handled_or_in_flight ls c hc (h.sent hts hpeer) with hrecv | hnet
  · exact .inl hrecv
  · exact absurd hj (hq.1 _ hnet)

/-- Who is ready has its READY counted by the others … -/
theorem mem_readys_of_sentReady (hc : exec (next S) initial ls = some c) (hq : Quiescent S c)
    (hi : i ∈ S.parties.correct) (hj : j ∈ S.parties.correct) (hji : j ≠ i)
    (hready : ((c.st i).view.slot m).sentReady = true) :
    i ∈ ((c.st j).view.slot m).readys := by
  obtain ⟨msg, rfl, hb⟩ := (progress_of_run hc hi).readying m hready
  have hts : ∀ ps k, .bracha .ready msg ps k ∉ c.tasks i := by
    intro ps k ht
    have hstart := hq.2 i hi _ ht
    rcases (shaped_of_run hc hi ht).2 with rfl | rfl <;> cases hstart
  rw [(counted_of_run hc hj msg.msgId).2]
  exact mem_backers.mpr ⟨msg, rfl, trivial, hb.handled hc hq hts hi hj hji⟩

/-- … and who has seen a message, its ECHO, unless its own `on_start` for it is
still running. -/
theorem mem_echos_of_seen (hc : exec (next S) initial ls = some c) (hq : Quiescent S c)
    (hi : i ∈ S.parties.correct) (hj : j ∈ S.parties.correct) (hji : j ≠ i)
    (hstart : m = S.uuid i → OnStartCompleted c i) (hseen : m ∈ (c.st i).view.seen) :
    i ∈ ((c.st j).view.slot m).echos := by
  obtain ⟨msg, rfl, hb⟩ := (progress_of_run hc hi).echoing m hseen
  have hts : ∀ ps k, .bracha .echo msg ps k ∉ c.tasks i := by
    intro ps k ht
    have hof := hq.2 i hi _ ht
    rcases (shaped_of_run hc hi ht).2 with rfl | ⟨rfl, huuid⟩
    · cases hof
    · cases hstart huuid _ ht
  rw [(counted_of_run hc hj msg.msgId).1]
  exact mem_backers.mpr ⟨msg, rfl, trivial, hb.handled hc hq hts hi hj hji⟩

/-- A set that contains the other correct nodes has at least as many members. -/
theorem card_correct_le {X : Finset PeerId} (hX : ∀ k ∈ S.parties.correct, k ≠ i → k ∈ X) :
    S.parties.correct.card ≤ X.card + 1 := by
  have hsub : S.parties.correct ⊆ insert i X := by
    intro k hk
    by_cases hki : k = i
    · exact Finset.mem_insert.mpr (.inl hki)
    · exact Finset.mem_insert_of_mem (hX k hk hki)
  exact (Finset.card_le_card hsub).trans (Finset.card_insert_le _ _)

/-- If all correct nodes are ready, all deliver. -/
theorem delivered_of_all_ready (hsuff : CorrectSuffice S) (hc : exec (next S) initial ls = some c)
    (hq : Quiescent S c)
    (hready : ∀ i ∈ S.parties.correct, ((c.st i).view.slot m).sentReady = true)
    (hj : j ∈ S.parties.correct) : (c.st j).vars.delivered.get m false = true := by
  rw [(wellKeyed_of_run hc hj).sameKeys.delivered_iff]
  have hle : S.parties.correct.card ≤ ((c.st j).view.slot m).readys.card + 1 :=
    card_correct_le fun k hk hkj => mem_readys_of_sentReady hc hq hk hj (Ne.symm hkj) (hready k hk)
  rcases (progress_of_run hc hj).delivering m (by have := hsuff.2; omega) with
    hdel | ⟨method, msg', ps, msg, ht, -⟩
  · exact hdel
  · cases hq.2 j hj _ ht

/-- A correct node's delivery makes all correct nodes ready. -/
theorem ready_of_delivered (hf : S.parties.byz.card ≤ S.f) (hc : exec (next S) initial ls = some c)
    (hq : Quiescent S c) (hi : i ∈ S.parties.correct)
    (hdel : ((c.st i).view.slot m).delivered = true) (hj : j ∈ S.parties.correct) :
    ((c.st j).view.slot m).sentReady = true := by
  by_contra hnot
  -- the f + 1 correct nodes whose READY `i` has counted have also been counted by `j`
  have hcard := (progress_of_run hc hi).delivered m hdel
  rw [(counted_of_run hc hi m).2] at hcard
  have hsub : backers ls i .ready m (fun _ => True) ⊆ S.parties.nodes := by
    intro k hk
    obtain ⟨msg, -, -, hh⟩ := mem_backers.mp hk
    exact hh.src_mem_nodes hc rfl
  have hcorrect := Parties.card_le_correct_add hsub hf
  have hcounted : backers ls i .ready m (fun _ => True) ∩ S.parties.correct ⊆
      ((c.st j).view.slot m).readys := by
    intro k hk
    obtain ⟨hkb, hkc⟩ := Finset.mem_inter.mp hk
    have hready := sentReady_of_backer hc hkb hkc
    have hjk : j ≠ k := by
      rintro rfl
      exact hnot hready
    exact mem_readys_of_sentReady hc hq hkc hj hjk hready
  have hle := Finset.card_le_card hcounted
  refine hnot ((progress_of_run hc hj).tipped m (.inr ?_))
  unfold deliverThreshold at hcard
  omega

/-- A correct sender's message makes all correct nodes ready. -/
theorem ready_of_onStartCompleted (hsuff : CorrectSuffice S)
    (hc : exec (next S) initial ls = some c) (hq : Quiescent S c) {s : PeerId}
    (hs : s ∈ S.parties.correct) (hsender : S.isSender s = true) (hdone : OnStartCompleted c s)
    (hj : j ∈ S.parties.correct) : ((c.st j).view.slot (S.uuid s)).sentReady = true := by
  obtain ⟨hsends, hown⟩ : Broadcasting S ls s .send (initialSend S s) (c.tasks s) ∧
      S.uuid s ∈ (c.st s).view.seen := by
    rcases (progress_of_run hc hs).starting hsender with hstart | ⟨hb, hseen | ⟨ps, ht⟩⟩
    · cases hdone _ hstart
    · exact ⟨hb, hseen⟩
    · cases hdone _ ht
  have hts : ∀ ps k, .bracha .send (initialSend S s) ps k ∉ c.tasks s := by
    intro ps k ht
    obtain ⟨-, -, rfl⟩ := shaped_of_run hc hs ht
    cases hdone _ ht
  -- every correct node has seen the message, and so broadcast an ECHO for it
  have hseen : ∀ k ∈ S.parties.correct, S.uuid s ∈ (c.st k).view.seen := by
    intro k hk
    by_cases hks : k = s
    · rwa [hks]
    · exact seen_of_handled hc hk (hsends.handled hc hq hts hs hk hks)
  have hechoed : ∀ k ∈ S.parties.correct, k ≠ j → k ∈ ((c.st j).view.slot (S.uuid s)).echos := by
    intro k hk hkj
    refine mem_echos_of_seen hc hq hk hj (Ne.symm hkj) (fun huuid => ?_) (hseen k hk)
    obtain rfl := S.uuid_inj s (S.mem_nodes_of_correct hs) k (S.mem_nodes_of_correct hk) huuid
    exact hdone
  have hle := card_correct_le hechoed
  refine (progress_of_run hc hj).tipped _ (.inl ?_)
  rw [S.N_eq (S.mem_nodes_of_correct hj)]
  have := hsuff.1
  omega

/-- **Validity and totality at quiescence**, where the correct nodes suffice. -/
theorem deliveredByAll_of_quiescent (S : System) (hf : S.parties.byz.card ≤ S.f)
    (hsuff : CorrectSuffice S) (ls : History) (c : Config PeerId Packet NodeState Task)
    (hc : exec (next S) initial ls = some c) (hq : Quiescent S c) : DeliveredByAll S c := by
  rintro m (⟨s, hs, hsender, rfl, hdone⟩ | ⟨i, hi, hdel⟩) j hj
  · exact delivered_of_all_ready hsuff hc hq
      (fun i hi => ready_of_onStartCompleted hsuff hc hq hs hsender hdone hi) hj
  · rw [(wellKeyed_of_run hc hi).sameKeys.delivered_iff] at hdel
    exact delivered_of_all_ready hsuff hc hq
      (fun k hk => ready_of_delivered hf hc hq hi hdel hk) hj

instance : Decidable (CorrectSuffice S) := inferInstanceAs (Decidable (_ ∧ _))

instance : Decidable (Quiescent S c) := by
  unfold Quiescent
  infer_instance

/-- All messages of a broadcast that runs undisturbed arrive. -/
def arrive (S : System) (i : PeerId) (method : Method) (msg : BrachaMessage) : History :=
  ((S.peers i).filter (· ∈ S.parties.correct)).map fun p => .recv ⟨i, p, method, msg⟩

/-- Five correct nodes of which `a` broadcasts, and one that is not. -/
def sixNodes : System where
  toDeployment := .ofLists ["a", "b", "c", "d", "e"] ["z"] (by decide)
  f := 1
  isSender i := i = "a"
  uuid i := "uuid of " ++ i
  uuid_inj := by decide

/-- `a` broadcasts, `z` makes an ECHO up, and every message to a correct node is handled. -/
def sixNodesRun : History :=
  let sent := initialSend sixNodes "a"
  let echoed := { sent with phase := "echo" }
  let readied := { sent with phase := "ready" }
  ["a", "b", "c", "d", "e"].map (fun i => .wake i .onStart) ++
  broadcast sixNodes "a" .send sent (.sendDone sent) ++
  broadcast sixNodes "a" .echo echoed .echoDone ++ arrive sixNodes "a" .send sent ++
  ["b", "c", "d", "e"].flatMap (fun i => broadcast sixNodes i .echo echoed .handled) ++
  [.forge ⟨"z", "b", .echo, { echoed with payload := "evil" }⟩] ++
  ["a", "b", "c", "d", "e"].flatMap (fun i => arrive sixNodes i .echo echoed) ++
  ["a", "b", "c", "d", "e"].flatMap (fun i => broadcast sixNodes i .ready readied .handled) ++
  ["a", "b", "c", "d", "e"].flatMap fun i => arrive sixNodes i .ready readied

theorem deliveredByAll_of_quiescent_sixNodes :
    ∃ c, exec (next sixNodes) initial sixNodesRun = some c ∧
      Quiescent sixNodes c ∧ OnStartCompleted c "a" ∧ DeliveredByAll sixNodes c := by
  obtain ⟨c, hc, h⟩ := exists_exec_of_any (next sixNodes) initial sixNodesRun
    (fun c => Quiescent sixNodes c ∧ c.tasks "a" = [])
    (by decide +kernel)
  obtain ⟨hq, ha⟩ := of_decide_eq_true h
  refine ⟨c, hc, hq, ?_, deliveredByAll_of_quiescent sixNodes (by decide) (by decide)
    sixNodesRun c hc hq⟩
  rw [OnStartCompleted, ha]
  simp

/-! ## At `N = 3f + 1` -/

/-- `a` broadcasts, every message to a correct node is handled, and `z` is
silent. -/
def silentRun : History :=
  let sent := initialSend fourNodes "a"
  let echoed := { sent with phase := "echo" }
  [.wake "a" .onStart, .wake "b" .onStart, .wake "c" .onStart] ++
  broadcast fourNodes "a" .send sent (.sendDone sent) ++
  broadcast fourNodes "a" .echo echoed .echoDone ++ arrive fourNodes "a" .send sent ++
  broadcast fourNodes "b" .echo echoed .handled ++
  broadcast fourNodes "c" .echo echoed .handled ++
  ["a", "b", "c"].flatMap fun i => arrive fourNodes i .echo echoed

/-- At `N = 4`, `f = 1` a correct sender's message is delivered by nobody when
one node is silent: each correct node counts two ECHOs, and asks for three. -/
theorem silentRun_not_delivered :
    ¬ ∀ (S : System) (ls : History) (c : Config PeerId Packet NodeState Task),
      S.parties.byz.card ≤ S.f → 3 * S.f + 1 ≤ S.parties.nodes.card →
      exec (next S) initial ls = some c → Quiescent S c → DeliveredByAll S c := by
  intro h
  obtain ⟨c, hc, hrun⟩ := exists_exec_of_any (next fourNodes) initial silentRun
    (fun c => Quiescent fourNodes c ∧ c.tasks "a" = [] ∧
      (c.st "b").vars.delivered.get "uuid of a" false = false) (by decide)
  obtain ⟨hq, ha, hb⟩ := of_decide_eq_true hrun
  have hdone : OnStartCompleted c "a" := by
    rw [OnStartCompleted, ha]
    simp
  have hdel := h fourNodes silentRun c (by decide) (by decide) hc hq (fourNodes.uuid "a")
    (.inl ⟨"a", by decide, by decide, rfl, hdone⟩) "b" (by decide)
  exact Bool.false_ne_true (hb.symm.trans hdel)

end DistBench.Bracha.Basic
