import DistBench.Lifecycle.RustBarrier
import DistBench.Lifecycle.Status

/-!
# When the status of a Rust node moves forward

The tasks of a Rust node decide on a status and send it later: after a sleep of 50 ms
before Starting, and after the test of the peer table before Running. Two tasks can have
decided at the same time, and then the second one may send its status when the first has
already led to the next. The transport and the monitor send Stopping without looking.

- `decided`: the status a suspended task will send, whatever happens. `decides`, `sent`:
  what a task decides on, and what it sends, when it goes on.
- `InOrder`: the condition on steps. Nothing is decided on that is past, and nothing is
  sent past an open decision.
- `Open`: no decision is open for an earlier status, in a run of steps in order.
- `movesForward_of_inOrder`: then the status moves forward; and only then does it do so in
  every continuation of the run.
-/

namespace DistBench.RustLifecycle.System

open DistBench.Async DistBench.Lifecycle

variable {A M K : Type} {Y : System A M K} {G : Parties PeerId}
  {ls : Trace PeerId (Message M) (Cont K)} {l : Label PeerId (Message M) (Cont K)}
  {c c' base : Config PeerId (Message M) (NodeState A) (Cont K)}
  {o : Outcome PeerId (Message M) (NodeState A) (Cont K)} {i j : PeerId} {s s' : NodeState A}
  {ts : List (Cont K)} {t r : Cont K} {loop : Loop} {v w : NodeStatus}

/-- The monitor opens the shutdown at the end of its loop. -/
def OpensShutdown (Y : System A M K) (i : PeerId) (s : NodeState A) (loop : Loop) : Prop :=
  loop.algoTerminated = false ∧ Y.algorithm.isTerminated s.algorithm = true ∧
    (s.version = loop.seen ∨ Y.coin i s.coins = false)

instance (loop : Loop) : Decidable (Y.OpensShutdown i s loop) :=
  inferInstanceAs (Decidable (_ ∧ _ ∧ _))

/-! ## Decisions -/

/-- The status that a suspended task has decided on and will send without looking again. -/
def decided : Cont K → Option NodeStatus
  | .delaying => some .keySharing
  | .grace _ | .keyGrace => some .starting
  | .becomeRunning _ | .sendRunning => some .running
  | .becomeTerminated _ | .sendTerminated => some .terminated
  | _ => none

/-- The status that a task decides on when it goes on: `start` does so at once, the others when
the test of the key store or of the peer table passes. -/
def decides (Y : System A M K) (i : PeerId) (s : NodeState A) : Cont K → Option NodeStatus
  | .start => some .keySharing
  | .announcedKey _ => if Y.keystoreFull i s then some .starting else none
  | .keyCheck => if Y.keystoreFull i s ∧ s.status = .keySharing then some .starting else none
  | .announcedStarted _ | .startedStatuses =>
    if s.allRecorded .running then some .running else none
  | .announcedFinished _ | .finishedStatuses =>
    if s.allRecorded .terminated then some .terminated else none
  | _ => none

/-- The status a task sends when it goes on, if it sends one. -/
def sent (Y : System A M K) (i : PeerId) (s : NodeState A) : Cont K → Option NodeStatus
  | .delaying => some .keySharing
  | .grace _ | .keyGrace => some .starting
  | .becomeRunning _ | .sendRunning => some .running
  | .becomeTerminated _ | .sendTerminated => some .terminated
  | .serve => some .stopping
  | .wait loop => if Y.OpensShutdown i s loop then some .stopping else none
  | _ => none

/-- The condition on a step: a task decides on no status that the node is past, a status is sent
only while no other task has decided on an earlier one, and a node that is Terminated is not
told to stop. -/
def InOrder (Y : System A M K) [DecidableEq K]
    (c : Config PeerId (Message M) (NodeState A) (Cont K)) :
    Label PeerId (Message M) (Cont K) → Prop
  | .wake i t =>
    (∀ v ∈ Y.decides i (c.st i) t, (c.st i).status.rank ≤ v.rank) ∧
      ∀ v ∈ Y.sent i (c.st i) t,
        (∀ r ∈ (c.tasks i).erase t, ∀ w ∈ decided r, v.rank ≤ w.rank) ∧
          (v = .stopping → (c.st i).status ≠ .terminated)
  | _ => True

instance (Y : System A M K) [DecidableEq K]
    (c : Config PeerId (Message M) (NodeState A) (Cont K)) : ∀ l, Decidable (Y.InOrder c l)
  | .wake _ _ => inferInstanceAs (Decidable (_ ∧ _))
  | .recv _ | .forge _ => isTrue trivial

/-- The status of node `i` never moves backwards. -/
def MovesForward (Y : System A M K) (G : Parties PeerId) [DecidableEq M] [DecidableEq K]
    (ls : Trace PeerId (Message M) (Cont K)) (i : PeerId) : Prop :=
  NonDecreasing (Async.step Y.protocol G) Y.initial (fun c => (c.st i).status.rank) ls

/-! ## What a task does to the status -/

/-- A handler does not send a status before its first suspension. -/
theorem status_handle (src : PeerId) (msg : Message M) :
    (Y.handle i s src msg).st.status = s.status := by
  unfold handle
  split
  · rfl
  · cases msg with
    | algorithm msg =>
      dsimp only
      split <;> rfl
    | started | finished | announcePubKey key => rfl

theorem status_monitor : (Y.monitor i s loop).st.status = s.status := by
  unfold monitor
  dsimp only
  split <;> first | rfl | (split <;> rfl)

/-- At the end of its loop the monitor opens the shutdown or goes back to the head. -/
theorem status_awaitChange (ho : Y.awaitChange i s loop = some o) :
    o.st.status = (Y.sent i s (.wait loop)).getD s.status := by
  unfold awaitChange at ho
  dsimp only at ho
  split at ho
  · next hchanged =>
    obtain rfl := Option.some.inj ho
    have hnot : ¬ Y.OpensShutdown i s loop := by
      rintro ⟨hnew, hterminated, hseen | hcoin⟩
      · exact hchanged.1 hseen
      · have htrue := hchanged.2 ⟨hnew, hterminated⟩
        rw [hcoin] at htrue
        cases htrue
    rw [sent, if_neg hnot]
    rfl
  · next hunchanged =>
    obtain ⟨hterminated, ho⟩ := Option.ite_none_right_eq_some.mp ho
    obtain rfl := Option.some.inj ho
    have hopens : Y.OpensShutdown i s loop := by
      refine ⟨hterminated.1, hterminated.2, ?_⟩
      by_contra hboth
      obtain ⟨hseen, hcoin⟩ := not_or.mp hboth
      exact hunchanged ⟨hseen, fun _ => by simpa using hcoin⟩
    rw [sent, if_pos hopens]
    rfl

/-- A task that goes on sends a status or leaves it. -/
theorem status_resume (ho : Y.resume i s t = some o) :
    o.st.status = (Y.sent i s t).getD s.status := by
  cases t with
  | wait loop => exact status_awaitChange ho
  | serve =>
    obtain ⟨-, ho⟩ := Option.ite_none_right_eq_some.mp ho
    obtain rfl := Option.some.inj ho
    rfl
  | monitor loop =>
    obtain ⟨-, ho⟩ := Option.ite_none_right_eq_some.mp ho
    obtain rfl := Option.some.inj ho
    exact status_monitor
  | onStart k loop =>
    obtain ⟨oa, -, rfl⟩ := Option.map_eq_some_iff.mp ho
    rfl
  | handler k =>
    obtain ⟨oa, -, rfl⟩ := Option.map_eq_some_iff.mp ho
    rfl
  | _ =>
    obtain rfl := Option.some.inj ho
    rfl

/-- What a task has decided on it sends. -/
theorem sent_of_decided (h : decided t = some v) : Y.sent i s t = some v := by
  cases t with
  | serve | wait loop => cases h
  | _ => exact h

/-- A task that sends a status has decided on it, or tells the node to stop. -/
theorem decided_of_sent (h : Y.sent i s t = some v) : decided t = some v ∨ v = .stopping := by
  cases t with
  | serve => exact .inr (Option.some.inj h).symm
  | wait loop => exact .inr (Option.some.inj (Option.ite_none_right_eq_some.mp h).2).symm
  | _ => exact .inl h

/-! ## Where a task goes on -/

/-- A handler has decided on nothing at its first suspension. -/
theorem decided_rest_handle {src : PeerId} {msg : Message M}
    (hr : r ∈ (Y.handle i s src msg).rest) : decided r = none := by
  unfold handle at hr
  split at hr
  · cases hr
  · cases msg with
    | algorithm msg =>
      dsimp only at hr
      split at hr
      · cases hr
      · obtain ⟨k, -, rfl⟩ := Option.map_eq_some_iff.mp hr
        rfl
    | started | finished | announcePubKey key =>
      obtain rfl := Option.some.inj hr
      rfl

theorem decided_rest_afterOnStart {k : Option K} (hr : r ∈ afterOnStart loop k) :
    decided r = none := by
  cases k with
  | none | some k =>
    obtain rfl := Option.some.inj hr
    rfl

theorem decided_rest_monitor (hr : r ∈ (Y.monitor i s loop).rest) : decided r = none := by
  unfold monitor at hr
  dsimp only at hr
  split at hr
  · cases hr; rfl
  · cases hr; rfl
  · split at hr
    · cases hr; rfl
    · exact decided_rest_afterOnStart hr
  · cases hr; rfl
  · cases hr
  · cases hr; rfl

/-- A task that goes on to a point where it has decided decides there and then. -/
theorem decided_rest_resume (ho : Y.resume i s t = some o) (hr : r ∈ o.rest)
    (hw : decided r = some w) : Y.sent i s t = none ∧ Y.decides i s t = some w := by
  have hnever (h : decided r = none) : Y.sent i s t = none ∧ Y.decides i s t = some w := by
    rw [h] at hw
    cases hw
  cases t with
  | start =>
    obtain rfl := Option.some.inj ho
    obtain rfl := Option.some.inj hr
    exact ⟨rfl, hw⟩
  | serve =>
    obtain ⟨-, ho⟩ := Option.ite_none_right_eq_some.mp ho
    obtain rfl := Option.some.inj ho
    obtain rfl := Option.some.inj hr
    cases hw
  | monitor loop =>
    obtain ⟨-, ho⟩ := Option.ite_none_right_eq_some.mp ho
    obtain rfl := Option.some.inj ho
    exact hnever (decided_rest_monitor hr)
  | wait loop =>
    rw [resume, awaitChange] at ho
    split at ho
    · obtain rfl := Option.some.inj ho
      obtain rfl := Option.some.inj hr
      cases hw
    · obtain ⟨-, ho⟩ := Option.ite_none_right_eq_some.mp ho
      obtain rfl := Option.some.inj ho
      obtain rfl := Option.some.inj hr
      cases hw
  | onStart k loop =>
    obtain ⟨oa, -, rfl⟩ := Option.map_eq_some_iff.mp ho
    exact hnever (decided_rest_afterOnStart hr)
  | handler k =>
    obtain ⟨oa, -, rfl⟩ := Option.map_eq_some_iff.mp ho
    obtain ⟨k', -, rfl⟩ := Option.map_eq_some_iff.mp hr
    cases hw
  -- the tests of the key store and the table
  | announcedKey loop | announcedStarted loop | announcedFinished loop =>
    obtain rfl := Option.some.inj ho
    obtain rfl := Option.some.inj hr
    split at hw
    · next htest => exact ⟨rfl, (if_pos htest).trans hw⟩
    · cases hw
  | startedStatuses | finishedStatuses | keyCheck =>
    obtain rfl := Option.some.inj ho
    obtain ⟨htest, hr⟩ := Option.ite_none_right_eq_some.mp hr
    obtain rfl := Option.some.inj hr
    exact ⟨rfl, (if_pos htest).trans hw⟩
  | startedCheck | finishedCheck =>
    obtain rfl := Option.some.inj ho
    obtain ⟨-, hr⟩ := Option.ite_none_right_eq_some.mp hr
    obtain rfl := Option.some.inj hr
    cases hw
  -- a status has been sent
  | grace loop | becomeRunning loop | becomeTerminated loop =>
    obtain rfl := Option.some.inj ho
    obtain rfl := Option.some.inj hr
    cases hw
  | delaying | keyGrace | sendRunning | sendTerminated =>
    obtain rfl := Option.some.inj ho
    cases hr

/-- A decision leaves a task behind that will carry it out. -/
theorem exists_rest_of_decides (h : Y.decides i s t = some v) (ho : Y.resume i s t = some o) :
    ∃ r ∈ o.rest, decided r = some v := by
  cases t with
  | start =>
    obtain rfl := Option.some.inj ho
    exact ⟨.delaying, rfl, h⟩
  | announcedKey loop =>
    obtain rfl := Option.some.inj ho
    obtain ⟨htest, hv⟩ := Option.ite_none_right_eq_some.mp h
    exact ⟨.grace loop, congrArg some (if_pos htest), hv⟩
  | announcedStarted loop =>
    obtain rfl := Option.some.inj ho
    obtain ⟨htest, hv⟩ := Option.ite_none_right_eq_some.mp h
    exact ⟨.becomeRunning loop, congrArg some (if_pos htest), hv⟩
  | announcedFinished loop =>
    obtain rfl := Option.some.inj ho
    obtain ⟨htest, hv⟩ := Option.ite_none_right_eq_some.mp h
    exact ⟨.becomeTerminated loop, congrArg some (if_pos htest), hv⟩
  | keyCheck =>
    obtain rfl := Option.some.inj ho
    obtain ⟨htest, hv⟩ := Option.ite_none_right_eq_some.mp h
    exact ⟨.keyGrace, if_pos htest, hv⟩
  | startedStatuses =>
    obtain rfl := Option.some.inj ho
    obtain ⟨htest, hv⟩ := Option.ite_none_right_eq_some.mp h
    exact ⟨.sendRunning, if_pos htest, hv⟩
  | finishedStatuses =>
    obtain rfl := Option.some.inj ho
    obtain ⟨htest, hv⟩ := Option.ite_none_right_eq_some.mp h
    exact ⟨.sendTerminated, if_pos htest, hv⟩
  | _ => cases h

/-- Nothing keeps a task from carrying out its decision. -/
theorem exists_resume_of_decided (h : decided t = some v) : ∃ o, Y.resume i s t = some o := by
  cases t with
  | delaying | grace _ | keyGrace | becomeRunning _ | sendRunning | becomeTerminated _
  | sendTerminated => exact ⟨_, rfl⟩
  | _ => cases h

/-! ## Runs of steps in order -/

/-- No task has decided on a status that the node is past. -/
def Open (s : NodeState A) (ts : List (Cont K)) : Prop :=
  ∀ t ∈ ts, ∀ w ∈ decided t, s.status.rank ≤ w.rank

theorem open_handle (h : Open s ts) (src : PeerId) (msg : Message M) :
    Open (Y.handle i s src msg).st ((Y.handle i s src msg).rest.toList ++ ts) := by
  intro t ht w hw
  rw [status_handle src msg]
  rcases List.mem_append.mp ht with ht | ht
  · rw [decided_rest_handle (Option.mem_toList.mp ht)] at hw
    cases hw
  · exact h t ht w hw

section Steps

variable [DecidableEq M] [DecidableEq K]

omit [DecidableEq M] in
/-- In a step in order the status moves forward. -/
theorem rank_le_of_inOrder (h : Open (c.st i) (c.tasks i)) (ht : t ∈ c.tasks i)
    (horder : Y.InOrder c (.wake i t)) (ho : Y.resume i (c.st i) t = some o) :
    (c.st i).status.rank ≤ o.st.status.rank := by
  rw [status_resume ho]
  cases hsent : Y.sent i (c.st i) t with
  | none => exact le_rfl
  | some v =>
    rcases decided_of_sent hsent with hdecided | rfl
    · exact h t ht v hdecided
    · have hopen := (horder.2 _ hsent).2 rfl
      cases hs : (c.st i).status <;> simp_all [NodeStatus.rank]

omit [DecidableEq M] in
/-- No step in order goes past an open decision. -/
theorem open_resume (h : Open (c.st i) (c.tasks i)) (horder : Y.InOrder c (.wake i t))
    (ho : Y.resume i (c.st i) t = some o) :
    Open o.st (o.rest.toList ++ (c.tasks i).erase t) := by
  intro r hr w hw
  rw [status_resume ho]
  rcases List.mem_append.mp hr with hr | hr
  · obtain ⟨hsent, hnew⟩ := decided_rest_resume ho (Option.mem_toList.mp hr) hw
    rw [hsent]
    exact horder.1 w hnew
  · cases hsent : Y.sent i (c.st i) t with
    | none => exact h r (List.mem_of_mem_erase hr) w hw
    | some v => exact (horder.2 v hsent).1 r hr w hw

/-- The decisions of every node are open. -/
def decisionsOpen (A M K : Type) : Assertion PeerId (Message M) (NodeState A) (Cont K) where
  node _ _ s ts := Open s ts
  msg _ _ := True

/-- A segment in order leaves the decisions of its node open, and moves its status forward. -/
theorem open_segment (h : Open (c.st i) (c.tasks i)) (horder : Y.InOrder c l)
    (hseg : Segment Y.protocol G c l i o base) :
    Open o.st (o.rest.toList ++ base.tasks i) ∧ (c.st i).status.rank ≤ o.st.status.rank := by
  cases hseg with
  | recv _ _ | forge _ _ =>
    exact ⟨open_handle h _ _, le_of_eq (congrArg NodeStatus.rank (status_handle _ _).symm)⟩
  | wake _ ht ho =>
    refine ⟨?_, rank_le_of_inOrder h ht horder ho⟩
    simpa [Config.unpark] using open_resume h horder ho

theorem open_inductive (Y : System A M K) (G : Parties PeerId) :
    (decisionsOpen A M K).Inductive Y.protocol G Y.initial fun _ => Y.InOrder where
  init :=
    { node := fun _ _ _ _ _ _ => Nat.zero_le _
      msg := fun _ _ => trivial
      received := fun _ _ => trivial }
  node_mono _ h := h
  msg_mono _ := trivial
  segment _ hholds horder hseg :=
    ⟨(open_segment (hholds.node _ hseg.correct) horder hseg).1, fun _ _ => trivial⟩

/-- A decision that the node is past is still carried out. -/
theorem exists_backwards (hi : i ∈ G.correct) (hr : r ∈ c.tasks i) (hw : decided r = some w)
    (hlt : w.rank < (c.st i).status.rank) :
    ∃ c', Async.step Y.protocol G c (.wake i r) = some c' ∧
      (c'.st i).status.rank < (c.st i).status.rank := by
  obtain ⟨o, ho⟩ := exists_resume_of_decided (Y := Y) (i := i) (s := c.st i) hw
  refine ⟨_, step_iff.mpr ⟨i, o, _, .wake hi hr ho, rfl⟩, ?_⟩
  rw [Config.commit_st_self, status_resume ho, sent_of_decided hw]
  exact hlt

/-- A step that is not in order moves the status backwards, or leaves a decision that does. -/
theorem backwards_of_not_inOrder (hl : Async.step Y.protocol G c l = some c')
    (h : ¬ Y.InOrder c l) : ∃ i ∈ G.correct, (c'.st i).status.rank < (c.st i).status.rank ∨
      ∃ l' c'', Async.step Y.protocol G c' l' = some c'' ∧
        (c''.st i).status.rank < (c'.st i).status.rank := by
  obtain ⟨i, o, base, hseg, rfl⟩ := step_iff.mp hl
  refine ⟨i, hseg.correct, ?_⟩
  rw [Config.commit_st_self]
  cases hseg with
  | recv _ _ | forge _ _ => exact absurd trivial h
  | @wake i t o hi ht ho =>
    have hstatus := status_resume ho
    have hlate {r : Cont K} {w : NodeStatus} (hr : r ∈ o.rest.toList ++ (c.tasks i).erase t)
        (hw : decided r = some w) (hlt : w.rank < o.st.status.rank) :
        ∃ l' c'', Async.step Y.protocol G ((c.unpark i t).commit i o) l' = some c'' ∧
          (c''.st i).status.rank < o.st.status.rank := by
      have hmem : r ∈ ((c.unpark i t).commit i o).tasks i := by
        rw [Config.commit_tasks_self]
        simpa [Config.unpark] using hr
      obtain ⟨c'', hstep, hback⟩ := exists_backwards (Y := Y) hi hmem hw
        (by rwa [Config.commit_st_self])
      rw [Config.commit_st_self] at hback
      exact ⟨_, c'', hstep, hback⟩
    rcases Classical.not_and_iff_not_or_not.mp h with hdecides | hsends
    · -- a decision on a status that is past
      push Not at hdecides
      obtain ⟨v, hv, hlt⟩ := hdecides
      obtain ⟨r, hr, hdecided⟩ := exists_rest_of_decides hv ho
      rw [(decided_rest_resume ho hr hdecided).1] at hstatus
      refine .inr (hlate (List.mem_append_left _ (Option.mem_toList.mpr hr)) hdecided ?_)
      rwa [hstatus]
    · push Not at hsends
      obtain ⟨v, hv, hsends⟩ := hsends
      rw [Option.mem_def.mp hv] at hstatus
      by_cases hpast : ∀ r ∈ (c.tasks i).erase t, ∀ w ∈ decided r, v.rank ≤ w.rank
      · obtain ⟨rfl, hterminated⟩ := hsends hpast
        refine .inl ?_
        rw [hstatus, hterminated]
        decide
      · -- a status that goes past an open decision
        push Not at hpast
        obtain ⟨r, hr, w, hw, hlt⟩ := hpast
        refine .inr (hlate (List.mem_append_right _ hr) hw ?_)
        rwa [hstatus]

/-- **The status of a Rust node moves forward** in a run of steps in order. And the condition is
not too strong: after a step that is not in order some continuation moves a status backwards. -/
theorem movesForward_of_inOrder (hc : exec (Async.step Y.protocol G) Y.initial ls = some c) :
    (Meets (Async.step Y.protocol G) Y.initial (fun _ => Y.InOrder) ls →
      ∀ i ∈ G.correct, Y.MovesForward G ls i) ∧
    ∀ l c', Async.step Y.protocol G c l = some c' → ¬ Y.InOrder c l →
      ∃ ls' c'', exec (Async.step Y.protocol G) Y.initial (ls ++ l :: ls') = some c'' ∧
        ∃ i ∈ G.correct, ¬ Y.MovesForward G (ls ++ l :: ls') i := by
  constructor
  · intro hmeets i hi
    refine nonDecreasing_iff.mpr ?_
    rintro ls₁ l ls₂ c₁ rfl hc₁ c₂ hl
    obtain ⟨j, o, base, hseg, rfl⟩ := step_iff.mp hl
    by_cases hij : i = j
    · subst hij
      have hholds := Assertion.holds_of_meets (open_inductive Y G) ls₁ c₁ hc₁ hmeets.prefix
      rw [Config.commit_st_self]
      exact (open_segment (hholds.node i hi) (hmeets ls₁ l ls₂ c₁ rfl hc₁) hseg).2
    · rw [Config.commit_st_of_ne hij, hseg.base_st]
  · intro l c' hl hnot
    have hc' := exec_snoc hc hl
    obtain ⟨i, hi, hback | ⟨l', c'', hl', hback⟩⟩ := backwards_of_not_inOrder hl hnot
    · exact ⟨[], c', hc', i, hi, fun hforward => not_le.mpr hback (hforward.last hc hl)⟩
    · have hsplit : ls ++ l :: [l'] = (ls ++ [l]) ++ [l'] := by simp
      refine ⟨[l'], c'', ?_, i, hi, fun hforward => ?_⟩
      · rw [hsplit]
        exact exec_snoc hc' hl'
      · rw [MovesForward, hsplit] at hforward
        exact not_le.mpr hback (hforward.last hc' hl')

end Steps

/-! ## Two nodes that exchange their keys -/

/-- A run of steps in order in which `b` comes to Running. -/
theorem movesForward_of_inOrder_pair :
    (∃ c, exec (Async.step pair.protocol pair.parties) pair.initial
        (pairKeys ++ pairStart) = some c ∧ (c.st "b").status = .running) ∧
    ∀ i ∈ pair.parties.correct, pair.MovesForward pair.parties (pairKeys ++ pairStart) i := by
  obtain ⟨c, hc, hst⟩ := exists_exec_of_any (Async.step pair.protocol pair.parties) pair.initial
    (pairKeys ++ pairStart) (fun c => (c.st "b").status = .running) (by decide)
  exact ⟨⟨c, hc, of_decide_eq_true hst⟩,
    (movesForward_of_inOrder hc).1 (meets_of_meetsFrom (by decide))⟩

/-- The monitor of `b` and its handler of the key of `a` both find the key store full and
sleep. The monitor wakes up, leads `b` to Starting and, as its table is empty, to Running. -/
def twiceStarted : Trace PeerId (Message Unit) (Cont Empty) :=
  [.wake "a" .start, .wake "a" .delaying, .wake "a" (.monitor {}),
   .wake "b" .start, .wake "b" .delaying, .wake "b" (.monitor {}),
   .recv ⟨"a", "b", .announcePubKey [1]⟩, .wake "b" .keyCheck,
   .wake "b" (.announcedKey ⟨1, false, false⟩), .wake "b" (.grace ⟨1, false, false⟩),
   .wake "b" (.wait ⟨1, false, false⟩), .wake "b" (.monitor ⟨1, false, false⟩),
   .wake "b" (.announcedStarted ⟨2, false, false⟩), .wake "b" (.becomeRunning ⟨2, false, false⟩)]

/-- The handler then sends Starting to a node that is Running. -/
theorem not_nonDecreasing_twiceStarted :
    ¬ ∀ (Y : System Unit Unit Empty) (G : Parties PeerId) ls c,
      exec (Async.step Y.protocol G) Y.initial ls = some c →
        ∀ i ∈ G.correct, Y.MovesForward G ls i := by
  intro h
  obtain ⟨c, hc, hback⟩ := exists_exec_of_any (Async.step pair.protocol pair.parties) pair.initial
    twiceStarted (fun c => (c.st "b").status = .running ∧
      (Async.step pair.protocol pair.parties c (.wake "b" .keyGrace)).any
        fun c' => (c'.st "b").status = .starting) (by decide)
  obtain ⟨hbefore, hafter⟩ := of_decide_eq_true hback
  rw [Option.any_eq_true] at hafter
  obtain ⟨c', hl, hstarting⟩ := hafter
  have hforward := (h pair pair.parties (twiceStarted ++ [.wake "b" .keyGrace]) c'
    (exec_snoc hc hl) "b" (by decide)).last hc hl
  rw [hbefore, of_decide_eq_true hstarting] at hforward
  exact absurd hforward (by decide)

end DistBench.RustLifecycle.System
