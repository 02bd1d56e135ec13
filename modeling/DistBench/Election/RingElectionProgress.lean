import DistBench.Election.RingElection

/-!
# The election over datagrams ends

A run is `settled` when every packet has been delivered to a node that has not stopped.
If nodes have handled the messages of the election only when they knew both of their
neighbours (`informed`) and somebody has started, then the maximum has been elected: an
election message is handed on as the larger of its id and the node's (`handed_on`), so it
becomes the maximum's and comes back to it.

The termination message then stops all other nodes. It need not come back: on a ring on
which messages have gone both ways there may be two of them, and they do not pass one
another. Where all election messages have gone the same way, the leader stops too.
-/

namespace DistBench.RingElection

open DistBench.Datagrams DistBench.Circulation

variable {R D : Ring} {i j x top v : Int} {st : NodeState} {s : Global} {ls : History}

/-- A message of the election reaches a node that knows both of its neighbours. -/
def Informed (R : Ring) (_ : History) (s : Global) : Label Int Message Action → Prop
  | .deliver p =>
    match p.msg with
    | .connection _ _ => True
    | _ => R.next p.dst ∈ (s.st p.dst).nodes ∧ R.prev p.dst ∈ (s.st p.dst).nodes
  | .act _ _ => True

/-- Every packet has been delivered, or its receiver has stopped. -/
def Settled (R : Ring) (ls : History) (s : Global) : Prop :=
  ∀ p ∈ s.sent, p.dst ∈ R.nodes → .deliver p ∈ ls ∨ (s.st p.dst).stopped = true

theorem exists_otherPeer (hi : i ∈ R.nodes) (hnext : R.next i ∈ st.nodes)
    (hprev : R.prev i ∈ st.nodes) : otherPeer st x ≠ none := by
  intro h
  rw [otherPeer, List.find?_eq_none] at h
  have hn : R.next i = x := by simpa using h _ hnext
  have hp : R.prev i = x := by simpa using h _ hprev
  exact R.next_ne_prev i hi (hn.trans hp.symm)

theorem fixed_elected : Fixed (program R) i fun st => st.elected = true where
  handle _ _ _ h := grown_handle.elected h
  act _ _ _ hr h := (grown_act hr).elected h

theorem fixed_stopped : Fixed (program R) i fun st => st.stopped = true where
  handle _ _ _ h := grown_handle.stopped h
  act _ _ _ hr h := (grown_act hr).stopped h

/-- A delivered election message elects its owner and is handed on by everybody else. -/
theorem handed_on (hs : exec (next R) initial ls = some s)
    (hinf : Meets (next R) initial (Informed R) ls) (hD : Way R D) (hi : i ∈ R.nodes)
    (hdel : .deliver ⟨i, D.next i, .election v⟩ ∈ ls) :
    (v = D.next i → (s.st (D.next i)).elected = true) ∧
      (v ≠ D.next i →
        ⟨D.next i, D.next (D.next i), .election (max v (D.next i))⟩ ∈ s.sent) := by
  obtain ⟨ls₁, ls₂, s₁, rfl, hs₁, hsent, hdst, hrest⟩ := handled_of_delivered hs hdel
  obtain ⟨hnext, hprev⟩ := hinf ls₁ _ ls₂ s₁ rfl hs₁
  have hmove : OnMessage D (D.next i) (s₁.st (D.next i)) i v
      (onMessage (D.next i) (s₁.st (D.next i)) i v) :=
    onMessage_onMessage hD ((circulating_of_run hs₁).known _ hdst) (hD.prev_next hi).symm
  have hstate : exec (next R) (s₁.commit (D.next i)
      (onMessage (D.next i) (s₁.st (D.next i)) i v)) ls₂ = some s := hrest
  generalize onMessage (D.next i) (s₁.st (D.next i)) i v = r at hmove hstate
  cases hmove with
  | lost h => exact absurd h (exists_otherPeer hdst hnext hprev)
  | elected hv =>
    refine ⟨fun _ => fixed_elected.of_run ?_ ls₂ s hstate, fun hne => absurd hv hne⟩
    rw [State.commit_st_self]
  | on hne =>
    refine ⟨fun hv => absurd hv hne, fun _ => sent_mono ?_ ls₂ s hstate⟩
    exact State.mem_commit_sent.mpr (.inr ⟨rfl, List.mem_cons_self⟩)

/-- Nobody else is elected. -/
theorem eq_top_of_elected (h : Circulating R s) (htop : IsGreatest (R.nodes : Set Int) top)
    (hi : i ∈ R.nodes) (helected : (s.st i).elected = true) : i = top :=
  le_antisymm (htop.2 hi) ((h.elected i hi helected).1 top htop.1).1

/-- As long as nobody has been elected nobody has stopped, and election messages go on. -/
theorem moves_on (hs : exec (next R) initial ls = some s)
    (hinf : Meets (next R) initial (Informed R) ls) (hsettled : Settled R ls s)
    (hnobody : ∀ i ∈ R.nodes, (s.st i).elected ≠ true) (hD : Way R D) (hi : i ∈ R.nodes)
    (hp : ⟨i, D.next i, .election v⟩ ∈ s.sent) :
    v ≠ D.next i ∧ ⟨D.next i, D.next (D.next i), .election (max v (D.next i))⟩ ∈ s.sent := by
  have hdst := hD.next_mem hi
  have hdel : .deliver ⟨i, D.next i, .election v⟩ ∈ ls := by
    refine (hsettled _ hp hdst).resolve_right fun hstop => ?_
    obtain ⟨⟨leader, hleader, helected⟩, -⟩ := (circulating_of_run hs).stopped _ hdst hstop
    exact hnobody leader hleader helected
  obtain ⟨helected, hon⟩ := handed_on hs hinf hD hi hdel
  have hne : v ≠ D.next i := fun hv => hnobody _ hdst (helected hv)
  exact ⟨hne, hon hne⟩

/-- In a settled run in which somebody has started the maximum has been elected. -/
theorem elected_top (hs : exec (next R) initial ls = some s)
    (hinf : Meets (next R) initial (Informed R) ls) (hsettled : Settled R ls s)
    (hstart : ∃ p ∈ s.sent, ∃ v, p.msg = .election v)
    (htop : IsGreatest (R.nodes : Set Int) top) : (s.st top).elected = true := by
  have h := circulating_of_run hs
  by_contra hnot
  have hnobody : ∀ i ∈ R.nodes, (s.st i).elected ≠ true := by
    intro i hi helected
    exact hnot (eq_top_of_elected h htop hi helected ▸ helected)
  obtain ⟨p, hp, v, hm⟩ := hstart
  obtain ⟨hv, hi, D, hD, hdst, -⟩ := h.election p hp v hm
  have hon {i v : Int} (hi : i ∈ R.nodes) (hp : ⟨i, D.next i, .election v⟩ ∈ s.sent) :=
    moves_on hs hinf hsettled hnobody hD hi hp
  -- the message comes to the maximum
  have hcomes : ∀ k, ∃ v ∈ R.nodes,
      ⟨D.next^[k] p.src, D.next (D.next^[k] p.src), .election v⟩ ∈ s.sent := by
    intro k
    induction k with
    | zero =>
      refine ⟨v, hv, ?_⟩
      rw [Function.iterate_zero_apply, ← hdst, ← hm]
      exact hp
    | succ k ih =>
      obtain ⟨v, hv, hsent⟩ := ih
      have hmem := hD.iterate_next_mem hi k
      rw [Function.iterate_succ_apply']
      exact ⟨_, max_rec' (· ∈ R.nodes) hv (hD.next_mem hmem), (hon hmem hsent).2⟩
  obtain ⟨k, hk⟩ := hD.connected (hD.next_mem hi) htop.1
  rw [← Function.iterate_succ_apply, Function.iterate_succ_apply'] at hk
  obtain ⟨v, hv, hsent⟩ := hcomes k
  have hleaves := (hon (hD.iterate_next_mem hi k) hsent).2
  rw [hk, max_eq_right (htop.2 hv)] at hleaves
  -- and goes around as the maximum's
  have haround : ∀ k, ⟨D.next^[k] top, D.next (D.next^[k] top), .election top⟩ ∈ s.sent := by
    intro k
    induction k with
    | zero => exact hleaves
    | succ k ih =>
      have hmem := hD.iterate_next_mem htop.1 k
      have hnext := (hon hmem ih).2
      rw [max_eq_left (htop.2 (hD.next_mem hmem))] at hnext
      rw [Function.iterate_succ_apply']
      exact hnext
  obtain ⟨k, hk⟩ := hD.connected (hD.next_mem htop.1) htop.1
  rw [← Function.iterate_succ_apply, Function.iterate_succ_apply'] at hk
  exact (hon (hD.iterate_next_mem htop.1 k) (haround k)).1 hk.symm

/-! ## Stopping -/

/-- A termination message stops the node it is for. -/
theorem stopped_of_sent (hs : exec (next R) initial ls = some s)
    (hinf : Meets (next R) initial (Informed R) ls) (hsettled : Settled R ls s) (hD : Way R D)
    (hi : i ∈ R.nodes) {b : Bool} (hp : ⟨i, D.next i, .termination b⟩ ∈ s.sent) :
    (s.st (D.next i)).stopped = true := by
  rcases hsettled _ hp (hD.next_mem hi) with hdel | hstop
  swap
  · exact hstop
  obtain ⟨ls₁, ls₂, s₁, rfl, hs₁, hsent, hdst, hrest⟩ := handled_of_delivered hs hdel
  have h₁ := circulating_of_run hs₁
  -- somebody had been elected by then, so the node had been woken
  have hawake : (s₁.st (D.next i)).Awake := by
    obtain ⟨hsrc, hwho, -⟩ := h₁.termination _ hsent b rfl
    rcases hwho with helected | hstop
    · exact ((h₁.elected _ hsrc helected).1 _ hdst).2
    · obtain ⟨⟨leader, hleader, helected⟩, -⟩ := h₁.stopped _ hsrc hstop
      exact ((h₁.elected _ hleader helected).1 _ hdst).2
  obtain ⟨hnext, hprev⟩ := hinf ls₁ _ ls₂ s₁ rfl hs₁
  have hmove : OnTerminate D (D.next i) (s₁.st (D.next i)) i
      (onTerminate (s₁.st (D.next i)) i) :=
    onTerminate_onTerminate hD (h₁.known _ hdst) (hD.prev_next hi).symm
  have hstate : exec (next R) (s₁.commit (D.next i)
      (onTerminate (s₁.st (D.next i)) i)) ls₂ = some s := hrest
  generalize onTerminate (s₁.st (D.next i)) i = r at hmove hstate
  refine fixed_stopped.of_run ?_ ls₂ s hstate
  rw [State.commit_st_self]
  cases hmove with
  | idle h =>
    exact hawake.resolve_left fun hrun => exists_otherPeer hdst hnext hprev (h hrun)
  | stop _ => rfl

/-- The other way round what comes before is what comes after. -/
theorem Way.eq_or_prev_eq {D' : Ring} (hD : Way R D) (hD' : Way R D') :
    D' = D ∨ D'.prev = D.next := by
  rcases hD with rfl | rfl
  · rcases hD' with rfl | rfl
    · exact .inl rfl
    · exact .inr rfl
  · rcases hD' with rfl | rfl
    · exact .inr rfl
    · exact .inl rfl

/-- On the way from the maximum everybody else is stopped. -/
theorem stopped_of_ne_top (hs : exec (next R) initial ls = some s)
    (hinf : Meets (next R) initial (Informed R) ls) (hsettled : Settled R ls s)
    (htop : IsGreatest (R.nodes : Set Int) top) (helected : (s.st top).elected = true)
    (hj : j ∈ R.nodes) (hne : j ≠ top) : (s.st j).stopped = true := by
  have h := circulating_of_run hs
  obtain ⟨-, D, hD, hto⟩ := h.elected top htop.1 helected
  have hwalk : ∀ k, D.next^[k] top = top ∨ (s.st (D.next^[k] top)).stopped = true := by
    intro k
    induction k with
    | zero => exact .inl rfl
    | succ k ih =>
      have hmem := hD.iterate_next_mem htop.1 k
      rw [Function.iterate_succ_apply']
      rcases ih with hk | hstop
      · rw [hk]
        exact .inr (stopped_of_sent hs hinf hsettled hD htop.1 hto)
      · obtain ⟨-, D', hD', ⟨b, hfrom⟩, hto'⟩ := h.stopped _ hmem hstop
        rcases hD.eq_or_prev_eq hD' with rfl | hturn
        · exact .inr (stopped_of_sent hs hinf hsettled hD hmem hto')
        · -- it was stopped from the other side, by a node that is elected or stopped
          obtain ⟨hsrc, hwho, -⟩ := h.termination _ hfrom b rfl
          simp only [hturn] at hsrc hwho
          exact hwho.imp_left (eq_top_of_elected h htop hsrc)
  obtain ⟨k, rfl⟩ := hD.connected htop.1 hj
  exact (hwalk k).resolve_left hne

/-- All election messages have gone the same way round. -/
def OneWay (D : Ring) (s : Global) : Prop :=
  ∀ p ∈ s.sent, ∀ v, p.msg = .election v → p.dst = D.next p.src

/-- Then so have the termination messages. -/
theorem oneWay_termination (hD : Way R D) (hs : exec (next R) initial ls = some s)
    (hway : OneWay D s) : ∀ p ∈ s.sent, ∀ b, p.msg = .termination b → p.dst = D.next p.src := by
  revert hway
  refine run_induction (P := fun (_ : History) (s : Global) => OneWay D s →
    ∀ p ∈ s.sent, ∀ b, p.msg = .termination b → p.dst = D.next p.src) ?_ ?_ ls s hs
  · intro _ p hp
    cases hp
  intro ls s l s' hs ih hl hway p hp b hm
  obtain ⟨i, r, hturn, rfl⟩ := step_iff.mp hl
  have hbefore : OneWay D s := fun p hp => hway p (State.mem_commit_sent.mpr (.inl hp))
  rcases State.mem_commit_sent.mp hp with hold | ⟨hsrc, hnew⟩
  · exact ih hbefore p hold b hm
  have h := circulating_of_run hs
  rw [hm] at hnew
  rw [hsrc]
  cases hturn with
  | @deliver q hq hdst =>
    have hknown := h.known q.dst hdst
    change _ ∈ (handle q.dst (s.st q.dst) q.src q.msg).2 at hnew
    cases hqm : q.msg with
    | connection nodeId state =>
      rw [hqm] at hnew
      cases hnew
    | election v =>
      have hpeer : q.src = D.prev q.dst := by
        rw [hbefore q hq v hqm, hD.prev_next (h.election q hq v hqm).2.1]
      have hmove := onMessage_onMessage (v := v) hD hknown hpeer
      rw [hqm, handle] at hnew
      generalize onMessage q.dst (s.st q.dst) q.src v = r at hmove hnew
      cases hmove with
      | lost _ => cases hnew
      | elected _ => exact congrArg Prod.fst (List.mem_singleton.mp hnew)
      | on _ => exact congrArg Prod.fst (List.mem_singleton.mp hnew)
    | termination b' =>
      have hpeer : q.src = D.prev q.dst := by
        rw [ih hbefore q hq b' hqm, hD.prev_next (h.termination q hq b' hqm).1]
      have hmove := onTerminate_onTerminate hD hknown hpeer
      rw [hqm, handle] at hnew
      generalize onTerminate (s.st q.dst) q.src = r at hmove hnew
      cases hmove with
      | idle _ => cases hnew
      | stop _ => exact congrArg Prod.fst (List.mem_singleton.mp hnew)
  | @act i a r hi hr =>
    cases a with
    | ensureNodesConnected =>
      simp only [program, ensureNodesConnected] at hr
      split at hr
      · obtain rfl := Option.some.inj hr
        simp at hnew
      · cases hr
    | onStart =>
      simp only [program, onStart] at hr
      split at hr
      · obtain rfl := Option.some.inj hr
        dsimp only at hnew
        split_ifs at hnew
        · cases hnew
        · simp at hnew
      · cases hr

/-- In a settled run in which nodes know their neighbours and somebody has started, the
maximum is elected and everybody else stops; where all election messages have gone the
same way round, everybody does. -/
theorem elected_and_stopped (hs : exec (next R) initial ls = some s)
    (hinf : Meets (next R) initial (Informed R) ls) (hsettled : Settled R ls s)
    (hstart : ∃ p ∈ s.sent, ∃ v, p.msg = .election v)
    (htop : IsGreatest (R.nodes : Set Int) top) :
    (s.st top).elected = true ∧ (∀ j ∈ R.nodes, j ≠ top → (s.st j).stopped = true) ∧
      ((∃ D, Way R D ∧ OneWay D s) → ∀ j ∈ R.nodes, (s.st j).stopped = true) := by
  have helected := elected_top hs hinf hsettled hstart htop
  have hothers : ∀ j ∈ R.nodes, j ≠ top → (s.st j).stopped = true :=
    fun j hj => stopped_of_ne_top hs hinf hsettled htop helected hj
  refine ⟨helected, hothers, ?_⟩
  rintro ⟨D, hD, hway⟩ j hj
  by_cases hne : j = top
  swap
  · exact hothers j hj hne
  subst hne
  -- the node before it has been stopped, and has sent the message on
  obtain ⟨k, hk⟩ := hD.connected (hD.next_mem hj) hj
  rw [← Function.iterate_succ_apply, Function.iterate_succ_apply'] at hk
  have hmem := hD.iterate_next_mem hj k
  have hbefore : D.next^[k] j ≠ j := by
    intro heq
    rw [heq] at hk
    exact hD.next_ne hj hk
  obtain ⟨-, D', hD', -, hto⟩ := (circulating_of_run hs).stopped _ hmem (hothers _ hmem hbefore)
  have hdir : D'.next (D.next^[k] j) = D.next (D.next^[k] j) :=
    oneWay_termination hD hs hway _ hto true rfl
  rw [hdir] at hto
  have hstop := stopped_of_sent hs hinf hsettled hD hmem hto
  rwa [hk] at hstop

instance (R : Ring) (ls : History) (s : Global) (l : Label Int Message Action) :
    Decidable (Informed R ls s l) :=
  match l with
  | .deliver ⟨_, _, .connection _ _⟩ => inferInstanceAs (Decidable True)
  | .deliver ⟨_, dst, .election _⟩ | .deliver ⟨_, dst, .termination _⟩ =>
    inferInstanceAs (Decidable (R.next dst ∈ (s.st dst).nodes ∧ R.prev dst ∈ (s.st dst).nodes))
  | .act _ _ => inferInstanceAs (Decidable True)

instance (R : Ring) (ls : History) (s : Global) : Decidable (Settled R ls s) :=
  inferInstanceAs (Decidable (∀ p ∈ s.sent, _ → _ ∨ _))

theorem elected_and_stopped_trio :
    ∃ s, exec (next trio) initial trioRun = some s ∧ (s.st 2).elected = true ∧
      ∀ j ∈ trio.nodes, (s.st j).stopped = true := by
  obtain ⟨s, hs, hend⟩ : ∃ s, exec (next trio) initial trioRun = some s ∧
      decide (Settled trio trioRun s ∧ ⟨0, 1, .election 0⟩ ∈ s.sent ∧
        ∀ p ∈ s.sent, p.dst = trio.next p.src ∨ p.msg = .connection p.src "init") = true :=
    exists_exec_of_any _ _ _ _ (by decide)
  obtain ⟨hsettled, hstart, hdirs⟩ := of_decide_eq_true hend
  have hway : OneWay trio s := by
    intro p hp v hm
    refine (hdirs p hp).resolve_right fun hconn => ?_
    rw [hm] at hconn
    cases hconn
  have htop : IsGreatest (trio.nodes : Set Int) 2 := by
    refine ⟨by decide, fun j hj => ?_⟩
    have hlt := (Ring.mem_ids.mp hj).2
    omega
  have hmeets : Meets (next trio) initial (Informed trio) trioRun :=
    meets_of_meetsFrom (by decide)
  obtain ⟨helected, -, hall⟩ :=
    elected_and_stopped hs hmeets hsettled ⟨_, hstart, 0, rfl⟩ htop
  exact ⟨s, hs, helected, hall ⟨trio, .inl rfl, hway⟩⟩

end DistBench.RingElection
