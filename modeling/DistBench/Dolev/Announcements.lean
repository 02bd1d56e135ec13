import DistBench.Dolev.Deliveries

/-!
# What a node announces

With an empty message (MD2) a node tells its neighbours that it has delivered an id, and
they leave it out from then on. `my_deliver` gets to the announcement from the branch of a
failed test as well, so a node may announce what it has not delivered.

- `Honest`, `TaskHonest`: the marks of a node and the announcements it is about to make are
  about ids it has delivered.
- `AnnouncesDelivered`: the property of a step, `TestPasses` the condition.
- `announcesDelivered_iff`: in a run all steps have the property exactly if all of them
  meet the condition.
-/

namespace DistBench.Dolev

open DistBench.Async

variable {V : Type} {N : Network V} {i src : PeerId} {s₀ s s' : DolevState} {msg : DMsg V}
  {flow : Flow V} {t : Cont V} {rest : List PeerId} {newPath : List PeerId}

/-! ## Honest nodes -/

/-- The ids that node `i` has marked are delivered. -/
structure Honest (i : PeerId) (s : DolevState) : Prop where
  forwardedEmpty : ∀ m ∈ s.forwardedEmpty, m ∈ s.delivered
  noted : ∀ m, i ∈ s.neighbourDelivered.get m ∅ → m ∈ s.delivered

/-- The coroutine is in an announcement, or comes to one, of an id that is delivered. -/
def TaskHonest (s : DolevState) : Cont V → Prop
  | .broadcast _ | .sendTo _ _ _ | .broadcasting _ _ => True
  | .directDelivered msg | .delivered msg | .emptyTo _ _ _ msg | .empties _ _ msg =>
    msg.msgId ∈ s.delivered
  | .forwardTo _ _ _ newPath _ | .forward _ _ newPath _ => newPath ≠ []

/-- An announcement of another source's message is about one of `s`'s deliveries. -/
def SentHonest (i : PeerId) (s : DolevState) (out : List (PeerId × DMsg V)) : Prop :=
  ∀ dm ∈ out, dm.2.path = [] → dm.2.source ≠ i → dm.2.msgId ∈ s.delivered

/-- A segment that began in `s₀` leaves an honest node. -/
structure OutcomeHonest (i : PeerId) (s₀ : DolevState) (o : Seg V) : Prop where
  st : Honest i o.st
  rest : ∀ t ∈ o.rest, TaskHonest o.st t
  sent : SentHonest i s₀ o.out

/-- The same for a flow. -/
def Flow.Honest (i : PeerId) (s₀ : DolevState) : Flow V → Prop
  | .stop o => OutcomeHonest i s₀ o
  | .deliver s _ => Dolev.Honest i s

theorem Honest.kept {marked : String → Prop} (h : Honest i s) (hkept : Kept i marked s s')
    (hmarked : ∀ m, marked m → m ∈ s.delivered) : Honest i s' where
  forwardedEmpty m hm := by
    rw [hkept.delivered]
    exact (hkept.forwardedEmpty m hm).elim (h.forwardedEmpty m) (hmarked m)
  noted m hm := by
    rw [hkept.delivered]
    exact (hkept.noted m i hm).elim (h.noted m) fun h => hmarked m h.2

theorem Honest.deliver (h : Honest i s) (m : String) : Honest i (s.deliver m) where
  forwardedEmpty k hk := Finset.mem_insert_of_mem (h.forwardedEmpty k hk)
  noted k hk := Finset.mem_insert_of_mem (h.noted k hk)

/-- The mark of another node. -/
theorem Honest.addNeighbourDelivered (h : Honest i s) (hsrc : src ≠ i) (m : String) :
    Honest i (s.addNeighbourDelivered m src) where
  forwardedEmpty := h.forwardedEmpty
  noted k hk := by
    by_cases hkm : k = m
    · subst hkm
      rw [DolevState.addNeighbourDelivered, Dict.get_insert_self, Finset.mem_insert] at hk
      exact h.noted k (hk.resolve_left (Ne.symm hsrc))
    · rw [DolevState.addNeighbourDelivered, Dict.get_insert_of_ne hkm] at hk
      exact h.noted k hk

theorem TaskHonest.mono (h : TaskHonest s t) (hsub : s.delivered ⊆ s'.delivered) :
    TaskHonest s' t := by
  cases t with
  | broadcast _ | sendTo _ _ _ | broadcasting _ _ => trivial
  | directDelivered _ | delivered _ | emptyTo _ _ _ _ | empties _ _ _ => exact hsub h
  | forwardTo _ _ _ _ _ | forward _ _ _ _ => exact h

theorem OutcomeHonest.quiet {rest : Option (Cont V)} (h : Honest i s)
    (hrest : ∀ t ∈ rest, TaskHonest s t) : OutcomeHonest i s₀ { st := s, rest := rest } :=
  ⟨h, hrest, nofun⟩

theorem Cont.Announcing.honest {direct : Bool} {near : PeerId → Prop}
    (h : t.Announcing direct msg near) (hdel : msg.msgId ∈ s.delivered) : TaskHonest s t := by
  cases h <;> exact hdel

theorem Cont.Final.honest {near : PeerId → Prop} (h : t.Final msg near)
    (hdel : msg.msgId ∈ s.delivered) : TaskHonest s t := by
  cases h <;> exact hdel

theorem Cont.Sending.honest {b : Broadcast V} {near : PeerId → Prop} (h : t.Sending b near) :
    TaskHonest s t := by
  cases h <;> trivial

/-- The final `my_deliver`, where the test passes. -/
theorem Flow.Honest.settle (h : flow.Honest i s₀)
    (hpass : ∀ s msg, flow = .deliver s msg → msg.msgId ∉ s.delivered →
      N.distPaths i (s.paths.get msg.msgId []) msg.source = true) :
    OutcomeHonest i s₀ (N.settle i flow) := by
  cases flow with
  | stop o => exact h
  | deliver s msg =>
    rw [Network.settle]
    generalize ho : N.myDeliver i s msg = o
    have hends : Ends N i s msg o := ho ▸ ends_myDeliver
    have hhonest : Dolev.Honest i s := h
    cases hends with
    | before hdel hkept hrest =>
      refine .quiet (hhonest.kept hkept fun m hm => hm ▸ hdel) fun t ht => ?_
      exact (hrest t ht).honest (hkept.delivered ▸ hdel)
    | fails hdel htest _ _ => exact absurd (hpass s msg rfl hdel) htest
    | passes _ _ hkept hrest =>
      have hdel : msg.msgId ∈ (s.deliver msg.msgId).delivered := Finset.mem_insert_self _ _
      refine .quiet ((hhonest.deliver _).kept hkept fun m hm => hm ▸ hdel) fun t ht => ?_
      exact (hrest t ht).honest (hkept.delivered ▸ hdel)

theorem Forwards.honest (h : Forwards N i s rest msg newPath flow) (hs : Honest i s)
    (hpath : newPath ≠ []) : flow.Honest i s₀ := by
  cases h with
  | wait _ _ _ =>
    refine OutcomeHonest.quiet hs fun t ht => ?_
    obtain rfl := Option.some.inj ht
    exact hpath
  | through _ => exact hs

theorem Relays.honest (h : Relays N i s src msg flow) (hs : Honest i s) : flow.Honest i s₀ := by
  cases h with
  | drop _ => exact OutcomeHonest.quiet hs nofun
  | record _ hkept hfwd => exact hfwd.honest (hs.kept hkept fun _ h => h.elim) (by simp)

theorem AfterDirect.honest (h : AfterDirect N i s msg flow) (hs : Honest i s)
    (hdel : msg.msgId ∈ s.delivered) : flow.Honest i s₀ := by
  cases h with
  | wait hkept ht =>
    refine OutcomeHonest.quiet (hs.kept hkept fun m hm => hm ▸ hdel) fun t' ht' => ?_
    obtain rfl := Option.some.inj ht'
    exact ht.honest (hkept.delivered ▸ hdel)
  | relay hkept hrelay => exact hrelay.honest (hs.kept hkept fun m hm => hm ▸ hdel)

theorem Handles.honest (h : Handles N i s src msg flow) (hs : Honest i s) (hsrc : src ≠ i) :
    flow.Honest i s₀ := by
  cases h with
  | stranger _ | md5 _ _ _ => exact OutcomeHonest.quiet hs nofun
  | note _ _ => exact OutcomeHonest.quiet (hs.addNeighbourDelivered hsrc _) nofun
  | parent _ _ =>
    refine OutcomeHonest.quiet (hs.deliver _) fun t ht => ?_
    obtain rfl := Option.some.inj ht
    exact Finset.mem_insert_self _ _
  | direct _ _ hafter => exact hafter.honest (hs.deliver _) (Finset.mem_insert_self _ _)
  | relay _ _ _ hrelay => exact hrelay.honest hs

theorem Resumes.honest (h : Resumes N i s t flow) (hs : Honest i s) (ht : TaskHonest s t) :
    flow.Honest i s := by
  -- a broadcast is the node's own message
  have hown {b : Broadcast V} {out : List (PeerId × DMsg V)}
      (hout : ∀ dm ∈ out, dm.1 ∈ N.neighbours i ∧ dm.2 = b.dmsg i) : SentHonest i s out := by
    intro dm hdm _ hsource
    rw [(hout dm hdm).2] at hsource
    exact absurd rfl hsource
  cases h with
  | @broadcast b _ _ _ hst hout hrest =>
    refine ⟨?_, fun t' ht' => (hrest t' ht').honest, hown hout⟩
    rcases hst with rfl | rfl
    · exact hs
    · exact hs.deliver _
  | broadcasting hout hrest => exact ⟨hs, fun t' ht' => (hrest t' ht').honest, hown hout⟩
  | sendTo =>
    refine ⟨hs, fun t' ht' => ?_, fun dm hdm _ hsource => ?_⟩
    · obtain rfl := Option.some.inj ht'
      trivial
    · obtain rfl := List.mem_singleton.mp hdm
      exact absurd rfl hsource
  | direct hdirect hafter =>
    refine hafter.honest hs ?_
    cases hdirect <;> exact ht
  | @final t msg s' rest hfinal hkept hrest =>
    have hdel : msg.msgId ∈ s.delivered := by cases hfinal <;> exact ht
    refine OutcomeHonest.quiet (hs.kept hkept fun m hm => hm ▸ hdel) fun t' ht' => ?_
    exact (hrest t' ht').honest (hkept.delivered ▸ hdel)
  | emptyTo =>
    refine ⟨hs, fun t' ht' => ?_, fun dm hdm _ _ => ?_⟩
    · obtain rfl := Option.some.inj ht'
      exact ht
    · obtain rfl := List.mem_singleton.mp hdm
      exact ht
  | forwardTo =>
    refine ⟨hs, fun t' ht' => ?_, fun dm hdm hpath _ => ?_⟩
    · obtain rfl := Option.some.inj ht'
      exact ht
    · obtain rfl := List.mem_singleton.mp hdm
      exact absurd hpath ht
  | forward hfwd => exact hfwd.honest hs ht

/-! ## Runs -/

namespace Network

variable (N : Network V)

/-- The flow of the segment a call runs. -/
def callFlow (i : PeerId) (s : DolevState) : Call V → Flow V
  | .handle src msg => N.dolev i s src msg
  | .wake t => N.resume i s t

/-- What the step announces and marks is delivered. -/
structure AnnouncesDelivered (i : PeerId) (s : DolevState) (l : Call V) : Prop where
  sent : SentHonest i s (N.segment i s l).out
  forwardedEmpty : ∀ m ∈ (N.segment i s l).st.forwardedEmpty,
    m ∈ s.forwardedEmpty ∨ m ∈ (N.segment i s l).st.delivered
  noted : ∀ m, i ∈ (N.segment i s l).st.neighbourDelivered.get m ∅ →
    i ∈ s.neighbourDelivered.get m ∅ ∨ m ∈ (N.segment i s l).st.delivered

/-- When the handler gets to its final `my_deliver` with an id that is not delivered, the
path test passes. -/
def TestPasses (i : PeerId) (s : DolevState) (l : Call V) : Prop :=
  ∀ s' msg, N.callFlow i s l = .deliver s' msg → msg.msgId ∉ s'.delivered →
    N.distPaths i (s'.paths.get msg.msgId []) msg.source = true

instance (l : Call V) : Decidable (N.TestPasses i s l) :=
  match h : N.callFlow i s l with
  | .stop _ => .isTrue fun _ _ h' => by cases h.symm.trans h'
  | .deliver s' msg =>
    decidable_of_iff (msg.msgId ∉ s'.delivered →
        N.distPaths i (s'.paths.get msg.msgId []) msg.source = true) <| by
      refine ⟨fun hpass s'' msg' h' => ?_, fun hpass => hpass s' msg h⟩
      cases h.symm.trans h'
      exact hpass

end Network

theorem segment_eq {l : Call V} : N.segment i s l = N.settle i (N.callFlow i s l) := by
  cases l <;> rfl

/-- A call of an honest node. -/
theorem callFlow_honest {l : Call V} (hself : i ∉ N.neighbours i) (hs : Honest i s)
    (ht : ∀ t, l = .wake t → TaskHonest s t) : (N.callFlow i s l).Honest i s := by
  cases l with
  | handle src msg =>
    by_cases hsrc : src ∈ N.neighbours i
    · refine handles_dolev.honest hs ?_
      rintro rfl
      exact hself hsrc
    · rw [Network.callFlow, Network.dolev, if_pos hsrc]
      exact OutcomeHonest.quiet hs nofun
  | wake t => exact resumes_resume.honest hs (ht t rfl)

theorem OutcomeHonest.announcesDelivered {l : Call V} (h : OutcomeHonest i s (N.segment i s l)) :
    N.AnnouncesDelivered i s l :=
  ⟨h.sent, fun m hm => .inr (h.st.forwardedEmpty m hm), fun m hm => .inr (h.st.noted m hm)⟩

/-- After the test has failed, an honest node announces all the same. -/
theorem noted_of_not_distPaths (hs : Honest i s) (hdel : msg.msgId ∉ s.delivered)
    (htest : ¬ N.distPaths i (s.paths.get msg.msgId []) msg.source = true) :
    i ∈ (N.myDeliver i s msg).st.neighbourDelivered.get msg.msgId ∅ ∧
      (N.myDeliver i s msg).st.delivered = s.delivered := by
  have hfwd : msg.msgId ∉ s.forwardedEmpty := fun h => hdel (hs.forwardedEmpty _ h)
  rw [Network.myDeliver, if_neg fun h => hdel h.1, if_pos hdel, if_neg htest, Network.announce,
    if_pos hfwd, Network.emptiesLoop]
  split <;> exact ⟨by simp [Network.finish, DolevState.addNeighbourDelivered,
    DolevState.markForwardedEmpty], rfl⟩

section Runs

variable [DecidableEq V] {x x' : Solo DolevState (Cont V)} {l : Call V} {calls : List (Call V)}

/-- The node and its coroutines are honest. -/
structure SoloHonest (i : PeerId) (x : Solo DolevState (Cont V)) : Prop where
  st : Honest i x.st
  tasks : ∀ t ∈ x.tasks, TaskHonest x.st t

omit [DecidableEq V] in
theorem SoloHonest.fresh : SoloHonest i (N.fresh i) where
  st := ⟨by simp [Network.fresh], by simp [Network.fresh]⟩
  tasks t ht := by
    obtain ⟨b, -, rfl⟩ := List.mem_map.mp ht
    trivial

/-- The flow of a step out of an honest node. -/
theorem SoloHonest.callFlow (h : SoloHonest i x) (hself : i ∉ N.neighbours i)
    (hstep : N.alone i x l = some x') : (N.callFlow i x.st l).Honest i x.st := by
  obtain ⟨o, ts, hseg, -⟩ := Protocol.alone_iff.mp hstep
  refine callFlow_honest hself h.st ?_
  rintro t rfl
  cases hseg with
  | wake ht _ => exact h.tasks t ht

/-- A step whose test passes leaves an honest node. -/
theorem SoloHonest.step (h : SoloHonest i x) (hself : i ∉ N.neighbours i)
    (hpass : N.TestPasses i x.st l) (hstep : N.alone i x l = some x') :
    OutcomeHonest i x.st (N.segment i x.st l) ∧ SoloHonest i x' := by
  have hout : OutcomeHonest i x.st (N.segment i x.st l) := by
    rw [segment_eq]
    exact (h.callFlow hself hstep).settle hpass
  refine ⟨hout, st_of_alone hstep ▸ hout.st, fun t ht => ?_⟩
  rw [st_of_alone hstep]
  obtain ⟨o, ts, hseg, rfl⟩ := Protocol.alone_iff.mp hstep
  rcases List.mem_append.mp ht with hnew | hold
  · refine hout.rest t ?_
    cases hseg with
    | handle => exact Option.mem_toList.mp hnew
    | wake _ ho =>
      obtain rfl := Option.some.inj ho
      exact Option.mem_toList.mp hnew
  · refine (h.tasks t ?_).mono segment_fresh.grows
    cases hseg with
    | handle => exact hold
    | wake _ _ => exact List.mem_of_mem_erase hold

/-- As long as the tests pass, the node is honest. -/
theorem soloHonest_of_testPasses (hself : i ∉ N.neighbours i) :
    ∀ calls x, exec (N.alone i) (N.fresh i) calls = some x →
      Meets (N.alone i) (N.fresh i) (fun _ x l => N.TestPasses i x.st l) calls →
        SoloHonest i x := by
  refine run_induction (P := fun calls x =>
    Meets (N.alone i) (N.fresh i) (fun _ x l => N.TestPasses i x.st l) calls → SoloHonest i x)
    (fun _ => .fresh) ?_
  intro calls x l x' hx ih hstep hmeets
  exact ((ih hmeets.prefix).step hself (hmeets.last hx) hstep).2

/-- A step of an honest node whose test fails announces what is not delivered. -/
theorem SoloHonest.testPasses (h : SoloHonest i x) (hself : i ∉ N.neighbours i)
    (hstep : N.alone i x l = some x') (hann : N.AnnouncesDelivered i x.st l) :
    N.TestPasses i x.st l := by
  intro s' msg hflow hdel
  by_contra htest
  have hs' : Honest i s' := by
    have hcall := h.callFlow hself hstep
    rw [hflow] at hcall
    exact hcall
  obtain ⟨hnoted, hsame⟩ := noted_of_not_distPaths hs' hdel htest
  have hseg : N.segment i x.st l = N.myDeliver i s' msg := by rw [segment_eq, hflow, Network.settle]
  have hbefore : x.st.delivered ⊆ (N.segment i x.st l).st.delivered := segment_fresh.grows
  rw [hseg, hsame] at hbefore
  rcases hann.noted msg.msgId (hseg ▸ hnoted) with hold | hnew
  · exact hdel (hbefore (h.st.noted _ hold))
  · rw [hseg, hsame] at hnew
    exact hdel hnew

/-- **What a node announces it has delivered, exactly if no test fails.** `main.py` takes
a node out of its own neighbours. -/
theorem announcesDelivered_iff (hself : i ∉ N.neighbours i)
    (hx : exec (N.alone i) (N.fresh i) calls = some x) :
    Meets (N.alone i) (N.fresh i) (fun _ x l => N.AnnouncesDelivered i x.st l) calls ↔
      Meets (N.alone i) (N.fresh i) (fun _ x l => N.TestPasses i x.st l) calls := by
  constructor
  · refine run_induction (P := fun calls x =>
      Meets (N.alone i) (N.fresh i) (fun _ x l => N.AnnouncesDelivered i x.st l) calls →
        Meets (N.alone i) (N.fresh i) (fun _ x l => N.TestPasses i x.st l) calls)
      ?_ ?_ calls x hx
    · rintro - ls₁ l ls₂ s hls -
      simp at hls
    · intro calls x l x' hx ih hstep hmeets
      have hpass := ih hmeets.prefix
      have hhonest := soloHonest_of_testPasses hself calls x hx hpass
      exact hpass.snoc hx (hhonest.testPasses hself hstep (hmeets.last hx))
  · rintro hmeets calls l rest y rfl hy
    obtain ⟨y', hy', hrest⟩ := exec_prefix hx
    obtain rfl := Option.some.inj (hy.symm.trans hy')
    obtain ⟨x', hstep, -⟩ := Option.bind_eq_some_iff.mp hrest
    have hhonest := soloHonest_of_testPasses hself calls y hy hmeets.prefix
    exact (hhonest.step hself (hmeets calls l rest y rfl hy) hstep).1.announcesDelivered

end Runs

/-- t has the message on two disjoint paths before its test, and announces it to a. -/
def twoPaths : List (Call String) :=
  [.handle "a" (hello ["s"]), .handle "b" (hello ["s"]),
    .wake (.forwardTo "a" ["b"] (hello ["s"]) ["s", "b"] false),
    .wake (.forward ["b"] (hello ["s"]) ["s", "b"] false),
    .wake (.emptyTo "a" ["b"] false (hello ["s"]))]

theorem announcesDelivered_iff_square :
    (∃ x, exec (square.alone "t") (square.fresh "t") twoPaths = some x) ∧
    Meets (square.alone "t") (square.fresh "t")
      (fun _ x l => square.AnnouncesDelivered "t" x.st l) twoPaths := by
  obtain ⟨x, hx, -⟩ := exists_exec_of_any (square.alone "t") (square.fresh "t") twoPaths
    (fun _ => true) (by decide)
  have hpass : Meets (square.alone "t") (square.fresh "t")
      (fun _ x l => square.TestPasses "t" x.st l) twoPaths := meets_of_meetsFrom (by decide)
  exact ⟨⟨x, hx⟩, (announcesDelivered_iff (by decide) hx).mpr hpass⟩

/-- t has it on one path, which is not enough. -/
def onePath : List (Call String) :=
  [.handle "a" (hello ["s"]), .wake (.forwardTo "b" [] (hello ["s"]) ["s", "a"] false),
    .wake (.forward [] (hello ["s"]) ["s", "a"] false)]

/-- After the failed test t announces the message to a. -/
theorem announces_undelivered : ¬ ∀ (N : Network String) (i : PeerId) (calls : List (Call String))
    (x : Solo DolevState (Cont String)), N.nx.Exact → i ∉ N.neighbours i →
      exec (N.alone i) (N.fresh i) calls = some x →
      Meets (N.alone i) (N.fresh i) (fun _ x l => N.AnnouncesDelivered i x.st l) calls := by
  intro h
  let announcement : Call String := .wake (.emptyTo "a" ["b"] false (hello ["s"]))
  obtain ⟨x, hx, -⟩ := exists_exec_of_any (square.alone "t") (square.fresh "t")
    (onePath ++ [announcement]) (fun _ => true) (by decide)
  obtain ⟨y, hy, hdel⟩ := exists_exec_of_any (square.alone "t") (square.fresh "t") onePath
    (fun y => decide ("m" ∉ y.st.delivered)) (by decide)
  have hmeets := h square "t" _ x Networkx.allPaths_exact (by decide) hx
  have hsent := (hmeets.last hy).sent ("a", hello []) (List.mem_singleton_self _) rfl (by decide)
  exact of_decide_eq_true hdel hsent

end DistBench.Dolev
