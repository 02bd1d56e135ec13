import DistBench.Dolev.NaivePaths

/-!
# What the unoptimized algorithm delivers

Whether a node delivers is decided by the order in which the paths have come: the test is
the greedy pass of `Lib/Packing` (`distPaths_iff`), and in a network at rest a message is
delivered iff the pass over all the recorded paths keeps `f + 1` of them
(`delivered_iff_of_quiescent`). `Unblocked` is the condition under which it does in every
order (`delivered_of_unblocked`). One path that has all the neighbours of a node on it,
which a Byzantine neighbour can make up, keeps the pass from ever succeeding for a source
that is no neighbour (`not_delivered_of_first`).
-/

namespace DistBench.DolevNaive

open DistBench.Async DistBench.Flooding DistBench.Packing
open DistBench.Dolev (nextPeer nextPeer_spec)

namespace Network

variable {N : Network} {i src : PeerId} {s : NaiveState} {msg : DMsg} {m : String}

/-! ## The test is a greedy pass -/

/-- `choose` asks for a disjoint path exactly when the pass keeps it. -/
theorem choose_iff {needed : Nat} {self source : PeerId} {paths kept : List (List PeerId)}
    (h : kept.length < needed) :
    choose needed self source paths (kept.map (internal self source)) = true ↔
      needed ≤ (pick (internal self source) kept paths).length := by
  induction paths generalizing kept with
  | nil => simp [choose, h]
  | cons p paths ih =>
    rw [choose]
    by_cases hapart : ∀ v ∈ kept, Apart (internal self source) p v
    · have hany : ((kept.map (internal self source)).any fun used =>
          decide (¬ Disjoint (internal self source p) used)) = false := by
        rw [List.any_eq_false]
        intro used hused
        obtain ⟨v, hv, rfl⟩ := List.mem_map.mp hused
        simpa using hapart v hv
      rw [hany, if_neg Bool.false_ne_true, pick_cons_of_apart hapart, List.length_map]
      split
      · next henough =>
        have hpre : kept ++ [p] <+: pick (internal self source) (kept ++ [p]) paths := prefix_pick
        have hlen := hpre.length_le
        rw [List.length_append, List.length_singleton] at hlen
        exact iff_of_true rfl (by omega)
      · have hmap : kept.map (internal self source) ++ [internal self source p] =
            (kept ++ [p]).map (internal self source) := by simp
        rw [hmap]
        exact ih (by rw [List.length_append, List.length_singleton]; omega)
    · push Not at hapart
      obtain ⟨v, hv, hmeets⟩ := hapart
      have hany : ((kept.map (internal self source)).any fun used =>
          decide (¬ Disjoint (internal self source p) used)) = true :=
        List.any_eq_true.mpr ⟨_, List.mem_map_of_mem hv, decide_eq_true hmeets⟩
      rw [hany, if_pos rfl, pick_cons_of_meets hv hmeets]
      exact ih h

theorem distPaths_iff {self source : PeerId} {paths : List (List PeerId)} :
    N.distPaths self paths source = true ↔
      N.f + 1 ≤ (pick (internal self source) [] paths).length :=
  @choose_iff _ _ _ _ [] (Nat.succ_pos N.f)

/-- What has passed the test passes it when more paths have come. -/
theorem distPaths_mono {self source : PeerId} {paths paths' : List (List PeerId)}
    (hpre : paths <+: paths') (h : N.distPaths self paths source = true) :
    N.distPaths self paths' source = true :=
  distPaths_iff.mpr ((distPaths_iff.mp h).trans (length_pick_mono hpre))

end Network

/-! ## No test is missed -/

/-- The message a suspended coroutine of node `i` is about. -/
def Cont.message (i : PeerId) : Cont → DMsg
  | .broadcast msgId payload => ⟨msgId, i, payload, []⟩
  | .broadcasting _ msg | .forwardTo _ _ msg _ | .forward _ msg _ => msg

/-- The coroutine has the test of the paths of `m` before it. -/
def Cont.Tests (m : String) : Cont → Prop
  | .forwardTo _ _ msg _ | .forward _ msg _ => msg.msgId = m
  | _ => False

namespace Network

variable {N : Network} {i src source : PeerId} {s : NaiveState} {rest newPath : List PeerId}
  {msg : DMsg} {m : String} {ts base : List Cont}

/-- `m` has been delivered iff the recorded paths pass the test, or a test is to come. -/
structure Tested (N : Network) (source : PeerId) (m : String) (i : PeerId) (s : NaiveState)
    (ts : List Cont) : Prop where
  passed : m ∈ s.delivered → N.distPaths i (s.paths.get m []) source = true
  pending : N.distPaths i (s.paths.get m []) source = true → m ∈ s.delivered ∨ ∃ t ∈ ts, t.Tests m

/-- All messages with the id `m` say they come from `source`, and no test is missed. -/
def testing (N : Network) (source : PeerId) (m : String) :
    Assertion PeerId DMsg NaiveState Cont where
  node _ i s ts := Tested N source m i s ts ∧
    ∀ t ∈ ts, (t.message i).msgId = m → (t.message i).source = source
  msg _ e := e.msg.msgId = m → e.msg.source = source

theorem mem_delivered_myDeliver_iff : m ∈ (N.myDeliver i s msg).delivered ↔
    m ∈ s.delivered ∨ msg.msgId = m ∧ N.distPaths i (s.paths.get m []) msg.source = true := by
  refine ⟨mem_delivered_myDeliver, ?_⟩
  unfold myDeliver
  split_ifs with hdel htest
  · rintro (h | ⟨rfl, -⟩)
    · exact h
    · exact hdel
  · rintro (h | ⟨rfl, -⟩)
    · exact Finset.mem_insert_of_mem h
    · exact Finset.mem_insert_self _ _
  · rintro (h | ⟨rfl, h⟩)
    · exact h
    · exact absurd h htest

/-- The forwarding loop ends with the test, or leaves a coroutine that has it before it. -/
theorem tested_forwardLoop
    (hpassed : m ∈ s.delivered → N.distPaths i (s.paths.get m []) source = true)
    (hsource : msg.msgId = m → msg.source = source)
    (hpending : msg.msgId ≠ m → N.distPaths i (s.paths.get m []) source = true →
      m ∈ s.delivered ∨ ∃ t ∈ base, t.Tests m) :
    Tested N source m i (N.forwardLoop i s rest msg newPath).st
      ((N.forwardLoop i s rest msg newPath).rest.toList ++ base) := by
  unfold forwardLoop
  split
  · next peer rest' _ =>
    refine ⟨hpassed, fun h => ?_⟩
    by_cases hm : msg.msgId = m
    · exact .inr ⟨.forwardTo peer rest' msg newPath, by simp, hm⟩
    · obtain hdel | ⟨t, ht, htests⟩ := hpending hm h
      · exact .inl hdel
      · exact .inr ⟨t, List.mem_append_right _ ht, htests⟩
  · refine ⟨fun h => ?_, fun h => ?_⟩
    · rw [paths_myDeliver]
      rcases mem_delivered_myDeliver_iff.mp h with hdel | ⟨hm, htest⟩
      · exact hpassed hdel
      · rwa [hsource hm] at htest
    · rw [paths_myDeliver] at h
      rw [mem_delivered_myDeliver_iff]
      by_cases hm : msg.msgId = m
      · exact .inl (.inr ⟨hm, (hsource hm).symm ▸ h⟩)
      · obtain hdel | hlater := hpending hm h
        · exact .inl (.inl hdel)
        · exact .inr hlater

theorem Tested.dolev (h : Tested N source m i s ts)
    (hsource : msg.msgId = m → msg.source = source) :
    Tested N source m i (N.dolev i s src msg).st ((N.dolev i s src msg).rest.toList ++ ts) := by
  unfold Network.dolev
  split
  · exact h
  · refine tested_forwardLoop (fun hdel => ?_) hsource fun hm htest => ?_
    · exact distPaths_mono prefix_addPath (h.passed hdel)
    · rw [NaiveState.addPath, Dict.get_insert_of_ne (Ne.symm hm)] at htest
      exact h.pending htest

/-- A resumed coroutine may have been the one that had the test before it. -/
theorem Tested.resume {t : Cont} (h : Tested N source m i s ts)
    (hsource : (t.message i).msgId = m → (t.message i).source = source)
    (hbase : ∀ t' ∈ ts, t' ∈ base ∨ t' = t) :
    Tested N source m i (N.resume i s t).st ((N.resume i s t).rest.toList ++ base) := by
  have hother (hnot : ¬ t.Tests m) (htest : N.distPaths i (s.paths.get m []) source = true) :
      m ∈ s.delivered ∨ ∃ t' ∈ base, t'.Tests m := by
    rcases h.pending htest with hdel | ⟨t', ht', htests⟩
    · exact .inl hdel
    · refine .inr ⟨t', (hbase t' ht').resolve_right ?_, htests⟩
      rintro rfl
      exact hnot htests
  have hsame {new : List Cont} (hnot : ¬ t.Tests m) : Tested N source m i s (new ++ base) :=
    ⟨h.passed, fun htest => (hother hnot htest).imp_right fun ⟨t', ht', htests⟩ =>
      ⟨t', List.mem_append_right _ ht', htests⟩⟩
  cases t with
  | broadcast | broadcasting =>
    rw [Network.resume, (broadcastLoop_spec _ _ _ _).1]
    exact hsame id
  | forwardTo peer rest msg newPath =>
    refine ⟨h.passed, fun htest => ?_⟩
    by_cases hm : msg.msgId = m
    · exact .inr ⟨.forward rest msg newPath, by simp [Network.resume], hm⟩
    · exact (hsame hm).pending htest
  | forward rest msg newPath => exact tested_forwardLoop h.passed hsource hother

/-- What a segment leaves is about one message. -/
structure About (i : PeerId) (msg : DMsg) (o : Seg) : Prop where
  rest : ∀ t ∈ o.rest, t.message i = msg
  out : ∀ dm ∈ o.out, dm.2.msgId = msg.msgId ∧ dm.2.source = msg.source

theorem about_forwardLoop : About i msg (N.forwardLoop i s rest msg newPath) := by
  obtain ⟨-, hout, hrest, -⟩ := forwardLoop_spec (N := N) i s rest msg newPath ""
  refine ⟨fun t ht => ?_, by simp [hout]⟩
  obtain ⟨peer, rest', rfl⟩ := hrest t ht
  rfl

theorem about_broadcastLoop : About i msg (N.broadcastLoop i s rest msg) := by
  obtain ⟨-, hout, hrest⟩ := broadcastLoop_spec (N := N) i s rest msg
  refine ⟨fun t ht => ?_, fun dm hdm => ?_⟩
  · obtain ⟨rest', rfl⟩ := hrest t ht
    rfl
  · rw [hout dm hdm]
    exact ⟨rfl, rfl⟩

theorem out_dolev : (N.dolev i s src msg).out = [] := by
  unfold dolev
  split
  · rfl
  · exact (forwardLoop_spec _ _ _ _ _ "").2.1

theorem about_dolev : About i msg (N.dolev i s src msg) := by
  unfold dolev
  split
  · exact ⟨nofun, nofun⟩
  · exact about_forwardLoop

theorem about_resume {t : Cont} : About i (t.message i) (N.resume i s t) := by
  cases t with
  | broadcast | broadcasting => exact about_broadcastLoop
  | forwardTo peer rest msg newPath =>
    refine ⟨fun t ht => ?_, fun dm hdm => ?_⟩
    · obtain rfl := Option.some.inj ht
      rfl
    · obtain rfl := List.mem_singleton.mp hdm
      exact ⟨rfl, rfl⟩
  | forward => exact about_forwardLoop

/-- A Byzantine node does not say that `m` comes from another node. -/
def Attributed (source : PeerId) (m : String) (_ : History)
    (_ : Config PeerId DMsg NaiveState Cont) (l : Action) : Prop :=
  ∀ e, l = .forge e → e.msg.msgId = m → e.msg.source = source

theorem testing_inductive
    (hids : ∀ i ∈ N.parties.correct, ∀ b ∈ N.broadcasts i, b.1 = m → i = source) :
    (N.testing source m).Inductive N.protocol N.parties N.initial (Attributed source m) where
  init := by
    refine ⟨fun i hi => ⟨⟨nofun, fun h => ?_⟩, fun t ht hm => ?_⟩, nofun, nofun⟩
    · rw [distPaths_iff] at h
      simp [initial] at h
    · obtain ⟨b, hb, rfl⟩ := List.mem_map.mp ht
      exact hids i hi b hb hm
  node_mono _ h := h
  msg_mono h := h
  segment := by
    intro ls c l i o base _ h hcond hseg
    obtain ⟨htested, htasks⟩ := h.node i hseg.correct
    -- the segment is about a message that is attributed as it should be
    have hleaves {msg : DMsg} (hmsg : msg.msgId = m → msg.source = source) (ho : About i msg o) :
        (∀ t ∈ o.rest.toList ++ base.tasks i, (t.message i).msgId = m →
          (t.message i).source = source) ∧ ∀ dm ∈ o.out, dm.2.msgId = m → dm.2.source = source := by
      refine ⟨fun t ht => ?_, fun dm hdm hm => ?_⟩
      · rcases hseg.mem_rest_or_tasks ht with hnew | hold
        · rw [ho.rest t hnew]
          exact hmsg
        · exact htasks t hold
      · obtain ⟨hid, hsrc⟩ := ho.out dm hdm
        exact hsrc.trans (hmsg (hid.symm.trans hm))
    cases hseg with
    | @recv e hnet _ =>
      have hmsg : e.msg.msgId = m → e.msg.source = source := h.msg e hnet
      obtain ⟨hrest, hout⟩ := hleaves hmsg about_dolev
      exact ⟨⟨htested.dolev hmsg, hrest⟩, hout⟩
    | @forge e _ _ =>
      have hmsg : e.msg.msgId = m → e.msg.source = source := hcond e rfl
      obtain ⟨hrest, hout⟩ := hleaves hmsg about_dolev
      exact ⟨⟨htested.dolev hmsg, hrest⟩, hout⟩
    | @wake i t _ hi ht ho =>
      obtain rfl := Option.some.inj ho
      obtain ⟨hrest, hout⟩ := hleaves (htasks t ht) about_resume
      refine ⟨⟨htested.resume (htasks t ht) fun t' ht' => ?_, hrest⟩, hout⟩
      have hseg : Segment N.protocol N.parties c (.wake i t) i _ _ := .wake hi ht rfl
      refine (hseg.mem_base_tasks_or ht').imp_right fun heq => ?_
      cases heq
      rfl

theorem tested_of_run
    (hids : ∀ i ∈ N.parties.correct, ∀ b ∈ N.broadcasts i, b.1 = m → i = source)
    {ls : History} {c : Config PeerId DMsg NaiveState Cont}
    (hc : exec N.next N.initial ls = some c)
    (hforged : ∀ e, .forge e ∈ ls → e.msg.msgId = m → e.msg.source = source)
    {t : PeerId} (ht : t ∈ N.parties.correct) :
    Tested N source m t (c.st t) (c.tasks t) := by
  have hmeets : Meets N.next N.initial (Attributed source m) ls := by
    rintro ls₁ l ls₂ s rfl - e rfl
    exact hforged e (by simp)
  exact ((Assertion.holds_of_meets (testing_inductive hids) ls c hc hmeets).node t ht).1

theorem Tested.delivered (h : Tested N source m i s [])
    (htest : N.distPaths i (s.paths.get m []) source = true) : m ∈ s.delivered := by
  refine (h.pending htest).resolve_right ?_
  rintro ⟨t, ht, -⟩
  cases ht

/-- In a network at rest a node has delivered a message iff the recorded paths pass the
test, whatever Byzantine nodes have added to them. -/
theorem delivered_iff_of_quiescent
    (hids : ∀ i ∈ N.parties.correct, ∀ b ∈ N.broadcasts i, b.1 = m → i = source)
    {ls : History} {c : Config PeerId DMsg NaiveState Cont}
    (hc : exec N.next N.initial ls = some c)
    (hforged : ∀ e, .forge e ∈ ls → e.msg.msgId = m → e.msg.source = source)
    (hquiet : c.Quiescent N.parties) {t : PeerId} (ht : t ∈ N.parties.correct) :
    m ∈ (c.st t).delivered ↔ N.distPaths t ((c.st t).paths.get m []) source = true := by
  have htested := tested_of_run hids hc hforged ht
  rw [hquiet.2 t ht] at htested
  exact ⟨htested.passed, htested.delivered⟩

/-! ## When every order of the paths will do -/

/-- No Byzantine node says anything about `m`. -/
def Silent (m : String) (_ : History) (_ : Config PeerId DMsg NaiveState Cont) (l : Action) :
    Prop :=
  ∀ e, l = .forge e → e.msg.msgId ≠ m

/-- `src` has sent `dst` what has come to it from `source` by the nodes of `path`. -/
structure Going (N : Network) (source : PeerId) (path : List PeerId) (src dst : PeerId) : Prop where
  route : N.Route source (path ++ [src])
  fresh : dst ∉ path ++ [src]
  near : dst ∈ N.neighbours src

/-- A coroutine of node `i` about a message of `source` hands it on along simple paths. -/
def OnRoute (N : Network) (source i : PeerId) : Cont → Prop
  | .broadcast _ _ => i = source
  | .broadcasting rest msg => i = source ∧ msg.path = [] ∧ rest ⊆ N.peers i
  | .forwardTo peer rest _ newPath =>
    N.Going source newPath i peer ∧ rest ⊆ N.peers i
  | .forward rest _ newPath => N.Route source (newPath ++ [i]) ∧ rest ⊆ N.peers i

/-- The paths of `m` are simple paths from `source`. -/
def routing (N : Network) (source : PeerId) (m : String) :
    Assertion PeerId DMsg NaiveState Cont where
  node _ i s ts := (∀ p ∈ s.paths.get m [], N.Route source (p ++ [i])) ∧
    ∀ t ∈ ts, (t.message i).msgId = m → N.OnRoute source i t
  msg _ e := e.msg.msgId = m → N.Going source e.msg.path e.src e.dst

theorem Going.arrive {dst : PeerId} {path : List PeerId} (h : N.Going source path src dst)
    (hdst : dst ∈ N.parties.correct) (hnear : src ∈ N.neighbours dst) :
    N.Route source (path ++ [src] ++ [dst]) :=
  Flight.arrive ⟨h.route, h.fresh, h.near, hdst⟩ hnear

theorem onRoute_forwardLoop (hi : i ∈ N.parties.correct) (hroute : N.Route source (newPath ++ [i]))
    (hrest : rest ⊆ N.peers i) :
    ∀ t ∈ (N.forwardLoop i s rest msg newPath).rest, N.OnRoute source i t := by
  unfold forwardLoop
  split
  · next peer rest' h =>
    intro t ht
    obtain rfl := Option.some.inj ht
    obtain ⟨htest, hpeer, hrest', -⟩ := nextPeer_spec h hrest
    obtain ⟨hnear, hfresh⟩ := of_decide_eq_true htest
    have hne : peer ≠ i := ((N.mem_peers i (N.mem_nodes_of_correct hi) peer).mp hpeer).2
    exact ⟨⟨hroute, by simp [hfresh, hne], hnear⟩, hrest'⟩
  · exact nofun

theorem onRoute_broadcastLoop (hi : i ∈ N.parties.correct) (hsource : i = source)
    (hpath : msg.path = []) (hrest : rest ⊆ N.peers i) :
    (∀ t ∈ (N.broadcastLoop i s rest msg).rest, N.OnRoute source i t) ∧
      ∀ dm ∈ (N.broadcastLoop i s rest msg).out, N.Going source dm.2.path i dm.1 := by
  unfold broadcastLoop
  split
  · next peer rest' h =>
    obtain ⟨htest, hpeer, hrest', -⟩ := nextPeer_spec h hrest
    have hne : peer ≠ i := ((N.mem_peers i (N.mem_nodes_of_correct hi) peer).mp hpeer).2
    refine ⟨fun t ht => ?_, fun dm hdm => ?_⟩
    · obtain rfl := Option.some.inj ht
      exact ⟨hsource, hpath, hrest'⟩
    · obtain rfl := List.mem_singleton.mp hdm
      subst hsource
      rw [hpath]
      exact ⟨.single hi, by simpa using hne, of_decide_eq_true htest⟩
  · exact ⟨nofun, nofun⟩

/-- What a handler records and leaves to be handed on. -/
theorem onRoute_dolev (hi : i ∈ N.parties.correct)
    (hpaths : ∀ p ∈ s.paths.get m [], N.Route source (p ++ [i]))
    (hmsg : msg.msgId = m → src ∈ N.neighbours i → N.Route source (msg.path ++ [src] ++ [i])) :
    (∀ p ∈ (N.dolev i s src msg).st.paths.get m [], N.Route source (p ++ [i])) ∧
      ∀ t ∈ (N.dolev i s src msg).rest, msg.msgId = m → N.OnRoute source i t := by
  refine ⟨?_, fun t ht hm => ?_⟩
  · rw [paths_dolev]
    split
    · next hsrc =>
      intro p hp
      rcases mem_paths_addPath hp with hold | ⟨hm, rfl⟩
      · exact hpaths p hold
      · exact hmsg hm hsrc
    · exact hpaths
  · unfold dolev at ht
    split at ht
    · cases ht
    · next hsrc =>
      exact onRoute_forwardLoop hi (hmsg hm (not_not.mp hsrc)) (List.Subset.refl _) t ht

theorem routing_inductive
    (hids : ∀ i ∈ N.parties.correct, ∀ b ∈ N.broadcasts i, b.1 = m → i = source) :
    (N.routing source m).Inductive N.protocol N.parties N.initial (Silent m) where
  init := by
    refine ⟨fun i hi => ⟨fun p hp => ?_, fun t ht hm => ?_⟩,
      List.forall_mem_nil _, fun e he => absurd he List.not_mem_nil⟩
    · simp [initial] at hp
    · obtain ⟨b, hb, rfl⟩ := List.mem_map.mp ht
      exact hids i hi b hb hm
  node_mono _ h := h
  msg_mono h := h
  segment := by
    intro ls c l i o base _ h hcond hseg
    obtain ⟨hpaths, htasks⟩ := h.node i hseg.correct
    have hleaves {msg : DMsg} (habout : About i msg o)
        (hrest : ∀ t ∈ o.rest, msg.msgId = m → N.OnRoute source i t) :
        ∀ t ∈ o.rest.toList ++ base.tasks i, (t.message i).msgId = m → N.OnRoute source i t := by
      intro t ht hm
      rcases hseg.mem_rest_or_tasks ht with hnew | hold
      · exact hrest t hnew (habout.rest t hnew ▸ hm)
      · exact htasks t hold hm
    have hdolev {src : PeerId} {msg : DMsg} (ho : o = N.dolev i (c.st i) src msg)
        (hmsg : msg.msgId = m → src ∈ N.neighbours i →
          N.Route source (msg.path ++ [src] ++ [i])) :
        ((∀ p ∈ o.st.paths.get m [], N.Route source (p ++ [i])) ∧
          ∀ t ∈ o.rest.toList ++ base.tasks i, (t.message i).msgId = m → N.OnRoute source i t) ∧
        ∀ dm ∈ o.out, dm.2.msgId = m → N.Going source dm.2.path i dm.1 := by
      have habout : About i msg o := ho ▸ about_dolev
      obtain ⟨hp, hrest⟩ := onRoute_dolev hseg.correct hpaths hmsg
      rw [← ho] at hp hrest
      refine ⟨⟨hp, hleaves habout hrest⟩, ?_⟩
      rw [ho, out_dolev]
      exact List.forall_mem_nil _
    cases hseg with
    | @recv e hnet hdst =>
      exact hdolev rfl fun hm hnear => (h.msg e hnet hm).arrive hdst hnear
    | @forge e _ _ => exact hdolev rfl fun hm => absurd hm (hcond e rfl)
    | @wake i t _ hi ht ho =>
      obtain rfl := Option.some.inj ho
      have hst : ∀ p ∈ (N.resume i (c.st i) t).st.paths.get m [], N.Route source (p ++ [i]) := by
        rw [paths_resume]
        exact hpaths
      suffices hsends : (t.message i).msgId = m →
          (∀ t' ∈ (N.resume i (c.st i) t).rest, N.OnRoute source i t') ∧
            ∀ dm ∈ (N.resume i (c.st i) t).out, N.Going source dm.2.path i dm.1 by
        refine ⟨⟨hst, hleaves about_resume fun t' ht' hm => (hsends hm).1 t' ht'⟩,
          fun dm hdm hm => ?_⟩
        exact (hsends ((about_resume.out dm hdm).1.symm.trans hm)).2 dm hdm
      intro hm
      have htask := htasks t ht hm
      cases t with
      | broadcast msgId payload =>
        exact onRoute_broadcastLoop hi htask rfl (List.Subset.refl _)
      | broadcasting rest msg => exact onRoute_broadcastLoop hi htask.1 htask.2.1 htask.2.2
      | forwardTo peer rest msg newPath =>
        obtain ⟨hgoing, hrest⟩ := htask
        refine ⟨fun t' ht' => ?_, fun dm hdm => ?_⟩
        · obtain rfl := Option.some.inj ht'
          exact ⟨hgoing.route, hrest⟩
        · obtain rfl := List.mem_singleton.mp hdm
          exact hgoing
      | forward rest msg newPath =>
        refine ⟨onRoute_forwardLoop hi htask.1 htask.2, ?_⟩
        rw [resume, (forwardLoop_spec _ _ _ _ _ "").2.1]
        exact List.forall_mem_nil _

variable (N) in
/-- No `f` disjoint simple paths from `source` to `t` meet all the others. -/
def Unblocked (source t : PeerId) : Prop :=
  ∀ kept : List (List PeerId), kept.Pairwise (Apart (internal t source)) →
    (∀ p ∈ kept, N.Route source (p ++ [t])) → kept.length ≤ N.f →
      ∃ p, N.Route source (p ++ [t]) ∧ p ∉ kept ∧ ∀ q ∈ kept, Apart (internal t source) p q

/-- More than `f * k` disjoint paths are enough, if no path has more than `k` inner
nodes. -/
theorem unblocked_of_length {t : PeerId} {k : Nat} {paths : List (List PeerId)}
    (hroutes : ∀ p ∈ paths, N.Route source (p ++ [t]) ∧ (internal t source p).Nonempty)
    (hapart : paths.Pairwise (Apart (internal t source))) (hlen : N.f * k < paths.length)
    (hshort : ∀ p, N.Route source (p ++ [t]) → (internal t source p).card ≤ k) :
    N.Unblocked source t := by
  intro kept hkept hkroutes hcard
  by_contra hall
  push Not at hall
  -- every path has a node on it that is on one of those kept
  have hhit : ∀ p ∈ paths, ∃ x ∈ internal t source p, x ∈ members (internal t source) kept := by
    intro p hp
    obtain ⟨hroute, x, hx⟩ := hroutes p hp
    by_cases hmem : p ∈ kept
    · exact ⟨x, hx, mem_members.mpr ⟨p, hmem, hx⟩⟩
    · obtain ⟨q, hq, hmeets⟩ := hall p hroute hmem
      obtain ⟨y, hy, hyq⟩ := Finset.not_disjoint_iff.mp hmeets
      exact ⟨y, hy, mem_members.mpr ⟨q, hq, hyq⟩⟩
  have hle : (paths.map (internal t source)).length ≤ (members (internal t source) kept).card := by
    refine card_le_of_disjoint_hits (List.pairwise_map.mpr hapart) fun u hu => ?_
    obtain ⟨p, hp, rfl⟩ := List.mem_map.mp hu
    exact hhit p hp
  have hmembers := card_members_le (g := internal t source) fun p hp => hshort p (hkroutes p hp)
  rw [List.length_map] at hle
  have hmul : k * kept.length ≤ N.f * k := by
    rw [Nat.mul_comm]
    exact Nat.mul_le_mul_right k hcard
  omega

/-- What is recorded ends with a neighbour. -/
theorem retained_last : Retained N.protocol i fun s =>
    ∀ p ∈ s.paths.get m [], ∃ q, ∃ x ∈ N.neighbours i, p = q ++ [x] where
  handle s src msg h := by
    show ∀ p ∈ (N.dolev i s src msg).st.paths.get m [], _
    rw [paths_dolev]
    split
    · next hsrc =>
      intro p hp
      rcases mem_paths_addPath hp with hold | ⟨-, rfl⟩
      · exact h p hold
      · exact ⟨msg.path, src, hsrc, rfl⟩
    · exact h
  resume s t o ho h := by
    obtain rfl := Option.some.inj ho
    rw [paths_resume]
    exact h

/-- Where the first path has all the neighbours on it, the pass keeps no other. -/
theorem not_distPaths_of_first {first : List PeerId} {paths : List (List PeerId)}
    (hf : 1 ≤ N.f) (hself : i ∉ N.neighbours i) (hsource : source ∉ N.neighbours i)
    (hcover : N.neighbours i ⊆ first.toFinset)
    (hlast : ∀ p ∈ paths, ∃ q, ∃ x ∈ N.neighbours i, p = q ++ [x])
    (hfirst : [first] <+: paths) : N.distPaths i paths source = false := by
  obtain ⟨others, rfl⟩ := hfirst
  have hmeets : ∀ p ∈ others, ∃ v ∈ [first], ¬ Apart (internal i source) p v := by
    intro p hp
    obtain ⟨q, x, hx, rfl⟩ := hlast p (List.mem_append_right _ hp)
    have hxs : x ≠ source := fun h => hsource (h ▸ hx)
    have hxi : x ≠ i := fun h => hself (h ▸ hx)
    have hxf : x ∈ first := List.mem_toFinset.mp (hcover hx)
    refine ⟨first, List.mem_singleton_self _, Finset.not_disjoint_iff.mpr ⟨x, ?_, ?_⟩⟩
    · simp [internal, hxs, hxi]
    · simp [internal, hxs, hxi, hxf]
  have hpick : pick (internal i source) [] ([first] ++ others) = [first] := by
    rw [pick_append, pick_cons_of_apart (by simp)]
    exact pick_eq_self hmeets
  rw [← Bool.not_eq_true, distPaths_iff, hpick, List.length_singleton]
  omega

/-- A node whose first path for `m` has all its neighbours on it delivers `m`, however long
it goes on, only through a message that names a neighbour as its source. -/
theorem not_delivered_of_first {t : PeerId} {first : List PeerId} (hf : 1 ≤ N.f)
    (hself : t ∉ N.neighbours t) (hcover : N.neighbours t ⊆ first.toFinset) {ls ls' : History}
    {c c' c'' : Config PeerId DMsg NaiveState Cont} (hc : exec N.next N.initial ls = some c)
    (hfirst : [first] <+: (c.st t).paths.get m []) (hc' : exec N.next c ls' = some c')
    {l : Action} (hl : N.next c' l = some c'') (hnot : m ∉ (c'.st t).delivered)
    (hafter : m ∈ (c''.st t).delivered) :
    ∃ msg, Action.processes l = some msg ∧ msg.msgId = m ∧ msg.source ∈ N.neighbours t := by
  have hlast : ∀ p ∈ (c.st t).paths.get m [], ∃ q, ∃ x ∈ N.neighbours t, p = q ++ [x] :=
    retained_last.of_run (by simp [initial]) ls c hc
  have hc₂ := exec_snoc hc' hl
  obtain ⟨i, o, base, hseg, rfl⟩ := step_iff.mp hl
  have hti : t = i := by
    by_contra hti
    rw [Config.commit_st_of_ne hti, hseg.base_st] at hafter
    exact hnot hafter
  subst hti
  have hpre := retained_prefix.of_run (G := N.parties) hfirst _ _ hc₂
  have hends := retained_last.of_run (G := N.parties) hlast _ _ hc₂
  rw [Config.commit_st_self] at hafter hpre hends
  obtain ⟨msg, hmsg, rfl, htest⟩ := distPaths_of_delivers hseg hnot hafter
  refine ⟨msg, hmsg, rfl, ?_⟩
  by_contra hsource
  rw [not_distPaths_of_first hf hself hsource hcover hends hpre] at htest
  cases htest

end Network

/-! ## The network with two paths -/

theorem diamond_ids : ∀ i ∈ diamond.parties.correct, ∀ b ∈ diamond.broadcasts i,
    b.1 = "m" → i = "s" := by decide

/-- b is the first to speak to t, and names the nodes it will hear the message from. -/
def forestalls : Action := .forge ⟨"b", "t", hello ["a", "c"]⟩

/-- There are no others. -/
theorem diamond_routes {p : List PeerId} (h : diamond.Route "s" (p ++ ["t"])) :
    p = ["s", "a"] ∨ p = ["s", "c"] := by
  rcases List.eq_nil_or_concat p with rfl | ⟨q, i, rfl⟩
  · exact absurd h.head (by decide)
  rw [List.concat_eq_append] at h ⊢
  obtain ⟨hi, -, hnear, -⟩ := Network.Route.onward h
  have hlast : ∀ i ∈ diamond.parties.correct, i ∈ diamond.neighbours "t" → i = "a" ∨ i = "c" := by
    decide
  have hi' := hlast i hi hnear
  obtain ⟨hroute, hfresh⟩ := h.init (by simp)
  rcases List.eq_nil_or_concat q with rfl | ⟨r, j, rfl⟩
  · obtain rfl : i = "s" := by simpa using hroute.head
    simp at hi'
  rw [List.concat_eq_append] at hroute hfresh ⊢
  obtain ⟨-, -, hnear', -⟩ := Network.Route.onward hroute
  have hbefore : ∀ i, i = "a" ∨ i = "c" → ∀ j ∈ diamond.neighbours i, j = "s" ∨ j = "t" := by
    rintro i (rfl | rfl) <;> decide
  rcases hbefore i hi' j hnear' with rfl | rfl
  · -- s is the first node, and comes once
    obtain ⟨hr, -⟩ := hroute.init (by simp)
    cases r with
    | nil => simpa using hi'
    | cons x r =>
      obtain rfl : x = "s" := by simpa using hr.head
      exact absurd hr.nodup (by simp)
  · exact absurd (by simp) hfresh

theorem diamond_unblocked : diamond.Unblocked "s" "t" := by
  intro kept _ hroutes hlen
  have hf : diamond.f = 1 := rfl
  by_cases ha : ["s", "a"] ∈ kept
  · obtain rfl : kept = [["s", "a"]] := by
      obtain ⟨p, rfl⟩ := List.length_eq_one_iff.mp
        (le_antisymm (hf ▸ hlen) (List.length_pos_of_mem ha))
      rw [List.mem_singleton.mp ha]
    exact ⟨["s", "c"], diamond_route (.inr rfl), by decide, by decide⟩
  · refine ⟨["s", "a"], diamond_route (.inl rfl), ha, fun q hq => ?_⟩
    rcases diamond_routes (hroutes q hq) with rfl | rfl
    · exact absurd hq ha
    · decide

theorem unforged_diamondRun (e : Envelope PeerId DMsg) : .forge e ∉ diamondRun := by
  intro he
  have hall : ∀ l ∈ diamondRun, (match l with | .forge _ => false | _ => true) = true := by decide
  exact Bool.false_ne_true (hall _ he)

theorem Network.delivered_iff_of_quiescent_diamond :
    ∃ c, exec diamond.next diamond.initial (forestalls :: diamondRun) = some c ∧
      ("m" ∈ (c.st "t").delivered ↔
        diamond.distPaths "t" ((c.st "t").paths.get "m" []) "s" = true) := by
  obtain ⟨c, hc, hquiet⟩ : ∃ c,
      exec diamond.next diamond.initial (forestalls :: diamondRun) = some c ∧
        decide (c.Quiescent diamond.parties) = true := exists_exec_of_any _ _ _ _ (by decide)
  refine ⟨c, hc, delivered_iff_of_quiescent diamond_ids hc (fun e he _ => ?_)
    (of_decide_eq_true hquiet) (by decide)⟩
  rcases List.mem_cons.mp he with heq | he
  · cases heq
    rfl
  · exact absurd he (unforged_diamondRun e)

/-- What b says of a message of its own. -/
def tellOwn (path : List PeerId) : Action := .forge ⟨"b", "t", ⟨"m", "b", "hello", path⟩⟩

/-- The two disjoint paths do not make t deliver; messages that name b as their source do. -/
theorem Network.not_delivered_of_first_diamond :
    ∃ c c' c'', exec diamond.next diamond.initial [forestalls] = some c ∧
      exec diamond.next c (diamondRun ++ [tellOwn []]) = some c' ∧
      diamond.next c' (tellOwn ["a", "c"]) = some c'' ∧
      "m" ∉ (c'.st "t").delivered ∧ "m" ∈ (c''.st "t").delivered ∧
      ∃ msg, Action.processes (tellOwn ["a", "c"]) = some msg ∧ msg.msgId = "m" ∧
        msg.source ∈ diamond.neighbours "t" := by
  obtain ⟨c', hc', hstate'⟩ : ∃ c',
      exec diamond.next diamond.initial ([forestalls] ++ (diamondRun ++ [tellOwn []])) = some c' ∧
        decide ("m" ∉ (c'.st "t").delivered ∧ (diamond.next c' (tellOwn ["a", "c"])).any fun c'' =>
          "m" ∈ (c''.st "t").delivered) = true :=
    exists_exec_of_any _ _ _ _ (by decide)
  obtain ⟨hnot, hnext⟩ := of_decide_eq_true hstate'
  obtain ⟨c'', hc'', hafter⟩ := (Option.any_eq_true _ _).mp hnext
  have hafter' := of_decide_eq_true hafter
  obtain ⟨c, hc, hrest⟩ := exec_prefix hc'
  have hfirst : ∃ c, exec diamond.next diamond.initial [forestalls] = some c ∧
      decide ([["a", "c", "b"]] <+: (c.st "t").paths.get "m" []) = true :=
    exists_exec_of_any _ _ _ _ (by decide)
  obtain ⟨c₁, hc₁, hpre⟩ := hfirst
  obtain rfl := Option.some.inj (hc.symm.trans hc₁)
  exact ⟨c, c', c'', hc, hrest, hc'', hnot, hafter', not_delivered_of_first (by decide) (by decide)
    (by decide) hc (of_decide_eq_true hpre) hrest hc'' hnot hafter'⟩

end DistBench.DolevNaive
