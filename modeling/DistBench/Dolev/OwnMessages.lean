import DistBench.Dolev.Deliveries

/-!
# A node's own messages

Nothing in `dolev` keeps a node from delivering a message that names the node itself as
its source. What keeps it from that, as long as the nodes outside the protocol are silent
and no node is its own neighbour, is how messages travel: a path starts at the source, a
message is not sent back along its path, and an announcement that reaches the source does
not come from there (ND3). `abroad_inductive` is the invariant.

No segment makes up a broadcast either: what a node begins is what it was going to
(`mem_broadcasts_of_begun`).
-/

namespace DistBench.Dolev

open DistBench.Async

variable {V : Type} {N : Network V} {i src : PeerId} {s : DolevState} {msg : DMsg V}
  {flow : Flow V} {t : Cont V} {rest newPath : List PeerId}

/-- A message goes to another node, and once it has a path, its source is on it and its
destination is not. -/
structure Outbound (e : Envelope PeerId (DMsg V)) : Prop where
  dst : e.dst ≠ e.src
  path : e.msg.path ≠ [] → e.msg.source ∈ e.msg.path ∧ e.dst ∉ e.msg.path

/-- The coroutine is about a message of another node, and about to send to a neighbour. -/
def Abroad (N : Network V) (i : PeerId) : Cont V → Prop
  | .broadcast _ | .broadcasting _ _ => True
  | .sendTo peer _ _ => peer ∈ N.neighbours i
  | .directDelivered msg | .delivered msg | .empties _ _ msg => msg.source ≠ i
  | .emptyTo peer _ _ msg => msg.source ≠ i ∧ peer ∈ N.neighbours i
  | .forwardTo peer _ msg newPath _ => msg.source ≠ i ∧ peer ∈ N.neighbours i ∧
    msg.source ∈ newPath ∧ peer ∉ newPath
  | .forward _ msg newPath _ => msg.source ≠ i ∧ msg.source ∈ newPath

/-- A segment leaves such a coroutine, and such messages. -/
structure GoesAbroad (N : Network V) (i : PeerId) (o : Seg V) : Prop where
  rest : ∀ t ∈ o.rest, Abroad N i t
  out : ∀ dm ∈ o.out, Outbound (⟨i, dm.1, dm.2⟩ : Envelope PeerId (DMsg V))

/-- The same for a flow. -/
def Flow.Abroad (N : Network V) (i : PeerId) : Flow V → Prop
  | .stop o => GoesAbroad N i o
  | .deliver _ msg => msg.source ≠ i

theorem GoesAbroad.quiet {rest : Option (Cont V)} (hrest : ∀ t ∈ rest, Abroad N i t) :
    GoesAbroad N i { st := s, rest := rest } :=
  ⟨hrest, nofun⟩

theorem Cont.Direct.abroad (h : t.Direct msg (· ∈ N.neighbours i)) (hmsg : msg.source ≠ i) :
    Abroad N i t := by
  cases h with
  | delivered | empties => exact hmsg
  | emptyTo hpeer => exact ⟨hmsg, hpeer⟩

theorem Cont.Final.abroad (h : t.Final msg (· ∈ N.neighbours i)) (hmsg : msg.source ≠ i) :
    Abroad N i t := by
  cases h with
  | delivered | empties => exact hmsg
  | emptyTo hpeer => exact ⟨hmsg, hpeer⟩

theorem Abroad.source_ne (h : Abroad N i t) (ht : t.msg? = some msg) : msg.source ≠ i := by
  cases t with
  | broadcast _ | sendTo _ _ _ | broadcasting _ _ => cases ht
  | directDelivered _ | delivered _ | empties _ _ _ =>
    obtain rfl := Option.some.inj ht
    exact h
  | emptyTo _ _ _ _ | forwardTo _ _ _ _ _ | forward _ _ _ _ =>
    obtain rfl := Option.some.inj ht
    exact h.1

theorem Flow.Abroad.settle (h : flow.Abroad N i) : GoesAbroad N i (N.settle i flow) := by
  cases flow with
  | stop o => exact h
  | deliver s msg =>
    rw [Network.settle]
    generalize ho : N.myDeliver i s msg = o
    have hends : Ends N i s msg o := ho ▸ ends_myDeliver
    cases hends with
    | before _ _ hrest | fails _ _ _ hrest =>
      exact .quiet fun t ht => (hrest t ht).toFinal.abroad h
    | passes _ _ _ hrest => exact .quiet fun t ht => (hrest t ht).abroad h

theorem Forwards.abroad (h : Forwards N i s rest msg newPath flow) (hmsg : msg.source ≠ i)
    (hpath : msg.source ∈ newPath) : flow.Abroad N i := by
  cases h with
  | wait hpeer hout _ =>
    refine GoesAbroad.quiet fun t ht => ?_
    obtain rfl := Option.some.inj ht
    exact ⟨hmsg, hpeer, hpath, hout⟩
  | through _ => exact hmsg

theorem Relays.abroad (h : Relays N i s src msg flow) (hmsg : msg.source ≠ i)
    (hpath : msg.source ∈ msg.path ++ [src]) : flow.Abroad N i := by
  cases h with
  | drop _ => exact GoesAbroad.quiet nofun
  | record _ _ hfwd => exact hfwd.abroad hmsg hpath

theorem AfterDirect.abroad (h : AfterDirect N i s msg flow) (hmsg : msg.source ≠ i) :
    flow.Abroad N i := by
  cases h with
  | wait _ ht =>
    refine GoesAbroad.quiet fun t' ht' => ?_
    obtain rfl := Option.some.inj ht'
    exact ht.toDirect.abroad hmsg
  | relay _ hrelay => exact hrelay.abroad hmsg (by simp)

/-- A handler drops what it gets of its node's own messages. -/
theorem Handles.abroad (h : Handles N i s src msg flow)
    (hmsg : Outbound (⟨src, i, msg⟩ : Envelope PeerId (DMsg V))) : flow.Abroad N i := by
  -- the source is the sender, or on the path, where this node is not
  have hsource (hsrc : msg.path ≠ [] ∨ src = msg.source) :
      msg.source ≠ i ∧ msg.source ∈ msg.path ++ [src] := by
    by_cases hp : msg.path = []
    · obtain rfl := hsrc.resolve_left (not_not.mpr hp)
      exact ⟨hmsg.dst.symm, by simp⟩
    · obtain ⟨hon, hoff⟩ := hmsg.path hp
      exact ⟨fun heq => hoff (heq ▸ hon), List.mem_append_left _ hon⟩
  cases h with
  | stranger _ | md5 _ _ _ | note _ _ => exact GoesAbroad.quiet nofun
  | parent hsrc _ =>
    refine GoesAbroad.quiet fun t ht => ?_
    obtain rfl := Option.some.inj ht
    exact (hsource (.inr hsrc)).1
  | direct hsrc _ hafter => exact hafter.abroad (hsource (.inr hsrc)).1
  | relay _ _ hpath hrelay =>
    rw [not_and_or, not_not] at hpath
    obtain ⟨hne, hon⟩ := hsource hpath
    exact hrelay.abroad hne hon

theorem Resumes.abroad (h : Resumes N i s t flow) (hirrefl : i ∉ N.neighbours i)
    (ht : Abroad N i t) : flow.Abroad N i := by
  have hne {peer : PeerId} (hpeer : peer ∈ N.neighbours i) : peer ≠ i := fun h =>
    hirrefl (h ▸ hpeer)
  cases h with
  | broadcast _ hout hrest | broadcasting hout hrest =>
    refine ⟨fun t' ht' => ?_, fun dm hdm => ?_⟩
    · cases hrest t' ht' with
      | sendTo hpeer => exact hpeer
      | broadcasting => trivial
    · obtain ⟨hpeer, hmsg⟩ := hout dm hdm
      exact ⟨hne hpeer, fun hpath => absurd (hmsg ▸ rfl) hpath⟩
  | sendTo =>
    refine ⟨fun t' ht' => ?_, fun dm hdm => ?_⟩
    · obtain rfl := Option.some.inj ht'
      trivial
    · obtain rfl := List.mem_singleton.mp hdm
      exact ⟨hne ht, fun hpath => absurd rfl hpath⟩
  | direct hdirect hafter =>
    exact hafter.abroad (ht.source_ne hdirect.msg?_eq)
  | final hfinal _ hrest =>
    have hmsg := ht.source_ne hfinal.msg?_eq
    exact GoesAbroad.quiet fun t' ht' => (hrest t' ht').toFinal.abroad hmsg
  | emptyTo =>
    refine ⟨fun t' ht' => ?_, fun dm hdm => ?_⟩
    · obtain rfl := Option.some.inj ht'
      exact ht.1
    · obtain rfl := List.mem_singleton.mp hdm
      exact ⟨hne ht.2, fun hpath => absurd rfl hpath⟩
  | forwardTo =>
    refine ⟨fun t' ht' => ?_, fun dm hdm => ?_⟩
    · obtain rfl := Option.some.inj ht'
      exact ⟨ht.1, ht.2.2.1⟩
    · obtain rfl := List.mem_singleton.mp hdm
      exact ⟨hne ht.2.1, fun _ => ht.2.2⟩
  | forward hfwd => exact hfwd.abroad ht.1 ht.2

/-- The assertion that no node has to do with its own messages. -/
def abroad (N : Network V) : Assertion PeerId (DMsg V) DolevState (Cont V) where
  node _ i _ ts := ∀ t ∈ ts, Abroad N i t
  msg _ e := Outbound e

/-- As long as the nodes outside the protocol are silent, no node gets to do with its own
messages. -/
theorem abroad_inductive [DecidableEq V] (hirrefl : ∀ i, i ∉ N.neighbours i) :
    (abroad N).Inductive N.protocol N.parties N.initial fun _ _ l => ∀ e, l ≠ .forge e where
  init := by
    refine ⟨fun i _ t ht => ?_, nofun, nofun⟩
    obtain ⟨b, -, rfl⟩ := List.mem_map.mp ht
    trivial
  node_mono _ h := h
  msg_mono h := h
  segment := by
    intro ls c l i o base _ hA hsilent hseg
    have hsettled : GoesAbroad N i o := by
      rw [flow_of_segment hseg]
      cases hseg with
      | @recv e hnet _ => exact (handles_dolev.abroad (hA.msg e hnet)).settle
      | forge _ _ => exact absurd rfl (hsilent _)
      | @wake i t _ hi ht _ =>
        exact (resumes_resume.abroad (hirrefl i) (hA.node i hi t ht)).settle
    refine ⟨fun t ht => ?_, hsettled.out⟩
    rcases hseg.mem_rest_or_tasks ht with hnew | hold
    · exact hsettled.rest t hnew
    · exact hA.node i hseg.correct t hold

/-! ## What it broadcasts -/

/-- A segment does not leave a broadcast to begin. -/
theorem ne_broadcast_of_rest {c : Global V} {l : Action V}
    (ht : t ∈ (N.settle l.node (N.flow c l)).rest) (b : Broadcast V) : t ≠ .broadcast b := by
  have hmsg? {msg : DMsg V} (hmsg : t.msg? = some msg) : t ≠ .broadcast b := by
    rintro rfl
    cases hmsg
  cases l with
  | recv e | forge e => exact hmsg? (handles_dolev.about.settle.rest t ht)
  | wake i k =>
    cases hk : k.msg? with
    | some msg => exact hmsg? ((resumes_resume.about hk).settle.rest t ht)
    | none =>
      obtain hres : Resumes N i (c.st i) k (N.resume i (c.st i) k) := resumes_resume
      rw [Label.node, Network.flow] at ht
      generalize N.resume i (c.st i) k = flow at hres ht
      cases hres with
      | broadcast _ _ hrest | broadcasting _ hrest =>
        rintro rfl
        cases hrest _ ht
      | sendTo =>
        rintro rfl
        cases Option.some.inj ht
      | direct hdirect _ => cases hdirect.msg?_eq.symm.trans hk
      | final hfinal _ _ => cases hfinal.msg?_eq.symm.trans hk
      | emptyTo | forwardTo | forward _ => cases hk

/-- What a node has begun, or is about to, is one of its broadcasts. -/
def planned (N : Network V) : Assertion PeerId (DMsg V) DolevState (Cont V) where
  node ls i _ ts := ∀ b, b ∈ begun ls i ∨ .broadcast b ∈ ts → b ∈ N.broadcasts i
  msg _ _ := True

theorem planned_inductive [DecidableEq V] :
    (planned N).Inductive N.protocol N.parties N.initial fun _ _ _ => True where
  init := by
    refine ⟨fun i _ b hb => ?_, nofun, nofun⟩
    obtain ⟨b', hb', heq⟩ := List.mem_map.mp (hb.resolve_left nofun)
    obtain rfl := Cont.broadcast.inj heq
    exact hb'
  node_mono := by
    intro ls l i s ts hne h b hb
    refine h b (hb.imp_left fun hbegun => ?_)
    rcases List.mem_append.mp (mem_begun.mp hbegun) with hold | hnew
    · exact mem_begun.mpr hold
    · exact absurd (List.mem_singleton.mp hnew ▸ rfl) hne
  msg_mono h := h
  segment := by
    intro ls c l i o base _ hA _ hseg
    refine ⟨fun b hb => ?_, fun _ _ => trivial⟩
    have hplan := hA.node i hseg.correct b
    rcases hb with hbegun | ht
    · rcases List.mem_append.mp (mem_begun.mp hbegun) with hold | hnew
      · exact hplan (.inl (mem_begun.mpr hold))
      · obtain rfl := List.mem_singleton.mp hnew
        cases hseg with
        | wake _ ht _ => exact hplan (.inr ht)
    · rcases hseg.mem_rest_or_tasks ht with hnew | hold
      · have hno := ne_broadcast_of_rest (N := N) (c := c) (l := l) (t := .broadcast b)
        rw [hseg.node_eq, ← flow_of_segment hseg] at hno
        exact absurd rfl (hno hnew b)
      · exact hplan (.inr hold)

theorem mem_broadcasts_of_begun [DecidableEq V] {ls : History V} {c : Global V} {b : Broadcast V}
    (hc : exec N.next N.initial ls = some c) (hi : i ∈ N.parties.correct) (hb : b ∈ begun ls i) :
    b ∈ N.broadcasts i :=
  (Assertion.holds_of_run planned_inductive hc).node i hi b (.inl hb)

end DistBench.Dolev
