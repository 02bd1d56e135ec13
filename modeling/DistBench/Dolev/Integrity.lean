import DistBench.Dolev.Segments
import DistBench.Lib.Paths

/-!
# What a delivery by Dolev's algorithm rests on

A node that delivers a message of a correct source should have grounds for it: the
source has broadcast this very message. The code takes two things for grounds that
are none.

- A message from the neighbour it names as its source is delivered at once (MD1),
  whatever path it carries. A correct node does hand on such messages that it has
  not broadcast: those a Byzantine neighbour relays to it under its own name.
- The paths are kept by message id alone, and `distPaths` looks for disjoint paths
  in the graph of all their edges. The `f + 1` paths it finds need not have been
  received, nor need they have come with this payload or source.

`Sound` is the condition on a step that neither happens: what a node relays under
its own name it has broadcast (`OwnName`), and when the test lets a message of a
correct source through, no `f` nodes lie on all the paths on which the node has
received this very message (`PathsBacked`). In the runs of such steps every
delivery has its broadcast (`integrity_of_sound`); `lineRun` is a run with one
Byzantine node where it has not.

The argument goes back along a path no Byzantine node lies on: `provenance` says of
every message of a correct node that it is its own broadcast or names, as the last
node of its path, the node it has got it from (`MsgOk`), and `broadcasts_of_path`
follows the path to the source.
-/

namespace DistBench.Dolev

open DistBench.Async DistBench.Paths

variable {V : Type}

/-! ## Broadcasts and received paths -/

/-- The broadcasts a node has begun. -/
def begun (ls : History V) (i : PeerId) : List (Broadcast V) :=
  ls.filterMap fun
    | .wake j (.broadcast b) => if j = i then some b else none
    | _ => none

theorem mem_begun {ls : History V} {i : PeerId} {b : Broadcast V} :
    b ∈ begun ls i ↔ .wake i (.broadcast b) ∈ ls := by
  rw [begun, List.mem_filterMap]
  constructor
  · rintro ⟨l, hl, hb⟩
    split at hb
    · obtain ⟨rfl, rfl⟩ := Option.ite_none_right_eq_some.mp hb |>.imp_right Option.some.inj
      exact hl
    · cases hb
  · intro h
    exact ⟨_, h, by simp⟩

/-- Node `i` has broadcast the id and the payload of `msg`. -/
def HasBroadcast (ls : History V) (i : PeerId) (msg : DMsg V) : Prop :=
  ∃ b ∈ begun ls i, b.msgId = msg.msgId ∧ b.payload = msg.payload

instance [DecidableEq V] (ls : History V) (i : PeerId) (msg : DMsg V) :
    Decidable (HasBroadcast ls i msg) :=
  inferInstanceAs (Decidable (∃ b ∈ begun ls i, _))

theorem HasBroadcast.append {ls : History V} {i : PeerId} {msg : DMsg V} (ls' : History V)
    (h : HasBroadcast ls i msg) : HasBroadcast (ls ++ ls') i msg := by
  obtain ⟨b, hb, hid⟩ := h
  exact ⟨b, mem_begun.mpr (List.mem_append_left _ (mem_begun.mp hb)), hid⟩

/-- The paths on which node `i` has received the id, source and payload of `msg`:
those `dolev` records, with the neighbour they came from as the last node. -/
def receivedPaths [DecidableEq V] (ls : History V) (i : PeerId) (msg : DMsg V) :
    List (List PeerId) :=
  ((envelopes ls).filter fun e => e.dst = i ∧ { msg with path := e.msg.path } = e.msg ∧
    (e.msg.path ≠ [] ∨ e.src = msg.source)).map fun e => e.msg.path ++ [e.src]

theorem mem_receivedPaths [DecidableEq V] {ls : History V} {i : PeerId} {msg : DMsg V}
    {full : List PeerId} : full ∈ receivedPaths ls i msg ↔
      ∃ path src, full = path ++ [src] ∧ Handled ls i src { msg with path := path } ∧
        (path ≠ [] ∨ src = msg.source) := by
  simp only [receivedPaths, List.mem_map, List.mem_filter, mem_envelopes, decide_eq_true_eq]
  constructor
  · rintro ⟨⟨src, dst, m⟩, ⟨hm, rfl, heq, hpath⟩, rfl⟩
    refine ⟨m.path, src, rfl, ?_, hpath⟩
    rw [heq]
    exact hm
  · rintro ⟨path, src, rfl, hm, hpath⟩
    exact ⟨⟨src, i, { msg with path := path }⟩, ⟨hm, rfl, rfl, hpath⟩, rfl⟩

/-! ## The steps -/

namespace Network

variable (N : Network V)

/-- A handler of `msg` gets past MD5, ND3 and MD4 to where it records the path. -/
def Records (self : PeerId) (s : DolevState) (src : PeerId) (msg : DMsg V) : Prop :=
  src ∈ N.neighbours self ∧ ¬ (msg.msgId ∈ s.delivered ∧ msg.msgId ∈ s.forwardedEmpty) ∧
    ¬ (msg.path = [] ∧ src ≠ msg.source) ∧
    ¬ (src ∈ s.neighbourDelivered.get msg.msgId ∅ ∧ src ∈ msg.path)

instance (self : PeerId) (s : DolevState) (src : PeerId) (msg : DMsg V) :
    Decidable (N.Records self s src msg) :=
  inferInstanceAs (Decidable (_ ∧ _))

/-- What a node records under its own name it has broadcast. -/
def OwnName (ls : History V) (c : Global V) : Action V → Prop
  | .recv e | .forge e =>
    e.msg.source = e.dst → N.Records e.dst (c.st e.dst) e.src e.msg → HasBroadcast ls e.dst e.msg
  | .wake _ _ => True

/-- When the test lets a message of another correct node through, no `f` nodes lie
on all the paths on which it has been received. -/
def PathsBacked [DecidableEq V] (ls : History V) (c : Global V) (l : Action V) : Prop :=
  match N.flow c l with
  | .stop _ => True
  | .deliver s msg =>
    msg.msgId ∉ s.delivered → N.distPaths l.node (s.paths.get msg.msgId []) msg.source = true →
      msg.source ∈ N.parties.correct → msg.source ≠ l.node →
        Uncut N.f N.parties.nodes msg.source l.node (receivedPaths (ls ++ [l]) l.node msg)

/-- The condition on a step. -/
def Sound [DecidableEq V] (ls : History V) (c : Global V) (l : Action V) : Prop :=
  N.OwnName ls c l ∧ N.PathsBacked ls c l

instance [DecidableEq V] (ls : History V) (c : Global V) (l : Action V) :
    Decidable (N.OwnName ls c l) := by
  cases l <;> unfold OwnName <;> infer_instance

instance [DecidableEq V] (ls : History V) (c : Global V) (l : Action V) :
    Decidable (N.PathsBacked ls c l) := by
  unfold PathsBacked
  cases N.flow c l <;> infer_instance

instance [DecidableEq V] (ls : History V) (c : Global V) (l : Action V) :
    Decidable (N.Sound ls c l) :=
  inferInstanceAs (Decidable (_ ∧ _))

end Network

/-- The message a segment is about, unless it is one of a broadcast. -/
def processed : Action V → Option (DMsg V)
  | .recv e | .forge e => some e.msg
  | .wake _ t => t.msg?

namespace Network

variable [DecidableEq V] (N : Network V)

/-- The node of the step adds the id of `msg` to `delivered` while processing `msg`. -/
def Delivers (msg : DMsg V) (c : Global V) (l : Action V) : Prop :=
  processed l = some msg ∧ msg.msgId ∉ (c.st l.node).delivered ∧
    ∃ c', N.next c l = some c' ∧ msg.msgId ∈ (c'.st l.node).delivered

/-- What a step delivers for another correct node, that node has broadcast. -/
def Integrity (ls : History V) (c : Global V) (l : Action V) : Prop :=
  ∀ msg, N.Delivers msg c l → msg.source ∈ N.parties.correct → msg.source ≠ l.node →
    HasBroadcast ls msg.source msg

end Network

variable {N : Network V}

/-! ## Where a delivery happens -/

section Delivered

variable {i src : PeerId} {s s₀ : DolevState} {rest : List PeerId} {msg : DMsg V}
  {newPath : List PeerId} {flow : Flow V} {added : Prop}

/-- A flow delivers the id of `msg` only if `added`, and gets to `my_deliver` with
`msg` only. -/
def Flow.Adds (msg : DMsg V) (added : Prop) : Flow V → Prop
  | .stop o => msg.msgId ∈ o.st.delivered → added
  | .deliver s msg' => msg' = msg ∧ (msg.msgId ∈ s.delivered → added)

theorem Forwards.adds (h : Forwards N i s rest msg newPath flow)
    (hs : msg.msgId ∈ s.delivered → added) : flow.Adds msg added := by
  cases h with
  | wait _ _ _ => exact hs
  | through _ => exact ⟨rfl, hs⟩

theorem Relays.adds (h : Relays N i s src msg flow) (hs : msg.msgId ∈ s.delivered → added) :
    flow.Adds msg added := by
  cases h with
  | drop _ => exact hs
  | record _ hkept hfwd => exact hfwd.adds fun hm => hs (hkept.delivered ▸ hm)

theorem AfterDirect.adds (h : AfterDirect N i s msg flow) (hs : msg.msgId ∈ s.delivered → added) :
    flow.Adds msg added := by
  cases h with
  | wait hkept _ => exact fun hm => hs (hkept.delivered ▸ hm)
  | relay hkept hrelay => exact hrelay.adds fun hm => hs (hkept.delivered ▸ hm)

/-- Before its final `my_deliver` a handler delivers only what comes from its source. -/
theorem Handles.adds (h : Handles N i s src msg flow) (hs : msg.msgId ∉ s.delivered) :
    flow.Adds msg (src = msg.source) := by
  cases h with
  | stranger _ | md5 _ _ _ | note _ _ => exact fun hm => absurd hm hs
  | parent hsrc _ => exact fun _ => hsrc
  | direct hsrc _ hafter => exact hafter.adds fun _ => hsrc
  | relay _ _ _ hrelay => exact hrelay.adds fun hm => absurd hm hs

/-- A handler that goes on delivers nothing before its final `my_deliver`. -/
theorem Resumes.adds {t : Cont V} (h : Resumes N i s t flow) (ht : t.msg? = some msg)
    (hs : msg.msgId ∉ s.delivered) : flow.Adds msg False := by
  cases h with
  | broadcast _ _ _ | sendTo | broadcasting _ _ => cases ht
  | direct hdirect hafter =>
    cases hdirect <;>
      obtain rfl := Option.some.inj ht <;> exact hafter.adds hs
  | final hfinal hkept _ =>
    cases hfinal <;>
      obtain rfl := Option.some.inj ht <;> exact fun hm => hs (hkept.delivered ▸ hm)
  | emptyTo | forwardTo =>
    obtain rfl := Option.some.inj ht
    exact hs
  | forward hfwd =>
    obtain rfl := Option.some.inj ht
    exact hfwd.adds hs

/-- In the final `my_deliver` the id is delivered when the test passes. -/
theorem Flow.Adds.settle (h : flow.Adds msg added)
    (hm : msg.msgId ∈ (N.settle i flow).st.delivered) :
    added ∨ ∃ s, flow = .deliver s msg ∧ msg.msgId ∉ s.delivered ∧
      N.distPaths i (s.paths.get msg.msgId []) msg.source = true := by
  cases flow with
  | stop o => exact .inl (h hm)
  | deliver s msg' =>
    obtain ⟨rfl, hs⟩ := h
    rw [Network.settle] at hm
    generalize ho : N.myDeliver i s msg' = o at hm
    have hends : Ends N i s msg' o := ho ▸ ends_myDeliver
    cases hends with
    | before hdel _ _ => exact .inl (hs hdel)
    | fails hdel _ hkept _ => exact absurd (hkept.delivered ▸ hm) hdel
    | passes hdel htest _ _ => exact .inr ⟨s, rfl, hdel, htest⟩

/-- A message is delivered from its source, or by the test of the paths. -/
theorem delivers_cases [DecidableEq V] {c : Global V} {l : Action V} (h : N.Delivers msg c l) :
    (∃ src, Handled [l] l.node src msg ∧ src = msg.source) ∨
      ∃ s, N.flow c l = .deliver s msg ∧ msg.msgId ∉ s.delivered ∧
        N.distPaths l.node (s.paths.get msg.msgId []) msg.source = true := by
  obtain ⟨hproc, hbefore, c', hstep, hafter⟩ := h
  obtain ⟨i, o, base, hseg, rfl⟩ := step_iff.mp hstep
  rw [hseg.node_eq] at hbefore hafter ⊢
  rw [Config.commit_st_self, flow_of_segment hseg] at hafter
  cases hseg with
  | recv _ _ =>
    obtain rfl := Option.some.inj hproc
    refine (Flow.Adds.settle (handles_dolev.adds hbefore) hafter).imp_left ?_
    exact fun hsrc => ⟨_, .inl (List.mem_singleton_self _), hsrc⟩
  | forge _ _ =>
    obtain rfl := Option.some.inj hproc
    refine (Flow.Adds.settle (handles_dolev.adds hbefore) hafter).imp_left ?_
    exact fun hsrc => ⟨_, .inr (List.mem_singleton_self _), hsrc⟩
  | wake _ _ _ =>
    exact (Flow.Adds.settle (resumes_resume.adds hproc hbefore) hafter).imp_left False.elim

end Delivered

/-! ## Where messages come from -/

/-- Node `i` has handled `msg` from `src` and recorded its path; if it names the
node itself as its source, the node has broadcast it. -/
structure Heard (ls : History V) (i src : PeerId) (msg : DMsg V) : Prop where
  handled : Handled ls i src msg
  path : msg.path ≠ [] ∨ src = msg.source
  own : msg.source = i → HasBroadcast ls i msg

/-- What a coroutine sends on has been heard, or is the node's own broadcast. -/
def TaskOk (ls : History V) (i : PeerId) : Cont V → Prop
  | .broadcast _ => True
  | .sendTo _ _ b | .broadcasting _ b => b ∈ begun ls i
  | .directDelivered msg => Heard ls i msg.source msg
  | .delivered msg => ∃ src, Heard ls i src msg
  | .emptyTo _ _ direct msg | .empties _ direct msg =>
    ∃ src, Heard ls i src msg ∧ (direct = true → src = msg.source)
  | .forwardTo _ _ msg newPath _ | .forward _ msg newPath _ =>
    ∃ src, newPath = msg.path ++ [src] ∧ Heard ls i src msg

/-- What a correct node says under its own name it has broadcast, and the last node
of a path is the one it has heard the message from. -/
structure MsgOk (ls : History V) (e : Envelope PeerId (DMsg V)) : Prop where
  own : e.msg.source = e.src → HasBroadcast ls e.src e.msg
  path : ∀ p src, e.msg.path = p ++ [src] →
    Handled ls e.src src { e.msg with path := p } ∧ (p ≠ [] ∨ src = e.msg.source)

/-- The assertion that messages of correct nodes have an origin. -/
def provenance (V : Type) : Assertion PeerId (DMsg V) DolevState (Cont V) where
  node ls i _ ts := ∀ t ∈ ts, TaskOk ls i t
  msg ls e := MsgOk ls e

theorem mem_begun_append {ls : History V} {i : PeerId} {b : Broadcast V} (ls' : History V)
    (h : b ∈ begun ls i) : b ∈ begun (ls ++ ls') i :=
  mem_begun.mpr (List.mem_append_left _ (mem_begun.mp h))

theorem Heard.append {ls : History V} {i src : PeerId} {msg : DMsg V} (ls' : History V)
    (h : Heard ls i src msg) : Heard (ls ++ ls') i src msg :=
  ⟨h.handled.append, h.path, fun hown => (h.own hown).append ls'⟩

theorem TaskOk.append {ls : History V} {i : PeerId} {t : Cont V} (ls' : History V)
    (h : TaskOk ls i t) : TaskOk (ls ++ ls') i t := by
  cases t with
  | broadcast _ => trivial
  | sendTo _ _ _ | broadcasting _ _ => exact mem_begun_append ls' h
  | directDelivered _ => exact Heard.append ls' h
  | delivered _ =>
    obtain ⟨src, hheard⟩ := h
    exact ⟨src, hheard.append ls'⟩
  | emptyTo _ _ _ _ | empties _ _ _ =>
    obtain ⟨src, hheard, hsrc⟩ := h
    exact ⟨src, hheard.append ls', hsrc⟩
  | forwardTo _ _ _ _ _ | forward _ _ _ _ =>
    obtain ⟨src, hpath, hheard⟩ := h
    exact ⟨src, hpath, hheard.append ls'⟩

theorem MsgOk.append {ls : History V} {e : Envelope PeerId (DMsg V)} (ls' : History V)
    (h : MsgOk ls e) : MsgOk (ls ++ ls') e where
  own hown := (h.own hown).append ls'
  path p src hp := ⟨(h.path p src hp).1.append, (h.path p src hp).2⟩

section Provenance

variable {ls : History V} {i src : PeerId} {s : DolevState} {rest : List PeerId} {msg : DMsg V}
  {flow : Flow V} {t : Cont V} {b : Broadcast V} {near : PeerId → Prop}

theorem Cont.Sending.taskOk_iff (ht : t.Sending b near) :
    TaskOk ls i t ↔ b ∈ begun ls i := by
  cases ht <;> exact Iff.rfl

theorem Cont.Direct.taskOk_iff (ht : t.Direct msg near) :
    TaskOk ls i t ↔ Heard ls i msg.source msg := by
  cases ht with
  | delivered => exact Iff.rfl
  | emptyTo | empties =>
    constructor
    · rintro ⟨src, hheard, hsrc⟩
      exact hsrc rfl ▸ hheard
    · exact fun hheard => ⟨_, hheard, fun _ => rfl⟩

theorem Cont.Final.taskOk_iff (ht : t.Final msg near) :
    TaskOk ls i t ↔ ∃ src, Heard ls i src msg := by
  cases ht with
  | delivered => exact Iff.rfl
  | emptyTo | empties =>
    constructor
    · rintro ⟨src, hheard, -⟩
      exact ⟨src, hheard⟩
    · rintro ⟨src, hheard⟩
      exact ⟨src, hheard, nofun⟩

/-- A segment leaves a coroutine and messages that have an origin. -/
structure OutcomeOk (ls : History V) (i : PeerId) (o : Seg V) : Prop where
  rest : ∀ t ∈ o.rest, TaskOk ls i t
  out : ∀ dm ∈ o.out, MsgOk ls ⟨i, dm.1, dm.2⟩

/-- The same for a flow: what gets to `my_deliver` has been heard. -/
def Flow.Ok (ls : History V) (i : PeerId) : Flow V → Prop
  | .stop o => OutcomeOk ls i o
  | .deliver _ msg => ∃ src, Heard ls i src msg

theorem OutcomeOk.quiet {s : DolevState} {rest : Option (Cont V)}
    (h : ∀ t ∈ rest, TaskOk ls i t) : OutcomeOk ls i { st := s, rest := rest } :=
  ⟨h, nofun⟩

theorem Flow.Ok.settle (h : flow.Ok ls i) : OutcomeOk ls i (N.settle i flow) := by
  cases flow with
  | stop o => exact h
  | deliver s msg =>
    obtain ⟨src, hheard⟩ := h
    rw [Network.settle]
    generalize ho : N.myDeliver i s msg = o
    have hends : Ends N i s msg o := ho ▸ ends_myDeliver
    cases hends with
    | before _ _ hrest | fails _ _ _ hrest =>
      exact .quiet fun t ht => (hrest t ht).toFinal.taskOk_iff.mpr ⟨src, hheard⟩
    | passes _ _ _ hrest => exact .quiet fun t ht => (hrest t ht).taskOk_iff.mpr ⟨src, hheard⟩

theorem Forwards.ok (h : Forwards N i s rest msg (msg.path ++ [src]) flow)
    (hheard : Heard ls i src msg) : flow.Ok ls i := by
  cases h with
  | wait _ _ _ =>
    refine OutcomeOk.quiet fun t ht => ?_
    obtain rfl := Option.some.inj ht
    exact ⟨src, rfl, hheard⟩
  | through _ => exact ⟨src, hheard⟩

theorem Relays.ok (h : Relays N i s src msg flow)
    (hheard : ¬ (src ∈ s.neighbourDelivered.get msg.msgId ∅ ∧ src ∈ msg.path) →
      Heard ls i src msg) : flow.Ok ls i := by
  cases h with
  | drop _ => exact OutcomeOk.quiet nofun
  | record hmd4 _ hfwd => exact hfwd.ok (hheard hmd4)

theorem AfterDirect.ok (h : AfterDirect N i s msg flow) (hheard : Heard ls i msg.source msg) :
    flow.Ok ls i := by
  cases h with
  | wait _ ht =>
    refine OutcomeOk.quiet fun t' ht' => ?_
    obtain rfl := Option.some.inj ht'
    exact ht.toDirect.taskOk_iff.mpr hheard
  | relay _ hrelay => exact hrelay.ok fun _ => hheard

/-- A node's own message, sent to a neighbour. -/
theorem msgOk_broadcast (hb : b ∈ begun ls i) (d : PeerId) : MsgOk ls ⟨i, d, b.dmsg i⟩ where
  own _ := ⟨b, hb, rfl, rfl⟩
  path p src hp := by simp [Broadcast.dmsg] at hp

/-- An announcement. -/
theorem Heard.msgOk_empty (h : Heard ls i src msg) (d : PeerId) :
    MsgOk ls ⟨i, d, { msg with path := [] }⟩ where
  own := h.own
  path p src hp := by simp at hp

/-- A message sent on. -/
theorem Heard.msgOk_forward (h : Heard ls i src msg) (d : PeerId) :
    MsgOk ls ⟨i, d, { msg with path := msg.path ++ [src] }⟩ where
  own := h.own
  path p src' hp := by
    obtain ⟨rfl, hsrc⟩ := List.append_inj' hp rfl
    obtain rfl := List.singleton_inj.mp hsrc
    exact ⟨h.handled, h.path⟩

theorem Handles.ok (h : Handles N i s src msg flow) (hhandled : Handled ls i src msg)
    (hself : src = i → msg.source = i → HasBroadcast ls i msg)
    (hown : msg.source = i → N.Records i s src msg → HasBroadcast ls i msg) : flow.Ok ls i := by
  cases h with
  | stranger _ | md5 _ _ _ | note _ _ => exact OutcomeOk.quiet nofun
  | parent hsrc _ =>
    subst hsrc
    refine OutcomeOk.quiet fun t ht => ?_
    obtain rfl := Option.some.inj ht
    exact ⟨hhandled, .inr rfl, fun h => hself h h⟩
  | direct hsrc _ hafter =>
    subst hsrc
    exact hafter.ok ⟨hhandled, .inr rfl, fun h => hself h h⟩
  | relay hsrc hmd5 hpath hrelay =>
    refine hrelay.ok fun hmd4 => ⟨hhandled, ?_, fun h => hown h ⟨hsrc, hmd5, hpath, hmd4⟩⟩
    rw [not_and_or, not_not] at hpath
    exact hpath

theorem Resumes.ok (h : Resumes N i s t flow) (ht : TaskOk ls i t)
    (hbegun : ∀ b, t = .broadcast b → b ∈ begun ls i) : flow.Ok ls i := by
  cases h with
  | broadcast _ hout hrest =>
    have hb := hbegun _ rfl
    refine ⟨fun t' ht' => (hrest t' ht').taskOk_iff.mpr hb, fun dm hdm => ?_⟩
    rw [(hout dm hdm).2]
    exact msgOk_broadcast hb dm.1
  | sendTo =>
    refine ⟨fun t' ht' => ?_, fun dm hdm => ?_⟩
    · obtain rfl := Option.some.inj ht'
      exact ht
    · obtain rfl := List.mem_singleton.mp hdm
      exact msgOk_broadcast ht _
  | broadcasting hout hrest =>
    refine ⟨fun t' ht' => (hrest t' ht').taskOk_iff.mpr ht, fun dm hdm => ?_⟩
    rw [(hout dm hdm).2]
    exact msgOk_broadcast ht dm.1
  | direct hdirect hafter => exact hafter.ok (hdirect.taskOk_iff.mp ht)
  | final hfinal _ hrest =>
    refine OutcomeOk.quiet fun t' ht' => ?_
    exact (hrest t' ht').toFinal.taskOk_iff.mpr (hfinal.taskOk_iff.mp ht)
  | emptyTo =>
    obtain ⟨src, hheard, hsrc⟩ := ht
    refine ⟨fun t' ht' => ?_, fun dm hdm => ?_⟩
    · obtain rfl := Option.some.inj ht'
      exact ⟨src, hheard, hsrc⟩
    · obtain rfl := List.mem_singleton.mp hdm
      exact hheard.msgOk_empty _
  | forwardTo =>
    obtain ⟨src, rfl, hheard⟩ := ht
    refine ⟨fun t' ht' => ?_, fun dm hdm => ?_⟩
    · obtain rfl := Option.some.inj ht'
      exact ⟨src, rfl, hheard⟩
    · obtain rfl := List.mem_singleton.mp hdm
      exact hheard.msgOk_forward _
  | forward hfwd =>
    obtain ⟨src, rfl, hheard⟩ := ht
    exact hfwd.ok hheard

end Provenance

variable [DecidableEq V]

/-- In a run whose nodes relay under their own names only what they have broadcast,
every message of a correct node has an origin. -/
theorem provenance_inductive :
    (provenance V).Inductive N.protocol N.parties N.initial N.OwnName where
  init := by
    refine ⟨fun i _ t ht => ?_, nofun, nofun⟩
    obtain ⟨b, -, rfl⟩ := List.mem_map.mp ht
    trivial
  node_mono _ h t ht := (h t ht).append _
  msg_mono h := h.append _
  segment := by
    intro ls c l i o base hc hA hown hseg
    -- what a handler of `msg` from `src` at `i` leaves
    have hhandle : ∀ src msg, Handled (ls ++ [l]) i src msg →
        (msg.source = i → N.Records i (c.st i) src msg → HasBroadcast ls i msg) →
        OutcomeOk (ls ++ [l]) i (N.settle i (N.dolev i (c.st i) src msg)) := by
      intro src msg hhandled hown'
      refine (handles_dolev.ok hhandled ?_ fun h hrec => (hown' h hrec).append _).settle
      rintro rfl hsource
      exact ((hA.msg_of_handled hc hseg hhandled hseg.correct).own hsource).append _
    have hsettled : OutcomeOk (ls ++ [l]) i o := by
      rw [flow_of_segment hseg]
      cases hseg with
      | recv _ _ => exact hhandle _ _ (.inl (by simp)) hown
      | forge _ _ => exact hhandle _ _ (.inr (by simp)) hown
      | @wake i t _ hi ht _ =>
        refine (resumes_resume.ok ((hA.node i hi t ht).append _) ?_).settle
        rintro b rfl
        exact mem_begun.mpr (by simp)
    refine ⟨fun t ht => ?_, hsettled.out⟩
    rcases hseg.mem_rest_or_tasks ht with hnew | hold
    · exact hsettled.rest t hnew
    · exact (hA.node i hseg.correct t hold).append _

/-! ## Integrity -/

section Integrity

variable {ls : History V} {c : Global V} {msg : DMsg V}

/-- **Back along a path**: a message of a correct node that has come on a path no
Byzantine node lies on is one its source has broadcast. -/
theorem broadcasts_of_path (hc : exec N.next N.initial ls = some c)
    (hA : (provenance V).Holds N.parties ls c) {path : List PeerId} :
    ∀ {i src : PeerId}, MsgOk ls ⟨src, i, { msg with path := path }⟩ → src ∈ N.parties.correct →
      (path ≠ [] ∨ src = msg.source) → (∀ x ∈ path, x ∉ N.parties.byz) →
      HasBroadcast ls msg.source msg := by
  induction path using List.reverseRecOn with
  | nil =>
    intro i src hmsg _ hpath _
    obtain rfl := hpath.resolve_left (· rfl)
    exact hmsg.own rfl
  | append_singleton path q ih =>
    intro i src hmsg _ _ hbyz
    -- `src` has heard it from `q`, which is correct as well
    obtain ⟨hhandled, hpath⟩ := hmsg.path path q rfl
    have hq : q ∈ N.parties.correct :=
      (Parties.mem_nodes.mp (hhandled.src_mem_nodes hc rfl)).resolve_right (hbyz q (by simp))
    refine ih (hA.received _ (hhandled.received hc hq)) hq hpath fun x hx => ?_
    exact hbyz x (List.mem_append_left _ hx)

/-- **RC-Integrity.** In the runs whose steps are all sound, what a correct node
delivers for another correct node, that node has broadcast. -/
theorem integrity_of_sound (N : Network V) (hf : N.parties.byz.card ≤ N.f) (ls : History V)
    (hsound : Meets N.next N.initial N.Sound ls) : Meets N.next N.initial N.Integrity ls := by
  intro ls₁ l ls₂ c₁ hls hc₁ msg hdel hsource hne
  have hmeets : Meets N.next N.initial N.OwnName ls₁ := by
    intro ls₀ l' ls₁' c₀ hls₁ hc₀
    exact (hsound ls₀ l' (ls₁' ++ l :: ls₂) c₀ (by simp [hls, hls₁]) hc₀).1
  -- in the state before the delivery every message of a correct node has an origin
  have hA := Assertion.holds_of_meets provenance_inductive ls₁ c₁ hc₁ hmeets
  have hbacked := (hsound ls₁ l ls₂ c₁ hls hc₁).2
  obtain ⟨c', hstep⟩ : ∃ c', N.next c₁ l = some c' := hdel.2.2.imp fun _ h => h.1
  obtain ⟨i, o, base, hseg, -⟩ := step_iff.mp hstep
  rcases delivers_cases hdel with ⟨src, hhandled, rfl⟩ | ⟨s, hflow, hnot, htest⟩
  · -- from the source itself
    have hhandled' : Handled (ls₁ ++ [l]) l.node msg.source msg :=
      hhandled.imp (List.mem_append_right _) (List.mem_append_right _)
    exact (hA.msg_of_handled hc₁ hseg hhandled' hsource).own rfl
  · -- by the test: one of the paths avoids the Byzantine nodes
    rw [Network.PathsBacked, hflow] at hbacked
    have huncut := hbacked hnot htest hsource hne
    have hsub : N.parties.byz ∈ N.parties.nodes.powerset :=
      Finset.mem_powerset.mpr fun x hx => Parties.mem_nodes.mpr (.inr hx)
    have hself : l.node ∉ N.parties.byz := hseg.node_eq ▸ Parties.not_byz hseg.correct
    obtain ⟨full, hfull, hbyz⟩ := huncut N.parties.byz hsub hf (Parties.not_byz hsource) hself
    obtain ⟨path, src, rfl, hhandled, hpath⟩ := mem_receivedPaths.mp hfull
    have hsrc : src ∈ N.parties.correct :=
      (Parties.mem_nodes.mp (hhandled.src_mem_nodes (exec_snoc hc₁ hstep) rfl)).resolve_right
        (hbyz src (by simp))
    refine broadcasts_of_path hc₁ hA (hA.msg_of_handled hc₁ hseg hhandled hsrc) hsrc hpath ?_
    exact fun x hx => hbyz x (List.mem_append_left _ hx)

end Integrity

/-! ## Two runs -/

/-- Correct nodes s, a and t and the Byzantine node b: s and t have a and b as their
neighbours. -/
def square : Network String where
  toDeployment := Deployment.ofLists ["s", "a", "t"] ["b"] nodup_relayed
  f := 1
  neighbours i := if i = "s" ∨ i = "t" then {"a", "b"} else {"s", "t"}
  hasParent := false
  nx := .allPaths
  broadcasts i := if i = "s" then [⟨"m", "hello", false⟩] else []

/-- The message of s on its way, with a path. -/
def hello (path : List PeerId) : DMsg String := ⟨"m", "s", "hello", path⟩

/-- b hands the message on as a correct node would, and t delivers it by the test of
the paths. -/
def squareRun : History String :=
  [.wake "s" (.broadcast ⟨"m", "hello", false⟩), .recv ⟨"s", "a", hello []⟩,
    .wake "a" (.emptyTo "s" ["t", "b"] true (hello [])),
    .wake "a" (.empties ["t", "b"] true (hello [])),
    .wake "a" (.emptyTo "t" ["b"] true (hello [])), .wake "a" (.empties ["b"] true (hello [])),
    .wake "a" (.forwardTo "t" ["b"] (hello []) ["s"] true), .recv ⟨"a", "t", hello ["s"]⟩,
    .forge ⟨"b", "t", hello ["s"]⟩, .wake "t" (.forwardTo "a" ["b"] (hello ["s"]) ["s", "b"] false),
    .wake "t" (.forward ["b"] (hello ["s"]) ["s", "b"] false)]

theorem integrity_of_sound_square :
    (∃ c, exec square.next square.initial squareRun = some c ∧
      decide ("m" ∈ (c.st "t").delivered) = true) ∧
      Meets square.next square.initial square.Integrity squareRun := by
  refine ⟨exists_exec_of_any _ _ _ _ (by decide), ?_⟩
  exact integrity_of_sound square (by decide) squareRun (meets_of_meetsFrom (by decide))

/-- Correct nodes s and t, and the Byzantine node b next to s. -/
def line : Network String where
  toDeployment := Deployment.ofLists ["s", "t"] ["b"] (by decide)
  f := 1
  neighbours i := if i = "s" then {"b", "t"} else {"s"}
  hasParent := false
  nx := .allPaths
  broadcasts _ := []

/-- A message s has not broadcast, under its name. -/
def evil (path : List PeerId) : DMsg String := ⟨"m", "s", "evil", path⟩

/-- b relays the message to s, s hands it on under its own name … -/
def lineRun : History String :=
  [.forge ⟨"b", "s", evil ["x"]⟩, .wake "s" (.forwardTo "t" ["b"] (evil ["x"]) ["x", "b"] false)]

/-- … and t takes it for one from its source. -/
def lineDelivery : Action String := .recv ⟨"s", "t", evil ["x", "b"]⟩

/-- One Byzantine node makes a correct node deliver what the source, a correct node,
has not broadcast. -/
theorem integrity_broken : ¬ ∀ N : Network String, N.nx.Exact → N.parties.byz.card ≤ N.f →
    ∀ ls c, exec N.next N.initial ls = some c → Meets N.next N.initial N.Integrity ls := by
  intro h
  obtain ⟨c, hc, hdel⟩ : ∃ c, exec line.next line.initial lineRun = some c ∧
      (decide ("m" ∉ (c.st "t").delivered) &&
        (line.next c lineDelivery).any fun c' => decide ("m" ∈ (c'.st "t").delivered)) = true :=
    exists_exec_of_any _ _ _ _ (by decide)
  rw [Bool.and_eq_true, decide_eq_true_eq, Option.any_eq_true] at hdel
  obtain ⟨hbefore, c', hstep, hafter⟩ := hdel
  have hdelivers : line.Delivers (evil ["x", "b"]) c lineDelivery :=
    ⟨rfl, hbefore, c', hstep, of_decide_eq_true hafter⟩
  have hmeets := h line Networkx.allPaths_exact (by decide) (lineRun ++ [lineDelivery]) c'
    (exec_snoc hc hstep)
  have hbroadcast := hmeets.last hc (evil ["x", "b"]) hdelivers (by decide) (by decide)
  exact absurd hbroadcast (by decide)

end DistBench.Dolev
