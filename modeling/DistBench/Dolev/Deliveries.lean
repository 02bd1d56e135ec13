import DistBench.Dolev.Integrity

/-!
# At most one delivery, and whose message it is

Two properties of `dolev.py` that need no bound on the Byzantine nodes. An id is handed
to the parent at most once, whoever calls the handlers with whatever messages: a segment
that hands it over has put it into `delivered`, where it was not before (`Fresh`). And
when the nodes outside the protocol say nothing, what is delivered is what its source has
broadcast: no segment changes the id, the source or the payload of the message it is
about (`About`).
-/

namespace DistBench.Dolev

open DistBench.Async

variable {V : Type} {N : Network V} {i src : PeerId} {s₀ s : DolevState} {msg : DMsg V}
  {flow : Flow V} {o : Seg V} {t : Cont V} {rest : List PeerId} {newPath : List PeerId}

/-! ## At most once -/

/-- The message the parent's `dolev_deliver` has just been called with. -/
def Cont.handed : Cont V → Option (DMsg V)
  | .directDelivered msg | .delivered msg => some msg
  | _ => none

/-- A segment that began in `s₀` has taken nothing out of `delivered`, and hands over
only what it has added. -/
structure Fresh (s₀ : DolevState) (o : Seg V) : Prop where
  grows : s₀.delivered ⊆ o.st.delivered
  handed : ∀ t ∈ o.rest, ∀ msg ∈ t.handed, msg.msgId ∉ s₀.delivered ∧ msg.msgId ∈ o.st.delivered

/-- The same for a flow. -/
def Flow.Fresh (s₀ : DolevState) : Flow V → Prop
  | .stop o => Dolev.Fresh s₀ o
  | .deliver s _ => s₀.delivered ⊆ s.delivered

theorem Cont.Announcing.handed_eq {direct : Bool} {near : PeerId → Prop}
    (h : t.Announcing direct msg near) : t.handed = none := by
  cases h <;> rfl

theorem Cont.Sending.handed_eq {b : Broadcast V} {near : PeerId → Prop} (h : t.Sending b near) :
    t.handed = none := by
  cases h <;> rfl

theorem Fresh.quiet {out : List (PeerId × DMsg V)} {rest : Option (Cont V)}
    (hgrows : s₀.delivered ⊆ s.delivered) (hrest : ∀ t ∈ rest, t.handed = none) :
    Fresh s₀ { st := s, out := out, rest := rest } where
  grows := hgrows
  handed t ht msg hmsg := by
    rw [hrest t ht] at hmsg
    cases hmsg

theorem Flow.Fresh.settle (h : flow.Fresh s₀) : Dolev.Fresh s₀ (N.settle i flow) := by
  cases flow with
  | stop o => exact h
  | deliver s msg =>
    rw [Network.settle]
    generalize ho : N.myDeliver i s msg = o
    have hends : Ends N i s msg o := ho ▸ ends_myDeliver
    cases hends with
    | before _ hkept hrest | fails _ _ hkept hrest =>
      exact .quiet (hkept.delivered ▸ h) fun t ht => (hrest t ht).handed_eq
    | passes hdel _ hkept hrest =>
      have hsub : s₀.delivered ⊆ insert msg.msgId s.delivered := h.trans (Finset.subset_insert _ _)
      refine ⟨hkept.delivered ▸ hsub, fun t ht msg' hmsg' => ?_⟩
      cases hrest t ht with
      | delivered =>
        obtain rfl := Option.some.inj hmsg'
        exact ⟨fun hm => hdel (h hm), hkept.delivered.symm ▸ Finset.mem_insert_self _ _⟩
      | emptyTo _ | empties => cases hmsg'

theorem Forwards.fresh (h : Forwards N i s rest msg newPath flow)
    (hgrows : s₀.delivered ⊆ s.delivered) : flow.Fresh s₀ := by
  cases h with
  | wait _ _ _ =>
    refine Fresh.quiet hgrows fun t ht => ?_
    obtain rfl := Option.some.inj ht
    rfl
  | through _ => exact hgrows

theorem Relays.fresh (h : Relays N i s src msg flow) (hgrows : s₀.delivered ⊆ s.delivered) :
    flow.Fresh s₀ := by
  cases h with
  | drop _ => exact Fresh.quiet hgrows nofun
  | record _ hkept hfwd => exact hfwd.fresh (hkept.delivered ▸ hgrows)

theorem AfterDirect.fresh (h : AfterDirect N i s msg flow) (hgrows : s₀.delivered ⊆ s.delivered) :
    flow.Fresh s₀ := by
  cases h with
  | wait hkept ht =>
    refine Fresh.quiet (hkept.delivered ▸ hgrows) fun t' ht' => ?_
    obtain rfl := Option.some.inj ht'
    exact ht.handed_eq
  | relay hkept hrelay => exact hrelay.fresh (hkept.delivered ▸ hgrows)

theorem Handles.fresh (h : Handles N i s src msg flow) : flow.Fresh s := by
  cases h with
  | stranger _ | md5 _ _ _ | note _ _ => exact Fresh.quiet subset_rfl nofun
  | parent _ hdel =>
    refine ⟨Finset.subset_insert _ _, fun t ht msg' hmsg' => ?_⟩
    obtain rfl := Option.some.inj ht
    obtain rfl := Option.some.inj hmsg'
    exact ⟨hdel, Finset.mem_insert_self _ _⟩
  | direct _ _ hafter => exact hafter.fresh (Finset.subset_insert _ _)
  | relay _ _ _ hrelay => exact hrelay.fresh subset_rfl

theorem Resumes.fresh (h : Resumes N i s t flow) : flow.Fresh s := by
  cases h with
  | @broadcast b _ _ _ hst _ hrest =>
    refine Fresh.quiet ?_ fun t ht => (hrest t ht).handed_eq
    rcases hst with rfl | rfl
    · exact subset_rfl
    · exact Finset.subset_insert _ _
  | broadcasting _ hrest => exact Fresh.quiet subset_rfl fun t ht => (hrest t ht).handed_eq
  | sendTo | emptyTo | forwardTo =>
    refine Fresh.quiet subset_rfl fun t ht => ?_
    obtain rfl := Option.some.inj ht
    rfl
  | direct _ hafter => exact hafter.fresh subset_rfl
  | final _ hkept hrest =>
    exact Fresh.quiet (hkept.delivered ▸ subset_rfl) fun t ht => (hrest t ht).handed_eq
  | forward hfwd => exact hfwd.fresh subset_rfl

/-- What happens to a node. -/
abbrev Call (V : Type) : Type := SoloLabel PeerId (DMsg V) (Cont V)

namespace Network

variable (N : Network V)

/-- The segment of node `i` a call runs. -/
def segment (i : PeerId) (s : DolevState) : Call V → Seg V
  | .handle src msg => N.settle i (N.dolev i s src msg)
  | .wake t => N.settle i (N.resume i s t)

/-- The message a call makes node `i` hand to its parent. -/
def handedOver (i : PeerId) (s : DolevState) (l : Call V) : Option (DMsg V) :=
  (N.segment i s l).rest.bind Cont.handed

variable [DecidableEq V]

/-- Node `i`, called by anyone. -/
def alone (i : PeerId) : Solo DolevState (Cont V) → Call V → Option (Solo DolevState (Cont V)) :=
  N.protocol.alone i

/-- It has not begun any of its broadcasts. -/
def fresh (i : PeerId) : Solo DolevState (Cont V) := ⟨{}, (N.broadcasts i).map .broadcast⟩

/-- How often it hands the id `m` to its parent. -/
def handovers (i : PeerId) (m : String) (calls : List (Call V)) : Nat :=
  tally (N.alone i)
    (fun x l => if (N.handedOver i x.st l).any fun msg => msg.msgId = m then 1 else 0)
    (N.fresh i) calls

end Network

theorem segment_fresh {l : Call V} : Fresh s (N.segment i s l) := by
  cases l with
  | handle src msg => exact handles_dolev.fresh.settle
  | wake t => exact resumes_resume.fresh.settle

theorem mem_handedOver {l : Call V} :
    msg ∈ N.handedOver i s l ↔ ∃ t ∈ (N.segment i s l).rest, msg ∈ t.handed :=
  Option.mem_bind_iff

section Runs

variable [DecidableEq V] {x x' : Solo DolevState (Cont V)} {l : Call V} {calls : List (Call V)}

/-- A step runs the segment of its call. -/
theorem st_of_alone (h : N.alone i x l = some x') : x'.st = (N.segment i x.st l).st := by
  obtain ⟨o, ts, hseg, rfl⟩ := Protocol.alone_iff.mp h
  cases hseg with
  | handle => rfl
  | wake _ ho =>
    obtain rfl := Option.some.inj ho
    rfl

/-- Nothing ever leaves `delivered` … -/
theorem delivered_nonDecreasing :
    NonDecreasing (N.alone i) (N.fresh i) (fun x => x.st.delivered) calls := by
  refine nonDecreasing_iff.mpr fun ls l ls' x _ _ x' hstep => ?_
  rw [st_of_alone hstep]
  exact segment_fresh.grows

/-- … and so an id is handed over once. -/
theorem handovers_le_one (m : String) (hx : exec (N.alone i) (N.fresh i) calls = some x) :
    N.handovers i m calls ≤ 1 := by
  let μ : Solo DolevState (Cont V) → Nat := fun x => if m ∈ x.st.delivered then 0 else 1
  have hdec : ∀ calls x l x', exec (N.alone i) (N.fresh i) calls = some x →
      N.alone i x l = some x' →
      (if (N.handedOver i x.st l).any fun msg => msg.msgId = m then 1 else 0) + μ x' ≤ μ x := by
    intro calls x l x' _ hstep
    have hfresh : Fresh x.st (N.segment i x.st l) := segment_fresh
    simp only [μ, st_of_alone hstep]
    by_cases hany : ((N.handedOver i x.st l).any fun msg => msg.msgId = m) = true
    · obtain ⟨msg, hmsg, hm⟩ := Option.any_eq_true _ _ |>.mp hany
      obtain ⟨t, ht, hhanded⟩ := mem_handedOver.mp hmsg
      obtain ⟨hbefore, hafter⟩ := hfresh.handed t ht msg hhanded
      rw [of_decide_eq_true hm] at hbefore hafter
      simp [hany, hbefore, hafter]
    · rw [if_neg hany, Nat.zero_add]
      by_cases hm : m ∈ x.st.delivered
      · simp [hm, hfresh.grows hm]
      · rw [if_neg hm]
        split <;> omega
  have hle : N.handovers i m calls + μ x ≤ μ (N.fresh i) := tally_add_le hdec calls x hx
  have hstart : μ (N.fresh i) = 1 := by simp [μ, Network.fresh]
  omega

end Runs

/-! ## Whose message it is -/

/-- A segment about `msg` goes on with `msg`, and sends it with some path. -/
structure About (msg : DMsg V) (o : Seg V) : Prop where
  rest : ∀ t ∈ o.rest, t.msg? = some msg
  out : ∀ dm ∈ o.out, ∃ path, dm.2 = { msg with path := path }

/-- The same for a flow. -/
def Flow.About (msg : DMsg V) : Flow V → Prop
  | .stop o => Dolev.About msg o
  | .deliver _ msg' => msg' = msg

theorem Cont.Direct.msg?_eq {near : PeerId → Prop} (h : t.Direct msg near) :
    t.msg? = some msg := by
  cases h <;> rfl

theorem Cont.Final.msg?_eq {near : PeerId → Prop} (h : t.Final msg near) : t.msg? = some msg := by
  cases h <;> rfl

theorem About.quiet {rest : Option (Cont V)} (hrest : ∀ t ∈ rest, t.msg? = some msg) :
    About msg { st := s, rest := rest } :=
  ⟨hrest, nofun⟩

theorem Flow.About.settle (h : flow.About msg) : Dolev.About msg (N.settle i flow) := by
  cases flow with
  | stop o => exact h
  | deliver s msg' =>
    obtain rfl : msg' = msg := h
    rw [Network.settle]
    generalize ho : N.myDeliver i s msg' = o
    have hends : Ends N i s msg' o := ho ▸ ends_myDeliver
    cases hends with
    | before _ _ hrest | fails _ _ _ hrest =>
      exact .quiet fun t ht => (hrest t ht).toFinal.msg?_eq
    | passes _ _ _ hrest => exact .quiet fun t ht => (hrest t ht).msg?_eq

theorem Forwards.about (h : Forwards N i s rest msg newPath flow) : flow.About msg := by
  cases h with
  | wait _ _ _ =>
    refine About.quiet fun t ht => ?_
    obtain rfl := Option.some.inj ht
    rfl
  | through _ => rfl

theorem Relays.about (h : Relays N i s src msg flow) : flow.About msg := by
  cases h with
  | drop _ => exact About.quiet nofun
  | record _ _ hfwd => exact hfwd.about

theorem AfterDirect.about (h : AfterDirect N i s msg flow) : flow.About msg := by
  cases h with
  | wait _ ht =>
    refine About.quiet fun t' ht' => ?_
    obtain rfl := Option.some.inj ht'
    exact ht.toDirect.msg?_eq
  | relay _ hrelay => exact hrelay.about

theorem Handles.about (h : Handles N i s src msg flow) : flow.About msg := by
  cases h with
  | stranger _ | md5 _ _ _ | note _ _ => exact About.quiet nofun
  | parent _ _ =>
    refine About.quiet fun t ht => ?_
    obtain rfl := Option.some.inj ht
    rfl
  | direct _ _ hafter => exact hafter.about
  | relay _ _ _ hrelay => exact hrelay.about

theorem Resumes.about (h : Resumes N i s t flow) (ht : t.msg? = some msg) : flow.About msg := by
  cases h with
  | broadcast _ _ _ | sendTo | broadcasting _ _ => cases ht
  | direct hdirect hafter =>
    obtain rfl := Option.some.inj (hdirect.msg?_eq.symm.trans ht)
    exact hafter.about
  | final hfinal _ hrest =>
    obtain rfl := Option.some.inj (hfinal.msg?_eq.symm.trans ht)
    exact About.quiet fun t' ht' => (hrest t' ht').toFinal.msg?_eq
  | emptyTo | forwardTo =>
    obtain rfl := Option.some.inj ht
    refine ⟨fun t' ht' => ?_, fun dm hdm => ?_⟩
    · obtain rfl := Option.some.inj ht'
      rfl
    · obtain rfl := List.mem_singleton.mp hdm
      exact ⟨_, rfl⟩
  | forward hfwd =>
    obtain rfl := Option.some.inj ht
    exact hfwd.about

/-- The message the coroutine is about is one its source has broadcast; a broadcast it
makes the node has begun. -/
def TaskOriginal (ls : History V) (i : PeerId) : Cont V → Prop
  | .broadcast _ => True
  | .sendTo _ _ b | .broadcasting _ b => b ∈ begun ls i
  | .directDelivered msg | .delivered msg | .emptyTo _ _ _ msg | .empties _ _ msg
  | .forwardTo _ _ msg _ _ | .forward _ msg _ _ => HasBroadcast ls msg.source msg

/-- The assertion that every message is one its source has broadcast. -/
def originals (V : Type) : Assertion PeerId (DMsg V) DolevState (Cont V) where
  node ls i _ ts := ∀ t ∈ ts, TaskOriginal ls i t
  msg ls e := HasBroadcast ls e.msg.source e.msg

variable {ls : History V} {b : Broadcast V}

theorem TaskOriginal.append {i : PeerId} (ls' : History V) (h : TaskOriginal ls i t) :
    TaskOriginal (ls ++ ls') i t := by
  cases t with
  | broadcast _ => trivial
  | sendTo _ _ _ | broadcasting _ _ => exact mem_begun_append ls' h
  | directDelivered _ | delivered _ | emptyTo _ _ _ _ | empties _ _ _ | forwardTo _ _ _ _ _
  | forward _ _ _ _ => exact HasBroadcast.append ls' h

theorem taskOriginal_iff (ht : t.msg? = some msg) :
    TaskOriginal ls i t ↔ HasBroadcast ls msg.source msg := by
  cases t with
  | broadcast _ | sendTo _ _ _ | broadcasting _ _ => cases ht
  | directDelivered _ | delivered _ | emptyTo _ _ _ _ | empties _ _ _ | forwardTo _ _ _ _ _
  | forward _ _ _ _ =>
    obtain rfl := Option.some.inj ht
    exact Iff.rfl

/-- A segment that leaves a coroutine and messages with an original. -/
structure OutcomeOriginal (ls : History V) (i : PeerId) (o : Seg V) : Prop where
  rest : ∀ t ∈ o.rest, TaskOriginal ls i t
  out : ∀ dm ∈ o.out, HasBroadcast ls dm.2.source dm.2

theorem About.original (h : About msg o) (hmsg : HasBroadcast ls msg.source msg) :
    OutcomeOriginal ls i o where
  rest t ht := (taskOriginal_iff (h.rest t ht)).mpr hmsg
  out dm hdm := by
    obtain ⟨path, hpath⟩ := h.out dm hdm
    rw [hpath]
    exact hmsg

theorem Cont.Sending.original {near : PeerId → Prop} (h : t.Sending b near) (hb : b ∈ begun ls i) :
    TaskOriginal ls i t := by
  cases h <;> exact hb

theorem hasBroadcast_dmsg (hb : b ∈ begun ls i) :
    HasBroadcast ls (b.dmsg i).source (b.dmsg i) :=
  ⟨b, hb, rfl, rfl⟩

theorem Cont.msg?_of_handed (h : t.handed = some msg) : t.msg? = some msg := by
  cases t with
  | directDelivered _ | delivered _ => exact h
  | broadcast _ | sendTo _ _ _ | broadcasting _ _ | emptyTo _ _ _ _ | empties _ _ _
  | forwardTo _ _ _ _ _ | forward _ _ _ _ => cases h

/-- What is handed over is the message the segment is about. -/
theorem processed_of_handed {c : Global V} {l : Action V}
    (ht : t ∈ (N.settle l.node (N.flow c l)).rest) (hmsg : t.handed = some msg) :
    processed l = some msg := by
  have hmsg := Cont.msg?_of_handed hmsg
  cases l with
  | recv e | forge e => exact (handles_dolev.about.settle.rest t ht).symm.trans hmsg
  | wake i k =>
    cases hk : k.msg? with
    | some msg' =>
      exact hk.trans (((resumes_resume.about hk).settle.rest t ht).symm.trans hmsg)
    | none =>
      -- a broadcast hands nothing over
      obtain hres : Resumes N i (c.st i) k (N.resume i (c.st i) k) := resumes_resume
      rw [Label.node, Network.flow] at ht
      generalize N.resume i (c.st i) k = flow at hres ht
      cases hres with
      | broadcast _ _ hrest | broadcasting _ hrest =>
        cases hrest t ht <;> cases hmsg
      | sendTo =>
        obtain rfl := Option.some.inj ht
        cases hmsg
      | direct hdirect _ => cases hdirect.msg?_eq.symm.trans hk
      | final hfinal _ _ => cases hfinal.msg?_eq.symm.trans hk
      | emptyTo | forwardTo | forward _ => cases hk

theorem Resumes.original (h : Resumes N i s t flow) (ht : TaskOriginal ls i t)
    (hbegun : ∀ b, t = .broadcast b → b ∈ begun ls i) :
    OutcomeOriginal ls i (N.settle i flow) := by
  generalize hmsg : t.msg? = m
  cases m with
  | some msg => exact (h.about hmsg).settle.original ((taskOriginal_iff hmsg).mp ht)
  | none =>
    cases h with
    | broadcast _ hout hrest =>
      have hb := hbegun _ rfl
      refine ⟨fun t' ht' => (hrest t' ht').original hb, fun dm hdm => ?_⟩
      rw [(hout dm hdm).2]
      exact hasBroadcast_dmsg hb
    | broadcasting hout hrest =>
      refine ⟨fun t' ht' => (hrest t' ht').original ht, fun dm hdm => ?_⟩
      rw [(hout dm hdm).2]
      exact hasBroadcast_dmsg ht
    | sendTo =>
      refine ⟨fun t' ht' => ?_, fun dm hdm => ?_⟩
      · obtain rfl := Option.some.inj ht'
        exact ht
      · obtain rfl := List.mem_singleton.mp hdm
        exact hasBroadcast_dmsg ht
    | direct hdirect _ => cases hdirect.msg?_eq.symm.trans hmsg
    | final hfinal _ _ => cases hfinal.msg?_eq.symm.trans hmsg
    | emptyTo | forwardTo | forward _ => cases hmsg

variable [DecidableEq V]

/-- As long as the nodes outside the protocol are silent, every message has an original. -/
theorem originals_inductive :
    (originals V).Inductive N.protocol N.parties N.initial fun _ _ l => ∀ e, l ≠ .forge e where
  init := by
    refine ⟨fun i _ t ht => ?_, nofun, nofun⟩
    obtain ⟨b, -, rfl⟩ := List.mem_map.mp ht
    trivial
  node_mono _ h t ht := (h t ht).append _
  msg_mono h := h.append _
  segment := by
    intro ls c l i o base _ hA hsilent hseg
    have hsettled : OutcomeOriginal (ls ++ [l]) i o := by
      rw [flow_of_segment hseg]
      cases hseg with
      | @recv e hnet _ => exact handles_dolev.about.settle.original ((hA.msg e hnet).append _)
      | forge _ _ => exact absurd rfl (hsilent _)
      | @wake i t _ hi ht _ =>
        refine resumes_resume.original ((hA.node i hi t ht).append _) ?_
        rintro b rfl
        exact mem_begun.mpr (by simp)
    refine ⟨fun t ht => ?_, hsettled.out⟩
    rcases hseg.mem_rest_or_tasks ht with hnew | hold
    · exact hsettled.rest t hnew
    · exact (hA.node i hseg.correct t hold).append _

namespace Network

variable (N : Network V)

/-- What a step delivers while processing a message, or hands to the parent, its source has
broadcast. -/
def BenignIntegrity (ls : History V) (c : Global V) (l : Action V) : Prop :=
  ∀ msg, N.Delivers msg c l ∨ (∃ t ∈ (N.settle l.node (N.flow c l)).rest, msg ∈ t.handed) →
    HasBroadcast ls msg.source msg

end Network

theorem benignIntegrity {c : Global V} (hc : exec N.next N.initial ls = some c)
    (hsilent : ∀ e, .forge e ∉ ls) : Meets N.next N.initial N.BenignIntegrity ls := by
  rintro ls₁ l ls₂ c₁ rfl hc₁ msg hmsg
  have hmeets : Meets N.next N.initial (fun _ _ l => ∀ e, l ≠ .forge e) ls₁ := by
    rintro ls₀ l' ls₁' c₀ rfl _ e rfl
    exact hsilent e (by simp)
  have hA := Assertion.holds_of_meets originals_inductive ls₁ c₁ hc₁ hmeets
  obtain ⟨c₁', hc₁', hrest⟩ := exec_prefix hc
  obtain rfl := Option.some.inj (hc₁.symm.trans hc₁')
  obtain ⟨c₂, hstep, -⟩ := Option.bind_eq_some_iff.mp hrest
  have hproc : processed l = some msg := by
    rcases hmsg with hdel | ⟨t, ht, hhanded⟩
    · exact hdel.1
    · exact processed_of_handed ht hhanded
  obtain ⟨i, o, base, hseg, -⟩ := step_iff.mp hstep
  cases hseg with
  | @recv e hnet _ =>
    obtain rfl := Option.some.inj hproc
    exact hA.msg e hnet
  | @forge e _ _ => exact absurd (by simp) (hsilent e)
  | @wake i t _ hi ht _ => exact (taskOriginal_iff hproc).mp (hA.node i hi t ht)

/-- **No duplication, and benign integrity.** However a node is called, it hands an id to
its parent at most once, and keeps what it has delivered. When the faulty nodes of a
network are silent, what a node delivers its source has broadcast. -/
theorem handovers_once_and_original {i : PeerId} {calls : List (Call V)}
    {x : Solo DolevState (Cont V)} {c : Global V}
    (hx : exec (N.alone i) (N.fresh i) calls = some x)
    (hc : exec N.next N.initial ls = some c) (hsilent : ∀ e, .forge e ∉ ls) :
    (∀ m, N.handovers i m calls ≤ 1) ∧
    NonDecreasing (N.alone i) (N.fresh i) (fun x => x.st.delivered) calls ∧
    Meets N.next N.initial N.BenignIntegrity ls :=
  ⟨fun m => handovers_le_one m hx, delivered_nonDecreasing, benignIntegrity hc hsilent⟩

/-- `square`, as the child of another algorithm. -/
def childSquare : Network String := { square with hasParent := true }

/-- b does not hand the message on, and a, which has it from its source, tells t. -/
def silentRun : History String :=
  [.wake "s" (.broadcast ⟨"m", "hello", false⟩), .recv ⟨"s", "a", hello []⟩,
    .wake "a" (.directDelivered (hello [])), .wake "a" (.emptyTo "s" ["t", "b"] true (hello [])),
    .wake "a" (.empties ["t", "b"] true (hello [])),
    .wake "a" (.emptyTo "t" ["b"] true (hello []))]

/-- a gets the message twice before its parent is done with the first, and once more. -/
def repeatedCalls : List (Call String) :=
  [.handle "s" (hello []), .handle "s" (hello []), .handle "b" (hello ["s"]),
    .wake (.directDelivered (hello []))]

theorem handovers_once_and_original_square :
    ∃ x c, exec (childSquare.alone "a") (childSquare.fresh "a") repeatedCalls = some x ∧
      exec childSquare.next childSquare.initial silentRun = some c ∧
      "m" ∈ x.st.delivered ∧ "m" ∈ (c.st "a").delivered ∧
      childSquare.handovers "a" "m" repeatedCalls ≤ 1 ∧
      Meets childSquare.next childSquare.initial childSquare.BenignIntegrity silentRun := by
  obtain ⟨x, hx, hxm⟩ := exists_exec_of_any (childSquare.alone "a") (childSquare.fresh "a")
    repeatedCalls (fun x => decide ("m" ∈ x.st.delivered)) (by decide)
  obtain ⟨c, hc, hcm⟩ := exists_exec_of_any childSquare.next childSquare.initial silentRun
    (fun c => decide ("m" ∈ (c.st "a").delivered)) (by decide)
  have hsilent : ∀ e, .forge e ∉ silentRun := by simp [silentRun]
  obtain ⟨honce, -, hmeets⟩ := handovers_once_and_original hx hc hsilent
  exact ⟨x, c, hx, hc, of_decide_eq_true hxm, of_decide_eq_true hcm, honce "m", hmeets⟩

end DistBench.Dolev
