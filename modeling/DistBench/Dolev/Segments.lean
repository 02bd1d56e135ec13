import DistBench.Dolev.Dolev

/-!
# What a segment of Dolev's algorithm can do

The functions of the code call one another, and a segment runs through several of
them. Here each is read once: `Announces` for the announcing loop, `Forwards` for
the forwarding loop, `Relays` and `AfterDirect` for the parts of `dolev` after MD1,
and `Ends` for the final `my_deliver`. `Handles` and `Resumes` put them together for
a message and for a suspended coroutine (`handles_dolev`, `resumes_resume`). The
proofs about runs go through these and never unfold the code.

What an announcement writes beside `delivered` does not matter to them, nor does
the recording of a path: `Kept` says what does not change.
-/

namespace DistBench.Dolev

open DistBench.Async

variable {V : Type}

/-- A history of the network. -/
abbrev History (V : Type) : Type := Trace PeerId (DMsg V) (Cont V)

/-- A state of the network. -/
abbrev Global (V : Type) : Type := Config PeerId (DMsg V) DolevState (Cont V)

/-- A step of the network. -/
abbrev Action (V : Type) : Type := Label PeerId (DMsg V) (Cont V)

/-- What a segment leaves behind. -/
abbrev Seg (V : Type) : Type := Outcome PeerId (DMsg V) DolevState (Cont V)

/-- The message a suspended handler is about. -/
def Cont.msg? : Cont V → Option (DMsg V)
  | .broadcast _ | .sendTo _ _ _ | .broadcasting _ _ => none
  | .directDelivered msg | .delivered msg | .emptyTo _ _ _ msg | .empties _ _ msg
  | .forwardTo _ _ msg _ _ | .forward _ msg _ _ => some msg

/-- `delivered` is as before, and the ids that are marked, by the node itself in
`neighbour_delivered` or in `forwarded_empty`, were so before or are in `marked`. -/
structure Kept (i : PeerId) (marked : String → Prop) (s s' : DolevState) : Prop where
  delivered : s'.delivered = s.delivered
  noted : ∀ m y, y ∈ s'.neighbourDelivered.get m ∅ →
    y ∈ s.neighbourDelivered.get m ∅ ∨ y = i ∧ marked m
  forwardedEmpty : ∀ m ∈ s'.forwardedEmpty, m ∈ s.forwardedEmpty ∨ marked m

namespace Kept

variable {i : PeerId} {marked : String → Prop} {s s' s'' : DolevState} {m : String}

theorem refl : Kept i marked s s := ⟨rfl, fun _ _ h => .inl h, fun _ h => .inl h⟩

theorem trans (h : Kept i marked s s') (h' : Kept i marked s' s'') : Kept i marked s s'' where
  delivered := h'.delivered.trans h.delivered
  noted m y hy := by
    rcases h'.noted m y hy with hy | hy
    · exact h.noted m y hy
    · exact .inr hy
  forwardedEmpty m hm := by
    rcases h'.forwardedEmpty m hm with hm | hm
    · exact h.forwardedEmpty m hm
    · exact .inr hm

theorem addPath {path : List PeerId} : Kept i marked s (s.addPath m path) :=
  ⟨rfl, fun _ _ h => .inl h, fun _ h => .inl h⟩

theorem markForwardedEmpty : Kept i (· = m) s (s.markForwardedEmpty m) where
  delivered := rfl
  noted _ _ h := .inl h
  forwardedEmpty _ h := (Finset.mem_insert.mp h).symm

theorem addNeighbourDelivered : Kept i (· = m) s (s.addNeighbourDelivered m i) where
  delivered := rfl
  noted k y hy := by
    by_cases hk : k = m
    · subst hk
      rw [DolevState.addNeighbourDelivered, Dict.get_insert_self, Finset.mem_insert] at hy
      exact hy.symm.imp_right fun h => ⟨h, rfl⟩
    · rw [DolevState.addNeighbourDelivered, Dict.get_insert_of_ne hk] at hy
      exact .inl hy
  forwardedEmpty _ h := .inl h

end Kept

/-- Whom `nextPeer` finds and whom it passes over. -/
theorem nextPeer_some {test : PeerId → Bool} {l rest : List PeerId} {peer : PeerId}
    (h : nextPeer test l = some (peer, rest)) :
    test peer = true ∧ ∀ y ∈ l, y ∈ peer :: rest ∨ test y = false := by
  induction l with
  | nil => cases h
  | cons x l ih =>
    rw [nextPeer] at h
    split at h
    · next hx =>
      obtain ⟨rfl, rfl⟩ := Prod.mk.inj (Option.some.inj h)
      exact ⟨hx, fun y hy => .inl hy⟩
    · next hx =>
      obtain ⟨hpeer, hskip⟩ := ih h
      refine ⟨hpeer, fun y hy => ?_⟩
      rcases List.mem_cons.mp hy with rfl | hy
      · exact .inr (Bool.not_eq_true _ ▸ hx)
      · exact hskip y hy

theorem nextPeer_none {test : PeerId → Bool} {l : List PeerId} (h : nextPeer test l = none) :
    ∀ y ∈ l, test y = false := by
  induction l with
  | nil => simp
  | cons x l ih =>
    rw [nextPeer] at h
    split at h
    · cases h
    · next hx =>
      intro y hy
      rcases List.mem_cons.mp hy with rfl | hy
      · exact Bool.not_eq_true _ ▸ hx
      · exact ih h y hy

/-! ## The functions of the code -/

/-- The handler is in the announcement of the `my_deliver` of MD1 (`direct`) or of its final
one; `near` holds of a peer it is about to send to. -/
inductive Cont.Announcing (direct : Bool) (msg : DMsg V) (near : PeerId → Prop) : Cont V → Prop
  | emptyTo {peer rest} (hpeer : near peer) :
    Announcing direct msg near (.emptyTo peer rest direct msg)
  | empties {rest} : Announcing direct msg near (.empties rest direct msg)

/-- The handler is in the `my_deliver` of MD1. -/
inductive Cont.Direct (msg : DMsg V) (near : PeerId → Prop) : Cont V → Prop
  | delivered : Direct msg near (.directDelivered msg)
  | emptyTo {peer rest} (hpeer : near peer) : Direct msg near (.emptyTo peer rest true msg)
  | empties {rest} : Direct msg near (.empties rest true msg)

/-- The handler is in its final `my_deliver`. -/
inductive Cont.Final (msg : DMsg V) (near : PeerId → Prop) : Cont V → Prop
  | delivered : Final msg near (.delivered msg)
  | emptyTo {peer rest} (hpeer : near peer) : Final msg near (.emptyTo peer rest false msg)
  | empties {rest} : Final msg near (.empties rest false msg)

theorem Cont.Announcing.toDirect {msg : DMsg V} {near : PeerId → Prop} {t : Cont V}
    (h : t.Announcing true msg near) : t.Direct msg near := by
  cases h with
  | emptyTo hpeer => exact .emptyTo hpeer
  | empties => exact .empties

theorem Cont.Announcing.toFinal {msg : DMsg V} {near : PeerId → Prop} {t : Cont V}
    (h : t.Announcing false msg near) : t.Final msg near := by
  cases h with
  | emptyTo hpeer => exact .emptyTo hpeer
  | empties => exact .empties

/-- The coroutine makes the broadcast `b`. -/
inductive Cont.Sending (b : Broadcast V) (near : PeerId → Prop) : Cont V → Prop
  | sendTo {peer rest} (hpeer : near peer) : Sending b near (.sendTo peer rest b)
  | broadcasting {rest} : Sending b near (.broadcasting rest b)

variable (N : Network V)

/-- An announcement is suspended before a neighbour, or done. -/
inductive Announces (i : PeerId) (s : DolevState) (direct : Bool) (msg : DMsg V) :
    Seg V ⊕ DolevState → Prop
  | wait {s' peer rest} (hkept : Kept i (· = msg.msgId) s s') (hpeer : peer ∈ N.neighbours i) :
    Announces i s direct msg (.inl { st := s', rest := some (.emptyTo peer rest direct msg) })
  | done {s'} (hkept : Kept i (· = msg.msgId) s s') : Announces i s direct msg (.inr s')

/-- The forwarding loop is suspended before a neighbour, or through; those it has
passed over are no neighbours, on the path, or noted. -/
inductive Forwards (i : PeerId) (s : DolevState) (rest : List PeerId) (msg : DMsg V)
    (newPath : List PeerId) : Flow V → Prop
  | wait {peer rest' live} (hpeer : peer ∈ N.neighbours i) (hpath : peer ∉ newPath)
      (hskip : ∀ y ∈ rest, y ∈ N.neighbours i → y ∈ peer :: rest' ∨ y ∈ newPath ∨
        y ∈ s.neighbourDelivered.get msg.msgId ∅) :
    Forwards i s rest msg newPath
      (.stop { st := s, rest := some (.forwardTo peer rest' msg newPath live) })
  | through (hskip : ∀ y ∈ rest, y ∈ N.neighbours i → y ∈ newPath ∨
        y ∈ s.neighbourDelivered.get msg.msgId ∅) :
    Forwards i s rest msg newPath (.deliver s msg)

/-- The part of `dolev` after MD1, for a message that is no announcement. -/
inductive Relays (i : PeerId) (s : DolevState) (src : PeerId) (msg : DMsg V) : Flow V → Prop
  | drop (hmd4 : src ∈ s.neighbourDelivered.get msg.msgId ∅ ∧ src ∈ msg.path) :
    Relays i s src msg (.stop { st := s })
  | record {s' flow} (hmd4 : ¬ (src ∈ s.neighbourDelivered.get msg.msgId ∅ ∧ src ∈ msg.path))
      (hkept : Kept i (fun _ => False) s s')
      (hfwd : Forwards N i s' (N.peers i) msg (msg.path ++ [src]) flow) :
    Relays i s src msg flow

/-- The part of `dolev` after MD1 has delivered. -/
inductive AfterDirect (i : PeerId) (s : DolevState) (msg : DMsg V) : Flow V → Prop
  | wait {s' t} (hkept : Kept i (· = msg.msgId) s s')
      (ht : t.Announcing true msg (· ∈ N.neighbours i)) :
    AfterDirect i s msg (.stop { st := s', rest := some t })
  | relay {s' flow} (hkept : Kept i (· = msg.msgId) s s')
      (hrelay : Relays N i s' msg.source msg flow) :
    AfterDirect i s msg flow

/-- The final `my_deliver`: the id was delivered before, the test fails, or it
passes. -/
inductive Ends (i : PeerId) (s : DolevState) (msg : DMsg V) : Seg V → Prop
  | before {s'} {rest : Option (Cont V)} (hdel : msg.msgId ∈ s.delivered)
      (hkept : Kept i (· = msg.msgId) s s')
      (hrest : ∀ t ∈ rest, t.Announcing false msg (· ∈ N.neighbours i)) :
    Ends i s msg { st := s', rest := rest }
  | fails {s'} {rest : Option (Cont V)} (hdel : msg.msgId ∉ s.delivered)
      (htest : ¬ N.distPaths i (s.paths.get msg.msgId []) msg.source = true)
      (hkept : Kept i (· = msg.msgId) s s')
      (hrest : ∀ t ∈ rest, t.Announcing false msg (· ∈ N.neighbours i)) :
    Ends i s msg { st := s', rest := rest }
  | passes {s' rest} (hdel : msg.msgId ∉ s.delivered)
      (htest : N.distPaths i (s.paths.get msg.msgId []) msg.source = true)
      (hkept : Kept i (· = msg.msgId) (s.deliver msg.msgId) s')
      (hrest : ∀ t ∈ rest, t.Final msg (· ∈ N.neighbours i)) :
    Ends i s msg { st := s', rest := rest }

/-- The handler of `msg` up to its final `my_deliver`. -/
inductive Handles (i : PeerId) (s : DolevState) (src : PeerId) (msg : DMsg V) : Flow V → Prop
  | stranger (hsrc : src ∉ N.neighbours i) : Handles i s src msg (.stop { st := s })
  | md5 (hsrc : src ∈ N.neighbours i) (hdel : msg.msgId ∈ s.delivered)
      (hfwd : msg.msgId ∈ s.forwardedEmpty) : Handles i s src msg (.stop { st := s })
  | note (hpath : msg.path = []) (hsrc : src ≠ msg.source) :
    Handles i s src msg (.stop { st := s.addNeighbourDelivered msg.msgId src })
  | parent (hsrc : src = msg.source) (hdel : msg.msgId ∉ s.delivered) :
    Handles i s src msg
      (.stop { st := s.deliver msg.msgId, rest := some (.directDelivered msg) })
  | direct {flow} (hsrc : src = msg.source) (hdel : msg.msgId ∉ s.delivered)
      (hafter : AfterDirect N i (s.deliver msg.msgId) msg flow) : Handles i s src msg flow
  | relay {flow} (hsrc : src ∈ N.neighbours i)
      (hmd5 : ¬ (msg.msgId ∈ s.delivered ∧ msg.msgId ∈ s.forwardedEmpty))
      (hpath : ¬ (msg.path = [] ∧ src ≠ msg.source)) (hrelay : Relays N i s src msg flow) :
    Handles i s src msg flow

/-- A suspended coroutine up to its final `my_deliver`. -/
inductive Resumes (i : PeerId) (s : DolevState) : Cont V → Flow V → Prop
  | broadcast {b s'} {out : List (PeerId × DMsg V)} {rest : Option (Cont V)}
      (hst : s' = s ∨ s' = s.deliver b.msgId)
      (hout : ∀ dm ∈ out, dm.1 ∈ N.neighbours i ∧ dm.2 = b.dmsg i)
      (hrest : ∀ t ∈ rest, t.Sending b (· ∈ N.neighbours i)) :
    Resumes i s (.broadcast b) (.stop { st := s', out := out, rest := rest })
  | sendTo {peer rest b} :
    Resumes i s (.sendTo peer rest b)
      (.stop { st := s, out := [(peer, b.dmsg i)], rest := some (.broadcasting rest b) })
  | broadcasting {peers b} {out : List (PeerId × DMsg V)} {rest : Option (Cont V)}
      (hout : ∀ dm ∈ out, dm.1 ∈ N.neighbours i ∧ dm.2 = b.dmsg i)
      (hrest : ∀ t ∈ rest, t.Sending b (· ∈ N.neighbours i)) :
    Resumes i s (.broadcasting peers b) (.stop { st := s, out := out, rest := rest })
  | direct {t msg flow} (ht : t.Direct msg fun _ => False) (hafter : AfterDirect N i s msg flow) :
    Resumes i s t flow
  | final {t msg s'} {rest : Option (Cont V)} (ht : t.Final msg fun _ => False)
      (hkept : Kept i (· = msg.msgId) s s')
      (hrest : ∀ t ∈ rest, t.Announcing false msg (· ∈ N.neighbours i)) :
    Resumes i s t (.stop { st := s', rest := rest })
  | emptyTo {peer rest direct msg} :
    Resumes i s (.emptyTo peer rest direct msg)
      (.stop
        { st := s
          out := [(peer, { msg with path := [] })]
          rest := some (.empties rest direct msg) })
  | forwardTo {peer rest msg newPath live} :
    Resumes i s (.forwardTo peer rest msg newPath live)
      (.stop
        { st := s
          out := [(peer, { msg with path := newPath })]
          rest := some (.forward rest msg newPath live) })
  | forward {rest msg newPath live flow} (hfwd : Forwards N i s rest msg newPath flow) :
    Resumes i s (.forward rest msg newPath live) flow

variable {N}

section Code

variable {i src : PeerId} {s s' : DolevState} {rest : List PeerId} {direct : Bool}
  {msg : DMsg V} {newPath : List PeerId} {x : Seg V ⊕ DolevState}

theorem announces_emptiesLoop (hkept : Kept i (· = msg.msgId) s s') :
    Announces N i s direct msg (N.emptiesLoop i s' rest direct msg) := by
  unfold Network.emptiesLoop
  split
  · next h => exact .wait hkept (of_decide_eq_true (nextPeer_some h).1)
  · exact .done (hkept.trans .markForwardedEmpty)

theorem announces_announce : Announces N i s direct msg (N.announce i s direct msg) := by
  unfold Network.announce
  split
  · exact announces_emptiesLoop .addNeighbourDelivered
  · exact .done .refl

/-- Where an announcement leaves a handler in its final `my_deliver`. -/
theorem Announces.finish (h : Announces N i s false msg x) : ∃ s' rest,
    Kept i (· = msg.msgId) s s' ∧ (∀ t ∈ rest, t.Announcing false msg (· ∈ N.neighbours i)) ∧
      Network.finish x = { st := s', rest := rest } := by
  cases h with
  | wait hkept hpeer =>
    refine ⟨_, _, hkept, ?_, rfl⟩
    intro t ht
    obtain rfl := Option.some.inj ht
    exact .emptyTo hpeer
  | done hkept => exact ⟨_, none, hkept, nofun, rfl⟩

theorem forwards_forwardLoop {live : Bool} :
    Forwards N i s rest msg newPath (N.forwardLoop i s rest msg newPath live) := by
  unfold Network.forwardLoop
  dsimp only
  -- a peer that fails the test and is a neighbour is on the path or noted
  have hskip : ∀ y, y ∈ N.neighbours i → decide (y ∈ N.neighbours i ∧ y ∉ newPath ∧
      y ∉ if live = true then s.neighbourDelivered.get msg.msgId ∅ else ∅) = false →
      y ∈ newPath ∨ y ∈ s.neighbourDelivered.get msg.msgId ∅ := by
    intro y hy hfail
    by_contra hnot
    rw [not_or] at hnot
    refine of_decide_eq_false hfail ⟨hy, hnot.1, ?_⟩
    cases live
    · exact Finset.notMem_empty y
    · exact hnot.2
  split
  · next h =>
    obtain ⟨htest, hrest⟩ := nextPeer_some h
    obtain ⟨hpeer, hpath, -⟩ := of_decide_eq_true htest
    exact .wait hpeer hpath fun y hy hnb => (hrest y hy).imp_right (hskip y hnb)
  · next h => exact .through fun y hy hnb => hskip y hnb (nextPeer_none h y hy)

theorem relays_relay (hpath : ¬ (msg.path = [] ∧ src ≠ msg.source)) :
    Relays N i s src msg (N.relay i s src msg) := by
  unfold Network.relay
  rw [if_neg hpath]
  split
  · next h => exact .drop h
  · next h => exact .record h .addPath forwards_forwardLoop

theorem afterDirect_afterDirect (h : Announces N i s true msg x) :
    AfterDirect N i s msg (N.afterDirect i msg x) := by
  cases h with
  | wait hkept hpeer => exact .wait hkept (.emptyTo hpeer)
  | done hkept => exact .relay hkept (relays_relay fun h => h.2 rfl)

theorem ends_myDeliver : Ends N i s msg (N.myDeliver i s msg) := by
  unfold Network.myDeliver
  split
  · next h => exact .before h.1 .refl (by simp)
  split
  · next hdel =>
    split
    · next htest =>
      have hkept : Kept i (· = msg.msgId) (s.deliver msg.msgId)
          ((s.deliver msg.msgId).addNeighbourDelivered msg.msgId i) := .addNeighbourDelivered
      dsimp only
      split
      · refine .passes hdel htest hkept ?_
        intro t ht
        obtain rfl := Option.some.inj ht
        exact .delivered
      · obtain ⟨s', rest, hkept', hrest, heq⟩ := Announces.finish announces_announce
        rw [heq]
        exact .passes hdel htest (hkept.trans hkept') fun t ht => (hrest t ht).toFinal
    · next htest =>
      obtain ⟨s', rest, hkept, hrest, heq⟩ := Announces.finish announces_announce
      rw [heq]
      exact .fails hdel htest hkept hrest
  · next hdel => exact .before (not_not.mp hdel) .refl (by simp)

/-- What a handler does. -/
theorem handles_dolev : Handles N i s src msg (N.dolev i s src msg) := by
  unfold Network.dolev
  split
  · next h => exact .stranger h
  next hsrc =>
  split
  · next h => exact .md5 (not_not.mp hsrc) h.1 h.2
  next hmd5 =>
  split
  · next h =>
    dsimp only
    split
    · exact .parent h.1 h.2
    · exact .direct h.1 h.2 (afterDirect_afterDirect announces_announce)
  · next hnot =>
    by_cases hpath : msg.path = [] ∧ src ≠ msg.source
    · rw [Network.relay, if_pos hpath]
      exact .note hpath.1 hpath.2
    · exact .relay (not_not.mp hsrc) hmd5 hpath (relays_relay hpath)

/-- What the loop of a broadcast sends and where it leaves it. -/
theorem broadcastLoop_eq (N : Network V) (i : PeerId) (s : DolevState) (peers : List PeerId)
    (b : Broadcast V) : ∃ out rest, (∀ dm ∈ out, dm.1 ∈ N.neighbours i ∧ dm.2 = b.dmsg i) ∧
    (∀ t ∈ rest, t.Sending b (· ∈ N.neighbours i)) ∧
    N.broadcastLoop i s peers b = { st := s, out := out, rest := rest } := by
  unfold Network.broadcastLoop
  split
  · next h =>
    have hpeer := of_decide_eq_true (nextPeer_some h).1
    split
    · refine ⟨[], _, nofun, ?_, rfl⟩
      intro t ht
      obtain rfl := Option.some.inj ht
      exact .sendTo hpeer
    · refine ⟨_, _, ?_, ?_, rfl⟩
      · intro dm hdm
        obtain rfl := List.mem_singleton.mp hdm
        exact ⟨hpeer, rfl⟩
      · intro t ht
        obtain rfl := Option.some.inj ht
        exact .broadcasting
  · exact ⟨[], none, nofun, nofun, rfl⟩

/-- What a coroutine does when it goes on. -/
theorem resumes_resume {t : Cont V} : Resumes N i s t (N.resume i s t) := by
  cases t with
  | broadcast b =>
    obtain ⟨out, rest, hout, hrest, heq⟩ := broadcastLoop_eq N i
      (if b.byParent then s else s.deliver b.msgId) (N.peers i) b
    rw [Network.resume, heq]
    refine .broadcast ?_ hout hrest
    split
    · exact .inl rfl
    · exact .inr rfl
  | sendTo peer rest b => exact .sendTo
  | broadcasting rest b =>
    obtain ⟨out, rest', hout, hrest, heq⟩ := broadcastLoop_eq N i s rest b
    rw [Network.resume, heq]
    exact .broadcasting hout hrest
  | directDelivered msg => exact .direct .delivered (afterDirect_afterDirect announces_announce)
  | delivered msg =>
    obtain ⟨s', rest, hkept, hrest, heq⟩ := Announces.finish announces_announce
    rw [Network.resume, heq]
    exact .final .delivered hkept hrest
  | emptyTo peer rest direct msg => exact .emptyTo
  | empties rest direct msg =>
    cases direct with
    | true => exact .direct .empties (afterDirect_afterDirect (announces_emptiesLoop .refl))
    | false =>
      obtain ⟨s', rest', hkept, hrest, heq⟩ := Announces.finish (announces_emptiesLoop .refl)
      rw [Network.resume, if_neg Bool.false_ne_true, heq]
      exact .final .empties hkept hrest
  | forwardTo peer rest msg newPath live => exact .forwardTo
  | forward rest msg newPath live => exact .forward forwards_forwardLoop

end Code

namespace Network

variable (N : Network V)

/-- The flow of the segment a label runs. -/
def flow (c : Global V) : Action V → Flow V
  | .recv e | .forge e => N.dolev e.dst (c.st e.dst) e.src e.msg
  | .wake i t => N.resume i (c.st i) t

variable [DecidableEq V]

/-- One step of the network. -/
def next : Global V → Action V → Option (Global V) := step N.protocol N.parties

end Network

/-- A segment is its flow, settled. -/
theorem flow_of_segment [DecidableEq V] {c base : Global V} {l : Action V} {i : PeerId} {o : Seg V}
    (h : Segment N.protocol N.parties c l i o base) : o = N.settle i (N.flow c l) := by
  cases h with
  | recv _ _ | forge _ _ => rfl
  | wake _ _ ho => exact (Option.some.inj ho).symm

end DistBench.Dolev
