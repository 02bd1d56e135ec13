import DistBench.Dolev.Segments

/-!
# What is delivered at quiescence

When a correct source has sent its message to all its neighbours, no Byzantine node
says anything about it and the network has come to rest, every correct node should
have delivered it, given that the network is `2f + 1`-connected. The code announces
too much for this: in `my_deliver` the announcement of MD2 follows the test of the
paths whatever comes of it, so a node whose first path does not suffice announces a
delivery it has not made, and its neighbours leave it out of what they send on.
`newsFallsThrough` is a run in which a node is so cut off.

`TestsPass` is the condition that no test of the paths of this message fails. In
the runs of such steps all deliver (`delivered_of_quiescent`): the message floods
the network. `Got` says that a node has handled the message, not counting
announcements, and `Floods` what follows from it at the node: it has delivered or
is on its way to (`delivering`), and each neighbour has got the message or is going
to (`spreading`). A neighbour is passed over only when it has got the message, since
those on the path have, and so have those that announce (`noted`).
-/

namespace DistBench.Dolev

open DistBench.Async DistBench.Paths

variable {V : Type}

/-! ## The network and its runs -/

/-- The network is `k`-vertex-connected. -/
def Network.Connected (N : Network V) (k : Nat) : Prop :=
  VertexConnected k N.parties.nodes fun i j => j ∈ N.neighbours i

/-- Neighbours are mutual, and other nodes. -/
structure Network.Undirected (N : Network V) : Prop where
  symm : ∀ i j, j ∈ N.neighbours i → i ∈ N.neighbours j
  irrefl : ∀ i, i ∉ N.neighbours i

/-- No message to a correct node is in flight, and no handler is suspended. -/
def Network.Quiescent (N : Network V) (c : Global V) : Prop :=
  (∀ e ∈ c.net, e.dst ∉ N.parties.correct) ∧
    ∀ i ∈ N.parties.correct, ∀ t ∈ c.tasks i, t.msg? = none

/-- The test of the paths does not fail at a node that has not delivered `m`. -/
def Network.TestsPass (N : Network V) (m : String) (_ : History V) (c : Global V)
    (l : Action V) : Prop :=
  match N.flow c l with
  | .stop _ => True
  | .deliver st msg =>
    msg.msgId = m → m ∉ st.delivered →
      N.distPaths l.node (st.paths.get m []) msg.source = true

instance (N : Network V) (m : String) (ls : History V) (c : Global V) (l : Action V) :
    Decidable (N.TestsPass m ls c l) :=
  match h : N.flow c l with
  | .stop _ => .isTrue (by simp [Network.TestsPass, h])
  | .deliver st msg =>
    decidable_of_iff (msg.msgId = m → m ∉ st.delivered →
      N.distPaths l.node (st.paths.get m []) msg.source = true) (by simp [Network.TestsPass, h])

/-! ## Getting the message -/

variable {N : Network V} {s : PeerId} {m : String} {ls : History V} {i src : PeerId}
  {st st₀ : DolevState} {rest owed : List PeerId} {msg : DMsg V} {newPath : List PeerId}
  {flow : Flow V} {t : Cont V} {near : PeerId → Prop} {o : Seg V}

/-- Node `i` has handled a message with id `m` that is no announcement. -/
def Got (m : String) (ls : History V) (i : PeerId) : Prop :=
  ∃ src msg, Handled ls i src msg ∧ msg.msgId = m ∧ (msg.path ≠ [] ∨ src = msg.source)

/-- A message with the id `m` of the source `s` comes from a neighbour; the nodes it
has passed have got it, and neither its sender nor its receiver is on its path. -/
structure Travels (N : Network V) (s : PeerId) (m : String) (ls : History V)
    (e : Envelope PeerId (DMsg V)) : Prop where
  source : e.msg.source = s
  near : e.src ∈ N.neighbours e.dst
  sender : e.src = s ∨ Got m ls e.src
  hops : ∀ y ∈ e.msg.path, y = s ∨ Got m ls y
  dst : e.dst ∉ e.msg.path
  src : e.src ∉ e.msg.path

/-- The handler is about a message from `src` that the node has got. -/
def Relayable (N : Network V) (s : PeerId) (m : String) (ls : History V) (i src : PeerId)
    (msg : DMsg V) : Prop :=
  msg.msgId = m → Travels N s m ls ⟨src, i, msg⟩ ∧ Got m ls i

/-- The handler is to announce a message the node has got. -/
def Announceable (s : PeerId) (m : String) (ls : History V) (i : PeerId) (msg : DMsg V) : Prop :=
  msg.msgId = m → msg.source = s ∧ Got m ls i

/-- The handler sends on a message the node has got. -/
def Onward (s : PeerId) (m : String) (ls : History V) (i : PeerId) (msg : DMsg V)
    (newPath : List PeerId) : Prop :=
  msg.msgId = m → msg.source = s ∧ Got m ls i ∧ i ∉ newPath ∧ ∀ y ∈ newPath, y = s ∨ Got m ls y

/-- What a suspended coroutine is about. -/
def Carries (N : Network V) (s : PeerId) (m : String) (ls : History V) (i : PeerId) :
    Cont V → Prop
  | .broadcast b | .broadcasting _ b => b ∈ N.broadcasts i
  | .sendTo peer _ b => peer ∈ N.neighbours i ∧ b ∈ N.broadcasts i
  | .directDelivered msg | .empties _ true msg => Relayable N s m ls i msg.source msg
  | .delivered msg | .empties _ false msg => Announceable s m ls i msg
  | .emptyTo peer _ true msg => peer ∈ N.neighbours i ∧ Relayable N s m ls i msg.source msg
  | .emptyTo peer _ false msg => peer ∈ N.neighbours i ∧ Announceable s m ls i msg
  | .forwardTo peer _ msg newPath _ =>
    peer ∈ N.neighbours i ∧ peer ∉ newPath ∧ newPath ≠ [] ∧ Onward s m ls i msg newPath
  | .forward _ msg newPath _ => newPath ≠ [] ∧ Onward s m ls i msg newPath

/-- The coroutine is in the `my_deliver` of MD1, about `m`. -/
def Cont.IsDirect (m : String) : Cont V → Prop
  | .directDelivered msg | .emptyTo _ _ true msg | .empties _ true msg => msg.msgId = m
  | _ => False

/-- The coroutine is in the forwarding loop, about `m`. -/
def Cont.Forwarding (m : String) : Cont V → Prop
  | .forwardTo _ _ msg _ _ | .forward _ msg _ _ => msg.msgId = m
  | _ => False

/-- The peers a forwarding loop about `m` has not dealt with. -/
def Cont.remaining (m : String) : Cont V → List PeerId
  | .forwardTo peer rest msg _ _ => if msg.msgId = m then peer :: rest else []
  | .forward rest msg _ _ => if msg.msgId = m then rest else []
  | _ => []

section Mono

variable (ls' : History V)

theorem Got.append (h : Got m ls i) : Got m (ls ++ ls') i := by
  obtain ⟨src, msg, hh, hm⟩ := h
  exact ⟨src, msg, hh.append, hm⟩

theorem Travels.append {e : Envelope PeerId (DMsg V)} (h : Travels N s m ls e) :
    Travels N s m (ls ++ ls') e :=
  { h with
    sender := h.sender.imp_right (Got.append ls')
    hops := fun y hy => (h.hops y hy).imp_right (Got.append ls') }

theorem Relayable.append (h : Relayable N s m ls i src msg) :
    Relayable N s m (ls ++ ls') i src msg :=
  fun hm => (h hm).imp (Travels.append ls') (Got.append ls')

theorem Announceable.append (h : Announceable s m ls i msg) :
    Announceable s m (ls ++ ls') i msg :=
  fun hm => (h hm).imp_right (Got.append ls')

theorem Onward.append (h : Onward s m ls i msg newPath) : Onward s m (ls ++ ls') i msg newPath := by
  intro hm
  obtain ⟨hsource, hgot, hi, hhops⟩ := h hm
  exact ⟨hsource, hgot.append ls', hi, fun y hy => (hhops y hy).imp_right (Got.append ls')⟩

theorem Carries.append (h : Carries N s m ls i t) : Carries N s m (ls ++ ls') i t := by
  cases t with
  | broadcast _ | broadcasting _ _ | sendTo _ _ _ => exact h
  | directDelivered _ => exact Relayable.append ls' h
  | delivered _ => exact Announceable.append ls' h
  | emptyTo _ _ direct _ =>
    cases direct
    · exact ⟨h.1, h.2.append ls'⟩
    · exact ⟨h.1, h.2.append ls'⟩
  | empties _ direct _ =>
    cases direct
    · exact Announceable.append ls' h
    · exact Relayable.append ls' h
  | forwardTo _ _ _ _ _ => exact ⟨h.1, h.2.1, h.2.2.1, h.2.2.2.append ls'⟩
  | forward _ _ _ _ => exact ⟨h.1, h.2.append ls'⟩

/-- Only the handler of a message that is no announcement makes a node get it. -/
theorem Got.of_append {l : Action V} (h : Got m (ls ++ [l]) i) : Got m ls i ∨
    ∃ src msg, Handled [l] i src msg ∧ msg.msgId = m ∧ (msg.path ≠ [] ∨ src = msg.source) := by
  obtain ⟨src, msg, hh, hm⟩ := h
  rcases hh.of_append with hh | hh
  · exact .inl ⟨src, msg, hh, hm⟩
  · exact .inr ⟨src, msg, hh, hm⟩

theorem node_of_handled {l : Action V} (h : Handled [l] i src msg) : l.node = i := by
  rcases h with h | h
  all_goals
    rw [List.mem_singleton] at h
    subst h
    rfl

theorem flow_of_handled {c : Global V} {l : Action V} (h : Handled [l] i src msg) :
    N.flow c l = N.dolev i (c.st i) src msg := by
  rcases h with h | h
  all_goals
    rw [List.mem_singleton] at h
    subst h
    rfl

end Mono

/-! ## What a segment leaves in order -/

section Sanity

/-- What holds of a state a segment gets to, having begun in `st₀`. -/
structure Steady (s : PeerId) (m : String) (ls : History V) (i : PeerId) (st₀ st : DolevState) :
    Prop where
  noted : ∀ y ∈ st.neighbourDelivered.get m ∅, y = i ∨ Got m ls y
  delivered : i ≠ s → m ∈ st.delivered → Got m ls i
  grows : m ∈ st₀.delivered → m ∈ st.delivered

/-- What holds of what a segment leaves. -/
structure Sane (N : Network V) (s : PeerId) (m : String) (ls : History V) (i : PeerId)
    (st₀ : DolevState) (o : Seg V) : Prop extends Steady s m ls i st₀ o.st where
  rest : ∀ t ∈ o.rest, Carries N s m ls i t
  out : ∀ dm ∈ o.out, dm.2.msgId = m → Travels N s m ls ⟨i, dm.1, dm.2⟩

/-- The same for a flow. -/
def Flow.Sane (N : Network V) (s : PeerId) (m : String) (ls : History V) (i : PeerId)
    (st₀ : DolevState) : Flow V → Prop
  | .stop o => Dolev.Sane N s m ls i st₀ o
  | .deliver st msg => Steady s m ls i st₀ st ∧ Announceable s m ls i msg

theorem Steady.kept {st' : DolevState} {marked : String → Prop} (h : Steady s m ls i st₀ st)
    (hkept : Kept i marked st st') : Steady s m ls i st₀ st' where
  noted y hy := by
    rcases hkept.noted m y hy with hy | ⟨hy, -⟩
    · exact h.noted y hy
    · exact .inl hy
  delivered hs hm := h.delivered hs (hkept.delivered ▸ hm)
  grows hm := hkept.delivered ▸ h.grows hm

theorem Steady.deliver (h : Steady s m ls i st₀ st) {k : String}
    (hk : k = m → i ≠ s → Got m ls i) : Steady s m ls i st₀ (st.deliver k) where
  noted := h.noted
  delivered hs hm := by
    rcases Finset.mem_insert.mp hm with rfl | hm
    · exact hk rfl hs
    · exact h.delivered hs hm
  grows hm := Finset.mem_insert_of_mem (h.grows hm)

theorem Steady.addNeighbourDelivered (h : Steady s m ls i st₀ st) {k : String}
    (hk : k = m → Got m ls src) : Steady s m ls i st₀ (st.addNeighbourDelivered k src) where
  noted y hy := by
    by_cases hkm : m = k
    · subst hkm
      rw [DolevState.addNeighbourDelivered, Dict.get_insert_self, Finset.mem_insert] at hy
      rcases hy with rfl | hy
      · exact .inr (hk rfl)
      · exact h.noted y hy
    · rw [DolevState.addNeighbourDelivered, Dict.get_insert_of_ne hkm] at hy
      exact h.noted y hy
  delivered := h.delivered
  grows := h.grows

theorem Steady.sane (h : Steady s m ls i st₀ st) {rest : Option (Cont V)}
    (hrest : ∀ t ∈ rest, Carries N s m ls i t) :
    Sane N s m ls i st₀ { st := st, rest := rest } :=
  { h with
    rest := hrest
    out := nofun }

theorem Cont.Direct.carries_iff (ht : t.Direct msg near)
    (hnear : ∀ peer, near peer → peer ∈ N.neighbours i) :
    Carries N s m ls i t ↔ Relayable N s m ls i msg.source msg := by
  cases ht with
  | delivered | empties => exact Iff.rfl
  | emptyTo hpeer => exact and_iff_right (hnear _ hpeer)

theorem Cont.Final.carries_iff (ht : t.Final msg near)
    (hnear : ∀ peer, near peer → peer ∈ N.neighbours i) :
    Carries N s m ls i t ↔ Announceable s m ls i msg := by
  cases ht with
  | delivered | empties => exact Iff.rfl
  | emptyTo hpeer => exact and_iff_right (hnear _ hpeer)

theorem Cont.Sending.carries {b : Broadcast V} (ht : t.Sending b (· ∈ N.neighbours i))
    (hb : b ∈ N.broadcasts i) : Carries N s m ls i t := by
  cases ht with
  | sendTo hpeer => exact ⟨hpeer, hb⟩
  | broadcasting => exact hb

theorem Flow.Sane.settle (h : flow.Sane N s m ls i st₀) :
    Dolev.Sane N s m ls i st₀ (N.settle i flow) := by
  cases flow with
  | stop o => exact h
  | deliver st msg =>
    obtain ⟨hst, hann⟩ := h
    rw [Network.settle]
    generalize ho : N.myDeliver i st msg = o
    have hends : Ends N i st msg o := ho ▸ ends_myDeliver
    have hcarries : ∀ t, t.Final msg (· ∈ N.neighbours i) → Carries N s m ls i t :=
      fun t ht => (ht.carries_iff fun _ h => h).mpr hann
    cases hends with
    | before _ hkept hrest | fails _ _ hkept hrest =>
      exact (hst.kept hkept).sane fun t ht => hcarries t (hrest t ht).toFinal
    | passes _ _ hkept hrest =>
      have hst' := hst.deliver fun hm _ => (hann hm).2
      exact (hst'.kept hkept).sane fun t ht => hcarries t (hrest t ht)

theorem Forwards.sane (h : Forwards N i st rest msg newPath flow) (hst : Steady s m ls i st₀ st)
    (hpath : newPath ≠ []) (hon : Onward s m ls i msg newPath) : flow.Sane N s m ls i st₀ := by
  cases h with
  | wait hpeer hnot _ =>
    refine hst.sane fun t ht => ?_
    obtain rfl := Option.some.inj ht
    exact ⟨hpeer, hnot, hpath, hon⟩
  | through _ => exact ⟨hst, fun hm => ⟨(hon hm).1, (hon hm).2.1⟩⟩

/-- What a node has got it may send on, with the sender on the path. -/
theorem Relayable.onward (h : Relayable N s m ls i src msg) (hN : N.Undirected) :
    Onward s m ls i msg (msg.path ++ [src]) := by
  intro hm
  obtain ⟨htravels, hgot⟩ := h hm
  refine ⟨htravels.source, hgot, ?_, fun y hy => ?_⟩
  · rw [List.mem_append, List.mem_singleton, not_or]
    refine ⟨htravels.dst, ?_⟩
    rintro rfl
    exact hN.irrefl _ htravels.near
  · rcases List.mem_append.mp hy with hy | hy
    · exact htravels.hops y hy
    · obtain rfl := List.mem_singleton.mp hy
      exact htravels.sender

theorem Relays.sane (h : Relays N i st src msg flow) (hN : N.Undirected)
    (hst : Steady s m ls i st₀ st) (hrel : Relayable N s m ls i src msg) :
    flow.Sane N s m ls i st₀ := by
  cases h with
  | drop _ => exact hst.sane nofun
  | record _ hkept hfwd => exact hfwd.sane (hst.kept hkept) (by simp) (hrel.onward hN)

theorem AfterDirect.sane (h : AfterDirect N i st msg flow) (hN : N.Undirected)
    (hst : Steady s m ls i st₀ st) (hrel : Relayable N s m ls i msg.source msg) :
    flow.Sane N s m ls i st₀ := by
  cases h with
  | wait hkept ht =>
    refine (hst.kept hkept).sane fun t' ht' => ?_
    obtain rfl := Option.some.inj ht'
    exact (ht.toDirect.carries_iff fun _ h => h).mpr hrel
  | relay hkept hrelay => exact hrelay.sane hN (hst.kept hkept) hrel

theorem Handles.sane (h : Handles N i st src msg flow) (hN : N.Undirected)
    (hst : Steady s m ls i st₀ st) (hmsg : msg.msgId = m → Travels N s m ls ⟨src, i, msg⟩)
    (hgot : msg.msgId = m → msg.path ≠ [] ∨ src = msg.source → Got m ls i) :
    flow.Sane N s m ls i st₀ := by
  cases h with
  | stranger _ | md5 _ _ _ => exact hst.sane nofun
  | note hpath hsrc =>
    refine (hst.addNeighbourDelivered fun hm => ?_).sane nofun
    have htravels := hmsg hm
    exact htravels.sender.resolve_left fun h => hsrc (h.trans htravels.source.symm)
  | parent hsrc _ =>
    subst hsrc
    refine (hst.deliver fun hm _ => hgot hm (.inr rfl)).sane fun t ht => ?_
    obtain rfl := Option.some.inj ht
    exact fun hm => ⟨hmsg hm, hgot hm (.inr rfl)⟩
  | direct hsrc _ hafter =>
    subst hsrc
    refine hafter.sane hN (hst.deliver fun hm _ => hgot hm (.inr rfl)) fun hm => ?_
    exact ⟨hmsg hm, hgot hm (.inr rfl)⟩
  | relay _ _ hpath hrelay =>
    rw [not_and_or, not_not] at hpath
    exact hrelay.sane hN hst fun hm => ⟨hmsg hm, hgot hm hpath⟩

/-- A message of the source, sent to a neighbour. -/
theorem travels_broadcast {b : Broadcast V} {peer : PeerId} (hN : N.Undirected)
    (hpeer : peer ∈ N.neighbours i) (hi : i = s) : Travels N s m ls ⟨i, peer, b.dmsg i⟩ where
  source := hi
  near := hN.symm i peer hpeer
  sender := .inl hi
  hops := nofun
  dst := List.not_mem_nil
  src := List.not_mem_nil

/-- An announcement, sent to a neighbour. -/
theorem Announceable.travels {peer : PeerId} (h : Announceable s m ls i msg) (hN : N.Undirected)
    (hpeer : peer ∈ N.neighbours i) (hm : msg.msgId = m) :
    Travels N s m ls ⟨i, peer, { msg with path := [] }⟩ where
  source := (h hm).1
  near := hN.symm i peer hpeer
  sender := .inr (h hm).2
  hops := nofun
  dst := List.not_mem_nil
  src := List.not_mem_nil

theorem Relayable.announceable (h : Relayable N s m ls i src msg) : Announceable s m ls i msg :=
  fun hm => ⟨(h hm).1.source, (h hm).2⟩

/-- A message sent on to a neighbour that is not on its path. -/
theorem Onward.travels {peer : PeerId} (h : Onward s m ls i msg newPath) (hN : N.Undirected)
    (hpeer : peer ∈ N.neighbours i) (hnot : peer ∉ newPath) (hm : msg.msgId = m) :
    Travels N s m ls ⟨i, peer, { msg with path := newPath }⟩ := by
  obtain ⟨hsource, hgot, hi, hhops⟩ := h hm
  exact ⟨hsource, hN.symm i peer hpeer, .inr hgot, hhops, hnot, hi⟩

theorem Resumes.sane (h : Resumes N i st t flow) (hN : N.Undirected)
    (hids : ∀ b ∈ N.broadcasts i, b.msgId = m → i = s) (hst : Steady s m ls i st₀ st)
    (ht : Carries N s m ls i t) : flow.Sane N s m ls i st₀ := by
  cases h with
  | @broadcast b st' out rest hst' hout hrest =>
    -- only the source broadcasts under this id
    have hst'' : Steady s m ls i st₀ st' := by
      rcases hst' with rfl | rfl
      · exact hst
      · exact hst.deliver fun hm hs => absurd (hids b ht hm) hs
    refine ⟨hst'', fun t' ht' => (hrest t' ht').carries ht, fun dm hdm hm => ?_⟩
    obtain ⟨hpeer, hdm⟩ := hout dm hdm
    rw [hdm] at hm ⊢
    exact travels_broadcast hN hpeer (hids b ht hm)
  | sendTo =>
    refine ⟨hst, fun t' ht' => ?_, fun dm hdm hm => ?_⟩
    · obtain rfl := Option.some.inj ht'
      exact ht.2
    · obtain rfl := List.mem_singleton.mp hdm
      exact travels_broadcast hN ht.1 (hids _ ht.2 hm)
  | broadcasting hout hrest =>
    refine ⟨hst, fun t' ht' => (hrest t' ht').carries ht, fun dm hdm hm => ?_⟩
    obtain ⟨hpeer, hdm⟩ := hout dm hdm
    rw [hdm] at hm ⊢
    exact travels_broadcast hN hpeer (hids _ ht hm)
  | direct hdirect hafter =>
    exact hafter.sane hN hst ((hdirect.carries_iff fun _ h => h.elim).mp ht)
  | final hfinal hkept hrest =>
    have hann := (hfinal.carries_iff fun _ h => h.elim).mp ht
    refine (hst.kept hkept).sane fun t' ht' => ?_
    exact ((hrest t' ht').toFinal.carries_iff fun _ h => h).mpr hann
  | @emptyTo peer rest direct msg =>
    have hann : peer ∈ N.neighbours i ∧ Announceable s m ls i msg := by
      cases direct with
      | true => exact ht.imp_right Relayable.announceable
      | false => exact ht
    refine ⟨hst, fun t' ht' => ?_, fun dm hdm hm => ?_⟩
    · obtain rfl := Option.some.inj ht'
      cases direct with
      | true => exact ht.2
      | false => exact ht.2
    · obtain rfl := List.mem_singleton.mp hdm
      exact hann.2.travels hN hann.1 hm
  | forwardTo =>
    obtain ⟨hpeer, hnot, hpath, hon⟩ := ht
    refine ⟨hst, fun t' ht' => ?_, fun dm hdm hm => ?_⟩
    · obtain rfl := Option.some.inj ht'
      exact ⟨hpath, hon⟩
    · obtain rfl := List.mem_singleton.mp hdm
      exact hon.travels hN hpeer hnot hm
  | forward hfwd => exact hfwd.sane hst ht.1 ht.2

end Sanity

/-! ## What a segment brings about -/

section Progress

/-- The peer `y` is the source, has got the message, is sent it, or is among those a
forwarding loop has still to deal with. -/
inductive Dealt (s : PeerId) (m : String) (ls : History V) (o : Seg V) (y : PeerId) : Prop
  | got (h : y = s ∨ Got m ls y)
  | sent {msg : DMsg V} (hout : (y, msg) ∈ o.out) (hm : msg.msgId = m) (hpath : msg.path ≠ [])
  | remains {t : Cont V} (ht : t ∈ o.rest) (hy : y ∈ t.remaining m)

/-- A segment that has the peers `owed` to forward to has delivered or is still
forwarding, and leaves out only peers that have got the message. -/
structure Spreads (N : Network V) (s : PeerId) (m : String) (ls : History V) (i : PeerId)
    (owed : List PeerId) (o : Seg V) : Prop where
  delivering : m ∈ o.st.delivered ∨ ∃ t ∈ o.rest, t.Forwarding m
  spreading : ∀ y ∈ owed, y ∈ N.neighbours i → Dealt s m ls o y

/-- The same for a flow. -/
def Flow.Spreads (N : Network V) (s : PeerId) (m : String) (ls : History V) (i : PeerId)
    (owed : List PeerId) : Flow V → Prop
  | .stop o => Dolev.Spreads N s m ls i owed o
  | .deliver _ msg => msg.msgId = m ∧ ∀ y ∈ owed, y ∈ N.neighbours i → y = s ∨ Got m ls y

/-- A handler that gets to its final `my_deliver` delivers, as the test passes. -/
theorem Flow.Spreads.settle (h : flow.Spreads N s m ls i owed)
    (hpass : ∀ st msg, flow = .deliver st msg → msg.msgId = m → m ∉ st.delivered →
      N.distPaths i (st.paths.get m []) msg.source = true) :
    Dolev.Spreads N s m ls i owed (N.settle i flow) := by
  cases flow with
  | stop o => exact h
  | deliver st msg =>
    obtain ⟨hm, howed⟩ := h
    have hpass' := hpass st msg rfl hm
    subst hm
    rw [Network.settle]
    generalize ho : N.myDeliver i st msg = o
    have hends : Ends N i st msg o := ho ▸ ends_myDeliver
    refine ⟨.inl ?_, fun y hy hnb => .got (howed y hy hnb)⟩
    cases hends with
    | before hdel hkept _ => exact hkept.delivered.symm ▸ hdel
    | fails hdel htest _ _ => exact absurd (hpass' hdel) htest
    | passes _ _ hkept _ => exact hkept.delivered.symm ▸ Finset.mem_insert_self _ _

theorem Forwards.spreads (h : Forwards N i st rest msg newPath flow) (hN : N.Undirected)
    (hm : msg.msgId = m) (hnoted : ∀ y ∈ st.neighbourDelivered.get m ∅, y = i ∨ Got m ls y)
    (hhops : ∀ y ∈ newPath, y = s ∨ Got m ls y) : flow.Spreads N s m ls i rest := by
  subst hm
  -- who is on the path or noted has got the message
  have hgot : ∀ y ∈ N.neighbours i, y ∈ newPath ∨ y ∈ st.neighbourDelivered.get msg.msgId ∅ →
      y = s ∨ Got msg.msgId ls y := by
    rintro y hnb (hy | hy)
    · exact hhops y hy
    · refine .inr ((hnoted y hy).resolve_left ?_)
      rintro rfl
      exact hN.irrefl y hnb
  cases h with
  | @wait peer rest' live _ _ hskip =>
    refine ⟨.inr ⟨_, rfl, rfl⟩, fun y hy hnb => ?_⟩
    rcases hskip y hy hnb with hrem | hskipped
    · exact .remains rfl (by simpa [Cont.remaining] using hrem)
    · exact .got (hgot y hnb hskipped)
  | through hskip => exact ⟨rfl, fun y hy hnb => hgot y hnb (hskip y hy hnb)⟩

theorem Relays.spreads (h : Relays N i st src msg flow) (hN : N.Undirected)
    (hm : msg.msgId = m) (hst : Steady s m ls i st₀ st)
    (hrel : Relayable N s m ls i src msg) : flow.Spreads N s m ls i (N.peers i) := by
  cases h with
  | drop hmd4 => exact absurd hmd4.2 (hrel hm).1.src
  | record _ hkept hfwd =>
    exact hfwd.spreads hN hm (hst.kept hkept).noted (hrel.onward hN hm).2.2.2

/-- After MD1 a handler is announcing its delivery, or has gone on. -/
theorem AfterDirect.spreads (h : AfterDirect N i st msg flow) (hN : N.Undirected)
    (hm : msg.msgId = m) (hst : Steady s m ls i st₀ st)
    (hrel : Relayable N s m ls i msg.source msg) :
    (∃ o, flow = .stop o ∧ o.st.delivered = st.delivered ∧ ∃ t ∈ o.rest, t.IsDirect m) ∨
      flow.Spreads N s m ls i (N.peers i) := by
  cases h with
  | wait hkept ht =>
    refine .inl ⟨_, rfl, hkept.delivered, _, rfl, ?_⟩
    cases ht <;> exact hm
  | relay hkept hrelay => exact .inr (hrelay.spreads hN hm (hst.kept hkept) hrel)

/-- A handler about `m` is announcing its delivery, or has dealt with every peer. -/
def Answered (N : Network V) (s : PeerId) (m : String) (ls : History V) (i : PeerId)
    (o : Seg V) : Prop :=
  (∃ t ∈ o.rest, t.IsDirect m) ∨ ∀ y ∈ N.peers i, y ∈ N.neighbours i → Dealt s m ls o y

/-- A node that gets the message had delivered it before, or answers. -/
theorem Handles.answers (h : Handles N i st src msg flow) (hN : N.Undirected)
    (hm : msg.msgId = m) (hpath : msg.path ≠ [] ∨ src = msg.source) (hst : Steady s m ls i st₀ st)
    (hrel : Relayable N s m ls i src msg)
    (hpass : ∀ st msg, flow = .deliver st msg → msg.msgId = m → m ∉ st.delivered →
      N.distPaths i (st.paths.get m []) msg.source = true) :
    m ∈ st.delivered ∨ (m ∈ (N.settle i flow).st.delivered ∨
      ∃ t ∈ (N.settle i flow).rest, t.Forwarding m) ∧ Answered N s m ls i (N.settle i flow) := by
  cases h with
  | stranger hsrc => exact absurd (hrel hm).1.near hsrc
  | md5 _ hdel _ => exact .inl (hm ▸ hdel)
  | note hempty hsrc => exact absurd hpath (not_or.mpr ⟨not_not.mpr hempty, hsrc⟩)
  | parent _ _ => exact .inr ⟨.inl (hm ▸ Finset.mem_insert_self _ _), .inl ⟨_, rfl, hm⟩⟩
  | direct hsrc _ hafter =>
    subst hsrc
    have hst' := hst.deliver (k := msg.msgId) fun _ _ => (hrel hm).2
    refine .inr ?_
    rcases hafter.spreads hN hm hst' hrel with ⟨o, rfl, hdel, hdirect⟩ | hspreads
    · refine ⟨.inl ?_, .inl hdirect⟩
      show m ∈ o.st.delivered
      rw [hdel, ← hm]
      exact Finset.mem_insert_self _ _
    · have := hspreads.settle hpass
      exact ⟨this.delivering, .inr this.spreading⟩
  | relay _ _ _ hrelay =>
    have := (hrelay.spreads hN hm hst hrel).settle hpass
    exact .inr ⟨this.delivering, .inr this.spreading⟩

/-- A handler that goes on after MD1 answers. -/
theorem Resumes.answers (h : Resumes N i st t flow) (hN : N.Undirected) (ht : t.IsDirect m)
    (hst : Steady s m ls i st₀ st) (hcarries : Carries N s m ls i t)
    (hpass : ∀ st msg, flow = .deliver st msg → msg.msgId = m → m ∉ st.delivered →
      N.distPaths i (st.paths.get m []) msg.source = true) :
    Answered N s m ls i (N.settle i flow) := by
  cases h with
  | broadcast _ _ _ | sendTo | broadcasting _ _ | forwardTo | forward _ => cases ht
  | final hfinal _ _ => cases hfinal <;> cases ht
  | @emptyTo _ _ direct _ =>
    cases direct with
    | true => exact .inl ⟨_, rfl, ht⟩
    | false => cases ht
  | @direct _ msg _ hdirect hafter =>
    have hm : msg.msgId = m := by cases hdirect <;> exact ht
    have hrel := (hdirect.carries_iff fun _ h => h.elim).mp hcarries
    rcases hafter.spreads hN hm hst hrel with ⟨o, rfl, -, hdirect⟩ | hspreads
    · exact .inl hdirect
    · exact .inr (hspreads.settle hpass).spreading

/-- A forwarding loop that goes on serves its next peer, and spreads the message. -/
theorem Resumes.spreads (h : Resumes N i st t flow) (hN : N.Undirected) (ht : t.Forwarding m)
    (hst : Steady s m ls i st₀ st) (hcarries : Carries N s m ls i t)
    (hpass : ∀ st msg, flow = .deliver st msg → msg.msgId = m → m ∉ st.delivered →
      N.distPaths i (st.paths.get m []) msg.source = true) :
    Spreads N s m ls i (t.remaining m) (N.settle i flow) := by
  cases h with
  | broadcast _ _ _ | sendTo | broadcasting _ _ | emptyTo => cases ht
  | direct hdirect _ => cases hdirect <;> cases ht
  | final hfinal _ _ => cases hfinal <;> cases ht
  | @forwardTo peer rest msg newPath live =>
    have hm : msg.msgId = m := ht
    refine ⟨.inr ⟨_, rfl, hm⟩, fun y hy _ => ?_⟩
    rw [Cont.remaining, if_pos hm] at hy
    rcases List.mem_cons.mp hy with rfl | hy
    · exact .sent (List.mem_singleton_self _) hm hcarries.2.2.1
    · exact .remains rfl (by rwa [Cont.remaining, if_pos hm])
  | @forward rest msg newPath live _ hfwd =>
    have hm : msg.msgId = m := ht
    rw [Cont.remaining, if_pos hm]
    exact (hfwd.spreads hN hm hst.noted (hcarries.2 hm).2.2.2).settle hpass

theorem Cont.forwarding_of_mem_remaining {y : PeerId} (h : y ∈ t.remaining m) :
    t.Forwarding m := by
  cases t with
  | forwardTo _ _ msg _ _ | forward _ msg _ _ =>
    by_contra hm
    rw [Cont.remaining, if_neg (show ¬ msg.msgId = m from hm)] at h
    exact absurd h List.not_mem_nil
  | _ => exact absurd h List.not_mem_nil

end Progress

/-! ## The message floods the network -/

variable [DecidableEq V]

/-- Node `i` has sent node `j` a message with id `m` that is no announcement. -/
def Sent (N : Network V) (m : String) (ls : History V) (i j : PeerId) : Prop :=
  ∃ msg : DMsg V, msg.msgId = m ∧ msg.path ≠ [] ∧
    Occurs N.next N.initial ls (Sends N.protocol N.parties i j msg)

theorem Sent.append {j : PeerId} (ls' : History V) (h : Sent N m ls i j) :
    Sent N m (ls ++ ls') i j := by
  obtain ⟨msg, hm, hpath, hocc⟩ := h
  exact ⟨msg, hm, hpath, hocc.append⟩

/-- What has followed, or is to follow, from getting the message. -/
structure Floods (N : Network V) (s : PeerId) (m : String) (ls : History V) (i : PeerId)
    (st : DolevState) (ts : List (Cont V)) : Prop where
  noted : ∀ y ∈ st.neighbourDelivered.get m ∅, y = i ∨ Got m ls y
  delivered : i ≠ s → m ∈ st.delivered → Got m ls i
  delivering : Got m ls i → m ∈ st.delivered ∨ ∃ t ∈ ts, t.Forwarding m
  spreading : i ≠ s → Got m ls i → (∃ t ∈ ts, t.IsDirect m) ∨
    ∀ y ∈ N.neighbours i, y ∈ N.parties.correct → y ≠ s →
      Got m ls y ∨ Sent N m ls i y ∨ ∃ t ∈ ts, y ∈ t.remaining m

/-- The assertion that the message floods the network. -/
def flooding (N : Network V) (s : PeerId) (m : String) :
    Assertion PeerId (DMsg V) DolevState (Cont V) where
  node ls i st ts := (∀ t ∈ ts, Carries N s m ls i t) ∧ Floods N s m ls i st ts
  msg ls e := e.msg.msgId = m → Travels N s m ls e

theorem Floods.append_of_ne {ts : List (Cont V)} {l : Action V} (hl : l.node ≠ i)
    (h : Floods N s m ls i st ts) : Floods N s m (ls ++ [l]) i st ts := by
  have hgot : Got m (ls ++ [l]) i → Got m ls i := by
    intro hgot
    refine hgot.of_append.resolve_right ?_
    rintro ⟨src, msg, hhandled, -⟩
    exact hl (node_of_handled hhandled)
  refine ⟨fun y hy => (h.noted y hy).imp_right (Got.append [l]),
    fun hs hm => (h.delivered hs hm).append [l], fun hg => h.delivering (hgot hg), fun hs hg => ?_⟩
  refine (h.spreading hs (hgot hg)).imp_right fun hall y hy hcorr hys => ?_
  exact (hall y hy hcorr hys).imp (Got.append [l]) (Or.imp_left (Sent.append [l]))

/-- The condition on a step: no test of the paths fails, and no Byzantine node says
anything about `m`. -/
def Network.Calm (N : Network V) (m : String) (ls : History V) (c : Global V) (l : Action V) :
    Prop :=
  N.TestsPass m ls c l ∧ ∀ e, l = .forge e → e.msg.msgId ≠ m

section Step

variable {c base : Global V} {l : Action V}

/-- A peer a segment has dealt with has got the message or is going to. -/
theorem Dealt.reached {y : PeerId} (h : Dealt s m (ls ++ [l]) o y) (hys : y ≠ s)
    (hc : exec N.next N.initial ls = some c) (hseg : Segment N.protocol N.parties c l i o base)
    (ts : List (Cont V)) : Got m (ls ++ [l]) y ∨ Sent N m (ls ++ [l]) i y ∨
      ∃ t ∈ o.rest.toList ++ ts, y ∈ t.remaining m := by
  cases h with
  | got h => exact .inl (h.resolve_left hys)
  | @sent msg hout hm hpath =>
    exact .inr (.inl ⟨msg, hm, hpath, occurs_last hc ⟨o, base, hseg, hout⟩⟩)
  | @remains t ht hy =>
    exact .inr (.inr ⟨t, List.mem_append_left _ (Option.mem_toList.mpr ht), hy⟩)

/-- A segment keeps the message flooding, given what it does to a node that gets the
message, to a forwarding loop and to the announcement of MD1. -/
theorem Floods.segment (hN : N.Undirected) (hc : exec N.next N.initial ls = some c)
    (hseg : Segment N.protocol N.parties c l i o base)
    (h : Floods N s m ls i (c.st i) (c.tasks i))
    (hsane : Sane N s m (ls ++ [l]) i (c.st i) o)
    (hgets : Got m (ls ++ [l]) i → ¬ Got m ls i → m ∈ (c.st i).delivered ∨
      (m ∈ o.st.delivered ∨ ∃ t ∈ o.rest, t.Forwarding m) ∧ Answered N s m (ls ++ [l]) i o)
    (hforwards : ∀ t, l = .wake i t → t.Forwarding m →
      Spreads N s m (ls ++ [l]) i (t.remaining m) o)
    (hanswers : ∀ t, l = .wake i t → t.IsDirect m → Answered N s m (ls ++ [l]) i o) :
    Floods N s m (ls ++ [l]) i o.st (o.rest.toList ++ base.tasks i) := by
  have hnew : ∀ {p : Cont V → Prop}, (∃ t ∈ o.rest, p t) →
      ∃ t ∈ o.rest.toList ++ base.tasks i, p t := by
    rintro p ⟨t, ht, hp⟩
    exact ⟨t, List.mem_append_left _ (Option.mem_toList.mpr ht), hp⟩
  have hanswered : Answered N s m (ls ++ [l]) i o →
      (∃ t ∈ o.rest.toList ++ base.tasks i, t.IsDirect m) ∨
        ∀ y ∈ N.neighbours i, y ∈ N.parties.correct → y ≠ s → Got m (ls ++ [l]) y ∨
          Sent N m (ls ++ [l]) i y ∨ ∃ t ∈ o.rest.toList ++ base.tasks i, y ∈ t.remaining m := by
    refine Or.imp hnew fun hall y hy hcorr hys => ?_
    have hpeer : y ∈ N.peers i := by
      refine (N.mem_peers i (N.mem_nodes_of_correct hseg.correct) y).mpr
        ⟨N.mem_nodes_of_correct hcorr, ?_⟩
      rintro rfl
      exact hN.irrefl y hy
    exact (hall y hpeer hy).reached hys hc hseg _
  refine ⟨hsane.noted, hsane.delivered, fun hgot => ?_, fun hs hgot => ?_⟩
  -- the node delivers: the loop that was to do so is left alone, goes on, or is new
  · by_cases hold : Got m ls i
    · rcases h.delivering hold with hdel | ⟨t, ht, hfwd⟩
      · exact .inl (hsane.grows hdel)
      · rcases hseg.mem_base_tasks_or ht with hbase | hl
        · exact .inr ⟨t, List.mem_append_right _ hbase, hfwd⟩
        · exact (hforwards t hl hfwd).delivering.imp_right hnew
    · rcases hgets hgot hold with hdel | ⟨hdel, -⟩
      · exact .inl (hsane.grows hdel)
      · exact hdel.imp_right hnew
  -- and it spreads the message, by the same cases
  · by_cases hold : Got m ls i
    · rcases h.spreading hs hold with ⟨t, ht, hdirect⟩ | hall
      · rcases hseg.mem_base_tasks_or ht with hbase | hl
        · exact .inl ⟨t, List.mem_append_right _ hbase, hdirect⟩
        · exact hanswered (hanswers t hl hdirect)
      · refine .inr fun y hy hcorr hys => ?_
        rcases hall y hy hcorr hys with hgot | hsent | ⟨t, ht, hrem⟩
        · exact .inl (hgot.append _)
        · exact .inr (.inl (hsent.append _))
        · rcases hseg.mem_base_tasks_or ht with hbase | hl
          · exact .inr (.inr ⟨t, List.mem_append_right _ hbase, hrem⟩)
          · have hspreads := hforwards t hl (Cont.forwarding_of_mem_remaining hrem)
            exact (hspreads.spreading y hrem hy).reached hys hc hseg _
    · rcases hgets hgot hold with hdel | ⟨-, hans⟩
      · exact absurd (h.delivered hs hdel) hold
      · exact hanswered hans

end Step

/-- **The message floods the network** in the runs whose steps are all calm. -/
theorem flooding_inductive (hN : N.Undirected)
    (hids : ∀ j ∈ N.parties.correct, ∀ b ∈ N.broadcasts j, b.msgId = m → j = s) :
    (flooding N s m).Inductive N.protocol N.parties N.initial (N.Calm m) where
  init := by
    have hnone : ∀ i, ¬ Got m ([] : History V) i := by
      rintro i ⟨src, msg, h | h, -⟩ <;> exact absurd h List.not_mem_nil
    refine ⟨fun i _ => ⟨fun t ht => ?_, ?_⟩, nofun, nofun⟩
    · obtain ⟨b, hb, rfl⟩ := List.mem_map.mp ht
      exact hb
    · refine ⟨fun y hy => ?_, fun _ hm => ?_, fun hgot => absurd hgot (hnone i),
        fun _ hgot => absurd hgot (hnone i)⟩
      · rw [Network.initial, Dict.get_empty] at hy
        exact absurd hy (Finset.notMem_empty y)
      · exact absurd hm (Finset.notMem_empty m)
  node_mono hl h := ⟨fun t ht => (h.1 t ht).append _, h.2.append_of_ne hl⟩
  msg_mono h hm := (h hm).append _
  segment := by
    intro ls c l i o base hc hA hcalm hseg
    obtain ⟨hcarries, hfloods⟩ := hA.node i hseg.correct
    have hst : Steady s m (ls ++ [l]) i (c.st i) (c.st i) :=
      ⟨fun y hy => (hfloods.noted y hy).imp_right (Got.append _),
        fun hs hm => (hfloods.delivered hs hm).append _, id⟩
    have hpass : ∀ st msg, N.flow c l = .deliver st msg → msg.msgId = m → m ∉ st.delivered →
        N.distPaths i (st.paths.get m []) msg.source = true := by
      intro st msg hflow
      have htests := hcalm.1
      rw [Network.TestsPass, hflow, hseg.node_eq] at htests
      exact htests
    have ho := flow_of_segment hseg
    -- a message about `m` being handled has come over the network
    have hmsg : ∀ src msg, Handled [l] i src msg → msg.msgId = m →
        Travels N s m (ls ++ [l]) ⟨src, i, msg⟩ := by
      rintro src msg (hl | hl) hm
      · rw [List.mem_singleton] at hl
        subst hl
        exact (hA.msg _ hseg.mem_net hm).append _
      · rw [List.mem_singleton] at hl
        exact absurd hm (hcalm.2 _ hl.symm)
    -- the state, the coroutine and the messages it leaves are in order
    have hsane : Sane N s m (ls ++ [l]) i (c.st i) o := by
      rw [ho]
      refine Flow.Sane.settle ?_
      have hhandles : ∀ src msg, Handled [l] i src msg →
          (N.dolev i (c.st i) src msg).Sane N s m (ls ++ [l]) i (c.st i) := by
        intro src msg hh
        refine handles_dolev.sane hN hst (hmsg src msg hh) fun hm hpath => ?_
        exact ⟨src, msg, hh.imp (List.mem_append_right _) (List.mem_append_right _), hm, hpath⟩
      cases hseg with
      | recv _ _ => exact hhandles _ _ (.inl (List.mem_singleton_self _))
      | forge _ _ => exact hhandles _ _ (.inr (List.mem_singleton_self _))
      | wake hi ht _ =>
        exact resumes_resume.sane hN (hids i hi) hst ((hcarries _ ht).append _)
    -- a node that gets the message in this step answers it
    have hgets : Got m (ls ++ [l]) i → ¬ Got m ls i → m ∈ (c.st i).delivered ∨
        (m ∈ o.st.delivered ∨ ∃ t ∈ o.rest, t.Forwarding m) ∧
          Answered N s m (ls ++ [l]) i o := by
      intro hgot hnot
      obtain ⟨src, msg, hh, hm, hpath⟩ := hgot.of_append.resolve_left hnot
      have hflow := flow_of_handled (N := N) (c := c) hh
      rw [hflow] at hpass
      rw [ho, hflow]
      exact handles_dolev.answers hN hm hpath hst (fun hm => ⟨hmsg src msg hh hm, hgot⟩) hpass
    have hwoken : ∀ t, l = .wake i t → Carries N s m (ls ++ [l]) i t := by
      rintro t rfl
      cases hseg with
      | wake _ ht _ => exact (hcarries t ht).append _
    refine ⟨⟨fun t ht => ?_, hfloods.segment hN hc hseg hsane hgets ?_ ?_⟩, ?_⟩
    · rcases hseg.mem_rest_or_tasks ht with hnew | hold
      · exact hsane.rest t hnew
      · exact (hcarries t hold).append _
    · rintro t rfl hfwd
      rw [ho]
      exact resumes_resume.spreads hN hfwd hst (hwoken t rfl) hpass
    · rintro t rfl hdirect
      rw [ho]
      exact resumes_resume.answers hN hdirect hst (hwoken t rfl) hpass
    · exact fun dm hdm hm => hsane.out dm hdm hm

/-! ## Validity -/

/-- What has been sent to a correct node has been handled once no message to one is
in flight. -/
theorem handled_of_sent {c : Global V} {j : PeerId} (hc : exec N.next N.initial ls = some c)
    (hquiet : N.Quiescent c) (hj : j ∈ N.parties.correct)
    (h : Occurs N.next N.initial ls (Sends N.protocol N.parties i j msg)) :
    Handled ls j i msg := by
  refine .inl ((handled_or_in_flight ls c hc h).resolve_right fun hnet => ?_)
  exact hquiet.1 _ hnet hj

/-- **RC-Validity.** When a correct source has sent its message to its neighbours, no
Byzantine node says anything about it and no test of the paths fails, then once the
network has come to rest all correct nodes but the source have delivered it. -/
theorem delivered_of_quiescent (N : Network V) (s : PeerId) (b : Broadcast V)
    (hN : N.Undirected) (hconn : N.Connected (2 * N.f + 1)) (hf : N.parties.byz.card ≤ N.f)
    (hids : ∀ j ∈ N.parties.correct, ∀ b' ∈ N.broadcasts j, b'.msgId = b.msgId → j = s)
    (ls : History V) (c : Global V) (hc : exec N.next N.initial ls = some c)
    (hsilent : ∀ e, .forge e ∈ ls → e.msg.msgId ≠ b.msgId) (hs : s ∈ N.parties.correct)
    (hsent : ∀ y ∈ N.neighbours s,
      Occurs N.next N.initial ls (Sends N.protocol N.parties s y (b.dmsg s)))
    (hpass : Meets N.next N.initial (N.TestsPass b.msgId) ls) (hquiet : N.Quiescent c) :
    ∀ i ∈ N.parties.correct, i ≠ s → b.msgId ∈ (c.st i).delivered := by
  have hcalm : Meets N.next N.initial (N.Calm b.msgId) ls := by
    rintro ls₁ l ls₂ c₁ rfl hc₁
    refine ⟨hpass ls₁ l ls₂ c₁ rfl hc₁, ?_⟩
    rintro e rfl
    exact hsilent e (by simp)
  have hA := Assertion.holds_of_meets (flooding_inductive hN hids) ls c hc hcalm
  -- the correct nodes are what is left of the network without the Byzantine ones
  have hcorrect : ∀ i, i ∈ N.parties.nodes \ N.parties.byz ↔ i ∈ N.parties.correct := by
    intro i
    rw [Finset.mem_sdiff, Parties.mem_nodes]
    constructor
    · rintro ⟨h | h, hbyz⟩
      · exact h
      · exact absurd h hbyz
    · exact fun h => ⟨.inl h, Parties.not_byz h⟩
  -- the message gets to the neighbours of every correct node that has it
  have hspread : ∀ i ∈ N.parties.nodes \ N.parties.byz, i = s ∨ Got b.msgId ls i := by
    refine hconn.spread (fun i hi => Parties.mem_nodes.mpr (.inr hi)) (by omega)
      ((hcorrect s).mpr hs) (.inl rfl) ?_
    intro x y hx hy hxy hgot
    rw [hcorrect] at hx hy
    by_cases hys : y = s
    · exact .inl hys
    refine .inr ?_
    rcases Classical.em (x = s) with rfl | hxs
    · exact ⟨x, b.dmsg x, handled_of_sent hc hquiet hy (hsent y hxy), rfl, .inr rfl⟩
    · have hfloods := (hA.node x hx).2
      -- no handler is suspended, so nothing is still to come
      have htasks : ∀ {p : Cont V → Prop}, (∀ t, p t → t.msg? ≠ none) →
          ¬ ∃ t ∈ c.tasks x, p t := by
        rintro p hp ⟨t, ht, hpt⟩
        exact hp t hpt (hquiet.2 x hx t ht)
      rcases hfloods.spreading hxs (hgot.resolve_left hxs) with hdirect | hall
      · exact absurd hdirect (htasks fun t ht => by cases t <;> first | cases ht | exact nofun)
      · rcases hall y hxy hy hys with hgot | ⟨msg, hm, hpath, hocc⟩ | hrem
        · exact hgot
        · exact ⟨x, msg, handled_of_sent hc hquiet hy hocc, hm, .inl hpath⟩
        · exact absurd hrem (htasks fun t ht => by
            cases t <;> first | exact absurd ht List.not_mem_nil | exact nofun)
  intro i hi his
  have hgot := (hspread i ((hcorrect i).mpr hi)).resolve_left his
  refine ((hA.node i hi).2.delivering hgot).resolve_right ?_
  rintro ⟨t, ht, hfwd⟩
  have hnone := hquiet.2 i hi t ht
  cases t <;> first | cases hfwd | cases hnone

/-! ## Two runs -/

/-- The coroutines an announcing loop is suspended in, one after the other. -/
def announcing (direct : Bool) (msg : DMsg V) : List PeerId → List (Cont V)
  | [] => []
  | peer :: rest =>
    .emptyTo peer rest direct msg :: .empties rest direct msg :: announcing direct msg rest

/-- The coroutines a forwarding loop is suspended in, one after the other. -/
def forwarding (msg : DMsg V) (newPath : List PeerId) : List PeerId → List (Cont V)
  | [] => []
  | peer :: rest =>
    .forwardTo peer rest msg newPath true :: .forward rest msg newPath true ::
      forwarding msg newPath rest

/-- The node's coroutines go on, one after the other. -/
def goOn (i : PeerId) (ts : List (Cont V)) : History V := ts.map (.wake i)

/-- The nodes of the network below. -/
def fiveNodes : Finset PeerId := {"s", "a", "b", "z", "c"}

/-- Five nodes, all of them neighbours but s and z, one of them Byzantine: the least
network that meets the assumptions for `f = 1` and has two nodes that are not
neighbours. -/
def five : Network String where
  toDeployment := Deployment.ofLists ["s", "a", "b", "z"] ["c"] (by decide)
  f := 1
  neighbours i := fiveNodes.filter fun j =>
    i ∈ fiveNodes ∧ i ≠ j ∧ ¬ (i = "s" ∧ j = "z") ∧ ¬ (i = "z" ∧ j = "s")
  hasParent := false
  nx := .allPaths
  broadcasts i := if i = "s" then [⟨"m", "news", false⟩] else []

/-- The broadcast of s. -/
def newsOfS : Broadcast String := ⟨"m", "news", false⟩

/-- The message of s on its way, with a path. -/
def news (path : List PeerId) : DMsg String := ⟨"m", "s", "news", path⟩

theorem five_undirected : five.Undirected where
  symm i j h := by
    obtain ⟨hj, hi, hne, hsz, hzs⟩ := Finset.mem_filter.mp h
    exact Finset.mem_filter.mpr
      ⟨hi, hj, hne.symm, fun h => hzs ⟨h.2, h.1⟩, fun h => hsz ⟨h.2, h.1⟩⟩
  irrefl i h := (Finset.mem_filter.mp h).2.2.1 rfl

theorem five_connected : five.Connected (2 * five.f + 1) :=
  vertexConnected_of_common (by decide) (by decide)

theorem five_ids : ∀ j ∈ five.parties.correct, ∀ b ∈ five.broadcasts j,
    b.msgId = newsOfS.msgId → j = "s" := by decide

/-- s sends its message, and a delivers it, announces this and sends the message on. -/
def newsBegins : History String :=
  goOn "s" [.broadcast newsOfS, .broadcasting ["b", "z", "c"] newsOfS,
    .broadcasting ["z", "c"] newsOfS, .broadcasting [] newsOfS] ++
  [.recv ⟨"s", "a", news []⟩] ++
  goOn "a" (announcing true (news []) ["s", "b", "z", "c"] ++
    forwarding (news []) ["s"] ["b", "z", "c"])

/-- b does the same, z gets both paths before it tests them, and delivers. -/
def newsArrives : History String :=
  newsBegins ++ [.recv ⟨"s", "b", news []⟩] ++
  goOn "b" (announcing true (news []) ["s", "a", "z", "c"] ++
    forwarding (news []) ["s"] ["a", "z", "c"]) ++
  [.recv ⟨"a", "z", news []⟩, .recv ⟨"b", "z", news []⟩, .recv ⟨"a", "z", news ["s"]⟩,
    .recv ⟨"b", "z", news ["s"]⟩] ++
  goOn "z" (forwarding (news ["s"]) ["s", "a"] ["c"] ++
    announcing false (news ["s"]) ["a", "b", "c"] ++ forwarding (news ["s"]) ["s", "b"] ["c"]) ++
  [.recv ⟨"a", "s", news []⟩, .recv ⟨"b", "s", news []⟩, .recv ⟨"b", "a", news []⟩,
    .recv ⟨"b", "a", news ["s"]⟩, .recv ⟨"z", "a", news []⟩, .recv ⟨"a", "b", news []⟩,
    .recv ⟨"a", "b", news ["s"]⟩, .recv ⟨"z", "b", news []⟩]

instance (N : Network V) (c : Global V) : Decidable (N.Quiescent c) :=
  inferInstanceAs (Decidable (_ ∧ _))

/-- The step is one of a correct node's own. -/
def unforged : Action V → Bool
  | .forge _ => false
  | _ => true

/-- In both runs s has sent its message to its neighbours. -/
theorem five_sent {ls : History String} {c : Global String}
    (hc : exec five.next five.initial ls = some c)
    (ha : .recv ⟨"s", "a", news []⟩ ∈ ls) (hb : .recv ⟨"s", "b", news []⟩ ∈ ls)
    (hnet : ⟨"s", "c", news []⟩ ∈ c.net) : ∀ y ∈ five.neighbours "s",
      Occurs five.next five.initial ls
        (Sends five.protocol five.parties "s" y (newsOfS.dmsg "s")) := by
  intro y hy
  have hcases : y = "a" ∨ y = "b" ∨ y = "c" := by
    have hall : ∀ y ∈ five.neighbours "s", y = "a" ∨ y = "b" ∨ y = "c" := by decide
    exact hall y hy
  rcases hcases with rfl | rfl | rfl
  · exact (sent_of_received rfl ls c hc _ ha).2
  · exact (sent_of_received rfl ls c hc _ hb).2
  · exact (sent_of_in_flight rfl ls c hc _ hnet).2

theorem delivered_of_quiescent_five :
    ∃ c, exec five.next five.initial newsArrives = some c ∧
      ∀ i ∈ five.parties.correct, i ≠ "s" → "m" ∈ (c.st i).delivered := by
  obtain ⟨c, hc, hend⟩ : ∃ c, exec five.next five.initial newsArrives = some c ∧
      decide (five.Quiescent c ∧ ⟨"s", "c", news []⟩ ∈ c.net) = true :=
    exists_exec_of_any _ _ _ _ (by decide)
  obtain ⟨hquiet, hnet⟩ := of_decide_eq_true hend
  have hsilent : ∀ l ∈ newsArrives, unforged l = true := by decide
  refine ⟨c, hc, ?_⟩
  exact delivered_of_quiescent five "s" newsOfS five_undirected five_connected (by decide) five_ids
    newsArrives c hc (fun e he => absurd (hsilent _ he) Bool.false_ne_true) (by decide)
    (five_sent hc (by decide) (by decide) hnet) (meets_of_meetsFrom (by decide)) hquiet

/-- z gets its first path from a only, tests it and announces a delivery it has not
made, before b sends the message on. -/
def newsFallsThrough : History String :=
  newsBegins ++ [.recv ⟨"a", "z", news []⟩, .recv ⟨"a", "z", news ["s"]⟩] ++
  goOn "z" (forwarding (news ["s"]) ["s", "a"] ["b", "c"] ++
    announcing false (news ["s"]) ["a", "b", "c"]) ++
  [.recv ⟨"s", "b", news []⟩, .recv ⟨"z", "b", news []⟩, .recv ⟨"a", "b", news []⟩] ++
  goOn "b" (announcing true (news []) ["s", "a", "z", "c"] ++
    forwarding (news []) ["s"] ["c"]) ++
  [.recv ⟨"a", "b", news ["s"]⟩, .recv ⟨"z", "b", news ["s", "a"]⟩, .recv ⟨"b", "a", news []⟩,
    .recv ⟨"z", "a", news []⟩, .recv ⟨"a", "s", news []⟩, .recv ⟨"b", "s", news []⟩,
    .recv ⟨"b", "z", news []⟩]

/-- A correct node may never deliver: its neighbours leave it out once it has
announced a delivery it has not made. -/
theorem validity_broken : ¬ ∀ (N : Network String) (s : PeerId) (b : Broadcast String),
    N.nx.Exact → N.Undirected → N.Connected (2 * N.f + 1) → N.parties.byz.card ≤ N.f →
    (∀ j ∈ N.parties.correct, ∀ b' ∈ N.broadcasts j, b'.msgId = b.msgId → j = s) →
    ∀ ls c, exec N.next N.initial ls = some c → (∀ e, .forge e ∉ ls) → s ∈ N.parties.correct →
      (∀ y ∈ N.neighbours s,
        Occurs N.next N.initial ls (Sends N.protocol N.parties s y (b.dmsg s))) →
      N.Quiescent c → ∀ i ∈ N.parties.correct, i ≠ s → b.msgId ∈ (c.st i).delivered := by
  intro h
  obtain ⟨c, hc, hend⟩ : ∃ c, exec five.next five.initial newsFallsThrough = some c ∧
      decide (five.Quiescent c ∧ ⟨"s", "c", news []⟩ ∈ c.net ∧
        "m" ∉ (c.st "z").delivered) = true :=
    exists_exec_of_any _ _ _ _ (by decide)
  obtain ⟨hquiet, hnet, hnot⟩ := of_decide_eq_true hend
  have hsilent : ∀ l ∈ newsFallsThrough, unforged l = true := by decide
  have hz := h five "s" newsOfS Networkx.allPaths_exact five_undirected five_connected (by decide)
    five_ids newsFallsThrough c hc (fun e he => absurd (hsilent _ he) Bool.false_ne_true)
    (by decide) (five_sent hc (by decide) (by decide) hnet) hquiet "z" (by decide) (by decide)
  exact hnot hz

end DistBench.Dolev
