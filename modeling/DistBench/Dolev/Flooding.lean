import DistBench.Lib.Flooding
import DistBench.Lib.Potential
import DistBench.Dolev.Segments
import DistBench.Dolev.Naive

/-!
# The flooding of paths stops

When all nodes follow the protocol, the paths that dolev_naive.py and dolev.py send
around are simple paths of the graph from the source of the message, and no run goes on
for ever: a message is handed on by paths that get longer, the announcements of dolev.py
are handed on by nobody.

For both programs the same is shown of each function: what it records, sends and is
suspended at is in order (`st`, `task`, `msg` of an `Invariant`), and its segment
costs less than what it has consumed (`Spends`).
-/

namespace DistBench.Dolev

open DistBench.Async DistBench.Flooding

/-- What `nextPeer` leaves to be looked at. -/
theorem nextPeer_suffix {test : PeerId → Bool} {l rest : List PeerId} {peer : PeerId}
    (h : nextPeer test l = some (peer, rest)) : peer :: rest <:+ l := by
  induction l with
  | nil => cases h
  | cons x l ih =>
    rw [nextPeer] at h
    split at h
    · obtain ⟨rfl, rfl⟩ := Prod.mk.inj (Option.some.inj h)
      exact List.suffix_rfl
    · exact (ih h).trans (List.suffix_cons x l)

/-- The next peer of a loop over some of the peers of a node passes the test, is one of
these peers, and fewer are left. -/
theorem nextPeer_spec {test : PeerId → Bool} {peers l rest : List PeerId} {peer : PeerId}
    (h : nextPeer test l = some (peer, rest)) (hl : l ⊆ peers) :
    test peer = true ∧ peer ∈ peers ∧ rest ⊆ peers ∧ rest.length < l.length := by
  have hsuffix := nextPeer_suffix h
  have hsub : peer :: rest ⊆ peers := List.Subset.trans hsuffix.subset hl
  refine ⟨(nextPeer_some h).1, hsub (List.mem_cons_self ..), fun y hy =>
    hsub (List.mem_cons_of_mem _ hy), ?_⟩
  exact hsuffix.length_le

end DistBench.Dolev

namespace DistBench.DolevNaive

open DistBench.Async DistBench.Flooding
open DistBench.Dolev (nextPeer nextPeer_spec)

/-! ## dolev_naive.py -/

/-- What handling a message costs, if there are `n` nodes and `left` of them are not on
its path. -/
def cost (n : Nat) : Nat → Nat
  | 0 => 1
  | left + 1 => loopCost 1 (cost n left) n + 1

/-- What the rounds of its loop and the messages it sends make a coroutine cost. -/
def taskCost (n : Nat) : Cont → Nat
  | .broadcast _ _ => loopCost 1 (cost n n) n + 1
  | .broadcasting rest _ => loopCost 1 (cost n n) rest.length
  | .forwardTo _ rest _ newPath =>
    loopCost 1 (cost n (n - newPath.length)) rest.length + cost n (n - newPath.length) + 1
  | .forward rest _ newPath => loopCost 1 (cost n (n - newPath.length)) rest.length

namespace Network

variable (N : Network)

/-- A simple path of the graph from `source`. -/
abbrev Route (source : PeerId) (path : List PeerId) : Prop :=
  Trail N.parties.correct (Mutual N.neighbours) source path

/-- The message is one of the broadcasts of its source. -/
def Original (msg : DMsg) : Prop := (msg.msgId, msg.payload) ∈ N.broadcasts msg.source

/-- A message on its way from `src` to `dst`. -/
abbrev OnItsWay (msg : DMsg) (path : List PeerId) (src dst : PeerId) : Prop :=
  Flight N.parties.correct N.neighbours msg.source path src dst

/-- What is on its way and recorded is on simple paths from the source of a broadcast. -/
def flooding : Invariant PeerId DMsg NaiveState Cont where
  st i s := ∀ m, ∀ path ∈ s.paths.get m [], ∃ source payload,
    (m, payload) ∈ N.broadcasts source ∧ N.Route source (path ++ [i])
  task i
    | .broadcast msgId payload => (msgId, payload) ∈ N.broadcasts i
    | .broadcasting rest msg =>
      N.Original msg ∧ msg.source = i ∧ msg.path = [] ∧ rest ⊆ N.peers i
    | .forwardTo peer rest msg newPath =>
      N.Original msg ∧ N.OnItsWay msg newPath i peer ∧ N.Route msg.source (newPath ++ [i]) ∧
        rest ⊆ N.peers i
    | .forward rest msg newPath =>
      N.Original msg ∧ N.Route msg.source (newPath ++ [i]) ∧ rest ⊆ N.peers i
  msg e := N.Original e.msg ∧ N.OnItsWay e.msg e.msg.path e.src e.dst

/-- The costs, for the nodes of `N`. -/
def costs : Weights PeerId DMsg NaiveState Cont where
  st _ _ := 0
  task _ := taskCost N.parties.correct.card
  msg e := cost N.parties.correct.card (N.parties.correct.card - e.msg.path.length)

variable {N} {i : PeerId} {s : NaiveState} {rest : List PeerId} {msg : DMsg}
  {newPath : List PeerId}

theorem spends_quiet {k : Nat} {t : Option Cont} (hs : N.flooding.st i s)
    (ht : ∀ t' ∈ t, N.flooding.task i t' ∧ taskCost N.parties.correct.card t' < k) (hk : 0 < k) :
    N.flooding.Spends N.costs i { st := s, rest := t } k := .quiet hs rfl ht hk

theorem spends_forwardLoop (hall : N.parties.byz = ∅) (hi : i ∈ N.parties.correct)
    (hs : N.flooding.st i s) (hmsg : N.Original msg) (hroute : N.Route msg.source (newPath ++ [i]))
    (hrest : rest ⊆ N.peers i) :
    N.flooding.Spends N.costs i (N.forwardLoop i s rest msg newPath)
      (loopCost 1 (cost N.parties.correct.card (N.parties.correct.card - newPath.length))
        rest.length) := by
  unfold forwardLoop
  split
  · next peer rest' h =>
    obtain ⟨htest, hpeer, hrest', hlt⟩ := nextPeer_spec h hrest
    obtain ⟨hnear, hpath⟩ := of_decide_eq_true htest
    obtain ⟨hcorrect, hne⟩ := N.correct_of_mem_peers hall hi hpeer
    refine spends_quiet hs (fun t ht => ?_) (by unfold loopCost; omega)
    obtain rfl := Option.some.inj ht
    refine ⟨⟨hmsg, .handOn hroute hpath hne hnear hcorrect, hroute, hrest'⟩, ?_⟩
    have hround := loopCost_step (d := 1)
      (q := cost N.parties.correct.card (N.parties.correct.card - newPath.length)) hlt
    rw [taskCost]
    omega
  · refine spends_quiet (fun m path hpath => ?_) (by simp) (by unfold loopCost; omega)
    rw [paths_myDeliver] at hpath
    exact hs m path hpath

theorem spends_broadcastLoop (hall : N.parties.byz = ∅) (hi : i ∈ N.parties.correct)
    (hs : N.flooding.st i s) (hmsg : N.Original msg) (hsource : msg.source = i)
    (hpath : msg.path = []) (hrest : rest ⊆ N.peers i) :
    N.flooding.Spends N.costs i (N.broadcastLoop i s rest msg)
      (loopCost 1 (cost N.parties.correct.card N.parties.correct.card) rest.length) := by
  unfold broadcastLoop
  split
  · next peer rest' h =>
    obtain ⟨htest, hpeer, hrest', hlt⟩ := nextPeer_spec h hrest
    obtain ⟨hcorrect, hne⟩ := N.correct_of_mem_peers hall hi hpeer
    refine ⟨hs, fun t ht => ?_, fun dm hdm => ?_, ?_⟩
    · obtain rfl := Option.some.inj ht
      exact ⟨hmsg, hsource, hpath, hrest'⟩
    · obtain rfl := List.mem_singleton.mp hdm
      refine ⟨hmsg, ?_⟩
      rw [OnItsWay, hpath, hsource]
      exact .start hi hcorrect hne (of_decide_eq_true htest)
    · have hround := loopCost_step (d := 1)
        (q := cost N.parties.correct.card N.parties.correct.card) hlt
      simp only [Weights.outcome, costs, taskCost, hpath, Option.toList_some, List.map_cons,
        List.map_nil, List.sum_cons, List.sum_nil, List.length_nil, Nat.sub_zero]
      omega
  · exact spends_quiet hs (by simp) (by unfold loopCost; omega)

/-- What a handler records. -/
theorem flooding_addPath {path : List PeerId} (hs : N.flooding.st i s) (hmsg : N.Original msg)
    (hroute : N.Route msg.source (path ++ [i])) : N.flooding.st i (s.addPath msg.msgId path) := by
  intro m p hp
  rcases mem_paths_addPath hp with hold | ⟨rfl, rfl⟩
  · exact hs m p hold
  · exact ⟨msg.source, msg.payload, hmsg, hroute⟩

theorem spending (hall : N.parties.byz = ∅) :
    N.flooding.Spending N.costs N.protocol N.parties where
  handle := by
    intro e s hdst ⟨hmsg, hway⟩ hs
    show N.flooding.Spends N.costs e.dst (N.dolev e.dst s e.src e.msg) _
    have hlt := hway.length_lt
    -- one node more is on the path the message is handed on by
    obtain ⟨left, hleft⟩ : ∃ left, N.parties.correct.card - e.msg.path.length = left + 1 :=
      ⟨N.parties.correct.card - e.msg.path.length - 1, by omega⟩
    have hcost : N.costs.msg e = loopCost 1 (cost N.parties.correct.card left)
        N.parties.correct.card + 1 := by
      simp only [costs, hleft, cost]
    have hnew : N.parties.correct.card - (e.msg.path ++ [e.src]).length = left := by
      rw [List.length_append, List.length_singleton]
      omega
    rw [hcost]
    unfold dolev
    split
    · exact spends_quiet hs (by simp) (by omega)
    · next hsrc =>
      have hroute := hway.arrive (not_not.mp hsrc)
      have hloop := spends_forwardLoop hall hdst (flooding_addPath hs hmsg hroute) hmsg hroute
        (List.Subset.refl (N.peers e.dst))
      rw [hnew] at hloop
      refine hloop.mono ?_
      have hpeers := loopCost_mono (d := 1) (q := cost N.parties.correct.card left)
        (N.length_peers_le hall hdst)
      omega
  resume := by
    intro i s t o hi ht hs ho
    obtain rfl := Option.some.inj ho
    show N.flooding.Spends N.costs i (N.resume i s t) (taskCost N.parties.correct.card t + 0)
    cases t with
    | broadcast msgId payload =>
      have hmsg : N.Original ⟨msgId, i, payload, []⟩ := ht
      refine (spends_broadcastLoop hall hi hs hmsg rfl rfl (List.Subset.refl _)).mono ?_
      have hpeers := loopCost_mono (d := 1)
        (q := cost N.parties.correct.card N.parties.correct.card) (N.length_peers_le hall hi)
      rw [taskCost]
      omega
    | broadcasting rest msg =>
      obtain ⟨hmsg, hsource, hpath, hrest⟩ := ht
      exact spends_broadcastLoop hall hi hs hmsg hsource hpath hrest
    | forwardTo peer rest msg newPath =>
      obtain ⟨hmsg, hway, hroute, hrest⟩ := ht
      refine ⟨hs, fun t ht => ?_, fun dm hdm => ?_, ?_⟩
      · obtain rfl := Option.some.inj ht
        exact ⟨hmsg, hroute, hrest⟩
      · obtain rfl := List.mem_singleton.mp hdm
        exact ⟨hmsg, hway⟩
      · simp only [Weights.outcome, resume, costs, taskCost, Option.toList_some, List.map_cons,
          List.map_nil, List.sum_cons, List.sum_nil]
        omega
    | forward rest msg newPath =>
      obtain ⟨hmsg, hroute, hrest⟩ := ht
      exact spends_forwardLoop hall hi hs hmsg hroute hrest

theorem flooding_initial : N.flooding.assertion.Holds N.parties [] N.initial where
  node i _ := by
    refine ⟨fun m path hpath => ?_, fun t ht => ?_⟩
    · simp [initial] at hpath
    · obtain ⟨b, hb, rfl⟩ := List.mem_map.mp ht
      exact hb
  msg := nofun
  received := nofun

variable (N) in
/-- The non-empty paths in flight and recorded are simple paths from the source of a
broadcast, and lead to another node than those on them. -/
structure SimplePaths (c : Config PeerId DMsg NaiveState Cont) : Prop where
  inFlight : ∀ e ∈ c.net, e.msg.path ≠ [] → N.Original e.msg ∧
    N.Route e.msg.source e.msg.path ∧ e.dst ∉ e.msg.path
  recorded : ∀ i ∈ N.parties.correct, ∀ m, ∀ path ∈ (c.st i).paths.get m [], path ≠ [] →
    ∃ source payload, (m, payload) ∈ N.broadcasts source ∧ N.Route source path ∧ i ∉ path

theorem simplePaths_of_flooding {ls : History} {c : Config PeerId DMsg NaiveState Cont}
    (h : N.flooding.assertion.Holds N.parties ls c) : N.SimplePaths c where
  inFlight e he hpath := ⟨(h.msg e he).1, (h.msg e he).2.path hpath⟩
  recorded i hi m path hmem hpath := by
    obtain ⟨source, payload, hb, hroute⟩ := (h.node i hi).1 m path hmem
    exact ⟨source, payload, hb, hroute.init hpath⟩

end Network

end DistBench.DolevNaive

namespace DistBench.Dolev

open DistBench.Async DistBench.Flooding

variable {V : Type}

/-! ## dolev.py -/

/-- More than what the final `my_deliver` of a handler is suspended at costs. -/
def endCost (n : Nat) : Nat := loopCost 1 1 n + 2

/-- What recording a message and handing it on costs, each time at the cost `q`. -/
def relayCost (n q : Nat) : Nat := loopCost (endCost n) q n + 1

/-- What handling a message costs, if there are `n` nodes and `left` of them are not on
its path. -/
def cost (n : Nat) : Nat → Nat
  | 0 => 1
  | left + 1 => loopCost (relayCost n (cost n left)) 1 n + 2

/-- What comes after the announcement of `msg`. -/
def afterCost (n : Nat) (direct : Bool) (msg : DMsg V) : Nat :=
  if direct then relayCost n (cost n (n - (msg.path.length + 1))) else 1

/-- What the rounds of its loop and the messages it sends make a coroutine cost. -/
def taskCost (n : Nat) : Cont V → Nat
  | .broadcast _ => loopCost 1 (cost n n) n + 1
  | .sendTo _ rest _ => loopCost 1 (cost n n) rest.length + cost n n + 1
  | .broadcasting rest _ => loopCost 1 (cost n n) rest.length
  | .directDelivered msg => loopCost (afterCost n true msg) 1 n + 1
  | .delivered msg => loopCost (afterCost n false msg) 1 n + 1
  | .emptyTo _ rest direct msg => loopCost (afterCost n direct msg) 1 rest.length + 2
  | .empties rest direct msg => loopCost (afterCost n direct msg) 1 rest.length
  | .forwardTo _ rest _ newPath _ =>
    loopCost (endCost n) (cost n (n - newPath.length)) rest.length +
      cost n (n - newPath.length) + 1
  | .forward rest _ newPath _ => loopCost (endCost n) (cost n (n - newPath.length)) rest.length

/-- An announcement, the message of MD2. -/
def Announcement (src : PeerId) (msg : DMsg V) : Prop := msg.path = [] ∧ src ≠ msg.source

instance (src : PeerId) (msg : DMsg V) : Decidable (Announcement src msg) :=
  inferInstanceAs (Decidable (_ ∧ _))

namespace Network

variable (N : Network V)

/-- A simple path of the graph from `source`. -/
abbrev Route (source : PeerId) (path : List PeerId) : Prop :=
  Trail N.parties.correct (Mutual N.neighbours) source path

/-- The message is one of the broadcasts of its source. -/
def Original (msg : DMsg V) : Prop :=
  ∃ b ∈ N.broadcasts msg.source, b.msgId = msg.msgId ∧ b.payload = msg.payload

/-- A message on its way from `src` to `dst`. -/
abbrev OnItsWay (msg : DMsg V) (path : List PeerId) (src dst : PeerId) : Prop :=
  Flight N.parties.correct N.neighbours msg.source path src dst

/-- Node `i` handles a message of another node. -/
structure Relayed (i : PeerId) (msg : DMsg V) : Prop where
  original : N.Original msg
  ne : msg.source ≠ i

/-- The path of a message that has come from its source. -/
def DirectRoute (i : PeerId) (msg : DMsg V) : Prop :=
  N.Route msg.source (msg.path ++ [msg.source] ++ [i])

/-- What is on its way and recorded is on simple paths from the source of a broadcast. -/
def flooding : Invariant PeerId (DMsg V) DolevState (Cont V) where
  st i s := ∀ m, ∀ path ∈ s.paths.get m [], ∃ source, ∃ b ∈ N.broadcasts source,
    b.msgId = m ∧ N.Route source (path ++ [i])
  task i
    | .broadcast b => b ∈ N.broadcasts i
    | .sendTo peer rest b =>
      b ∈ N.broadcasts i ∧ N.OnItsWay (b.dmsg i) [] i peer ∧ rest ⊆ N.peers i
    | .broadcasting rest b => b ∈ N.broadcasts i ∧ rest ⊆ N.peers i
    | .directDelivered msg => N.Relayed i msg ∧ N.DirectRoute i msg
    | .delivered msg => N.Relayed i msg
    | .emptyTo _ _ direct msg | .empties _ direct msg =>
      N.Relayed i msg ∧ (direct = true → N.DirectRoute i msg)
    | .forwardTo peer rest msg newPath _ =>
      N.Relayed i msg ∧ N.OnItsWay msg newPath i peer ∧ N.Route msg.source (newPath ++ [i]) ∧
        rest ⊆ N.peers i
    | .forward rest msg newPath _ =>
      N.Relayed i msg ∧ N.Route msg.source (newPath ++ [i]) ∧ rest ⊆ N.peers i
  msg e := N.Original e.msg ∧
    (Announcement e.src e.msg ∨ N.OnItsWay e.msg e.msg.path e.src e.dst)

/-- The number of nodes. -/
abbrev size : Nat := N.parties.correct.card

/-- The costs, for the nodes of `N`. -/
def costs : Weights PeerId (DMsg V) DolevState (Cont V) where
  st _ _ := 0
  task _ := taskCost N.size
  msg e := if Announcement e.src e.msg then 1 else cost N.size (N.size - e.msg.path.length)

variable {N} {i src : PeerId} {s s' : DolevState} {rest : List PeerId} {msg : DMsg V}
  {newPath : List PeerId} {k : Nat} {direct : Bool} {x : Seg V ⊕ DolevState} {flow : Flow V}

theorem spends_quiet {t : Option (Cont V)} (hs : N.flooding.st i s)
    (ht : ∀ t' ∈ t, N.flooding.task i t' ∧ taskCost N.size t' < k) (hk : 0 < k) :
    N.flooding.Spends N.costs i { st := s, rest := t } k := .quiet hs rfl ht hk

/-- What a segment costs that sends one message. -/
theorem outcome_costs_sent {dst : PeerId} {t : Cont V} :
    N.costs.outcome i { st := s, out := [(dst, msg)], rest := some t } =
      taskCost N.size t + N.costs.msg ⟨i, dst, msg⟩ := by
  simp [Weights.outcome, costs]

theorem costs_msg {dst : PeerId} (h : ¬ Announcement src msg) :
    N.costs.msg ⟨src, dst, msg⟩ = cost N.size (N.size - msg.path.length) := if_neg h

theorem costs_msg_dmsg {dst : PeerId} {b : Broadcast V} :
    N.costs.msg ⟨i, dst, b.dmsg i⟩ = cost N.size N.size := costs_msg fun h => h.2 rfl

theorem costs_msg_announcement {dst : PeerId} (h : Announcement src msg) :
    N.costs.msg ⟨src, dst, msg⟩ = 1 := if_pos h

/-- What is recorded on paths does not depend on the rest of the state. -/
theorem flooding_of_paths (hs : N.flooding.st i s) (h : s'.paths = s.paths) :
    N.flooding.st i s' := by
  intro m path hpath
  rw [h] at hpath
  exact hs m path hpath

theorem flooding_addPath {path : List PeerId} (hs : N.flooding.st i s) (hmsg : N.Original msg)
    (hroute : N.Route msg.source (path ++ [i])) : N.flooding.st i (s.addPath msg.msgId path) := by
  intro m p hp
  rcases Dict.mem_get_insert_append hp with hold | ⟨rfl, rfl⟩
  · exact hs m p hold
  · obtain ⟨b, hb, hid, -⟩ := hmsg
    exact ⟨msg.source, b, hb, hid, hroute⟩

/-- An announcement that has at most `k` rounds left and records no path. -/
inductive Announced (s : DolevState) (k : Nat) (direct : Bool) (msg : DMsg V) :
    Seg V ⊕ DolevState → Prop
  | wait {s' : DolevState} {peer : PeerId} {rest : List PeerId} (hpaths : s'.paths = s.paths)
      (hlt : rest.length < k) :
    Announced s k direct msg (.inl { st := s', rest := some (.emptyTo peer rest direct msg) })
  | done {s' : DolevState} (hpaths : s'.paths = s.paths) : Announced s k direct msg (.inr s')

theorem announced_emptiesLoop (hpaths : s'.paths = s.paths) :
    Announced s rest.length direct msg (N.emptiesLoop i s' rest direct msg) := by
  unfold emptiesLoop
  split
  · next h =>
    obtain ⟨-, -, -, hlt⟩ := nextPeer_spec h (List.Subset.refl rest)
    exact .wait hpaths hlt
  · exact .done hpaths

theorem announced_announce :
    Announced s (N.peers i).length direct msg (N.announce i s direct msg) := by
  unfold announce
  split
  · exact announced_emptiesLoop rfl
  · exact .done rfl

theorem spends_finish (h : Announced s k false msg x) (hs : N.flooding.st i s)
    (hmsg : N.Relayed i msg) :
    N.flooding.Spends N.costs i (finish x) (loopCost (afterCost N.size false msg) 1 k) := by
  cases h with
  | wait hpaths hlt =>
    refine spends_quiet (flooding_of_paths hs hpaths) (fun t ht => ?_) ?_
    · obtain rfl := Option.some.inj ht
      refine ⟨⟨hmsg, nofun⟩, ?_⟩
      have hround := loopCost_step (d := afterCost N.size false msg) (q := 1) hlt
      rw [taskCost]
      omega
    · unfold loopCost afterCost
      simp
  | done hpaths =>
    refine spends_quiet (flooding_of_paths hs hpaths) (by simp) ?_
    unfold loopCost afterCost
    simp

/-- The same for a flow; the final `my_deliver` is still to come. -/
def Spent (N : Network V) (i : PeerId) (k : Nat) : Flow V → Prop
  | .stop o => N.flooding.Spends N.costs i o k
  | .deliver s msg => N.flooding.st i s ∧ N.Relayed i msg ∧ endCost N.size ≤ k

theorem Spent.mono {k' : Nat} (h : N.Spent i k flow) (hk : k ≤ k') : N.Spent i k' flow := by
  cases flow with
  | stop o => exact h.mono hk
  | deliver s msg => exact ⟨h.1, h.2.1, h.2.2.trans hk⟩

/-- What the handler of an announcement does costs nothing more. -/
theorem spends_dolev_announcement (hs : N.flooding.st i s) (hann : Announcement src msg) :
    N.flooding.Spends N.costs i (N.settle i (N.dolev i s src msg)) 1 := by
  unfold dolev
  split
  · exact spends_quiet hs (by simp) one_pos
  split
  · exact spends_quiet hs (by simp) one_pos
  split
  · next h => exact absurd h.1 hann.2
  · rw [relay, if_pos (show msg.path = [] ∧ src ≠ msg.source from hann)]
    exact spends_quiet (flooding_of_paths hs rfl) (by simp) one_pos

section Handlers

variable (hall : N.parties.byz = ∅) (hi : i ∈ N.parties.correct)
include hall hi

/-- A loop over all peers. -/
theorem loopCost_peers {d q : Nat} : loopCost d q (N.peers i).length ≤ loopCost d q N.size :=
  loopCost_mono (N.length_peers_le hall hi)

theorem spends_myDeliver (hs : N.flooding.st i s) (hmsg : N.Relayed i msg) :
    N.flooding.Spends N.costs i (N.myDeliver i s msg) (endCost N.size) := by
  have hpeers : loopCost 1 1 (N.peers i).length ≤ loopCost 1 1 N.size := loopCost_peers hall hi
  have hpos : 0 < endCost N.size := Nat.succ_pos _
  have hfinish {s' : DolevState} (hpaths : s'.paths = s.paths) :
      N.flooding.Spends N.costs i (finish (N.announce i s' false msg)) (endCost N.size) := by
    refine (spends_finish announced_announce (flooding_of_paths hs hpaths) hmsg).mono ?_
    rw [afterCost, if_neg Bool.false_ne_true, endCost]
    omega
  unfold myDeliver
  split
  · exact spends_quiet hs (by simp) hpos
  split
  · split
    · dsimp only
      split
      · refine spends_quiet (flooding_of_paths hs rfl) (fun t ht => ?_) hpos
        obtain rfl := Option.some.inj ht
        refine ⟨hmsg, ?_⟩
        rw [taskCost, afterCost, if_neg Bool.false_ne_true, endCost]
        omega
      · exact hfinish rfl
    · exact hfinish rfl
  · exact spends_quiet hs (by simp) hpos

theorem Spent.settle (h : N.Spent i k flow) :
    N.flooding.Spends N.costs i (N.settle i flow) k := by
  cases flow with
  | stop o => exact h
  | deliver s msg =>
    obtain ⟨hs, hmsg, hk⟩ := h
    exact (spends_myDeliver hall hi hs hmsg).mono hk

theorem spent_forwardLoop {live : Bool} (hs : N.flooding.st i s) (hmsg : N.Relayed i msg)
    (hroute : N.Route msg.source (newPath ++ [i])) (hrest : rest ⊆ N.peers i) :
    N.Spent i (loopCost (endCost N.size) (cost N.size (N.size - newPath.length)) rest.length)
      (N.forwardLoop i s rest msg newPath live) := by
  unfold forwardLoop
  dsimp only
  split
  · next peer rest' h =>
    obtain ⟨htest, hpeer, hrest', hlt⟩ := nextPeer_spec h hrest
    obtain ⟨hnear, hpath, -⟩ := of_decide_eq_true htest
    obtain ⟨hcorrect, hne⟩ := N.correct_of_mem_peers hall hi hpeer
    have hround := loopCost_step (d := endCost N.size)
      (q := cost N.size (N.size - newPath.length)) hlt
    refine spends_quiet hs (fun t ht => ?_) (by omega)
    obtain rfl := Option.some.inj ht
    refine ⟨⟨hmsg, .handOn hroute hpath hne hnear hcorrect, hroute, hrest'⟩, ?_⟩
    rw [taskCost]
    omega
  · exact ⟨hs, hmsg, le_loopCost⟩

theorem spent_relay (hs : N.flooding.st i s) (hmsg : N.Relayed i msg)
    (hnot : ¬ Announcement src msg) (hroute : N.Route msg.source (msg.path ++ [src] ++ [i])) :
    N.Spent i (relayCost N.size (cost N.size (N.size - (msg.path.length + 1))))
      (N.relay i s src msg) := by
  have hpos : 0 < relayCost N.size (cost N.size (N.size - (msg.path.length + 1))) :=
    Nat.succ_pos _
  unfold relay
  rw [if_neg (show ¬ (msg.path = [] ∧ src ≠ msg.source) from hnot)]
  split
  · exact spends_quiet hs (by simp) hpos
  · dsimp only
    have hforward {live : Bool} : N.Spent i _ (N.forwardLoop i
        (s.addPath msg.msgId (msg.path ++ [src])) (N.peers i) msg (msg.path ++ [src]) live) :=
      spent_forwardLoop hall hi (flooding_addPath hs hmsg.original hroute) hmsg hroute
        (List.Subset.refl _)
    rw [List.length_append, List.length_singleton] at hforward
    refine hforward.mono ?_
    have hpeers := loopCost_peers hall hi (d := endCost N.size)
      (q := cost N.size (N.size - (msg.path.length + 1)))
    rw [relayCost]
    omega

theorem spent_afterDirect (h : Announced s k true msg x) (hs : N.flooding.st i s)
    (hmsg : N.Relayed i msg) (hroute : N.DirectRoute i msg) :
    N.Spent i (loopCost (afterCost N.size true msg) 1 k) (N.afterDirect i msg x) := by
  cases h with
  | wait hpaths hlt =>
    have hround := loopCost_step (d := afterCost N.size true msg) (q := 1) hlt
    refine spends_quiet (flooding_of_paths hs hpaths) (fun t ht => ?_) (by omega)
    obtain rfl := Option.some.inj ht
    refine ⟨⟨hmsg, fun _ => hroute⟩, ?_⟩
    rw [taskCost]
    omega
  | done hpaths =>
    refine (spent_relay hall hi (flooding_of_paths hs hpaths) hmsg (fun h => h.2 rfl)
      hroute).mono ?_
    rw [afterCost, if_pos rfl]
    exact le_loopCost

theorem spends_dolev (hs : N.flooding.st i s) (hmsg : N.Original msg)
    (hway : N.OnItsWay msg msg.path src i) (hnot : ¬ Announcement src msg) :
    N.flooding.Spends N.costs i (N.settle i (N.dolev i s src msg))
      (cost N.size (N.size - msg.path.length)) := by
  have hlt : msg.path.length + 1 < N.size := hway.length_lt
  -- one node more is on the path the message is handed on by
  obtain ⟨left, hleft⟩ : ∃ left, N.size - msg.path.length = left + 1 :=
    ⟨N.size - msg.path.length - 1, by omega⟩
  have hnew : N.size - (msg.path.length + 1) = left := by omega
  have hrelayed : N.Relayed i msg := ⟨hmsg, hway.ne_source.symm⟩
  have hafter : afterCost N.size true msg = relayCost N.size (cost N.size left) := by
    rw [afterCost, if_pos rfl, hnew]
  rw [hleft, cost]
  have hpos : 0 < loopCost (relayCost N.size (cost N.size left)) 1 N.size + 2 := Nat.succ_pos _
  unfold dolev
  split
  · exact spends_quiet hs (by simp) hpos
  next hnear =>
  have hroute := hway.arrive (not_not.mp hnear)
  split
  · exact spends_quiet hs (by simp) hpos
  split
  · next hdirect =>
    obtain ⟨rfl, -⟩ := hdirect
    dsimp only
    split
    · refine spends_quiet (flooding_of_paths hs rfl) (fun t ht => ?_) hpos
      obtain rfl := Option.some.inj ht
      refine ⟨⟨hrelayed, hroute⟩, ?_⟩
      rw [taskCost, hafter]
      omega
    · have hst : N.flooding.st i (s.deliver msg.msgId) := flooding_of_paths hs rfl
      have hspent := spent_afterDirect hall hi (announced_announce (N := N) (i := i)) hst hrelayed
        hroute
      refine (Spent.settle hall hi hspent).mono ?_
      have hpeers := loopCost_peers hall hi (d := afterCost N.size true msg) (q := 1)
      rw [hafter] at hpeers ⊢
      omega
  · have hspent := spent_relay hall hi hs hrelayed hnot hroute
    refine (Spent.settle hall hi hspent).mono ?_
    rw [hnew]
    have hle : relayCost N.size (cost N.size left) ≤
        loopCost (relayCost N.size (cost N.size left)) 1 N.size := le_loopCost
    omega

theorem spends_broadcastLoop {b : Broadcast V} (hs : N.flooding.st i s) (hb : b ∈ N.broadcasts i)
    (hrest : rest ⊆ N.peers i) :
    N.flooding.Spends N.costs i (N.broadcastLoop i s rest b)
      (loopCost 1 (cost N.size N.size) rest.length) := by
  unfold broadcastLoop
  split
  · next peer rest' h =>
    obtain ⟨htest, hpeer, hrest', hlt⟩ := nextPeer_spec h hrest
    obtain ⟨hcorrect, hne⟩ := N.correct_of_mem_peers hall hi hpeer
    have hway : N.OnItsWay (b.dmsg i) [] i peer :=
      .start hi hcorrect hne (of_decide_eq_true htest)
    have hround := loopCost_step (d := 1) (q := cost N.size N.size) hlt
    split
    · refine spends_quiet hs (fun t ht => ?_) (by omega)
      obtain rfl := Option.some.inj ht
      refine ⟨⟨hb, hway, hrest'⟩, ?_⟩
      rw [taskCost]
      omega
    · refine ⟨hs, fun t ht => ?_, fun dm hdm => ?_, ?_⟩
      · obtain rfl := Option.some.inj ht
        exact ⟨hb, hrest'⟩
      · obtain rfl := List.mem_singleton.mp hdm
        exact ⟨⟨b, hb, rfl, rfl⟩, .inr hway⟩
      · rw [outcome_costs_sent, costs_msg_dmsg, taskCost]
        omega
  · exact spends_quiet hs (by simp) (by unfold loopCost; omega)

theorem spends_resume {t : Cont V} (hs : N.flooding.st i s) (ht : N.flooding.task i t) :
    N.flooding.Spends N.costs i (N.settle i (N.resume i s t)) (taskCost N.size t) := by
  cases t with
  | broadcast b =>
    have hst : N.flooding.st i (if b.byParent then s else s.deliver b.msgId) := by
      split
      · exact hs
      · exact flooding_of_paths hs rfl
    refine (spends_broadcastLoop hall hi hst ht (List.Subset.refl _)).mono ?_
    have hpeers := loopCost_peers hall hi (d := 1) (q := cost N.size N.size)
    rw [taskCost]
    omega
  | sendTo peer rest b =>
    obtain ⟨hb, hway, hrest⟩ := ht
    refine ⟨hs, fun t ht => ?_, fun dm hdm => ?_, ?_⟩
    · obtain rfl := Option.some.inj ht
      exact ⟨hb, hrest⟩
    · obtain rfl := List.mem_singleton.mp hdm
      exact ⟨⟨b, hb, rfl, rfl⟩, .inr hway⟩
    · rw [resume, settle, outcome_costs_sent, costs_msg_dmsg, taskCost, taskCost]
      omega
  | broadcasting rest b => exact spends_broadcastLoop hall hi hs ht.1 ht.2
  | directDelivered msg =>
    have hspent := spent_afterDirect hall hi (announced_announce (N := N) (i := i)) hs ht.1 ht.2
    refine (Spent.settle hall hi hspent).mono ?_
    have hpeers := loopCost_peers hall hi (d := afterCost N.size true msg) (q := 1)
    rw [taskCost]
    omega
  | delivered msg =>
    refine (spends_finish announced_announce hs ht).mono ?_
    have hpeers := loopCost_peers hall hi (d := afterCost N.size false msg) (q := 1)
    rw [taskCost]
    omega
  | emptyTo peer rest direct msg =>
    have hann : Announcement i { msg with path := [] } := ⟨rfl, ht.1.ne.symm⟩
    refine ⟨hs, fun t ht' => ?_, fun dm hdm => ?_, ?_⟩
    · obtain rfl := Option.some.inj ht'
      exact ht
    · obtain rfl := List.mem_singleton.mp hdm
      exact ⟨ht.1.original, .inl hann⟩
    · rw [resume, settle, outcome_costs_sent, costs_msg_announcement hann, taskCost, taskCost]
      omega
  | empties rest direct msg =>
    obtain ⟨hmsg, hdirect⟩ := ht
    cases direct with
    | true =>
      have hloop : Announced s rest.length true msg (N.emptiesLoop i s rest true msg) :=
        announced_emptiesLoop rfl
      have hspent := spent_afterDirect hall hi hloop hs hmsg (hdirect rfl)
      exact Spent.settle hall hi hspent
    | false => exact spends_finish (announced_emptiesLoop rfl) hs hmsg
  | forwardTo peer rest msg newPath live =>
    obtain ⟨hmsg, hway, hroute, hrest⟩ := ht
    have hnot : ¬ Announcement i { msg with path := newPath } := by
      rintro ⟨hnil, -⟩
      obtain rfl : newPath = [] := hnil
      exact hmsg.ne (by simpa using hroute.head.symm)
    refine ⟨hs, fun t ht => ?_, fun dm hdm => ?_, ?_⟩
    · obtain rfl := Option.some.inj ht
      exact ⟨hmsg, hroute, hrest⟩
    · obtain rfl := List.mem_singleton.mp hdm
      exact ⟨hmsg.original, .inr hway⟩
    · rw [resume, settle, outcome_costs_sent, costs_msg hnot, taskCost, taskCost]
      dsimp only
      omega
  | forward rest msg newPath live =>
    obtain ⟨hmsg, hroute, hrest⟩ := ht
    exact Spent.settle hall hi (spent_forwardLoop hall hi hs hmsg hroute hrest)

end Handlers

theorem spending [DecidableEq V] (hall : N.parties.byz = ∅) :
    N.flooding.Spending N.costs N.protocol N.parties where
  handle := by
    intro e s hdst ⟨hmsg, hway⟩ hs
    show N.flooding.Spends N.costs e.dst (N.settle e.dst (N.dolev e.dst s e.src e.msg)) _
    by_cases hann : Announcement e.src e.msg
    · have hcost : N.costs.msg e + N.costs.st e.dst s = 1 := if_pos hann
      rw [hcost]
      exact spends_dolev_announcement hs hann
    · have hcost : N.costs.msg e + N.costs.st e.dst s =
          cost N.size (N.size - e.msg.path.length) := if_neg hann
      rw [hcost]
      exact spends_dolev hall hdst hs hmsg (hway.resolve_left hann) hann
  resume := by
    intro i s t o hi ht hs ho
    obtain rfl := Option.some.inj ho
    exact spends_resume hall hi hs ht

theorem flooding_initial : N.flooding.assertion.Holds N.parties [] N.initial where
  node i _ := by
    refine ⟨fun m path hpath => ?_, fun t ht => ?_⟩
    · simp [initial] at hpath
    · obtain ⟨b, hb, rfl⟩ := List.mem_map.mp ht
      exact hb
  msg := nofun
  received := nofun

variable (N) in
/-- The non-empty paths in flight and recorded are simple paths from the source of a
broadcast, and lead to another node than those on them. -/
structure SimplePaths (c : Global V) : Prop where
  inFlight : ∀ e ∈ c.net, e.msg.path ≠ [] → N.Original e.msg ∧
    N.Route e.msg.source e.msg.path ∧ e.dst ∉ e.msg.path
  recorded : ∀ i ∈ N.parties.correct, ∀ m, ∀ path ∈ (c.st i).paths.get m [], path ≠ [] →
    ∃ source, ∃ b ∈ N.broadcasts source, b.msgId = m ∧ N.Route source path ∧ i ∉ path

theorem simplePaths_of_flooding {ls : History V} {c : Global V}
    (h : N.flooding.assertion.Holds N.parties ls c) : N.SimplePaths c where
  inFlight e he hpath := by
    obtain ⟨hmsg, hann | hway⟩ := h.msg e he
    · exact absurd hann.1 hpath
    · exact ⟨hmsg, hway.path hpath⟩
  recorded i hi m path hmem hpath := by
    obtain ⟨source, b, hb, hid, hroute⟩ := (h.node i hi).1 m path hmem
    exact ⟨source, b, hb, hid, hroute.init hpath⟩

end Network

/-- **The flooding of paths.** When all nodes follow dolev_naive.py, or dolev.py, all paths
in flight and recorded are simple, and there is a bound on the length of the runs. -/
theorem flooding_simple_and_finite [DecidableEq V] {N : DolevNaive.Network} {M : Network V}
    (hN : N.parties.byz = ∅) (hM : M.parties.byz = ∅) :
    (∃ bound, ∀ ls c, exec N.next N.initial ls = some c →
      N.SimplePaths c ∧ ls.length ≤ bound) ∧
    ∃ bound, ∀ ls c, exec M.next M.initial ls = some c →
      M.SimplePaths c ∧ ls.length ≤ bound := by
  refine ⟨⟨N.costs.config N.parties N.initial, fun ls c hc => ?_⟩,
    ⟨M.costs.config M.parties M.initial, fun ls c hc => ?_⟩⟩
  · obtain ⟨hholds, hlen⟩ :=
      (DolevNaive.Network.spending hN).run hN DolevNaive.Network.flooding_initial hc
    exact ⟨DolevNaive.Network.simplePaths_of_flooding hholds, hlen⟩
  · obtain ⟨hholds, hlen⟩ := (Network.spending hM).run hM Network.flooding_initial hc
    exact ⟨Network.simplePaths_of_flooding hholds, hlen⟩

/-- Three nodes in a row, the first of which broadcasts. -/
def row : Network String where
  toDeployment := Deployment.ofLists ["a", "b", "c"] [] Cluster.nodup_trio
  f := 0
  neighbours i := if i = "b" then {"a", "c"} else {"b"}
  hasParent := false
  nx := .allPaths
  broadcasts i := if i = "a" then [⟨"m", "hello", false⟩] else []

/-- The same with dolev_naive.py. -/
def naiveRow : DolevNaive.Network where
  toDeployment := row.toDeployment
  f := 0
  neighbours := row.neighbours
  broadcasts i := if i = "a" then [("m", "hello")] else []

/-- The message of a, with a path. -/
def fromA (path : List PeerId) : DMsg String := ⟨"m", "a", "hello", path⟩

/-- The message gets to c. -/
def naiveRowRun : DolevNaive.History :=
  [.wake "a" (.broadcast "m" "hello"), .recv ⟨"a", "b", fromA []⟩,
    .wake "b" (.forwardTo "c" [] (fromA []) ["a"]), .recv ⟨"b", "c", fromA ["a"]⟩]

/-- b tells a and c that it has delivered before it hands the message on. -/
def rowRun : History String :=
  [.wake "a" (.broadcast ⟨"m", "hello", false⟩), .recv ⟨"a", "b", fromA []⟩,
    .wake "b" (.emptyTo "a" ["c"] true (fromA [])), .wake "b" (.empties ["c"] true (fromA [])),
    .wake "b" (.emptyTo "c" [] true (fromA [])), .wake "b" (.empties [] true (fromA [])),
    .wake "b" (.forwardTo "c" [] (fromA []) ["a"] true), .recv ⟨"b", "c", fromA ["a"]⟩]

theorem flooding_simple_and_finite_row :
    (∃ c, exec naiveRow.next naiveRow.initial naiveRowRun = some c ∧
      ["a", "b"] ∈ (c.st "c").paths.get "m" [] ∧ naiveRow.SimplePaths c) ∧
    ∃ c, exec row.next row.initial rowRun = some c ∧
      ["a", "b"] ∈ (c.st "c").paths.get "m" [] ∧ row.SimplePaths c := by
  obtain ⟨⟨_, hnaive⟩, ⟨_, hdolev⟩⟩ := flooding_simple_and_finite (N := naiveRow) (M := row) rfl rfl
  obtain ⟨c, hc, hrec⟩ := exists_exec_of_any naiveRow.next naiveRow.initial naiveRowRun
    (fun c => decide (["a", "b"] ∈ (c.st "c").paths.get "m" [])) (by decide)
  obtain ⟨c', hc', hrec'⟩ := exists_exec_of_any row.next row.initial rowRun
    (fun c => decide (["a", "b"] ∈ (c.st "c").paths.get "m" [])) (by decide)
  exact ⟨⟨c, hc, of_decide_eq_true hrec, (hnaive _ c hc).1⟩,
    ⟨c', hc', of_decide_eq_true hrec', (hdolev _ c' hc').1⟩⟩

end DistBench.Dolev
