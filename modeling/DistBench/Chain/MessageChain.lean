import DistBench.Deployment
import DistBench.Lib.Flooding
import DistBench.Lib.Potential

/-!
# Chains of signed messages (message_chain.py)

A node adds a signed message of its own to every chain it has not had before, and sends the
longer chain to all its peers but the one it came from. `max_hops` is looked at after that:
a node terminates when the message it has added is hop number `max_hops`, and goes on
handling what still reaches it.

- `receiveChain`, `onStart`: the handlers as segments; `Cont` lists the points at which a
  coroutine is suspended in `await peer.receive_chain(..)`.
- `Extends`: a step that adds to a chain and sends the result. `bounded_of_extendsShort`: as
  long as no chain of more than `max_hops` messages is extended, only so many chains are sent,
  none of them longer than `max_hops + 1`.
- `Round`, `exists_round`: three nodes among which chains grow without a bound.
- `bounded_iff`: so the bound holds in all runs exactly when there are no more than two nodes.
-/

namespace DistBench.Chain

open DistBench.Async DistBench.Flooding

/-- `ChainMessage`. The nodes of a run all sign what they send, and every signature verifies. -/
structure ChainMessage where
  hopCount : Nat
  originalValue : String
  nodeName : String
deriving DecidableEq, Repr

/-- `ChainBundle`. -/
structure ChainBundle where
  chain : List ChainMessage
deriving DecidableEq, Repr

/-- `tuple(msg.node_name for msg in bundle.chain)`. -/
def ChainBundle.chainId (bundle : ChainBundle) : List String := bundle.chain.map (·.nodeName)

/-- The nodes and their configuration; they share `max_hops`. -/
structure System extends Deployment where
  isInitiator : PeerId → Bool
  initialValue : PeerId → String
  maxHops : Int

/-- A node. -/
structure NodeState where
  receivedChains : List (List PeerId) := []
  processedChains : Finset (List String) := ∅
  terminated : Bool := false

/-- Where a coroutine is suspended. -/
inductive Cont where
  /-- `on_start` has not begun. -/
  | onStart
  /-- `on_start` in `peer.receive_chain` (line 79). -/
  | starting (rest : List PeerId) (bundle : ChainBundle)
  /-- `receive_chain` in `peer.receive_chain` (line 144). -/
  | forwarding (rest : List PeerId) (src : PeerId) (bundle : ChainBundle) (hopCount : Nat)
deriving DecidableEq, Repr

/-- What a segment leaves behind. -/
abbrev Seg : Type := Outcome PeerId ChainBundle NodeState Cont

namespace System

variable (S : System)

/-- The loop of `on_start` and what comes after it (lines 77–85). -/
def startLoop (s : NodeState) (bundle : ChainBundle) : List PeerId → Seg
  | [] => { st := { s with terminated := true } }
  | peer :: rest => { st := s, out := [(peer, bundle)], rest := some (.starting rest bundle) }

/-- Lines 57–85. -/
def onStart (i : PeerId) (s : NodeState) : Seg :=
  if S.isInitiator i then startLoop s ⟨[⟨0, S.initialValue i, i⟩]⟩ (S.peers i) else { st := s }

/-- The forwarding loop and what comes after it (lines 140–151). -/
def forwardLoop (s : NodeState) (src : PeerId) (bundle : ChainBundle) (hopCount : Nat) :
    List PeerId → Seg
  | [] => { st := if S.maxHops ≤ hopCount then { s with terminated := true } else s }
  | peer :: rest =>
    if peer = src then forwardLoop s src bundle hopCount rest
    else
      { st := s
        out := [(peer, bundle)]
        rest := some (.forwarding rest src bundle hopCount) }

/-- Lines 96–151. -/
def receiveChain (i : PeerId) (s : NodeState) (src : PeerId) (bundle : ChainBundle) : Seg :=
  match bundle.chain with
  | [] => { st := s }
  | firstMsg :: more =>
    if bundle.chainId ∈ s.processedChains then { st := s }
    else
      let lastMsg := (firstMsg :: more).getLast (List.cons_ne_nil _ _)
      let ourMsg : ChainMessage := ⟨lastMsg.hopCount + 1, firstMsg.originalValue, i⟩
      S.forwardLoop
        { s with
          processedChains := insert bundle.chainId s.processedChains
          receivedChains := s.receivedChains ++ [bundle.chainId] }
        src ⟨bundle.chain ++ [ourMsg]⟩ ourMsg.hopCount (S.peers i)

/-- The next segment of a suspended coroutine. -/
def resume (i : PeerId) (s : NodeState) : Cont → Seg
  | .onStart => S.onStart i s
  | .starting rest bundle => startLoop s bundle rest
  | .forwarding rest src bundle hopCount => S.forwardLoop s src bundle hopCount rest

/-- The code of a node. -/
def protocol : Protocol PeerId ChainBundle NodeState Cont where
  handle := S.receiveChain
  resume i s t := some (S.resume i s t)

/-- Before any `on_start` has run. -/
def initial : Config PeerId ChainBundle NodeState Cont where
  st _ := {}
  tasks _ := [.onStart]
  net := []

/-- One step of the deployment. -/
abbrev next := step S.protocol S.parties

/-- In this step node `i` adds its message to `chain` and begins to send the result. -/
inductive Extends (c : Config PeerId ChainBundle NodeState Cont) :
    Label PeerId ChainBundle Cont → List ChainMessage → Prop
  | start {i : PeerId} (hinit : S.isInitiator i = true) (hpeers : S.peers i ≠ []) :
      Extends c (.wake i .onStart) []
  | extend {e : Envelope PeerId ChainBundle} (hne : e.msg.chain ≠ [])
      (hnew : e.msg.chainId ∉ (c.st e.dst).processedChains)
      (hpeers : ∃ peer ∈ S.peers e.dst, peer ≠ e.src) : Extends c (.recv e) e.msg.chain

end System

/-- A history of a deployment. -/
abbrev History : Type := Trace PeerId ChainBundle Cont

/-- The bundle a coroutine is sending. -/
def Cont.bundle : Cont → Option ChainBundle
  | .onStart => none
  | .starting _ bundle | .forwarding _ _ bundle _ => some bundle

namespace System

/-- The rounds a coroutine of node `i` has left. -/
def rounds (S : System) (i : PeerId) : Cont → Nat
  | .onStart => (S.peers i).length
  | .starting rest _ | .forwarding rest _ _ _ => rest.length

variable {S : System} {i src : PeerId} {s : NodeState} {bundle : ChainBundle} {hopCount : Nat}
  {peers : List PeerId} {o : Seg} {c : Config PeerId ChainBundle NodeState Cont}
  {l : Label PeerId ChainBundle Cont} {ls : History}

/-! ## What a segment sends -/

/-- A segment of a loop over `peers` sends `bundle`, in one round for each message. -/
structure Hands (S : System) (i : PeerId) (bundle : ChainBundle) (s : NodeState)
    (peers : List PeerId) (o : Seg) : Prop where
  processed : o.st.processedChains = s.processedChains
  out : ∀ dm ∈ o.out, dm.2 = bundle
  rest : ∀ t ∈ o.rest, t.bundle = some bundle
  rounds : o.out.length + (o.rest.toList.map (S.rounds i)).sum ≤ peers.length

theorem Hands.quiet {s' : NodeState} (h : s'.processedChains = s.processedChains) :
    S.Hands i bundle s peers { st := s' } where
  processed := h
  out := by simp
  rest := by simp
  rounds := Nat.zero_le _

theorem Hands.mono {peers' : List PeerId} (h : S.Hands i bundle s peers o)
    (hle : peers.length ≤ peers'.length) : S.Hands i bundle s peers' o :=
  ⟨h.processed, h.out, h.rest, h.rounds.trans hle⟩

theorem hands_startLoop : S.Hands i bundle s peers (startLoop s bundle peers) := by
  cases peers with
  | nil => exact .quiet rfl
  | cons peer rest =>
    exact ⟨rfl, by simp [startLoop], by simp [startLoop, Cont.bundle],
      by simp [startLoop, System.rounds, Nat.add_comm]⟩

theorem hands_forwardLoop :
    S.Hands i bundle s peers (S.forwardLoop s src bundle hopCount peers) := by
  induction peers with
  | nil =>
    refine .quiet ?_
    split <;> rfl
  | cons peer rest ih =>
    rw [forwardLoop]
    split
    · exact ih.mono (Nat.le_succ _)
    · exact ⟨rfl, by simp, by simp [Cont.bundle], by simp [System.rounds, Nat.add_comm]⟩

/-- The loop sends nothing if there is nobody to send it to. -/
theorem forwardLoop_quiet (hsame : ∀ peer ∈ peers, peer = src) :
    (S.forwardLoop s src bundle hopCount peers).out = [] ∧
      (S.forwardLoop s src bundle hopCount peers).rest = none := by
  induction peers with
  | nil => exact ⟨rfl, rfl⟩
  | cons peer rest ih =>
    obtain ⟨hpeer, hrest⟩ := List.forall_mem_cons.mp hsame
    rw [forwardLoop, if_pos hpeer]
    exact ih hrest

/-- A path that a node has not had is processed, and its own message added. -/
theorem receiveChain_eq (S : System) (i src : PeerId) (hne : bundle.chain ≠ [])
    (hnew : bundle.chainId ∉ s.processedChains) :
    ∃ (s' : NodeState) (msg : ChainMessage), msg.nodeName = i ∧
      s'.processedChains = insert bundle.chainId s.processedChains ∧
      s'.terminated = s.terminated ∧
      S.receiveChain i s src bundle =
        S.forwardLoop s' src ⟨bundle.chain ++ [msg]⟩ msg.hopCount (S.peers i) := by
  unfold receiveChain
  split
  · next hempty => exact absurd hempty hne
  · next firstMsg more _ =>
    exact ⟨{ s with
        processedChains := insert bundle.chainId s.processedChains
        receivedChains := s.receivedChains ++ [bundle.chainId] },
      ⟨_, firstMsg.originalValue, i⟩, rfl, rfl, rfl, if_neg hnew⟩

/-- What the handler of a bundle does. -/
inductive Receives (S : System) (i : PeerId) (s : NodeState) (src : PeerId)
    (bundle : ChainBundle) (o : Seg) : Prop
  /-- The bundle is empty or was had before, or there is nobody to send it on to. -/
  | keeps (hno : bundle.chain = [] ∨ bundle.chainId ∈ s.processedChains ∨
        ∀ peer ∈ S.peers i, peer = src)
      (hst : s.processedChains ⊆ o.st.processedChains) (hout : o.out = []) (hrest : o.rest = none)
  | grows (msg : ChainMessage) (hname : msg.nodeName = i) (hne : bundle.chain ≠ [])
      (hnew : bundle.chainId ∉ s.processedChains) (hpeers : ∃ peer ∈ S.peers i, peer ≠ src)
      (hst : o.st.processedChains = insert bundle.chainId s.processedChains)
      (hands : S.Hands i ⟨bundle.chain ++ [msg]⟩ o.st (S.peers i) o)

theorem receives_receiveChain : S.Receives i s src bundle (S.receiveChain i s src bundle) := by
  by_cases hne : bundle.chain = []
  · have hquiet : S.receiveChain i s src bundle = { st := s } := by simp [receiveChain, hne]
    rw [hquiet]
    exact .keeps (.inl hne) subset_rfl rfl rfl
  by_cases hold : bundle.chainId ∈ s.processedChains
  · have hquiet : S.receiveChain i s src bundle = { st := s } := by
      unfold receiveChain
      split
      · rfl
      · exact if_pos hold
    rw [hquiet]
    exact .keeps (.inr (.inl hold)) subset_rfl rfl rfl
  obtain ⟨s', msg, hname, hst, -, heq⟩ := receiveChain_eq S i src hne hold
  have hhands : S.Hands i ⟨bundle.chain ++ [msg]⟩ s' (S.peers i)
      (S.forwardLoop s' src ⟨bundle.chain ++ [msg]⟩ msg.hopCount (S.peers i)) := hands_forwardLoop
  have hprocessed := hhands.processed.trans hst
  rw [heq]
  by_cases hpeers : ∃ peer ∈ S.peers i, peer ≠ src
  · exact .grows msg hname hne hold hpeers hprocessed
      ⟨rfl, hhands.out, hhands.rest, hhands.rounds⟩
  · push Not at hpeers
    obtain ⟨hout, hrest⟩ : (S.forwardLoop s' src ⟨bundle.chain ++ [msg]⟩ msg.hopCount
        (S.peers i)).out = [] ∧ (S.forwardLoop s' src ⟨bundle.chain ++ [msg]⟩ msg.hopCount
        (S.peers i)).rest = none := forwardLoop_quiet hpeers
    exact .keeps (.inr (.inr hpeers)) (hprocessed ▸ Finset.subset_insert _ _) hout hrest

theorem hands_onStart (hinit : S.isInitiator i = true) :
    S.Hands i ⟨[⟨0, S.initialValue i, i⟩]⟩ s (S.peers i) (S.onStart i s) := by
  rw [onStart, if_pos hinit]
  exact hands_startLoop

theorem onStart_quiet (h : ¬ (S.isInitiator i = true ∧ S.peers i ≠ [])) :
    (S.onStart i s).out = [] ∧ (S.onStart i s).rest = none := by
  unfold onStart
  split
  · next hinit =>
    rw [not_not.mp fun hne => h ⟨hinit, hne⟩]
    exact ⟨rfl, rfl⟩
  · exact ⟨rfl, rfl⟩

/-! ## Runs -/

/-- A bundle of at most `max_hops + 1` messages, all of them by nodes of the system. -/
structure Within (S : System) (bundle : ChainBundle) : Prop where
  names : ∀ m ∈ bundle.chain, m.nodeName ∈ S.parties.correct
  length : (bundle.chain.length : Int) ≤ S.maxHops + 1

/-- No step extends a chain of more than `max_hops` messages. -/
def ExtendsShort (S : System) (c : Config PeerId ChainBundle NodeState Cont)
    (l : Label PeerId ChainBundle Cont) : Prop :=
  ∀ chain, S.Extends c l chain → (chain.length : Int) ≤ S.maxHops

/-- What is sent and about to be sent is within the bounds. -/
def bounded (S : System) : Assertion PeerId ChainBundle NodeState Cont where
  node _ _ _ ts := ∀ t ∈ ts, ∀ b ∈ t.bundle, S.Within b
  msg _ e := S.Within e.msg

theorem Within.snoc {msg : ChainMessage} (h : S.Within bundle)
    (hname : msg.nodeName ∈ S.parties.correct) (hlen : (bundle.chain.length : Int) ≤ S.maxHops) :
    S.Within ⟨bundle.chain ++ [msg]⟩ where
  names m hm := (List.mem_append.mp hm).elim (h.names m) fun hm => by
    obtain rfl := List.mem_singleton.mp hm
    exact hname
  length := by
    rw [List.length_append, List.length_singleton]
    push_cast
    omega

theorem Hands.within (h : S.Hands i bundle s peers o) (hb : S.Within bundle) :
    (∀ t ∈ o.rest, ∀ b ∈ t.bundle, S.Within b) ∧ ∀ dm ∈ o.out, S.Within dm.2 := by
  refine ⟨fun t ht b hbt => ?_, fun dm hdm => ?_⟩
  · rw [h.rest t ht] at hbt
    obtain rfl := Option.some.inj hbt
    exact hb
  · rw [h.out dm hdm]
    exact hb

/-- A segment of a step that extends short chains only. -/
theorem within_segment (hall : S.parties.byz = ∅) {base : Config PeerId ChainBundle NodeState Cont}
    (hA : (bounded S).Holds S.parties ls c) (hshort : S.ExtendsShort c l)
    (hseg : Segment S.protocol S.parties c l i o base) :
    (∀ t ∈ o.rest, ∀ b ∈ t.bundle, S.Within b) ∧ ∀ dm ∈ o.out, S.Within dm.2 := by
  cases hseg with
  | @recv e hnet hdst =>
    have hmsg := hA.msg e hnet
    have hreceives : S.Receives e.dst (c.st e.dst) e.src e.msg
        (S.receiveChain e.dst (c.st e.dst) e.src e.msg) := receives_receiveChain
    show (∀ t ∈ (S.receiveChain e.dst (c.st e.dst) e.src e.msg).rest, _) ∧
      ∀ dm ∈ (S.receiveChain e.dst (c.st e.dst) e.src e.msg).out, _
    cases hreceives with
    | keeps _ _ hout hrest =>
      rw [hout, hrest]
      exact ⟨by simp, by simp⟩
    | grows msg hname hne hnew hpeers _ hands =>
      exact hands.within (hmsg.snoc (hname ▸ hdst) (hshort _ (.extend hne hnew hpeers)))
  | forge hsrc _ => exact absurd (hall ▸ hsrc) (Finset.notMem_empty _)
  | @wake i t _ hi ht ho =>
    obtain rfl := Option.some.inj ho
    cases t with
    | onStart =>
      show (∀ t ∈ (S.onStart i (c.st i)).rest, _) ∧ ∀ dm ∈ (S.onStart i (c.st i)).out, _
      by_cases hstart : S.isInitiator i = true ∧ S.peers i ≠ []
      · have hlen : (0 : Int) ≤ S.maxHops := hshort _ (.start hstart.1 hstart.2)
        refine (hands_onStart hstart.1).within ⟨fun m hm => ?_, ?_⟩
        · obtain rfl := List.mem_singleton.mp hm
          exact hi
        · rw [List.length_singleton]
          push_cast
          omega
      · obtain ⟨hout, hrest⟩ := onStart_quiet (s := c.st i) hstart
        rw [hout, hrest]
        exact ⟨by simp, by simp⟩
    | starting rest bundle =>
      exact (hands_startLoop (S := S) (i := i)).within (hA.node i hi _ ht bundle rfl)
    | forwarding rest src bundle hopCount =>
      exact (hands_forwardLoop (i := i)).within (hA.node i hi _ ht bundle rfl)

theorem bounded_inductive (hall : S.parties.byz = ∅) :
    (bounded S).Inductive S.protocol S.parties initial fun _ => S.ExtendsShort where
  init := by
    refine ⟨fun i _ t ht b hb => ?_, by simp [initial], by simp⟩
    obtain rfl := List.mem_singleton.mp ht
    cases hb
  node_mono _ h := h
  msg_mono h := h
  segment := by
    intro ls c l i o base _ hA hshort hseg
    obtain ⟨hrest, hout⟩ := within_segment hall hA hshort hseg
    refine ⟨fun t ht => ?_, hout⟩
    rcases hseg.mem_rest_or_tasks ht with hnew | hold
    · exact hrest t hnew
    · exact hA.node i hseg.correct t hold

/-! ## How many bundles are sent -/

/-- The paths that a node may still process, and the rounds of its suspended coroutines. -/
def costs (S : System) : Weights PeerId ChainBundle NodeState Cont where
  st i s := (S.peers i).length *
    (words S.parties.correct S.maxHops.toNat \ s.processedChains).card
  task := S.rounds
  msg _ := 0

theorem pays_of_subset {s' : NodeState} (hst : s.processedChains ⊆ s'.processedChains) :
    S.costs.st i s' ≤ S.costs.st i s :=
  Nat.mul_le_mul_left _ (Finset.card_le_card (Finset.sdiff_subset_sdiff subset_rfl hst))

theorem Hands.pays (h : S.Hands i bundle s peers o) :
    o.out.length + S.costs.outcome i o ≤ peers.length + S.costs.st i s := by
  have hst : S.costs.st i o.st = S.costs.st i s := by simp only [costs, h.processed]
  have hrounds := h.rounds
  have hzero : (o.out.map fun dm => S.costs.msg ⟨i, dm.1, dm.2⟩).sum = 0 := by simp [costs]
  rw [Weights.outcome, hst, hzero]
  show _ + (_ + (o.rest.toList.map (S.rounds i)).sum + 0) ≤ _
  omega

theorem pays_quiet (hst : s.processedChains ⊆ o.st.processedChains) (hout : o.out = [])
    (hrest : o.rest = none) : o.out.length + S.costs.outcome i o ≤ S.costs.st i s := by
  have hle := pays_of_subset (S := S) (i := i) hst
  simpa [Weights.outcome, hout, hrest] using hle

/-- A new path of at most `max_hops` nodes of the system pays for a round with each peer. -/
theorem pays_insert {s' : NodeState} (hb : S.Within bundle)
    (hnew : bundle.chainId ∉ s.processedChains) (hlen : (bundle.chain.length : Int) ≤ S.maxHops)
    (hst : s'.processedChains = insert bundle.chainId s.processedChains) :
    (S.peers i).length + S.costs.st i s' ≤ S.costs.st i s := by
  have hword : bundle.chainId ∈ words S.parties.correct S.maxHops.toNat := by
    refine mem_words.mpr ⟨fun name hname => ?_, ?_⟩
    · obtain ⟨m, hm, rfl⟩ := List.mem_map.mp hname
      exact hb.names m hm
    · rw [ChainBundle.chainId, List.length_map]
      omega
  have hcard := Finset.card_erase_add_one (Finset.mem_sdiff.mpr ⟨hword, hnew⟩)
  show _ + (S.peers i).length * _ ≤ (S.peers i).length * _
  rw [hst, Finset.sdiff_insert, ← hcard, Nat.mul_succ, Nat.add_comm]

/-- Every segment of a step that extends short chains only pays for what it sends. -/
theorem pays_segment (hall : S.parties.byz = ∅) {base : Config PeerId ChainBundle NodeState Cont}
    (hA : (bounded S).Holds S.parties ls c) (hshort : S.ExtendsShort c l)
    (hseg : Segment S.protocol S.parties c l i o base) :
    o.out.length + S.costs.outcome i o ≤ S.costs.label l + S.costs.st i (c.st i) := by
  cases hseg with
  | @recv e hnet hdst =>
    have hreceives : S.Receives e.dst (c.st e.dst) e.src e.msg
        (S.protocol.handle e.dst (c.st e.dst) e.src e.msg) := receives_receiveChain
    generalize S.protocol.handle e.dst (c.st e.dst) e.src e.msg = o at hreceives
    cases hreceives with
    | keeps _ hst hout hrest => exact (pays_quiet hst hout hrest).trans (Nat.le_add_left _ _)
    | grows msg hname hne hnew hpeers hst hands =>
      have hlen := hshort _ (.extend hne hnew hpeers)
      exact hands.pays.trans ((pays_insert (hA.msg e hnet) hnew hlen hst).trans
        (Nat.le_add_left _ _))
  | forge hsrc _ => exact absurd (hall ▸ hsrc) (Finset.notMem_empty _)
  | @wake i t _ hi ht ho =>
    obtain rfl := Option.some.inj ho
    cases t with
    | onStart =>
      by_cases hinit : S.isInitiator i = true
      · exact (hands_onStart hinit).pays
      · have hidle : S.onStart i (c.st i) = { st := c.st i } := if_neg hinit
        rw [resume, hidle]
        exact (pays_quiet subset_rfl rfl rfl).trans (Nat.le_add_left _ _)
    | starting rest bundle => exact (hands_startLoop (S := S) (i := i)).pays
    | forwarding rest src bundle hopCount => exact (hands_forwardLoop (i := i)).pays

/-- The bundles that are sent in a run. -/
def bundlesSent (S : System) (ls : History) : Nat :=
  tally S.next (fun c l => (emitted S.protocol c l).length) initial ls

/-- Each of `n` nodes sends at most `(n + 1) ^ max_hops` chains to the others, and the initial
one. -/
def bundleBound (S : System) : Nat :=
  let n := S.parties.nodes.card
  n * (n * (n + 1) ^ S.maxHops.toNat + n)

theorem config_initial_le (hall : S.parties.byz = ∅) :
    S.costs.config S.parties initial ≤ S.bundleBound := by
  have hnodes : S.parties.nodes = S.parties.correct := by
    rw [Parties.nodes, hall, Finset.union_empty]
  have hnode : ∀ i ∈ S.parties.correct, S.costs.node initial i ≤ S.parties.nodes.card *
      (S.parties.nodes.card + 1) ^ S.maxHops.toNat + S.parties.nodes.card := by
    intro i hi
    have hpeers := S.length_peers_le hall hi
    have hwords := card_words_le (A := S.parties.correct) (k := S.maxHops.toNat)
    rw [hnodes]
    have hst : S.costs.st i {} =
        (S.peers i).length * (words S.parties.correct S.maxHops.toNat).card := by
      simp [costs]
    have htask : S.costs.task i .onStart = (S.peers i).length := rfl
    rw [Weights.node]
    simp only [initial, List.map_cons, List.map_nil, List.sum_cons, List.sum_nil, hst, htask,
      Nat.add_zero]
    exact Nat.add_le_add (Nat.mul_le_mul hpeers hwords) hpeers
  have hsum := Finset.sum_le_card_nsmul _ _ _ hnode
  simp only [Weights.config, bundleBound, initial, List.map_nil, List.sum_nil, Nat.add_zero]
  rw [← hnodes, smul_eq_mul] at hsum
  rwa [← hnodes]

/-- No chain gets longer than `max_hops + 1`, and only so many are sent, in a run in which no
node extends a chain of more than `max_hops` messages. -/
theorem bounded_of_extendsShort (hall : S.parties.byz = ∅) (hc : exec S.next initial ls = some c)
    (hmeets : Meets S.next initial (fun _ => S.ExtendsShort) ls) :
    (∀ i d b, Occurs S.next initial ls (Sends S.protocol S.parties i d b) →
      (b.chain.length : Int) ≤ S.maxHops + 1) ∧ S.bundlesSent ls ≤ S.bundleBound := by
  have hholds := Assertion.holds_of_meets (bounded_inductive (S := S) hall)
  have hpaid : ∀ ls c l i o base, exec S.next initial ls = some c →
      Meets S.next initial (fun _ => S.ExtendsShort) ls ∧ S.ExtendsShort c l →
      Segment S.protocol S.parties c l i o base →
      o.out.length + S.costs.outcome i o ≤ S.costs.label l + S.costs.st i (c.st i) :=
    fun ls c _ _ _ _ hc hcond hseg => pays_segment hall (hholds ls c hc hcond.1) hcond.2 hseg
  refine ⟨?_, (S.costs.tally_le hpaid ls c hc hmeets.with_history).trans (config_initial_le hall)⟩
  rintro i d b ⟨ls₁, l, ls₂, c', rfl, hc', o, base, hseg, hd⟩
  have hbefore : Meets S.next initial (fun _ => S.ExtendsShort) ls₁ := hmeets.prefix
  have hA := hholds ls₁ c' hc' hbefore
  exact ((within_segment hall hA (hmeets ls₁ l ls₂ c' rfl hc') hseg).2 _ hd).length

/-! ## Two nodes -/

end System

/-- The peers a coroutine will still send to. -/
def Cont.targets : Cont → List PeerId
  | .onStart => []
  | .starting rest _ => rest
  | .forwarding rest src _ _ => rest.filter (· ≠ src)

namespace System

variable {S : System} {i j src : PeerId} {s s' : NodeState} {bundle : ChainBundle} {hopCount : Nat}
  {peers : List PeerId} {o : Seg} {c base : Config PeerId ChainBundle NodeState Cont}
  {l : Label PeerId ChainBundle Cont} {ls : History}

/-- A segment of a loop over `peers` sends to some of them, and goes on with others. -/
structure Addresses (peers : List PeerId) (o : Seg) : Prop where
  out : ∀ dm ∈ o.out, dm.1 ∈ peers
  rest : ∀ t ∈ o.rest, t.targets ⊆ peers

theorem Addresses.mono {peers' : List PeerId} (h : Addresses peers o) (hsub : peers ⊆ peers') :
    Addresses peers' o :=
  ⟨fun dm hdm => hsub (h.out dm hdm), fun t ht => List.Subset.trans (h.rest t ht) hsub⟩

theorem addresses_startLoop : Addresses peers (startLoop s bundle peers) := by
  cases peers with
  | nil => exact ⟨by simp [startLoop], by simp [startLoop]⟩
  | cons peer rest => exact ⟨by simp [startLoop], by simp [startLoop, Cont.targets]⟩

theorem addresses_forwardLoop :
    Addresses (peers.filter (· ≠ src)) (S.forwardLoop s src bundle hopCount peers) := by
  induction peers with
  | nil => exact ⟨by simp [forwardLoop], by simp [forwardLoop]⟩
  | cons peer rest ih =>
    rw [forwardLoop]
    split
    · next hsrc => simpa [hsrc] using ih
    · next hne => exact ⟨by simp [hne], by simp [Cont.targets, hne]⟩

theorem addresses_receiveChain : Addresses (S.peers i) (S.receiveChain i s src bundle) := by
  unfold receiveChain
  split
  · exact ⟨by simp, by simp⟩
  · split
    · exact ⟨by simp, by simp⟩
    · exact addresses_forwardLoop.mono (List.filter_subset_self _)

/-- Messages are sent to peers. -/
def addressed (S : System) : Assertion PeerId ChainBundle NodeState Cont where
  node _ i _ ts := ∀ t ∈ ts, t.targets ⊆ S.peers i
  msg _ e := e.dst ∈ S.peers e.src

theorem addressed_inductive :
    (addressed S).Inductive S.protocol S.parties initial fun _ _ _ => True where
  init := by
    refine ⟨fun i _ t ht => ?_, by simp [initial], by simp⟩
    obtain rfl := List.mem_singleton.mp ht
    simp [Cont.targets]
  node_mono _ h := h
  msg_mono h := h
  segment := by
    intro ls c l i o base _ hA _ hseg
    have haddresses : Addresses (S.peers i) o := by
      cases hseg with
      | recv _ _ => exact addresses_receiveChain
      | forge _ _ => exact addresses_receiveChain
      | @wake i t _ hi ht ho =>
        obtain rfl := Option.some.inj ho
        have htargets := hA.node i hi t ht
        cases t with
        | onStart =>
          show Addresses (S.peers i) (S.onStart i (c.st i))
          unfold onStart
          split
          · exact addresses_startLoop
          · exact ⟨by simp, by simp⟩
        | starting rest bundle => exact addresses_startLoop.mono htargets
        | forwarding rest src bundle hopCount => exact addresses_forwardLoop.mono htargets
    refine ⟨fun t ht => ?_, haddresses.out⟩
    rcases hseg.mem_rest_or_tasks ht with hnew | hold
    · exact haddresses.rest t hnew
    · exact hA.node i hseg.correct t hold

/-- Of two nodes, the one that gets a chain has nobody to send it on to. -/
theorem extendsShort_of_two (htwo : S.parties.nodes.card = 2) (hmax : 0 ≤ S.maxHops)
    (hc : exec S.next initial ls = some c) (hseg : Segment S.protocol S.parties c l i o base) :
    S.ExtendsShort c l := by
  intro chain hext
  cases hext with
  | start _ _ => exact hmax
  | @extend e _ _ hpeers =>
    exfalso
    cases hseg with
    | recv hnet hdst =>
      have hsrc := S.mem_nodes_of_correct (sent_of_in_flight rfl ls c hc e hnet).1
      have hpeer := (Assertion.holds_of_run addressed_inductive hc).msg e hnet
      obtain ⟨hdst, hne⟩ := (S.mem_peers e.src hsrc e.dst).mp hpeer
      obtain ⟨peer, hpeer, hother⟩ := hpeers
      obtain ⟨hmem, hself⟩ := (S.mem_peers e.dst hdst peer).mp hpeer
      have hthree : ({e.src, e.dst, peer} : Finset PeerId) ⊆ S.parties.nodes := by
        simp [Finset.insert_subset_iff, hsrc, hdst, hmem]
      have hcard := Finset.card_le_card hthree
      rw [Finset.card_eq_three.mpr ⟨_, _, _, hne.symm, hother.symm, hself.symm, rfl⟩] at hcard
      omega

/-! ## Three nodes -/

/-- A segment that leaves the node in the state `s` and sends `bundle` to `p`, or will: a
coroutine does with fewer than `n` targets. -/
structure Offers (s : NodeState) (bundle : ChainBundle) (p : PeerId) (n : Nat) (o : Seg) :
    Prop where
  st : o.st = s
  sends : (p, bundle) ∈ o.out ∨
    ∃ t ∈ o.rest, t.bundle = some bundle ∧ p ∈ t.targets ∧ t.targets.length < n

theorem offers_startLoop {p : PeerId} (hp : p ∈ peers) :
    Offers s bundle p peers.length (startLoop s bundle peers) := by
  cases peers with
  | nil => cases hp
  | cons peer rest =>
    refine ⟨rfl, ?_⟩
    rcases List.mem_cons.mp hp with rfl | hp
    · exact .inl (List.mem_singleton_self _)
    · exact .inr ⟨_, rfl, rfl, hp, Nat.lt_succ_self _⟩

theorem offers_forwardLoop {p : PeerId} (hp : p ∈ peers.filter (· ≠ src)) :
    Offers s bundle p (peers.filter (· ≠ src)).length
      (S.forwardLoop s src bundle hopCount peers) := by
  induction peers with
  | nil => cases hp
  | cons peer rest ih =>
    rw [forwardLoop]
    split
    · next hsrc =>
      rw [List.filter_cons_of_neg (by simpa using hsrc)] at hp ⊢
      exact ih hp
    · next hne =>
      rw [List.filter_cons_of_pos (by simpa using hne)] at hp ⊢
      refine ⟨rfl, ?_⟩
      rcases List.mem_cons.mp hp with rfl | hp
      · exact .inl (List.mem_singleton_self _)
      · exact .inr ⟨_, rfl, rfl, hp, Nat.lt_succ_self _⟩

theorem offers_resume {t : Cont} {p : PeerId} (hbundle : t.bundle = some bundle)
    (hp : p ∈ t.targets) : Offers s bundle p t.targets.length (S.resume i s t) := by
  cases t with
  | onStart => cases hp
  | starting rest b =>
    obtain rfl := Option.some.inj hbundle
    exact offers_startLoop hp
  | forwarding rest src b hopCount =>
    obtain rfl := Option.some.inj hbundle
    exact offers_forwardLoop hp

/-- The loop goes on until the message to `p` is on its way; no node changes its state. -/
theorem exists_sent {p : PeerId} (hi : i ∈ S.parties.correct) (n : Nat)
    (hseg : Segment S.protocol S.parties c l i o base) (ho : Offers s bundle p n o) :
    ∃ ls c', exec S.next c (l :: ls) = some c' ∧ c'.st = Function.update c.st i s ∧
      ⟨i, p, bundle⟩ ∈ c'.net := by
  induction n using Nat.strong_induction_on generalizing c l o base with
  | _ n ih =>
    have hstep : S.next c l = some (base.commit i o) := step_iff.mpr ⟨i, o, base, hseg, rfl⟩
    have hst : (base.commit i o).st = Function.update c.st i s := by
      rw [Config.commit, hseg.base_st, ho.st]
    rcases ho.sends with hout | ⟨t, ht, hbundle, hp, hlt⟩
    · refine ⟨[], _, by rw [exec_cons, hstep]; rfl, hst, ?_⟩
      exact (Config.mem_commit_net _ _ _).mpr (.inr ⟨rfl, hout⟩)
    · have hmem : t ∈ (base.commit i o).tasks i := by
        rw [Config.commit_tasks_self]
        exact List.mem_append_left _ (Option.mem_toList.mpr ht)
      have hwake : Segment S.protocol S.parties (base.commit i o) (.wake i t) i
          (S.resume i ((base.commit i o).st i) t) _ := .wake hi hmem rfl
      rw [Config.commit_st_self, ho.st] at hwake
      obtain ⟨ls, c', hrun, hst', hnet⟩ := ih _ hlt hwake (offers_resume hbundle hp)
      refine ⟨.wake i t :: ls, c', by rw [exec_cons, hstep]; exact hrun, ?_, hnet⟩
      rw [hst', hst, Function.update_idem]

/-- An initiator sends its chain to any peer. -/
theorem exists_started (hi : i ∈ S.parties.correct) (hinit : S.isInitiator i = true)
    (hj : j ∈ S.peers i) : ∃ ls c b, exec S.next initial ls = some c ∧ b.chain.length = 1 ∧
      ⟨i, j, b⟩ ∈ c.net ∧ c.st = initial.st := by
  have hseg : Segment S.protocol S.parties initial (.wake i .onStart) i
      (S.resume i (initial.st i) .onStart) _ := .wake hi (List.mem_singleton_self _) rfl
  rw [resume, onStart, if_pos hinit] at hseg
  obtain ⟨ls, c, hc, hst, hnet⟩ := exists_sent hi _ hseg (offers_startLoop hj)
  exact ⟨_, c, _, hc, rfl, hnet, by rw [hst, Function.update_eq_self]⟩

/-- The nodes in turn, each of which sends on to the next one what it gets from the one
before. -/
structure Round (S : System) (turn : Nat → PeerId) : Prop where
  initiator : S.isInitiator (turn 0) = true
  correct : ∀ k, turn k ∈ S.parties.correct
  peer : ∀ k, turn (k + 1) ∈ S.peers (turn k)
  onward : ∀ k, turn (k + 2) ≠ turn k

/-- The chain comes to the next node with a message more, and no node has had a path as long or
terminated. -/
theorem exists_round {turn : Nat → PeerId} (h : S.Round turn) (k : Nat) :
    ∃ ls c b, exec S.next initial ls = some c ∧ b.chain.length = k + 1 ∧
      ⟨turn k, turn (k + 1), b⟩ ∈ c.net ∧
      ∀ i, (c.st i).terminated = false ∧ ∀ path ∈ (c.st i).processedChains, path.length ≤ k := by
  induction k with
  | zero =>
    obtain ⟨ls, c, b, hc, hlen, hnet, hst⟩ := exists_started (h.correct 0) h.initiator (h.peer 0)
    exact ⟨ls, c, b, hc, hlen, hnet, by simp [hst, initial]⟩
  | succ k ih =>
    obtain ⟨ls, c, b, hc, hlen, hnet, hstates⟩ := ih
    have hne : b.chain ≠ [] := List.ne_nil_of_length_eq_add_one hlen
    have hpath : b.chainId.length = k + 1 := by rw [ChainBundle.chainId, List.length_map, hlen]
    have hnew : b.chainId ∉ (c.st (turn (k + 1))).processedChains := fun hmem => by
      have hle := (hstates _).2 _ hmem
      omega
    obtain ⟨s', msg, -, hst, hopen, heq⟩ :=
      receiveChain_eq S (turn (k + 1)) (turn k) hne hnew
    have hseg : Segment S.protocol S.parties c (.recv ⟨turn k, turn (k + 1), b⟩) (turn (k + 1))
        (S.receiveChain (turn (k + 1)) (c.st (turn (k + 1))) (turn k) b) _ :=
      .recv hnet (h.correct _)
    have htarget : turn (k + 2) ∈ (S.peers (turn (k + 1))).filter (· ≠ turn k) :=
      List.mem_filter.mpr ⟨h.peer (k + 1), by simpa using h.onward k⟩
    rw [heq] at hseg
    obtain ⟨ls', c', hc', hst', hnet'⟩ :=
      exists_sent (h.correct _) _ hseg (offers_forwardLoop htarget)
    refine ⟨ls ++ _ :: ls', c', _, by rw [exec_append, hc]; exact hc', ?_, hnet', fun i => ?_⟩
    · simp [hlen]
    · rw [hst']
      by_cases hi : i = turn (k + 1)
      · subst hi
        rw [Function.update_self, hopen, hst]
        refine ⟨(hstates _).1, fun path hp => ?_⟩
        rcases Finset.mem_insert.mp hp with rfl | hp
        · exact hpath.le
        · exact ((hstates _).2 path hp).trans (Nat.le_succ k)
      · rw [Function.update_of_ne hi]
        exact ⟨(hstates i).1, fun path hp => ((hstates i).2 path hp).trans (Nat.le_succ k)⟩

/-- Three nodes in turn. -/
theorem exists_turn {a : PeerId} (hall : S.parties.byz = ∅) (ha : a ∈ S.parties.nodes)
    (hinit : S.isInitiator a = true) (hthree : 2 < S.parties.nodes.card) :
    ∃ turn, S.Round turn := by
  obtain ⟨b, hb, hba⟩ := Finset.exists_mem_ne (by omega : 1 < S.parties.nodes.card) a
  obtain ⟨d, hd, hda, hdb⟩ : ∃ d ∈ S.parties.nodes, d ≠ a ∧ d ≠ b := by
    by_contra hnone
    push Not at hnone
    have hsub : S.parties.nodes ⊆ {a, b} := fun d hd => by
      by_cases hda : d = a
      · simp [hda]
      · simp [hnone d hd hda]
    have hcard := (Finset.card_le_card hsub).trans Finset.card_le_two
    omega
  have hcorrect : ∀ i ∈ S.parties.nodes, i ∈ S.parties.correct := fun i hi =>
    (Async.Parties.mem_nodes.mp hi).resolve_right (by simp [hall])
  have hturn (k : Nat) : k % 3 = 0 ∨ k % 3 = 1 ∨ k % 3 = 2 := by omega
  refine ⟨fun k => if k % 3 = 0 then a else if k % 3 = 1 then b else d, hinit, ?_, ?_, ?_⟩
  · intro k
    rcases hturn k with hk | hk | hk <;> simp [hk, hcorrect _ ha, hcorrect _ hb, hcorrect _ hd]
  · intro k
    rcases hturn k with hk | hk | hk
    · have hk' : (k + 1) % 3 = 1 := by omega
      simpa [hk, hk'] using (S.mem_peers a ha b).mpr ⟨hb, hba⟩
    · have hk' : (k + 1) % 3 = 2 := by omega
      simpa [hk, hk'] using (S.mem_peers b hb d).mpr ⟨hd, hdb⟩
    · have hk' : (k + 1) % 3 = 0 := by omega
      simpa [hk, hk'] using (S.mem_peers d hd a).mpr ⟨ha, hda.symm⟩
  · intro k
    rcases hturn k with hk | hk | hk
    · have hk' : (k + 2) % 3 = 2 := by omega
      simpa [hk, hk'] using hda
    · have hk' : (k + 2) % 3 = 0 := by omega
      simpa [hk, hk'] using hba.symm
    · have hk' : (k + 2) % 3 = 1 := by omega
      simpa [hk, hk'] using hdb.symm

/-- **`max_hops` bounds the flooding of two nodes only.** With an initiator and more nodes, chains
of any length are sent. -/
theorem bounded_iff (hall : S.parties.byz = ∅) (htwo : 2 ≤ S.parties.nodes.card)
    (hinit : ∃ i ∈ S.parties.nodes, S.isInitiator i = true) :
    (∀ ls c, exec S.next initial ls = some c →
      (∀ i d b, Occurs S.next initial ls (Sends S.protocol S.parties i d b) →
        (b.chain.length : Int) ≤ S.maxHops + 1) ∧ S.bundlesSent ls ≤ S.bundleBound) ↔
      S.parties.nodes.card = 2 ∧ 0 ≤ S.maxHops := by
  constructor
  · intro h
    have hsent {ls c i d} {b : ChainBundle} (hc : exec S.next initial ls = some c)
        (hnet : ⟨i, d, b⟩ ∈ c.net) : (b.chain.length : Int) ≤ S.maxHops + 1 :=
      (h ls c hc).1 i d b (sent_of_in_flight rfl ls c hc _ hnet).2
    obtain ⟨a, ha, hinit⟩ := hinit
    have hcorrect : a ∈ S.parties.correct :=
      (Async.Parties.mem_nodes.mp ha).resolve_right (by simp [hall])
    have hmax : 0 ≤ S.maxHops := by
      obtain ⟨b, hb, hba⟩ := Finset.exists_mem_ne (by omega : 1 < S.parties.nodes.card) a
      obtain ⟨ls, c, bundle, hc, hlen, hnet, -⟩ :=
        exists_started hcorrect hinit ((S.mem_peers a ha b).mpr ⟨hb, hba⟩)
      have hle := hsent hc hnet
      rw [hlen] at hle
      omega
    refine ⟨?_, hmax⟩
    by_contra hmore
    obtain ⟨turn, hround⟩ := exists_turn hall ha hinit (by omega)
    obtain ⟨ls, c, bundle, hc, hlen, hnet, -⟩ := exists_round hround (S.maxHops.toNat + 1)
    have hle := hsent hc hnet
    rw [hlen] at hle
    omega
  · rintro ⟨hcard, hmax⟩ ls c hc
    refine bounded_of_extendsShort hall hc fun ls₁ l ls₂ c₁ hls hc₁ => ?_
    subst hls
    obtain ⟨_, hc', hrest⟩ := exec_prefix hc
    obtain rfl := Option.some.inj (hc₁.symm.trans hc')
    obtain ⟨_, hl, -⟩ := Option.bind_eq_some_iff.mp hrest
    obtain ⟨i, o, base, hseg, -⟩ := step_iff.mp hl
    exact extendsShort_of_two hcard hmax hc₁ hseg

/-- Three nodes, `max_hops` is 1, and `a` starts the chain. -/
def threeInChain : System where
  toDeployment := .ofLists ["a", "b", "c"] [] (by decide)
  isInitiator i := i = "a"
  initialValue _ := "v"
  maxHops := 1

/-- The message node `i` adds as hop `k`. -/
def hop (k : Nat) (i : PeerId) : ChainMessage := ⟨k, "v", i⟩

/-- `a` sends its chain to `b` and `b` the longer one to `c`, which has got nothing yet. -/
def early : History := [.wake "a" .onStart, .recv ⟨"a", "b", ⟨[hop 0 "a"]⟩⟩]

/-- `c` extends that. -/
def overtaken : History := early ++ [.recv ⟨"b", "c", ⟨[hop 0 "a", hop 1 "b"]⟩⟩]

/-- A chain of three messages is sent, by a node that has not terminated. -/
theorem sends_overtaken : ∃ c, exec threeInChain.next initial overtaken = some c ∧
    (c.st "c").terminated = false ∧ Occurs threeInChain.next initial overtaken
      (Sends threeInChain.protocol threeInChain.parties "c" "a"
        ⟨[hop 0 "a", hop 1 "b", hop 2 "c"]⟩) := by
  obtain ⟨c, hc, hopen⟩ := exists_exec_of_any threeInChain.next initial overtaken
    (fun c => !(c.st "c").terminated) (by decide)
  obtain ⟨c', hc', hlast⟩ := exists_exec_of_any threeInChain.next initial early
    (fun c => ⟨"b", "c", ⟨[hop 0 "a", hop 1 "b"]⟩⟩ ∈ c.net ∧
      ("a", ⟨[hop 0 "a", hop 1 "b", hop 2 "c"]⟩) ∈
        (threeInChain.receiveChain "c" (c.st "c") "b" ⟨[hop 0 "a", hop 1 "b"]⟩).out) (by decide)
  obtain ⟨hnet, hout⟩ := of_decide_eq_true hlast
  exact ⟨c, hc, by simpa using hopen, early, _, [], c', rfl, hc', _, _,
    .recv hnet (by decide), hout⟩

/-- Two nodes, `max_hops` is 1, and `a` starts the chain. -/
def twoInChain : System where
  toDeployment := .ofLists ["a", "b"] [] Cluster.nodup_pair
  isInitiator i := i = "a"
  initialValue _ := "v"
  maxHops := 1

/-- What `b` gets it keeps. -/
def there : History := [.wake "a" .onStart, .recv ⟨"a", "b", ⟨[hop 0 "a"]⟩⟩]

theorem bounded_iff_twoInChain :
    (∃ c, exec twoInChain.next initial there = some c ∧
      (∀ i d b, Occurs twoInChain.next initial there
        (Sends twoInChain.protocol twoInChain.parties i d b) → (b.chain.length : Int) ≤ 2) ∧
      twoInChain.bundlesSent there ≤ twoInChain.bundleBound) ∧
    ¬ ∀ ls c, exec threeInChain.next initial ls = some c →
      (∀ i d b, Occurs threeInChain.next initial ls
        (Sends threeInChain.protocol threeInChain.parties i d b) → (b.chain.length : Int) ≤ 2) ∧
      threeInChain.bundlesSent ls ≤ threeInChain.bundleBound := by
  constructor
  · obtain ⟨c, hc, -⟩ :=
      exists_exec_of_any twoInChain.next initial there (fun _ => true) (by decide)
    exact ⟨c, hc, (bounded_iff (by decide) (by decide) ⟨"a", by decide, rfl⟩).mpr
      ⟨by decide, by decide⟩ there c hc⟩
  · intro h
    have hcard := ((bounded_iff (by decide) (by decide) ⟨"a", by decide, rfl⟩).mp h).1
    exact absurd hcard (by decide)

theorem chain_too_long : ¬ ∀ (S : System) (ls : History)
    (c : Config PeerId ChainBundle NodeState Cont), S.parties.byz = ∅ →
    2 ≤ S.parties.nodes.card → (∃ i ∈ S.parties.nodes, ∀ j, S.isInitiator j = true ↔ j = i) →
    exec S.next initial ls = some c →
    ∀ i d b, Occurs S.next initial ls (Sends S.protocol S.parties i d b) →
      (b.chain.length : Int) ≤ S.maxHops + 1 := by
  intro h
  obtain ⟨c, hc, -, hsends⟩ := sends_overtaken
  have hlen := h threeInChain overtaken c (by decide) (by decide)
    ⟨"a", by decide, by simp [threeInChain]⟩ hc "c" "a" _ hsends
  exact absurd hlen (by decide)

end System

end DistBench.Chain
