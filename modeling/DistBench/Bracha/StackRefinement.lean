import DistBench.Bracha.Stack

/-!
# The Dolev child is the ideal channel

`bracha_optimized.py` has been looked at over an ideal broadcast layer. Here its nodes run
on the Dolev child, and a run is one over the ideal layer if the child keeps the integrity
it is there for: what it hands to `dolev_deliver` at node `j` with source `s` is what `s` has
given to its child, unless `s` is Byzantine (`Genuine`). That `j` gets it at most once, no
Byzantine node can help.

- `Simulates`: what the parents and the children are doing in a run of the whole. For each
  of them the run is one of their own network, and the messages of the ideal layer are the
  broadcasts that have been asked for and not been handed over.
- `simulates_of_run`, `refines_ideal`.
- `original_of_silent`: the child does, as long as the nodes outside the protocol are silent.
-/

namespace DistBench.Bracha.Stack

open DistBench.Async
open DistBench.Bracha.Optimized (Cont)
open DistBench.Dolev (DMsg DolevState HasBroadcast)

variable {S : System} {i src : PeerId} {caller : Option Below}

/-! ## One broadcast at a time -/

/-- A turn gives at most one message away, and is then suspended. -/
def Solitary (t : Turn Optimized.NodeState Cont) : Prop :=
  t.acts = [] ∨ ∃ a k, t.acts = [a] ∧ t.rest = some k

section Turns

variable {S : Optimized.System} {s : Optimized.NodeState} {msg : BrachaMessage}

theorem solitary_send : Solitary (Optimized.send S i s src msg) := by
  simp only [Optimized.send]
  split_ifs <;> simp [Solitary]

theorem solitary_readyTrigger : Solitary (Optimized.readyTrigger S i s msg) := by
  unfold Optimized.readyTrigger
  split_ifs <;> simp [Solitary]

theorem solitary_echo : Solitary (Optimized.echo S i s src msg) := by
  simp only [Optimized.echo]
  split_ifs
  · simp [Solitary]
  · exact solitary_readyTrigger

theorem solitary_readyAmplify {will : Bool} : Solitary (Optimized.readyAmplify S s msg will) := by
  unfold Optimized.readyAmplify
  split_ifs <;> simp [Solitary]

theorem solitary_ready : Solitary (Optimized.ready S i s src msg) := by
  simp only [Optimized.ready]
  split_ifs
  · simp [Solitary]
  · exact solitary_readyAmplify
  · exact solitary_readyAmplify

theorem solitary_dolevDeliver : Solitary (Optimized.dolevDeliver S i s src msg) := by
  unfold Optimized.dolevDeliver
  split_ifs
  · exact solitary_send
  · exact solitary_echo
  · exact solitary_ready
  · exact .inl rfl

theorem solitary_receive {p : Optimized.Packet} : Solitary (Optimized.receive S i s src p) := by
  obtain ⟨method, msg⟩ := p
  cases method with
  | dolev => exact solitary_dolevDeliver
  | send => exact @solitary_send i src S s msg
  | echo => exact solitary_echo
  | ready => exact solitary_ready

theorem solitary_startMessage {k : Nat} : Solitary (Optimized.startMessage S i s k) := by
  simp only [Optimized.startMessage]
  split_ifs <;> simp [Solitary]

theorem solitary_afterSend {k : Nat} : Solitary (Optimized.afterSend S i s k) := by
  simp only [Optimized.afterSend]
  split_ifs
  · simp [Solitary]
  · exact solitary_startMessage

theorem solitary_onStart : Solitary (Optimized.onStart S i s) := by
  unfold Optimized.onStart
  split_ifs
  · exact solitary_startMessage
  · exact .inl rfl

theorem solitary_singleHop {k : Nat} {ps : List PeerId} :
    Solitary (Optimized.singleHop S i s k ps) := by
  cases ps with
  | nil => exact solitary_afterSend
  | cons p ps => simp [Optimized.singleHop, Solitary]

theorem solitary_resume {k : Cont} : Solitary (Optimized.resume S i s k) := by
  cases k with
  | sleeping k => exact solitary_singleHop
  | singleHop k ps => exact solitary_singleHop
  | sent k => exact solitary_afterSend
  | echoed k => exact solitary_startMessage
  | echoAmplified msg => exact solitary_readyTrigger
  | handled | echoGenerated msg | readyDone msg => exact .inl rfl

end Turns

/-! ## The two networks -/

/-- What of the whole is the parents' network. -/
def parents : Projection PeerId Packet NodeState Task Optimized.Packet Optimized.NodeState
    Optimized.Task where
  st := NodeState.bracha
  task
    | .onStart => {.onStart}
    | .bracha k _ | .awaiting _ k _ => {.suspended k}
    | .dolev _ | .deliver _ => 0
  msg
    | ⟨src, dst, .direct p⟩ => {⟨src, dst, p⟩}
    | ⟨_, _, .dolev _⟩ => 0

/-- What of the whole is the children's network. -/
def children : Projection PeerId Packet NodeState Task (DMsg BrachaMessage) DolevState Below where
  st := NodeState.dolev
  task
    | .onStart => 0
    | .dolev t | .deliver t => {t}
    | .bracha _ caller => ↑caller.toList
    | .awaiting t _ caller => t ::ₘ ↑caller.toList
  msg
    | ⟨src, dst, .dolev msg⟩ => {⟨src, dst, msg⟩}
    | ⟨_, _, .direct _⟩ => 0

/-- The messages of the ideal layer an action makes. -/
def layered (S : System) (i : PeerId) : Action → List (Envelope PeerId Optimized.Packet)
  | .bracha msg => (S.peers i).map fun p => ⟨i, p, .dolev, msg⟩
  | .sendTo _ _ => []

/-- The broadcast an action asks the child for. -/
def asked (i : PeerId) : Action → List (Dolev.Broadcast BrachaMessage)
  | .bracha msg => [yesDaddyBracha i msg]
  | .sendTo _ _ => []

section Segments

variable {d : DolevState} {t : Turn Optimized.NodeState Cont} {s : NodeState}
  {o : Dolev.Seg BrachaMessage}

/-- A turn of the parent leaves what it would leave over the ideal layer … -/
theorem parent_left (h : Solitary t) :
    (Optimized.perform S.toSystem i t).left = (parent i d t caller).left.bind parents.task := by
  obtain h | ⟨a, k, h, hk⟩ := h
  · cases hk : t.rest with
    | none => cases caller <;> simp [parent, Outcome.left, Optimized.perform, h, hk, parents]
    | some k => simp [parent, Outcome.left, Optimized.perform, h, hk, parents]
  · cases a <;> simp [parent, Outcome.left, Optimized.perform, h, hk, parents]

/-- … and sends what it would send, but for the messages of the layer … -/
theorem parent_sent (h : Solitary t) :
    (Optimized.perform S.toSystem i t).sent i =
      ((parent i d t caller).sent i).bind parents.msg + ↑(t.acts.flatMap (layered S i)) := by
  obtain h | ⟨a, k, h, -⟩ := h
  · simp [parent, Outcome.sent, Optimized.perform, h]
  · cases a with
    | bracha msg =>
      simp [parent, Outcome.sent, Optimized.perform, Optimized.transmit, transmit, layered, h]
      exact .rfl
    | sendTo p msg =>
      simp [parent, Outcome.sent, Optimized.perform, Optimized.transmit, transmit, layered, h,
        parents]

/-- … for which it leaves the child a broadcast to make, besides the handler that has called
it. -/
theorem parent_asks (h : Solitary t) :
    ↑((t.acts.flatMap (asked i)).map Dolev.Cont.broadcast) + (↑caller.toList : Multiset Below) =
      (parent i d t caller).left.bind children.task := by
  obtain h | ⟨a, k, h, hk⟩ := h
  · cases hk : t.rest with
    | none => cases caller <;> simp [parent, Outcome.left, h, hk, children]
    | some k => simp [parent, Outcome.left, h, hk, children]
  · cases a <;> simp [parent, Outcome.left, h, hk, children, asked]

theorem parent_quiet (h : Solitary t) :
    ((parent i d t caller).sent i).bind children.msg = 0 := by
  obtain h | ⟨a, k, h, -⟩ := h
  · simp [parent, Outcome.sent, h]
  · cases a <;> simp [parent, Outcome.sent, transmit, h, children]

/-- A segment of the child sends what it would send by itself. -/
theorem child_sent {rest : Option Below → Option Task} :
    ((child s o rest).sent i).bind children.msg = o.sent i := by
  simp only [child, Outcome.sent]
  induction o.out with
  | nil => rfl
  | cons dm out ih =>
    rw [List.map_cons, List.map_cons, List.map_cons, ← Multiset.cons_coe, Multiset.cons_bind, ih,
      ← Multiset.cons_coe, ← Multiset.singleton_add]
    rfl

theorem child_quiet {rest : Option Below → Option Task} :
    ((child s o rest).sent i).bind parents.msg = 0 := by
  simp only [child, Outcome.sent]
  induction o.out with
  | nil => rfl
  | cons dm out ih =>
    rw [List.map_cons, List.map_cons, ← Multiset.cons_coe, Multiset.cons_bind, ih, add_zero]
    rfl

theorem park_children {t : Below} : children.task (park t) = {t} := by
  unfold park
  split <;> rfl

theorem park_parents {t : Below} : parents.task (park t) = 0 := by
  unfold park
  split <;> rfl

/-- It leaves what it would leave … -/
theorem child_park : (child s o (Option.map park)).left.bind children.task = o.left ∧
    (child s o (Option.map park)).left.bind parents.task = 0 := by
  cases h : o.rest with
  | none => simp [child, Outcome.left, h]
  | some t => simp [child, Outcome.left, h, park_children, park_parents]

/-- … besides the handler that waits for the parent. -/
theorem child_returning {k : Cont} :
    (child s o (returning k caller)).left.bind children.task = o.left + ↑caller.toList ∧
      (child s o (returning k caller)).left.bind parents.task = {.suspended k} := by
  cases h : o.rest with
  | none => simp [child, Outcome.left, h, returning, children, parents]
  | some t => simp [child, Outcome.left, h, returning, children, parents]

end Segments

/-! ## What a step runs -/

/-- The code a step runs at node `i`. -/
inductive Runs (S : System) (i : PeerId) (s : NodeState) : Label PeerId Packet Task → Seg → Prop
  | onStart : Runs S i s (.wake i .onStart)
      (parent i s.dolev (Optimized.onStart S.toSystem i s.bracha) none)
  | direct {src p} : Runs S i s (.recv ⟨src, i, .direct p⟩)
      (parent i s.dolev (Optimized.receive S.toSystem i s.bracha src p) none)
  | forgedDirect {src p} : Runs S i s (.forge ⟨src, i, .direct p⟩)
      (parent i s.dolev (Optimized.receive S.toSystem i s.bracha src p) none)
  | deliver {t msg} (h : t.handed = some msg) : Runs S i s (.wake i (.deliver t))
      (parent i s.dolev
        (Optimized.dolevDeliver S.toSystem i s.bracha msg.source msg.payload) (some t))
  | bracha {k caller} : Runs S i s (.wake i (.bracha k caller))
      (parent i s.dolev (Optimized.resume S.toSystem i s.bracha k) caller)
  | handle {src msg} : Runs S i s (.recv ⟨src, i, .dolev msg⟩)
      (child s ((dolevCode S).handle i s.dolev src msg) (Option.map park))
  | forgedHandle {src msg} : Runs S i s (.forge ⟨src, i, .dolev msg⟩)
      (child s ((dolevCode S).handle i s.dolev src msg) (Option.map park))
  | dolev {t o} (h : (dolevCode S).resume i s.dolev t = some o) :
      Runs S i s (.wake i (.dolev t)) (child s o (Option.map park))
  | awaiting {t k caller o} (h : (dolevCode S).resume i s.dolev t = some o) :
      Runs S i s (.wake i (.awaiting t k caller)) (child s o (returning k caller))

variable {ls : History} {c base : Config PeerId Packet NodeState Task}
  {l : Label PeerId Packet Task} {o : Seg} {m : String} {s : NodeState}

theorem runs_of_segment (hseg : Segment (protocol S) S.parties c l i o base) :
    Runs S i (c.st i) l o := by
  cases hseg with
  | @recv e _ _ =>
    obtain ⟨src, dst, p⟩ := e
    cases p with
    | dolev msg => exact .handle
    | direct p => exact .direct
  | @forge e _ _ =>
    obtain ⟨src, dst, p⟩ := e
    cases p with
    | dolev msg => exact .forgedHandle
    | direct p => exact .forgedDirect
  | @wake i t o _ _ ho =>
    cases t with
    | onStart =>
      obtain rfl := Option.some.inj ho
      exact .onStart
    | dolev t =>
      change resume S i (c.st i) (.dolev t) = some o at ho
      rw [resume, Option.map_eq_some_iff] at ho
      obtain ⟨o', ho', rfl⟩ := ho
      exact .dolev ho'
    | deliver t =>
      obtain ⟨msg, hmsg, rfl⟩ := Option.map_eq_some_iff.mp ho
      exact .deliver hmsg
    | bracha k caller =>
      obtain rfl := Option.some.inj ho
      exact .bracha
    | awaiting t k caller =>
      change resume S i (c.st i) (.awaiting t k caller) = some o at ho
      rw [resume, Option.map_eq_some_iff] at ho
      obtain ⟨o', ho', rfl⟩ := ho
      exact .awaiting ho'

/-! ## Handed over once -/

/-- The id the child's handler is about to hand to the parent. -/
def Task.handing : Task → Multiset String
  | .deliver t => ↑(t.handed.map DMsg.msgId).toList
  | _ => 0

/-- How often the parent of node `i` has been handed the id `m`. -/
def calls (ls : History) (i : PeerId) (m : String) : Nat :=
  (ls.map fun l => if l.node = i then (l.consumed.bind Task.handing).count m else 0).sum

/-- An id that is handed over, or about to be, is delivered, and handed over once. -/
def once : Assertion PeerId Packet NodeState Task where
  node ls i s ts := ∀ m, calls ls i m + ((ts : Multiset Task).bind Task.handing).count m ≤
    if m ∈ s.dolev.delivered then 1 else 0
  msg _ _ := True

theorem fresh_handle {src : PeerId} {msg : DMsg BrachaMessage} {d : DolevState} :
    Dolev.Fresh d ((dolevCode S).handle i d src msg) :=
  Dolev.segment_fresh (l := .handle src msg)

theorem fresh_resume {t : Below} {d : DolevState} {o : Dolev.Seg BrachaMessage}
    (h : (dolevCode S).resume i d t = some o) : Dolev.Fresh d o := by
  obtain rfl := Option.some.inj h
  exact Dolev.segment_fresh (l := .wake t)

theorem handing_parent {d : DolevState} {t : Turn Optimized.NodeState Cont} :
    (parent i d t caller).left.bind Task.handing = 0 := by
  unfold parent Outcome.left
  split
  · rfl
  · rfl
  · cases caller <;> rfl

theorem handing_returning {o : Dolev.Seg BrachaMessage} {k : Cont} :
    (child s o (returning k caller)).left.bind Task.handing = 0 := by
  cases h : o.rest <;> simp [child, Outcome.left, h, returning, Task.handing]

/-- What a segment is about to hand over it has newly delivered. -/
theorem handing_park {o : Dolev.Seg BrachaMessage} (h : Dolev.Fresh s.dolev o) :
    (child s o (Option.map park)).left.bind Task.handing = 0 ∨
      ∃ k, (child s o (Option.map park)).left.bind Task.handing = {k} ∧
        k ∉ s.dolev.delivered ∧ k ∈ o.st.delivered := by
  cases hrest : o.rest with
  | none => simp [child, Outcome.left, hrest]
  | some t =>
    cases hmsg : t.handed with
    | none => simp [child, Outcome.left, hrest, park, hmsg, Task.handing]
    | some msg =>
      have hfresh := h.handed t hrest msg hmsg
      exact .inr ⟨msg.msgId, by simp [child, Outcome.left, hrest, park, hmsg, Task.handing], hfresh⟩

/-- A segment that hands nothing over keeps what has been delivered. -/
theorem indicator_le {d d' : Finset String} (h : d ⊆ d') (m : String) :
    (if m ∈ d then 1 else 0) ≤ if m ∈ d' then 1 else 0 := by
  by_cases hm : m ∈ d
  · rw [if_pos hm, if_pos (h hm)]
  · rw [if_neg hm]
    exact Nat.zero_le _

theorem Runs.handing (h : Runs S i s l o) (m : String) :
    (o.left.bind Task.handing).count m + (if m ∈ s.dolev.delivered then 1 else 0) ≤
      if m ∈ o.st.dolev.delivered then 1 else 0 := by
  have hchild {o : Dolev.Seg BrachaMessage} (h : Dolev.Fresh s.dolev o) :
      ((child s o (Option.map park)).left.bind Task.handing).count m +
        (if m ∈ s.dolev.delivered then 1 else 0) ≤ if m ∈ o.st.delivered then 1 else 0 := by
    rcases handing_park h with h0 | ⟨k, hk, hbefore, hafter⟩
    · rw [h0, Multiset.count_zero, Nat.zero_add]
      exact indicator_le h.grows m
    · rw [hk, Multiset.count_singleton]
      by_cases hm : m = k
      · subst hm
        simp [hbefore, hafter]
      · rw [if_neg hm, Nat.zero_add]
        exact indicator_le h.grows m
  cases h with
  | onStart | direct | forgedDirect | deliver _ | bracha =>
    rw [handing_parent, Multiset.count_zero, Nat.zero_add]
    exact le_rfl
  | handle | forgedHandle => exact hchild fresh_handle
  | dolev h => exact hchild (fresh_resume h)
  | awaiting h =>
    rw [handing_returning, Multiset.count_zero, Nat.zero_add]
    exact indicator_le (fresh_resume h).grows m

theorem once_inductive :
    once.Inductive (protocol S) S.parties initial fun _ _ _ => True where
  init := by
    refine ⟨fun i _ m => ?_, nofun, nofun⟩
    simp [initial, calls, Task.handing]
  node_mono hl h m := by
    refine le_trans (le_of_eq ?_) (h m)
    simp [calls, hl]
  msg_mono _ := trivial
  segment := by
    intro ls c l i o base _ hA _ hseg
    refine ⟨fun m => ?_, fun _ _ => trivial⟩
    have hruns := (runs_of_segment hseg).handing m
    have hold := hA.node i hseg.correct m
    have hcount := congrArg (fun x => (Multiset.bind x Task.handing).count m) hseg.tasks_account
    simp only [Multiset.add_bind, Multiset.count_add, Config.commit_tasks_self] at hcount
    have hcalls : calls (ls ++ [l]) i m = calls ls i m +
        (l.consumed.bind Task.handing).count m := by
      simp [calls, hseg.node_eq]
    omega

/-- What is about to be handed over has not been handed over. -/
theorem calls_eq_zero {t : Below} {msg : DMsg BrachaMessage}
    (hA : once.Holds S.parties ls c) (hi : i ∈ S.parties.correct) (ht : .deliver t ∈ c.tasks i)
    (hmsg : t.handed = some msg) : calls ls i msg.msgId = 0 := by
  have hold := hA.node i hi msg.msgId
  have hpos : 0 < ((c.tasks i : Multiset Task).bind Task.handing).count msg.msgId := by
    refine Multiset.count_pos.mpr (Multiset.mem_bind.mpr ⟨_, ht, ?_⟩)
    simp [Task.handing, hmsg]
  split at hold <;> omega

/-! ## The simulation -/

/-- The broadcast has been handed over to a peer, or is for it in the ideal layer. -/
def Owes (S : System) (ls : History) (pending : Multiset (Envelope PeerId Optimized.Packet))
    (i : PeerId) (b : Dolev.Broadcast BrachaMessage) : Prop :=
  ∃ msg, b = yesDaddyBracha i msg ∧
    ∀ p ∈ S.peers i, calls ls p b.msgId ≠ 0 ∨ ⟨i, p, .dolev, msg⟩ ∈ pending

/-- So is all that the children have been asked for. -/
def Owed (S : System) (ls : History) (broadcasts : PeerId → List (Dolev.Broadcast BrachaMessage))
    (pending : Multiset (Envelope PeerId Optimized.Packet)) : Prop :=
  ∀ i, ∀ b ∈ broadcasts i, Owes S ls pending i b

/-- A run of the whole, of the children and of the parents. -/
structure Simulates (S : System) (ls : History) (c : Config PeerId Packet NodeState Task)
    (broadcasts : PeerId → List (Dolev.Broadcast BrachaMessage)) (d : Dolev.Global BrachaMessage)
    (b : Config PeerId Optimized.Packet Optimized.NodeState Optimized.Task)
    (pending : Multiset (Envelope PeerId Optimized.Packet)) : Prop where
  dolev : exec (S.child broadcasts).next (S.child broadcasts).initial
    (ls.filterMap dolevLabel) = some d
  bracha : exec (Optimized.next S.toSystem) Optimized.initial
    (ls.filterMap (brachaLabel S)) = some b
  below : Shows children 0 c d
  above : Shows parents pending c b
  owed : Owed S ls broadcasts pending

variable {B : PeerId → List (Dolev.Broadcast BrachaMessage)} {d : Dolev.Global BrachaMessage}
  {b : Config PeerId Optimized.Packet Optimized.NodeState Optimized.Task}
  {pending rest : Multiset (Envelope PeerId Optimized.Packet)}

theorem calls_append {ls' : History} : calls (ls ++ ls') i m = calls ls i m + calls ls' i m := by
  simp [calls]

theorem Owed.snoc (h : Owed S ls B pending)
    (hrest : ∀ i p msg, ⟨i, p, .dolev, msg⟩ ∈ pending →
      calls [l] p (yesDaddyBracha i msg).msgId ≠ 0 ∨ ⟨i, p, .dolev, msg⟩ ∈ rest) :
    Owed S (ls ++ [l]) B rest := by
  intro i b hb
  obtain ⟨msg, rfl, hpeers⟩ := h i b hb
  refine ⟨msg, rfl, fun p hp => ?_⟩
  rw [calls_append]
  rcases hpeers p hp with hcalled | hpending
  · exact .inl (by omega)
  · exact (hrest i p msg hpending).imp_left (by omega)

/-- What an action asks for is owed. -/
theorem Owed.ask (h : Owed S ls B rest) (acts : List Action) :
    Owed S ls (Function.update B i (B i ++ acts.flatMap (asked i)))
      (rest + ↑(acts.flatMap (layered S i))) := by
  intro j b hb
  have hold (hb : b ∈ B j) : Owes S ls (rest + ↑(acts.flatMap (layered S i))) j b := by
    obtain ⟨msg, rfl, hpeers⟩ := h j b hb
    exact ⟨msg, rfl, fun p hp => (hpeers p hp).imp_right (Multiset.mem_add.mpr <| .inl ·)⟩
  by_cases hj : j = i
  · subst hj
    rw [Function.update_self, List.mem_append, List.mem_flatMap] at hb
    rcases hb with hb | ⟨a, ha, hb⟩
    · exact hold hb
    · cases a with
      | sendTo p msg => cases hb
      | bracha msg =>
        obtain rfl := List.mem_singleton.mp hb
        refine ⟨msg, rfl, fun p hp => .inr (Multiset.mem_add.mpr (.inr ?_))⟩
        exact List.mem_flatMap.mpr ⟨_, ha, List.mem_map.mpr ⟨p, hp, rfl⟩⟩
  · rw [Function.update_of_ne hj] at hb
    exact hold hb

/-- Another broadcast is one more suspended coroutine at the start. -/
theorem child_initial (asks : List (Dolev.Broadcast BrachaMessage)) :
    (S.child (Function.update B i (B i ++ asks))).initial =
      (S.child B).initial.park i (asks.map .broadcast) := by
  have htasks : (fun j => (Function.update B i (B i ++ asks) j).map Dolev.Cont.broadcast) =
      Function.update (fun j => (B j).map .broadcast) i
        ((B i).map .broadcast ++ asks.map .broadcast) := by
    funext j
    by_cases hj : j = i
    · subst hj
      simp
    · simp [hj]
  simp only [Dolev.Network.initial, System.child, Config.park, htasks]

/-- **A turn of the parent**: one of the ideal network, after which the child has to make the
broadcasts it is asked for. -/
theorem Simulates.parent (h : Simulates S ls c B d b pending) {t : Turn Optimized.NodeState Cont}
    {l' : Label PeerId Optimized.Packet Optimized.Task}
    {base' : Config PeerId Optimized.Packet Optimized.NodeState Optimized.Task}
    (hseg : Segment (protocol S) S.parties c l i (parent i (c.st i).dolev t caller) base)
    (hseg' : Segment (Optimized.protocol S.toSystem) S.parties b l' i
      (Optimized.perform S.toSystem i t) base')
    (ht : Solitary t) (hb : brachaLabel S l = some l') (hd : dolevLabel l = none)
    (hparents : l.consumed.bind parents.task = l'.consumed)
    (hchildren : l.consumed.bind children.task = ↑caller.toList)
    (htaken : l.taken.bind children.msg = 0)
    (hrest : pending + l.taken.bind parents.msg = rest + l'.taken)
    (howed : Owed S (ls ++ [l]) B rest) :
    ∃ B' d' b' pending', Simulates S (ls ++ [l])
      (base.commit i (Stack.parent i (c.st i).dolev t caller)) B' d' b' pending' := by
  refine ⟨Function.update B i (B i ++ t.acts.flatMap (asked i)),
    d.park i ((t.acts.flatMap (asked i)).map .broadcast),
    base'.commit i (Optimized.perform S.toSystem i t),
    rest + ↑(t.acts.flatMap (layered S i)), ?_, ?_, ?_, ?_, howed.ask _⟩
  · rw [List.filterMap_append, List.filterMap_cons_none hd, List.filterMap_nil, List.append_nil,
      child_initial]
    exact exec_park _ _ _ h.dolev
  · rw [List.filterMap_append, List.filterMap_cons_some hb, List.filterMap_nil]
    exact exec_snoc h.bracha (step_iff.mpr ⟨_, _, _, hseg', rfl⟩)
  · refine h.below.stay hseg _ rfl ?_ ?_
    · rw [hchildren, parent_asks ht]
    · rw [htaken, parent_quiet ht]
  · refine h.above.step hseg hseg' rfl ?_ ?_
    · rw [hparents, ← parent_left ht]
    · have hsent : (Optimized.perform S.toSystem i t).sent i =
          ((Stack.parent i (c.st i).dolev t caller).sent i).bind parents.msg +
            ↑(t.acts.flatMap (layered S i)) := parent_sent ht
      rw [hsent, add_assoc, hrest]
      abel

/-- **A segment of the child**: one of its own network, which is nothing to the parents. -/
theorem Simulates.child (h : Simulates S ls c B d b pending) {o : Dolev.Seg BrachaMessage}
    {cont : Option Below → Option Task} {l' : Dolev.Action BrachaMessage}
    {base' : Dolev.Global BrachaMessage}
    (hseg : Segment (protocol S) S.parties c l i (child (c.st i) o cont) base)
    (hseg' : Segment (S.child B).protocol S.parties d l' i o base')
    (hb : brachaLabel S l = none) (hd : dolevLabel l = some l')
    (hchildren : o.left + l.consumed.bind children.task =
      (Stack.child (c.st i) o cont).left.bind children.task + l'.consumed)
    (hparents : l.consumed.bind parents.task =
      (Stack.child (c.st i) o cont).left.bind parents.task)
    (htaken : l.taken.bind children.msg = l'.taken) (hquiet : l.taken.bind parents.msg = 0) :
    ∃ B' d' b' pending', Simulates S (ls ++ [l])
      (base.commit i (Stack.child (c.st i) o cont)) B' d' b' pending' := by
  refine ⟨B, base'.commit i o, b, pending, ?_, ?_, ?_, ?_, h.owed.snoc fun _ _ _ => .inr⟩
  · rw [List.filterMap_append, List.filterMap_cons_some hd, List.filterMap_nil]
    exact exec_snoc h.dolev (step_iff.mpr ⟨_, _, _, hseg', rfl⟩)
  · rw [List.filterMap_append, List.filterMap_cons_none hb, List.filterMap_nil, List.append_nil]
    exact h.bracha
  · refine h.below.step hseg hseg' rfl hchildren ?_
    rw [child_sent, htaken]
  · rw [← b.park_nil i]
    refine h.above.stay hseg [] rfl ?_ ?_
    · rw [hparents]
      exact zero_add _
    · rw [hquiet, child_quiet, add_comm]

theorem simulates_init :
    Simulates S [] initial (fun _ => []) (S.child fun _ => []).initial Optimized.initial 0 where
  dolev := rfl
  bracha := rfl
  below := ⟨fun _ => rfl, fun _ => rfl, rfl⟩
  above := ⟨fun _ => rfl, fun _ => rfl, rfl⟩
  owed _ _ := nofun

/-- The message has been broadcast by its source, which is another node. -/
def Original (ls : History) (i : PeerId) (msg : DMsg BrachaMessage) : Prop :=
  msg.source ≠ i ∧ HasBroadcast (ls.filterMap dolevLabel) msg.source msg

/-- What the child is about to hand over in this step satisfies `P`. -/
def HandsOver (P : History → PeerId → DMsg BrachaMessage → Prop) (ls : History)
    (_ : Config PeerId Packet NodeState Task) (l : Label PeerId Packet Task) : Prop :=
  ∀ i t msg, l = .wake i (.deliver t) → t.handed = some msg → P ls i msg

/-- **The integrity of the layer below**: what the child hands over for a node that is not
Byzantine that node has broadcast. -/
def Genuine (S : System) : History → Config PeerId Packet NodeState Task →
    Label PeerId Packet Task → Prop :=
  HandsOver fun ls i msg => msg.source ∉ S.parties.byz → Original ls i msg

/-- What the child hands over is in the ideal layer, sent by its source. -/
theorem Simulates.pending_of_original (h : Simulates S ls c B d b pending)
    (honce : once.Holds S.parties ls c) (hi : i ∈ S.parties.correct) {t : Below}
    {msg : DMsg BrachaMessage} (ht : .deliver t ∈ c.tasks i) (hmsg : t.handed = some msg)
    (horiginal : Original ls i msg) :
    ⟨msg.source, i, .dolev, msg.payload⟩ ∈ pending ∧
      msg.msgId = (yesDaddyBracha msg.source msg.payload).msgId := by
  obtain ⟨hne, asked, hbegun, hid, hpayload⟩ := horiginal
  have hsource : msg.source ∈ S.parties.correct :=
    node_mem_correct _ _ h.dolev _ (Dolev.mem_begun.mp hbegun)
  obtain ⟨payload, rfl, hpeers⟩ := h.owed _ _
    (Dolev.mem_broadcasts_of_begun h.dolev hsource hbegun)
  obtain rfl : payload = msg.payload := hpayload
  have hpeer : i ∈ S.peers msg.source := (S.mem_peers _ (S.mem_nodes_of_correct hsource) i).mpr
    ⟨S.mem_nodes_of_correct hi, hne.symm⟩
  refine ⟨(hpeers i hpeer).resolve_left ?_, hid.symm⟩
  rw [not_not, hid]
  exact calls_eq_zero honce hi ht hmsg

section Step

variable (h : Simulates S ls c B d b pending) (hi : i ∈ S.parties.correct)
include h hi

/-- The code of the parent runs on the same state over the ideal layer … -/
theorem Simulates.bracha_recv {p : Optimized.Packet} (he : ⟨src, i, p⟩ ∈ b.net) :
    Segment (Optimized.protocol S.toSystem) S.parties b (.recv ⟨src, i, p⟩) i
      (Optimized.perform S.toSystem i (Optimized.receive S.toSystem i (c.st i).bracha src p))
      (b.take ⟨src, i, p⟩) := by
  have hst : b.st i = (c.st i).bracha := h.above.st i
  rw [← hst]
  exact .recv he hi

theorem Simulates.bracha_forge {p : Optimized.Packet} (hsrc : src ∈ S.parties.byz) :
    Segment (Optimized.protocol S.toSystem) S.parties b (.forge ⟨src, i, p⟩) i
      (Optimized.perform S.toSystem i
        (Optimized.receive S.toSystem i (c.st i).bracha src p)) b := by
  have hst : b.st i = (c.st i).bracha := h.above.st i
  rw [← hst]
  exact .forge hsrc hi

theorem Simulates.bracha_wake {t : Optimized.Task} (ht : t ∈ b.tasks i) :
    Segment (Optimized.protocol S.toSystem) S.parties b (.wake i t) i
      (Optimized.perform S.toSystem i (Optimized.proceed S.toSystem i (c.st i).bracha t))
      (b.unpark i t) := by
  have hst : b.st i = (c.st i).bracha := h.above.st i
  rw [← hst]
  exact .wake hi ht rfl

/-- … and the code of the child in the network of the children. -/
theorem Simulates.dolev_recv {msg : DMsg BrachaMessage} (he : ⟨src, i, msg⟩ ∈ d.net) :
    Segment (S.child B).protocol S.parties d (.recv ⟨src, i, msg⟩) i
      ((dolevCode S).handle i (c.st i).dolev src msg) (d.take ⟨src, i, msg⟩) := by
  have hst : d.st i = (c.st i).dolev := h.below.st i
  rw [← hst]
  exact .recv he hi

theorem Simulates.dolev_forge {msg : DMsg BrachaMessage} (hsrc : src ∈ S.parties.byz) :
    Segment (S.child B).protocol S.parties d (.forge ⟨src, i, msg⟩) i
      ((dolevCode S).handle i (c.st i).dolev src msg) d := by
  have hst : d.st i = (c.st i).dolev := h.below.st i
  rw [← hst]
  exact .forge hsrc hi

theorem Simulates.dolev_wake {t : Below} {o : Dolev.Seg BrachaMessage} (ht : t ∈ d.tasks i)
    (ho : (dolevCode S).resume i (c.st i).dolev t = some o) :
    Segment (S.child B).protocol S.parties d (.wake i t) i o (d.unpark i t) := by
  have hst : d.st i = (c.st i).dolev := h.below.st i
  rw [← hst] at ho
  exact .wake hi ht ho

end Step

/-- The child hands over what it has got for a node that is not Byzantine. -/
theorem Simulates.deliver (h : Simulates S ls c B d b pending)
    (honce : once.Holds S.parties ls c) {t : Below} {msg : DMsg BrachaMessage}
    (hmsg : t.handed = some msg)
    (hseg : Segment (protocol S) S.parties c (.wake i (.deliver t)) i (Stack.parent i (c.st i).dolev
      (Optimized.dolevDeliver S.toSystem i (c.st i).bracha msg.source msg.payload) (some t)) base)
    (hsource : msg.source ∉ S.parties.byz) (horiginal : Original ls i msg) :
    ∃ B' d' b' pending', Simulates S (ls ++ [.wake i (.deliver t)])
      (base.commit i (Stack.parent i (c.st i).dolev
        (Optimized.dolevDeliver S.toSystem i (c.st i).bracha msg.source msg.payload) (some t)))
      B' d' b' pending' := by
  have hi := hseg.correct
  obtain ⟨hpending, hid⟩ := h.pending_of_original honce hi hseg.mem_tasks.2.1 hmsg horiginal
  obtain ⟨rest, rfl⟩ := Multiset.exists_cons_of_mem hpending
  have he := h.above.mem_net_of_more hpending
  have hcalled : calls [.wake i (.deliver t)] i msg.msgId = 1 := by
    simp [calls, Label.node, Label.consumed, Task.handing, hmsg]
  have howed : Owed S (ls ++ [.wake i (.deliver t)]) B rest := by
    refine h.owed.snoc fun j p msg' he' => ?_
    rcases Multiset.mem_cons.mp he' with heq | hrest
    · -- this one has just been handed over
      cases heq
      exact .inl (by rw [← hid, hcalled]; exact one_ne_zero)
    · exact .inr hrest
  refine h.parent hseg (h.bracha_recv hi he) solitary_dolevDeliver ?_ rfl rfl
    (Multiset.singleton_bind _ _) rfl ?_ howed
  · simp [brachaLabel, hmsg, hsource]
  · change _ + 0 = rest + {_}
    rw [add_zero, add_comm, Multiset.singleton_add]

/-- **A step of the whole.** -/
theorem Simulates.step (h : Simulates S ls c B d b pending) (honce : once.Holds S.parties ls c)
    (hseg : Segment (protocol S) S.parties c l i o base) (hgenuine : Genuine S ls c l) :
    ∃ B' d' b' pending', Simulates S (ls ++ [l]) (base.commit i o) B' d' b' pending' := by
  have hi := hseg.correct
  have hkeep : Owed S (ls ++ [l]) B pending := h.owed.snoc fun _ _ _ => .inr
  cases runs_of_segment hseg with
  | onStart =>
    have ht := h.above.mem_tasks hseg.mem_tasks.2.1 (Multiset.mem_singleton_self _)
    exact h.parent hseg (h.bracha_wake hi ht) solitary_onStart rfl rfl rfl rfl rfl rfl hkeep
  | @direct src p =>
    have he := h.above.mem_net hseg.mem_net (Multiset.mem_singleton_self _)
    exact h.parent hseg (h.bracha_recv hi he) solitary_receive rfl rfl rfl rfl rfl rfl hkeep
  | @forgedDirect src p =>
    exact h.parent hseg (h.bracha_forge hi hseg.src_mem_byz) solitary_receive rfl rfl rfl rfl rfl
      rfl hkeep
  | @bracha k caller =>
    have ht := h.above.mem_tasks hseg.mem_tasks.2.1 (Multiset.mem_singleton_self _)
    exact h.parent hseg (h.bracha_wake hi ht) solitary_resume rfl rfl rfl
      (Multiset.singleton_bind _ _) rfl rfl hkeep
  | @deliver t msg hmsg =>
    by_cases hsource : msg.source ∈ S.parties.byz
    · have hlabel : brachaLabel S (.wake i (.deliver t)) =
          some (.forge ⟨msg.source, i, .dolev, msg.payload⟩) := by
        simp [brachaLabel, hmsg, hsource]
      exact h.parent hseg (h.bracha_forge hi hsource) solitary_dolevDeliver hlabel rfl rfl
        (Multiset.singleton_bind _ _) rfl rfl hkeep
    · exact h.deliver honce hmsg hseg hsource (hgenuine i t msg rfl hmsg hsource)
  | @handle src msg =>
    have he := h.below.mem_net hseg.mem_net (Multiset.mem_singleton_self _)
    exact h.child hseg (h.dolev_recv hi he) rfl rfl (by rw [child_park.1]; rfl)
      (by rw [child_park.2]; rfl) rfl rfl
  | @forgedHandle src msg =>
    exact h.child hseg (h.dolev_forge hi hseg.src_mem_byz) rfl rfl (by rw [child_park.1]; rfl)
      (by rw [child_park.2]; rfl) rfl rfl
  | @dolev t o ho =>
    have ht := h.below.mem_tasks hseg.mem_tasks.2.1 (Multiset.mem_singleton_self _)
    exact h.child hseg (h.dolev_wake hi ht ho) rfl rfl (by rw [child_park.1]; rfl)
      (by rw [child_park.2]; rfl) rfl rfl
  | @awaiting t k caller o ho =>
    have ht : t ∈ d.tasks i :=
      h.below.mem_tasks hseg.mem_tasks.2.1 (Multiset.mem_cons_self t (↑caller.toList))
    refine h.child hseg (h.dolev_wake hi ht ho) rfl rfl ?_ ?_ rfl rfl
    · have hframes : children.task (.awaiting t k caller) = {t} + ↑caller.toList := rfl
      rw [child_returning.1, Label.consumed, Label.consumed, Multiset.singleton_bind, hframes]
      abel
    · rw [child_returning.2]
      rfl

/-- Every run with genuine deliveries of the children is simulated. -/
theorem simulates_of_run : ∀ (ls : History) (c : Config PeerId Packet NodeState Task),
    exec (next S) initial ls = some c → Meets (next S) initial (Genuine S) ls →
      ∃ B d b pending, Simulates S ls c B d b pending := by
  refine run_induction (P := fun (ls : History) (c : Config PeerId Packet NodeState Task) =>
    Meets (next S) initial (Genuine S) ls → ∃ B d b pending, Simulates S ls c B d b pending)
    (fun _ => ⟨_, _, _, _, simulates_init⟩) ?_
  intro ls c l c' hc ih hl hmeets
  obtain ⟨B, d, b, pending, h⟩ := ih hmeets.prefix
  obtain ⟨i, o, base, hseg, rfl⟩ := step_iff.mp hl
  exact h.step (Assertion.holds_of_run once_inductive hc) hseg (hmeets.last hc)

/-- **Bracha on top of Dolev refines Bracha over an ideal broadcast layer**, as far as the layer
below is genuine: a run of the whole is a run of the children, which make the broadcasts their
parents ask for, and a run of the parents over the ideal layer. -/
theorem refines_ideal (S : System) (ls : History) (c : Config PeerId Packet NodeState Task)
    (hc : exec (next S) initial ls = some c) (hgenuine : Meets (next S) initial (Genuine S) ls) :
    (∃ b, exec (Optimized.next S.toSystem) Optimized.initial
        (ls.filterMap (brachaLabel S)) = some b ∧ ∀ i, b.st i = (c.st i).bracha) ∧
    ∃ broadcasts d, exec (S.child broadcasts).next (S.child broadcasts).initial
        (ls.filterMap dolevLabel) = some d ∧
      (∀ i, d.st i = (c.st i).dolev) ∧
      ∀ i, ∀ b ∈ broadcasts i, ∃ msg, b = yesDaddyBracha i msg := by
  obtain ⟨B, d, b, pending, h⟩ := simulates_of_run ls c hc hgenuine
  refine ⟨⟨b, h.bracha, h.above.st⟩, B, d, h.dolev, h.below.st, fun i b hb => ?_⟩
  obtain ⟨msg, hmsg, -⟩ := h.owed i b hb
  exact ⟨msg, hmsg⟩

/-! ## Silent faults -/

/-- Unless somebody outside the protocol says something, the children hand over what other nodes
have broadcast. -/
theorem Simulates.original_of_silent (h : Simulates S ls c B d b pending)
    (hsilent : ∀ e, .forge e ∉ ls) (hi : i ∈ S.parties.correct) {t : Below}
    {msg : DMsg BrachaMessage} (ht : .deliver t ∈ c.tasks i) (hmsg : t.handed = some msg) :
    Original ls i msg := by
  have hbelow : t ∈ d.tasks i := h.below.mem_tasks ht (Multiset.mem_singleton_self t)
  have hmeets : Meets (S.child B).next (S.child B).initial (fun _ _ l => ∀ e, l ≠ .forge e)
      (ls.filterMap dolevLabel) := by
    rintro ls₁ l ls₂ _ heq _ e rfl
    have hmem : .forge e ∈ ls.filterMap dolevLabel := heq ▸ by simp
    obtain ⟨l, hl, hforge⟩ := List.mem_filterMap.mp hmem
    unfold dolevLabel at hforge
    split at hforge <;> cases hforge
    exact hsilent _ hl
  have hmsg? := Dolev.Cont.msg?_of_handed hmsg
  have horiginal := (Assertion.holds_of_meets Dolev.originals_inductive _ _ h.dolev hmeets).node
    i hi t hbelow
  have habroad := (Assertion.holds_of_meets (Dolev.abroad_inductive S.irrefl) _ _ h.dolev
    hmeets).node i hi t hbelow
  exact ⟨habroad.source_ne hmsg?, (Dolev.taskOriginal_iff hmsg?).mp horiginal⟩

theorem genuine_of_original (h : Meets (next S) initial (HandsOver Original) ls) :
    Meets (next S) initial (Genuine S) ls :=
  fun ls₁ l ls₂ s hls hs i t msg hl hmsg _ => h ls₁ l ls₂ s hls hs i t msg hl hmsg

theorem original_of_silent : ∀ (ls : History) (c : Config PeerId Packet NodeState Task),
    exec (next S) initial ls = some c → (∀ e, .forge e ∉ ls) →
      Meets (next S) initial (HandsOver Original) ls := by
  refine run_induction (P := fun (ls : History) (_ : Config PeerId Packet NodeState Task) =>
    (∀ e, .forge e ∉ ls) → Meets (next S) initial (HandsOver Original) ls)
    (fun _ => meets_of_meetsFrom trivial) ?_
  intro ls c l c' hc ih hl hsilent
  have hbefore (e) : .forge e ∉ ls := fun he => hsilent e (List.mem_append_left _ he)
  have hmeets := ih hbefore
  refine hmeets.snoc hc fun i t msg hlabel hmsg => ?_
  subst hlabel
  obtain ⟨B, d, b, pending, h⟩ := simulates_of_run ls c hc (genuine_of_original hmeets)
  obtain ⟨j, o, base, hseg, rfl⟩ := step_iff.mp hl
  obtain ⟨rfl, ht, -⟩ := hseg.mem_tasks
  exact h.original_of_silent hbefore hseg.correct ht hmsg

theorem node_eq_of_dolev {l' : Dolev.Action BrachaMessage} (h : dolevLabel l = some l') :
    l'.node = l.node := by
  unfold dolevLabel at h
  split at h <;> cases h <;> rfl

theorem Original.source_correct {msg : DMsg BrachaMessage} (h : Original ls i msg)
    (hc : exec (next S) initial ls = some c) : msg.source ∈ S.parties.correct := by
  obtain ⟨-, b, hbegun, -⟩ := h
  obtain ⟨l, hl, hlabel⟩ := List.mem_filterMap.mp (Dolev.mem_begun.mp hbegun)
  have hnode := node_mem_correct ls c hc l hl
  rwa [← node_eq_of_dolev hlabel] at hnode

/-- Nobody says anything in the parents' network either. -/
theorem bracha_silent (hc : exec (next S) initial ls = some c) (hsilent : ∀ e, .forge e ∉ ls)
    (e : Envelope PeerId Optimized.Packet) : .forge e ∉ ls.filterMap (brachaLabel S) := by
  intro he
  obtain ⟨l, hl, hlabel⟩ := List.mem_filterMap.mp he
  obtain ⟨ls₁, ls₂, rfl⟩ := List.append_of_mem hl
  obtain ⟨c₁, hc₁, -⟩ := exec_prefix hc
  have horiginal := original_of_silent _ c hc hsilent ls₁ l ls₂ c₁ rfl hc₁
  unfold brachaLabel at hlabel
  split at hlabel
  · cases hlabel
  · exact hsilent _ hl
  · cases hlabel
  · next i t =>
    obtain ⟨msg, hmsg, hlabel⟩ := Option.map_eq_some_iff.mp hlabel
    split_ifs at hlabel with hbyz
    · have hcorrect := (horiginal i t msg rfl hmsg).source_correct hc₁
      exact Parties.not_byz hcorrect hbyz
  · cases hlabel
  · cases hlabel

/-! ### Four nodes -/

instance (ls : History) (i : PeerId) (msg : DMsg BrachaMessage) : Decidable (Original ls i msg) :=
  inferInstanceAs (Decidable (_ ∧ _))

instance {P : History → PeerId → DMsg BrachaMessage → Prop} [∀ ls i msg, Decidable (P ls i msg)]
    (ls : History) (c : Config PeerId Packet NodeState Task) : ∀ l, Decidable (HandsOver P ls c l)
  | .wake i (.deliver t) =>
    decidable_of_iff (∀ msg ∈ t.handed, P ls i msg)
      ⟨fun h _ _ msg hl hmsg => by cases hl; exact h msg hmsg,
        fun h msg hmsg => h i t msg rfl hmsg⟩
  | .recv _ | .forge _ | .wake _ .onStart | .wake _ (.dolev _) | .wake _ (.bracha _ _)
  | .wake _ (.awaiting _ _ _) => isTrue nofun

instance (ls : History) (c : Config PeerId Packet NodeState Task) (l : Label PeerId Packet Task) :
    Decidable (Genuine S ls c l) :=
  inferInstanceAs (Decidable (HandsOver _ ls c l))

/-- Everybody is a neighbour of everybody. `a` sends, and `d` does not follow the protocol. -/
def fourNodes : System where
  toDeployment := .ofLists ["a", "b", "c"] ["d"] Cluster.nodup_threeAndOne
  f := 1
  isSender i := i = "a"
  enableEchoAmplification := true
  enableSingleHopSend := false
  enableReducedMessages := true
  admissible _ := rfl
  numMessages := 1
  uuid i k := i ++ String.ofList (List.replicate k '+')
  neighbours i := {"a", "b", "c", "d"} \ {i}
  dolevF := 1
  nx := .allPaths
  irrefl i := by simp

/-- The child of `d` sends `b` a READY, and `b` delivers with it. -/
def fourNodesRun : History :=
  let readied : BrachaMessage := ⟨"ready", "a", "a", "hello - a - 0"⟩
  let forged : History := [.forge ⟨"d", "b", .dolev ⟨"a:ready:d", "d", readied, []⟩⟩]
  forged ++ schedule (protocol fourNodes) fourNodes.parties ["a", "b", "c"] 260
    ((exec (next fourNodes) initial forged).getD initial)

/-- The READY of `d` reaches `b` through its child, and is anybody's word to the parents. -/
theorem refines_ideal_fourNodes :
    ∃ c b, exec (next fourNodes) initial fourNodesRun = some c ∧
      (c.st "b").bracha.deliveries = [("a", "hello - a - 0")] ∧
      exec (Optimized.next fourNodes.toSystem) Optimized.initial
        (fourNodesRun.filterMap (brachaLabel fourNodes)) = some b ∧
      b.st "b" = (c.st "b").bracha := by
  obtain ⟨c, hc, hdel⟩ := exists_exec_of_any (next fourNodes) initial fourNodesRun
    (fun c => (c.st "b").bracha.deliveries = [("a", "hello - a - 0")]) (by decide +kernel)
  obtain ⟨⟨b, hb, hst⟩, -⟩ := refines_ideal fourNodes fourNodesRun c hc
    (meets_of_meetsFrom (by decide +kernel))
  exact ⟨c, b, hc, of_decide_eq_true hdel, hb, hst "b"⟩

end DistBench.Bracha.Stack
