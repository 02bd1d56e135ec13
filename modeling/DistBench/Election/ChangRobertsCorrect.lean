import DistBench.Election.ChangRoberts
import DistBench.Lib.Potential

/-!
# The election elects the maximum, and ends

An election message has a history: the node whose `node_id` it carries, and the
stretch of the ring it has come since, all of whose nodes have smaller ids
(`Token`). When the id comes back to its owner the stretch is the whole ring, so
only the node with the maximum ever becomes leader by itself, and only the
maximum is ever announced (`safe_inductive`).

That it does become leader, and that the announcement reaches everyone, are
statements about what is still pending (`Progress`): the maximum's own election
message, or the code that will send it, exists until the maximum knows itself to
be the leader; and the successor of a node that knows the leader knows it too, or
a termination message is on its way to it.

That runs are finite is a matter of weights (`weights`): an election message
comes closer to the maximum with every hop, except when it leaves the maximum
itself, and then it carries the maximum and does not do so again.

- `leader_eq_maximum`, `length_le_potential`, `leader_of_quiescent`: the three parts.
- `election_correct`: all of it.
-/

namespace DistBench.ChangRoberts.Electorate

open DistBench.Async

variable {E : Electorate} {c c' base : Config PeerId Message ChangRobertsState Cont}
  {ls : Trace PeerId Message Cont} {l : Label PeerId Message Cont}
  {o : Outcome PeerId Message ChangRobertsState Cont} {top i : PeerId} {v : Int}

/-- One step of the network of the electorate. -/
abbrev step (E : Electorate) := Async.step E.protocol E.parties

/-- `v` is the maximum of the `node_id`s. -/
def IsMaximum (E : Electorate) (v : Int) : Prop := IsGreatest (E.nodeId '' E.parties.nodes) v

/-- The node with the maximum. -/
structure IsTop (E : Electorate) (top : PeerId) : Prop where
  mem : top ∈ E.parties.nodes
  max : ∀ i ∈ E.parties.nodes, E.nodeId i ≤ E.nodeId top

theorem exists_isTop (E : Electorate) : ∃ top, E.IsTop top := by
  have hne : E.parties.nodes.Nonempty := by
    rw [← Finset.card_pos]
    exact Nat.lt_of_lt_of_le Nat.two_pos E.two_le_card
  obtain ⟨top, htop, hmax⟩ := E.parties.nodes.exists_max_image E.nodeId hne
  exact ⟨top, htop, hmax⟩

theorem IsTop.isMaximum (ht : E.IsTop top) : E.IsMaximum (E.nodeId top) := by
  refine ⟨⟨top, ht.mem, rfl⟩, ?_⟩
  rintro _ ⟨i, hi, rfl⟩
  exact ht.max i hi

theorem IsTop.eq_of_nodeId (ht : E.IsTop top) (hi : i ∈ E.parties.nodes)
    (h : E.nodeId i = E.nodeId top) : i = top :=
  E.nodeId_injOn hi ht.mem h

/-! ## Safety -/

/-- An election message for `dst` carrying `v` has come from the node with the
id `v`, over nodes with smaller ids only. -/
def Token (E : Electorate) (v : Int) (dst : PeerId) : Prop :=
  ∃ owner ∈ E.parties.nodes, E.nodeId owner = v ∧
    ∃ k > 0, E.next^[k] owner = dst ∧
      ∀ e, 0 < e → e < k → E.nodeId (E.next^[e] owner) < v

theorem Token.mem (h : E.Token v i) : i ∈ E.parties.nodes := by
  obtain ⟨owner, howner, -, k, -, rfl, -⟩ := h
  exact iterate_next_mem howner k

theorem Token.le_top (h : E.Token v i) (ht : E.IsTop top) : v ≤ E.nodeId top := by
  obtain ⟨owner, howner, rfl, -⟩ := h
  exact ht.max owner howner

/-- A node's own id on its first hop. -/
theorem token_next (hi : i ∈ E.parties.nodes) : E.Token (E.nodeId i) (E.next i) :=
  ⟨i, hi, rfl, 1, Nat.one_pos, rfl, fun e he he' => absurd he' (by omega)⟩

/-- The larger of the two ids goes on: the old token has passed one more node
with a smaller id, or a new one starts. -/
theorem Token.pass (h : E.Token v i) (hne : v ≠ E.nodeId i) :
    E.Token (max v (E.nodeId i)) (E.next i) := by
  rcases lt_or_gt_of_ne hne with hlt | hgt
  · rw [max_eq_right hlt.le]
    exact token_next h.mem
  · rw [max_eq_left hgt.le]
    obtain ⟨owner, howner, hv, k, hk, rfl, hpassed⟩ := h
    refine ⟨owner, howner, hv, k + 1, by omega, Function.iterate_succ_apply' _ _ _, ?_⟩
    intro e he hek
    rcases Nat.lt_or_ge e k with hlt | hge
    · exact hpassed e he hlt
    · obtain rfl : e = k := by omega
      exact hgt

/-- An id that is back at its owner has been all around the ring. -/
theorem Token.eq_top (h : E.Token (E.nodeId i) i) (ht : E.IsTop top) : i = top := by
  have hi := h.mem
  obtain ⟨owner, howner, hv, k, hk, hret, hpassed⟩ := h
  obtain rfl : owner = i := E.nodeId_injOn howner hi hv
  by_contra hne
  obtain ⟨e, he, hek, hit⟩ := exists_iterate_of_return (f := E.next) hk hret
    (exists_iterate_next hi ht.mem) (fun h => hne h.symm)
  have hlt := hpassed e he hek
  rw [hit] at hlt
  exact absurd (ht.max owner howner) (not_le.mpr hlt)

/-- What is true of a node and of a message in flight: caches are correct, election
messages are tokens, and nothing but the maximum is recorded or announced. -/
def safe (E : Electorate) (top : PeerId) :
    Assertion PeerId Message ChangRobertsState Cont where
  node _ i s ts :=
    E.Cached i s ∧ (∀ peer, .sleeping peer ∈ ts → peer = E.next i) ∧
      ∀ v, s.leader = some v → v = E.nodeId top
  msg _ e :=
    match e.msg with
    | .election elector => E.Token elector e.dst
    | .termination leader => leader = E.nodeId top

theorem safe_init (E : Electorate) (top : PeerId) : (E.safe top).Holds E.parties [] initial where
  node i hi := by
    refine ⟨fun peer h => ?_, fun peer h => ?_, fun v h => ?_⟩
    · cases h
    · simp [initial] at h
    · cases h
  msg e he := by simp [initial] at he
  received e he := by simp at he

/-- The assertion is inductive. -/
theorem safe_inductive (ht : E.IsTop top) :
    (E.safe top).Inductive E.protocol E.parties initial fun _ _ _ => True where
  init := safe_init E top
  node_mono _ h := h
  msg_mono h := h
  segment := by
    intro ls c l i o base hc hA _ hseg
    have hi : i ∈ E.parties.nodes := Cluster.mem_correct.mp hseg.correct
    obtain ⟨hcached, hsleep, hleader⟩ := hA.node i hseg.correct
    obtain ⟨hmove, hcached'⟩ := segment_move hseg hcached
    refine ⟨⟨hcached', fun peer h => ?_, fun v hv => ?_⟩, fun dm hdm => ?_⟩
    -- a coroutine asleep is about to send to the successor
    · rcases hseg.mem_rest_or_tasks h with hnew | hold
      · exact hmove.sleeping (Option.mem_toList.mpr hnew)
      · exact hsleep peer hold
    -- a leader that is set is the maximum
    · rcases hmove.leader_or with hl | ⟨⟨src, rfl⟩, hl⟩ | ⟨src, leader, rfl, -, hl⟩
      · exact hleader v (hl ▸ hv)
      · have htoken : E.Token (E.nodeId i) i := hA.msg _ hseg.mem_net
        rw [← htoken.eq_top ht]
        exact Option.some.inj (hv.symm.trans hl)
      · have hmax : leader = E.nodeId top := hA.msg _ hseg.mem_net
        rw [← hmax]
        exact Option.some.inj (hv.symm.trans hl)
    -- what is sent on is a token again, or announces the maximum
    · cases hmove with
      | elected _ hout _ =>
        rw [hout] at hdm
        obtain rfl := List.mem_singleton.mp hdm
        have htoken : E.Token (E.nodeId i) i := hA.msg _ hseg.mem_net
        show E.nodeId i = E.nodeId top
        rw [htoken.eq_top ht]
      | @pass src elector _ hne _ hout _ =>
        rw [hout] at hdm
        obtain rfl := List.mem_singleton.mp hdm
        have htoken : E.Token elector i := hA.msg _ hseg.mem_net
        exact htoken.pass hne
      | @learn src leader _ _ _ hout hself =>
        by_cases hown : leader = E.nodeId i
        · rw [(hself hown).1] at hdm
          exact absurd hdm List.not_mem_nil
        · rw [(hout hown).1] at hdm
          obtain rfl := List.mem_singleton.mp hdm
          exact hA.msg _ hseg.mem_net
      | @propose peer _ _ hout _ =>
        rw [hout] at hdm
        obtain rfl := List.mem_singleton.mp hdm
        cases hseg with
        | wake _ hmem _ =>
          obtain rfl := hsleep peer hmem
          exact token_next hi
      | known _ _ hout _ => simp [hout] at hdm
      | start _ hout _ => simp [hout] at hdm
      | late _ _ hout _ => simp [hout] at hdm
      | finish _ hout _ => simp [hout] at hdm

theorem safe_of_run (ht : E.IsTop top) (hc : exec E.step initial ls = some c) :
    (E.safe top).Holds E.parties ls c :=
  Assertion.holds_of_run (safe_inductive ht) hc

/-- **A node that knows a leader knows the maximum.** -/
theorem leader_eq_maximum (ht : E.IsTop top) (hc : exec E.step initial ls = some c)
    (hi : i ∈ E.parties.nodes) (hv : (c.st i).leader = some v) : v = E.nodeId top :=
  ((safe_of_run ht hc).node i (Cluster.mem_correct.mpr hi)).2.2 v hv

/-! ## What is still pending -/

/-- A termination message is on its way to node `i`. -/
def Announced (c : Config PeerId Message ChangRobertsState Cont) (i : PeerId) : Prop :=
  ∃ e ∈ c.net, e.dst = i ∧ ∃ v, e.msg = .termination v

/-- Node `i` knows a leader. -/
def Knows (c : Config PeerId Message ChangRobertsState Cont) (i : PeerId) : Prop :=
  (c.st i).leader.isSome

/-- Why the maximum becomes leader, and why everyone hears of it. -/
structure Progress (E : Electorate) (top : PeerId)
    (c : Config PeerId Message ChangRobertsState Cont) : Prop where
  /-- The maximum is the first to know. -/
  first : ∀ i ∈ E.parties.nodes, Knows c i ∨ Announced c i → Knows c top
  /-- The election message of the maximum has not been lost. -/
  pending : Knows c top ∨ .onStart ∈ c.tasks top ∨ (∃ peer, .sleeping peer ∈ c.tasks top) ∨
    ∃ e ∈ c.net, e.msg = .election (E.nodeId top)
  /-- Neither has the announcement. -/
  spread : ∀ i ∈ E.parties.nodes, Knows c i → Knows c (E.next i) ∨ Announced c (E.next i)

theorem progress_init (E : Electorate) (top : PeerId) : E.Progress top initial where
  first i _ h := by
    rcases h with h | ⟨e, he, -⟩
    · cases h
    · simp [initial] at he
  pending := .inr (.inl (List.mem_singleton.mpr rfl))
  spread i _ h := by cases h

section Step

variable (hseg : Segment E.protocol E.parties c l i o base) (hmove : E.Move i (c.st i) l o)

include hseg hmove

theorem Knows.commit {j : PeerId} (h : Knows c j) : Knows (base.commit i o) j := by
  by_cases hji : j = i
  · subst hji
    rw [Knows, Config.commit_st_self]
    exact hmove.leader_isSome h
  · rwa [Knows, Config.commit_st_of_ne hji, hseg.base_st]

/-- A node that knows a leader has known it, or it has just been elected, or it
has just been told. -/
theorem knows_of_commit {j : PeerId} (h : Knows (base.commit i o) j) :
    Knows c j ∨ j = i ∧ ((∃ src, l = .recv ⟨src, i, .election (E.nodeId i)⟩) ∨
      ∃ src v, l = .recv ⟨src, i, .termination v⟩) := by
  by_cases hji : j = i
  · subst hji
    rw [Knows, Config.commit_st_self] at h
    rcases hmove.leader_or with hl | ⟨hl, -⟩ | ⟨src, v, rfl, -⟩
    · exact .inl (by rwa [Knows, ← hl])
    · exact .inr ⟨rfl, .inl hl⟩
    · exact .inr ⟨rfl, .inr ⟨src, v, rfl⟩⟩
  · rw [Knows, Config.commit_st_of_ne hji, hseg.base_st] at h
    exact .inl h

/-- An announcement in flight has been in flight, or it has just been sent by the
node that was elected or told. -/
theorem announced_of_commit {j : PeerId} (h : Announced (base.commit i o) j) :
    Announced c j ∨ (∃ src, l = .recv ⟨src, i, .election (E.nodeId i)⟩) ∨
      ∃ src v, l = .recv ⟨src, i, .termination v⟩ := by
  obtain ⟨e, he, hdst, v, hv⟩ := h
  rcases (Config.mem_commit_net _ _ _).mp he with hold | ⟨-, hnew⟩
  · exact .inl ⟨e, hseg.mem_net_of_mem_base hold, hdst, v, hv⟩
  · rw [hv] at hnew
    cases hmove with
    | @elected src _ _ _ _ => exact .inr (.inl ⟨src, rfl⟩)
    | pass _ _ hout _ => simp [hout] at hnew
    | @known src v' _ _ _ _ _ => exact .inr (.inr ⟨src, v', rfl⟩)
    | @learn src v' _ _ _ _ _ => exact .inr (.inr ⟨src, v', rfl⟩)
    | start _ hout _ => simp [hout] at hnew
    | late _ _ hout _ => simp [hout] at hnew
    | propose _ hout _ => simp [hout] at hnew
    | finish _ hout _ => simp [hout] at hnew

/-- An announcement on its way stays on its way or arrives. -/
theorem Announced.commit {j : PeerId} (h : Announced c j) :
    Knows (base.commit i o) j ∨ Announced (base.commit i o) j := by
  obtain ⟨⟨src, dst, msg⟩, he, rfl, v, rfl⟩ := h
  rcases hseg.mem_base_net_or he with hbase | rfl
  · exact .inr ⟨_, (Config.mem_commit_net _ _ _).mpr (.inl hbase), rfl, v, rfl⟩
  · obtain rfl : dst = i := hseg.node_eq
    refine .inl ?_
    rw [Knows, Config.commit_st_self]
    cases hmove with
    | known hknown hl _ _ => rwa [hl]
    | learn _ hl _ _ => rw [hl]; rfl

end Step

/-- The election message of the maximum, or the code that will send it, outlives
every segment until the maximum knows. -/
theorem Progress.pending_commit (h : E.Progress top c) (ht : E.IsTop top)
    (hA : (E.safe top).Holds E.parties ls c)
    (hseg : Segment E.protocol E.parties c l i o base) (hmove : E.Move i (c.st i) l o) :
    Knows (base.commit i o) top ∨ .onStart ∈ (base.commit i o).tasks top ∨
      (∃ peer, .sleeping peer ∈ (base.commit i o).tasks top) ∨
      ∃ e ∈ (base.commit i o).net, e.msg = .election (E.nodeId top) := by
  have hi : i ∈ E.parties.nodes := Cluster.mem_correct.mp hseg.correct
  -- a coroutine of the maximum that does not go on now stays suspended
  have hstay : ∀ t, t ∈ c.tasks top →
      t ∈ (base.commit i o).tasks top ∨ i = top ∧ l = .wake top t := by
    intro t htask
    by_cases hti : top = i
    · subst hti
      rw [Config.commit_tasks_self]
      rcases hseg.mem_base_tasks_or htask with hbase | hl
      · exact .inl (List.mem_append_right _ hbase)
      · exact .inr ⟨rfl, hl⟩
    · rw [Config.commit_tasks_of_ne hti, hseg.base_tasks_of_ne hti]
      exact .inl htask
  rcases h.pending with hknows | hstart | ⟨peer, hsleep⟩ | ⟨e, he, hmsg⟩
  -- from `on_start` to the sleep, from the sleep to the message, from hop to hop
  · exact .inl (hknows.commit hseg hmove)
  · rcases hstay _ hstart with hstart | ⟨rfl, rfl⟩
    · exact .inr (.inl hstart)
    · cases hmove with
      | start _ _ hrest =>
        refine .inr (.inr (.inl ⟨E.next i, ?_⟩))
        rw [Config.commit_tasks_self, hrest]
        exact List.mem_cons_self
  · rcases hstay _ hsleep with hsleep | ⟨rfl, rfl⟩
    · exact .inr (.inr (.inl ⟨peer, hsleep⟩))
    · cases hmove with
      | late hknown hl _ _ =>
        refine .inl ?_
        rwa [Knows, Config.commit_st_self, hl]
      | propose _ hout _ =>
        refine .inr (.inr (.inr ⟨⟨i, peer, .election (E.nodeId i)⟩, ?_, rfl⟩))
        rw [Config.mem_commit_net, hout]
        exact .inr ⟨rfl, List.mem_singleton.mpr rfl⟩
  · rcases hseg.mem_base_net_or he with hbase | rfl
    · exact .inr (.inr (.inr ⟨e, (Config.mem_commit_net _ _ _).mpr (.inl hbase), hmsg⟩))
    · cases hmove with
      | elected hl _ _ =>
        -- only the maximum gets its own id back
        obtain rfl : i = top := ht.eq_of_nodeId hi (by simpa using hmsg)
        refine .inl ?_
        rw [Knows, Config.commit_st_self, hl]
        rfl
      | @pass src elector _ _ _ hout _ =>
        obtain rfl : elector = E.nodeId top := by simpa using hmsg
        refine .inr (.inr (.inr ⟨⟨i, E.next i, .election (E.nodeId top)⟩, ?_, rfl⟩))
        rw [Config.mem_commit_net, hout, max_eq_left (ht.max i hi)]
        exact .inr ⟨rfl, List.mem_singleton.mpr rfl⟩
      | known _ _ _ _ => cases hmsg
      | learn _ _ _ _ => cases hmsg

/-- One step keeps what is pending. -/
theorem Progress.commit (h : E.Progress top c) (ht : E.IsTop top)
    (hA : (E.safe top).Holds E.parties ls c)
    (hseg : Segment E.protocol E.parties c l i o base) : E.Progress top (base.commit i o) := by
  have hi : i ∈ E.parties.nodes := Cluster.mem_correct.mp hseg.correct
  obtain ⟨hmove, -⟩ := segment_move hseg (hA.node i hseg.correct).1
  -- the two ways to come to know the leader both imply that the maximum knows
  have helected : (∃ src, l = .recv ⟨src, i, .election (E.nodeId i)⟩) →
      Knows (base.commit i o) top := by
    rintro ⟨src, rfl⟩
    have htoken : E.Token (E.nodeId i) i := hA.msg _ hseg.mem_net
    obtain rfl := htoken.eq_top ht
    cases hmove with
    | elected hl _ _ =>
      rw [Knows, Config.commit_st_self, hl]
      rfl
    | pass hne _ _ _ => exact absurd rfl hne
  have htold : (∃ src v, l = .recv ⟨src, i, .termination v⟩) → Knows c top := by
    rintro ⟨src, v, rfl⟩
    exact h.first i hi (.inr ⟨_, hseg.mem_net, rfl, v, rfl⟩)
  constructor
  · intro j hj hor
    rcases hor with hknows | hann
    · rcases knows_of_commit hseg hmove hknows with hold | ⟨-, hl | hl⟩
      · exact (h.first j hj (.inl hold)).commit hseg hmove
      · exact helected hl
      · exact (htold hl).commit hseg hmove
    · rcases announced_of_commit hseg hmove hann with hold | hl | hl
      · exact (h.first j hj (.inr hold)).commit hseg hmove
      · exact helected hl
      · exact (htold hl).commit hseg hmove
  · exact h.pending_commit ht hA hseg hmove
  · intro j hj hknows
    by_cases hold : Knows c j
    · rcases h.spread j hj hold with hnext | hann
      · exact .inl (hnext.commit hseg hmove)
      · exact hann.commit hseg hmove
    · -- node `j` has just come to know the leader, and has told its successor
      rcases knows_of_commit hseg hmove hknows with hold' | ⟨rfl, ⟨src, rfl⟩ | ⟨src, v, rfl⟩⟩
      · exact absurd hold' hold
      · refine .inr ⟨⟨j, E.next j, .termination (E.nodeId j)⟩, ?_, rfl, _, rfl⟩
        cases hmove with
        | elected _ hout _ =>
          rw [Config.mem_commit_net, hout]
          exact .inr ⟨rfl, List.mem_singleton.mpr rfl⟩
        | pass hne _ _ _ => exact absurd rfl hne
      · cases hmove with
        | known hknown _ _ _ => exact absurd hknown hold
        | learn _ _ hout _ =>
          -- the announced id is not `j`'s own: the maximum already knows
          have hne : v ≠ E.nodeId j := by
            intro hv
            have hmax : v = E.nodeId top := hA.msg _ hseg.mem_net
            have hjt : j = top := ht.eq_of_nodeId hi (hv.symm.trans hmax)
            exact hold (hjt ▸ htold ⟨src, v, rfl⟩)
          refine .inr ⟨⟨j, E.next j, .termination v⟩, ?_, rfl, v, rfl⟩
          rw [Config.mem_commit_net, (hout hne).1]
          exact .inr ⟨rfl, List.mem_singleton.mpr rfl⟩

theorem progress_of_run (ht : E.IsTop top) :
    ∀ ls c, exec E.step initial ls = some c → E.Progress top c := by
  refine run_induction (P := fun (_ : Trace PeerId Message Cont) c => E.Progress top c)
    (progress_init E top) ?_
  intro ls c l c' hc ih hl
  obtain ⟨i, o, base, hseg, rfl⟩ := step_iff.mp hl
  exact ih.commit ht (safe_of_run ht hc) hseg

/-- All calls of `on_start` have returned and no message is in flight. -/
structure Quiescent (E : Electorate) (c : Config PeerId Message ChangRobertsState Cont) :
    Prop where
  started : ∀ i ∈ E.parties.nodes, .onStart ∉ c.tasks i
  awake : ∀ i ∈ E.parties.nodes, ∀ peer, .sleeping peer ∉ c.tasks i
  net : c.net = []

/-- **When nothing is pending, everyone knows the maximum.** -/
theorem leader_of_quiescent (ht : E.IsTop top) (hc : exec E.step initial ls = some c)
    (hq : E.Quiescent c) (hi : i ∈ E.parties.nodes) :
    (c.st i).leader = some (E.nodeId top) := by
  have hprog := progress_of_run ht ls c hc
  have hsilent : ∀ j, ¬ Announced c j := by
    rintro j ⟨e, he, -⟩
    rw [hq.net] at he
    exact absurd he List.not_mem_nil
  have htop : Knows c top := by
    rcases hprog.pending with h | h | ⟨peer, h⟩ | ⟨e, he, -⟩
    · exact h
    · exact absurd h (hq.started top ht.mem)
    · exact absurd h (hq.awake top ht.mem peer)
    · rw [hq.net] at he
      exact absurd he List.not_mem_nil
  -- along the ring, starting at the maximum
  have hall : ∀ k, Knows c (E.next^[k] top) := by
    intro k
    induction k with
    | zero => exact htop
    | succ k ih =>
      rw [Function.iterate_succ_apply']
      rcases hprog.spread _ (iterate_next_mem ht.mem k) ih with h | h
      · exact h
      · exact absurd h (hsilent _)
  obtain ⟨k, rfl⟩ := exists_iterate_next ht.mem hi
  obtain ⟨v, hv⟩ := Option.isSome_iff_exists.mp (hall k)
  rw [hv, leader_eq_maximum ht hc hi hv]

/-! ## Runs are finite -/

/-- What is still to come. A hop of an election message takes it closer to the
maximum, and the hop from there to the far end of the ring is paid for by the
smaller id it had before; a node that does not know the leader will still pass
an announcement on. -/
noncomputable def weights (E : Electorate) (top : PeerId) :
    Weights PeerId Message ChangRobertsState Cont where
  st _ s := if s.leader.isSome then 0 else 2
  task _ t :=
    match t with
    | .onStart => 2 * E.parties.nodes.card + 4
    | .sleeping _ => 2 * E.parties.nodes.card + 3
    | .terminate => 1
  msg e :=
    match e.msg with
    | .election elector =>
      steps E.next e.dst top + 3 + if elector < E.nodeId top then E.parties.nodes.card else 0
    | .termination _ => 1

theorem steps_next_lt_card (hi : i ∈ E.parties.nodes) (ht : E.IsTop top) :
    steps E.next (E.next i) top < E.parties.nodes.card := by
  rw [← length_ring]
  exact steps_successor_lt nodup_ring (mem_ring.mpr (next_mem hi)) (mem_ring.mpr ht.mem)

/-- Passing an election message on makes it lighter. -/
theorem weights_pass (ht : E.IsTop top) (htoken : E.Token v i) (hne : v ≠ E.nodeId i)
    (src : PeerId) :
    (E.weights top).msg ⟨i, E.next i, .election (max v (E.nodeId i))⟩ <
      (E.weights top).msg ⟨src, i, .election v⟩ := by
  have hi := htoken.mem
  have hv := htoken.le_top ht
  simp only [weights]
  by_cases htop : i = top
  · subst htop
    have hlt : v < E.nodeId i := lt_of_le_of_ne hv hne
    have hsteps := steps_next_lt_card hi ht
    rw [max_eq_right hlt.le, if_neg (lt_irrefl _), if_pos hlt]
    omega
  · have hsteps : steps E.next (E.next i) top < steps E.next i top :=
      steps_apply_lt (exists_iterate_next hi ht.mem) htop
    by_cases hlt : v < E.nodeId top
    · have hi_lt : E.nodeId i < E.nodeId top :=
        lt_of_le_of_ne (ht.max i hi) fun h => htop (ht.eq_of_nodeId hi h)
      rw [if_pos hlt, if_pos (max_lt hlt hi_lt)]
      omega
    · have hmax : ¬ max v (E.nodeId i) < E.nodeId top := fun h =>
        hlt (lt_of_le_of_lt (le_max_left _ _) h)
      rw [if_neg hlt, if_neg hmax]
      omega

/-- Every segment leaves behind less than it consumes. -/
theorem weights_decrease (ht : E.IsTop top) (hc : exec E.step initial ls = some c)
    (hseg : Segment E.protocol E.parties c l i o base) :
    (E.weights top).outcome i o < (E.weights top).label l + (E.weights top).st i (c.st i) := by
  have hi : i ∈ E.parties.nodes := Cluster.mem_correct.mp hseg.correct
  have hA := safe_of_run ht hc
  obtain ⟨hcached, hsleep, -⟩ := hA.node i hseg.correct
  obtain ⟨hmove, -⟩ := segment_move hseg hcached
  cases hmove with
  | elected hl hout hrest =>
    simp [Weights.outcome, Weights.label, weights, hl, hout, hrest]
    omega
  | @pass src elector _ hne hl hout hrest =>
    have htoken : E.Token elector i := hA.msg _ hseg.mem_net
    have hpass := weights_pass ht htoken hne src
    have hst : (E.weights top).st i o.st = (E.weights top).st i (c.st i) := by
      simp only [weights, hl]
    simp only [Weights.outcome, Weights.label, hst, hout, hrest, Option.toList_none, List.map_nil,
      List.sum_nil, List.map_cons, List.sum_cons]
    omega
  | known hknown hl hout hrest =>
    simp [Weights.outcome, Weights.label, weights, hl, hout, hrest]
  | @learn src leader _ hnone hl hout hself =>
    by_cases hown : leader = E.nodeId i
    · simp [Weights.outcome, Weights.label, weights, hl, hnone, hself hown]
    · simp [Weights.outcome, Weights.label, weights, hl, hnone, hout hown]
  | start hl hout hrest =>
    simp [Weights.outcome, Weights.label, weights, hl, hout, hrest]
    omega
  | late hknown hl hout hrest =>
    simp [Weights.outcome, Weights.label, weights, hl, hout, hrest]
  | @propose peer _ hl hout hrest =>
    have hpeer : peer = E.next i := by
      cases hseg with
      | wake _ hmem _ => exact hsleep peer hmem
    have hsteps := steps_next_lt_card hi ht
    rw [← hpeer] at hsteps
    simp only [Weights.outcome, Weights.label, weights, hl, hout, hrest, Option.toList_none,
      List.map_nil, List.sum_nil, List.map_cons, List.sum_cons]
    split <;> split <;> omega
  | finish hl hout hrest =>
    simp [Weights.outcome, Weights.label, weights, hl, hout, hrest]

/-- **Every run is finite**: the steps of a run, the handling of messages among
them, are bounded from the start. -/
theorem length_le_potential (ht : E.IsTop top) (hc : exec E.step initial ls = some c) :
    ls.length ≤ (E.weights top).config E.parties initial :=
  (E.weights top).length_le (fun _ _ _ _ _ _ hc hseg => weights_decrease ht hc hseg) hc

/-! ## The election -/

/-- **Chang–Roberts**: nobody ever records anything but the maximum as the leader,
every run is finite, and when all calls of `on_start` have returned and no message
is in flight everyone has recorded it. -/
theorem election_correct (E : Electorate) :
    (∀ ls c, exec E.step initial ls = some c → ∀ i ∈ E.parties.nodes, ∀ v,
      (c.st i).leader = some v → E.IsMaximum v) ∧
    (∃ bound, ∀ ls c, exec E.step initial ls = some c → ls.length ≤ bound) ∧
    (∀ ls c, exec E.step initial ls = some c → E.Quiescent c → ∀ i ∈ E.parties.nodes,
      ∃ v, (c.st i).leader = some v ∧ E.IsMaximum v) := by
  obtain ⟨top, ht⟩ := E.exists_isTop
  refine ⟨fun ls c hc i hi v hv => ?_, ⟨_, fun ls c hc => length_le_potential ht hc⟩,
    fun ls c hc hq i hi => ?_⟩
  · rw [leader_eq_maximum ht hc hi hv]
    exact ht.isMaximum
  · exact ⟨E.nodeId top, leader_of_quiescent ht hc hq hi, ht.isMaximum⟩

/-- Three nodes; `b` has the maximum. -/
def trio : Electorate where
  toDeployment := .ofLists ["a", "b", "c"] [] Cluster.nodup_trio
  nodeId i := if i = "a" then 7 else if i = "b" then 30 else 12
  all_correct := rfl
  nodeId_injOn := by decide
  two_le_card := by decide

/-- `a` starts the election, `b` takes it over, and it is decided before `b` and
`c` wake up. -/
def trioRun : Trace PeerId Message Cont :=
  [.wake "a" .onStart, .wake "a" (.sleeping "b"),
   .recv ⟨"a", "b", .election 7⟩, .recv ⟨"b", "c", .election 30⟩,
   .recv ⟨"c", "a", .election 30⟩, .recv ⟨"a", "b", .election 30⟩,
   .recv ⟨"b", "c", .termination 30⟩, .recv ⟨"c", "a", .termination 30⟩,
   .recv ⟨"a", "b", .termination 30⟩,
   .wake "b" .onStart, .wake "b" (.sleeping "c"),
   .wake "c" .onStart, .wake "c" (.sleeping "a")]

theorem quiescent_of_all
    (h : (c.net.isEmpty && ["a", "b", "c"].all fun i => (c.tasks i).all (· = .terminate)) = true) :
    trio.Quiescent c := by
  rw [Bool.and_eq_true, List.isEmpty_iff, List.all_eq_true] at h
  obtain ⟨hnet, htasks⟩ := h
  have hmem : ∀ i ∈ trio.parties.nodes, i ∈ ["a", "b", "c"] := by decide
  have hdone : ∀ i ∈ trio.parties.nodes, ∀ t ∈ c.tasks i, t = .terminate := by
    intro i hi t ht
    have hall := htasks i (hmem i hi)
    rw [List.all_eq_true] at hall
    exact of_decide_eq_true (hall t ht)
  refine ⟨fun i hi h => ?_, fun i hi peer h => ?_, hnet⟩
  · exact Cont.noConfusion (hdone i hi _ h)
  · exact Cont.noConfusion (hdone i hi _ h)

/-- A run to the end. -/
theorem election_correct_trio : ∃ c, exec trio.step initial trioRun = some c ∧
    trio.Quiescent c ∧
    ∀ i ∈ trio.parties.nodes, ∃ v, (c.st i).leader = some v ∧ trio.IsMaximum v := by
  obtain ⟨c, hc, hdone⟩ := exists_exec_of_any trio.step initial trioRun
    (fun c => c.net.isEmpty && ["a", "b", "c"].all fun i => (c.tasks i).all (· = .terminate))
    (by decide)
  have hq := quiescent_of_all hdone
  exact ⟨c, hc, hq, (election_correct trio).2.2 trioRun c hc hq⟩

end DistBench.ChangRoberts.Electorate
