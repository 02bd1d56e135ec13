import DistBench.Lib.Run

/-!
# Asynchronous networks of coroutines

Nodes run coroutines over a private state. A coroutine runs without
interruption from one suspension point to the next (a *segment*), may hand
messages to the transport on the way, and is then either finished or suspended
at a program point of type `T`. Between two segments of one coroutine any
number of segments of the node's other coroutines may run: this is the
single-threaded cooperative scheduling of an event loop.

The transport delivers every message of the nodes that follow the protocol, in
any order and after any delay. The nodes outside the protocol (`Parties.byz`)
have no behaviour of their own: whatever they send, to whomever and whenever,
is a `forge` label, restricted only in that the receiver sees their own
identity as the source.

- `Protocol`: what a handler and a resumed coroutine do.
- `Config`: node states, suspended coroutines and messages in flight.
- `Label`, `step`: one segment, chosen by the label.
- `Segment`, `step_iff`: the one inversion lemma for `step`; everything below
  and every proof about a protocol goes through it.
- `Assertion`: an invariant given node by node and message by message, with the
  rule `Assertion.holds_of_meets` that packages the induction over runs.
- `Protocol.alone`, `alone_of_run`: a node in any environment, and every run of the
  network as one of these.
- `handled_or_in_flight`, `received_once`: nothing that was sent is lost, and what is
  sent once is received once.
-/

namespace DistBench.Async

variable {ι M S T : Type}

/-- A message on its way. -/
structure Envelope (ι M : Type) where
  src : ι
  dst : ι
  msg : M
deriving DecidableEq

/-- What a segment leaves behind: the node's new state, the messages it handed
to the transport, and the point its coroutine is suspended at (`none` if it has
finished). -/
structure Outcome (ι M S T : Type) where
  st : S
  out : List (ι × M) := []
  rest : Option T := none

/-- The code the nodes run. `handle self st src msg` is the first segment of
the handler of a message; `resume self st t` is the next segment of a coroutine
suspended at `t`, or `none` while it is still blocked. -/
structure Protocol (ι M S T : Type) where
  handle : ι → S → ι → M → Outcome ι M S T
  resume : ι → S → T → Option (Outcome ι M S T)

/-- Who follows the protocol and who does not. -/
structure Parties (ι : Type) where
  correct : Finset ι
  byz : Finset ι
  disjoint : Disjoint correct byz

/-- All the nodes of the system. -/
def Parties.nodes [DecidableEq ι] (G : Parties ι) : Finset ι := G.correct ∪ G.byz

/-- A global state. -/
structure Config (ι M S T : Type) where
  st : ι → S
  tasks : ι → List T
  net : List (Envelope ι M)

/-- What happens next: a message in flight reaches its handler, a node outside
the protocol sends something, or a suspended coroutine goes on. -/
inductive Label (ι M T : Type) where
  | recv (e : Envelope ι M)
  | forge (e : Envelope ι M)
  | wake (i : ι) (t : T)
deriving DecidableEq

/-- The node whose coroutine the label runs. -/
def Label.node : Label ι M T → ι
  | .recv e => e.dst
  | .forge e => e.dst
  | .wake i _ => i

/-- A history: the labels taken so far, oldest first. -/
abbrev Trace (ι M T : Type) : Type := List (Label ι M T)

variable [DecidableEq ι]

theorem Parties.mem_nodes {G : Parties ι} {i : ι} :
    i ∈ G.nodes ↔ i ∈ G.correct ∨ i ∈ G.byz := Finset.mem_union

omit [DecidableEq ι] in
theorem Parties.not_byz {G : Parties ι} {i : ι} (hi : i ∈ G.correct) : i ∉ G.byz :=
  Finset.disjoint_left.mp G.disjoint hi

/-- Node `i` has run a segment with outcome `o`. -/
def Config.commit (c : Config ι M S T) (i : ι) (o : Outcome ι M S T) : Config ι M S T where
  st := Function.update c.st i o.st
  tasks := Function.update c.tasks i (o.rest.toList ++ c.tasks i)
  net := c.net ++ o.out.map fun dm => ⟨i, dm.1, dm.2⟩

/-- A message leaves the network. -/
def Config.take [DecidableEq M] (c : Config ι M S T) (e : Envelope ι M) : Config ι M S T :=
  { c with net := c.net.erase e }

/-- A coroutine leaves the suspended ones. -/
def Config.unpark [DecidableEq T] (c : Config ι M S T) (i : ι) (t : T) : Config ι M S T :=
  { c with tasks := Function.update c.tasks i ((c.tasks i).erase t) }

section Projections

variable (c : Config ι M S T) (i j : ι) (o : Outcome ι M S T)

@[simp] theorem Config.commit_st_self : (c.commit i o).st i = o.st := by
  simp [Config.commit]

theorem Config.commit_st_of_ne {c : Config ι M S T} {i j : ι} {o : Outcome ι M S T}
    (h : j ≠ i) : (c.commit i o).st j = c.st j := by
  simp [Config.commit, h]

@[simp] theorem Config.commit_tasks_self :
    (c.commit i o).tasks i = o.rest.toList ++ c.tasks i := by
  simp [Config.commit]

theorem Config.commit_tasks_of_ne {c : Config ι M S T} {i j : ι} {o : Outcome ι M S T}
    (h : j ≠ i) : (c.commit i o).tasks j = c.tasks j := by
  simp [Config.commit, h]

@[simp] theorem Config.mem_commit_net {e : Envelope ι M} :
    e ∈ (c.commit i o).net ↔ e ∈ c.net ∨ e.src = i ∧ (e.dst, e.msg) ∈ o.out := by
  simp only [Config.commit, List.mem_append, List.mem_map]
  refine or_congr_right ⟨?_, ?_⟩
  · rintro ⟨dm, hdm, rfl⟩
    exact ⟨rfl, hdm⟩
  · rintro ⟨rfl, h⟩
    exact ⟨(e.dst, e.msg), h, rfl⟩

end Projections

variable [DecidableEq M] [DecidableEq T]

/-- One step of the network. Only correct nodes run code, and what a Byzantine
node sends to a correct one is handled as soon as it is sent. -/
def step (P : Protocol ι M S T) (G : Parties ι) (c : Config ι M S T) :
    Label ι M T → Option (Config ι M S T)
  | .recv e =>
    if e ∈ c.net ∧ e.dst ∈ G.correct then
      some ((c.take e).commit e.dst (P.handle e.dst (c.st e.dst) e.src e.msg))
    else none
  | .forge e =>
    if e.src ∈ G.byz ∧ e.dst ∈ G.correct then
      some (c.commit e.dst (P.handle e.dst (c.st e.dst) e.src e.msg))
    else none
  | .wake i t =>
    if i ∈ G.correct ∧ t ∈ c.tasks i then
      (P.resume i (c.st i) t).map ((c.unpark i t).commit i)
    else none

/-- The label `l` runs a segment of node `i` with outcome `o`; `base` is the
configuration without the message or the suspended coroutine it consumes. -/
inductive Segment (P : Protocol ι M S T) (G : Parties ι) (c : Config ι M S T) :
    Label ι M T → ι → Outcome ι M S T → Config ι M S T → Prop
  | recv {e : Envelope ι M} (hnet : e ∈ c.net) (hdst : e.dst ∈ G.correct) :
      Segment P G c (.recv e) e.dst (P.handle e.dst (c.st e.dst) e.src e.msg) (c.take e)
  | forge {e : Envelope ι M} (hsrc : e.src ∈ G.byz) (hdst : e.dst ∈ G.correct) :
      Segment P G c (.forge e) e.dst (P.handle e.dst (c.st e.dst) e.src e.msg) c
  | wake {i : ι} {t : T} {o : Outcome ι M S T} (hi : i ∈ G.correct) (ht : t ∈ c.tasks i)
      (ho : P.resume i (c.st i) t = some o) :
      Segment P G c (.wake i t) i o (c.unpark i t)

variable {P : Protocol ι M S T} {G : Parties ι} {c c₀ c' base : Config ι M S T}
  {l : Label ι M T} {ls : Trace ι M T} {i : ι} {o : Outcome ι M S T}

/-- **Inversion of `step`**: every step is one segment of one correct node. -/
theorem step_iff :
    step P G c l = some c' ↔ ∃ i o base, Segment P G c l i o base ∧ c' = base.commit i o := by
  constructor
  · intro h
    cases l with
    | recv e =>
      rw [step, Option.ite_none_right_eq_some] at h
      obtain ⟨⟨hnet, hdst⟩, h⟩ := h
      exact ⟨_, _, _, .recv hnet hdst, (Option.some.inj h).symm⟩
    | forge e =>
      rw [step, Option.ite_none_right_eq_some] at h
      obtain ⟨⟨hsrc, hdst⟩, h⟩ := h
      exact ⟨_, _, _, .forge hsrc hdst, (Option.some.inj h).symm⟩
    | wake i t =>
      rw [step, Option.ite_none_right_eq_some, Option.map_eq_some_iff] at h
      obtain ⟨⟨hi, ht⟩, o, ho, rfl⟩ := h
      exact ⟨_, _, _, .wake hi ht ho, rfl⟩
  · rintro ⟨i, o, base, hseg, rfl⟩
    cases hseg with
    | recv hnet hdst => simp [step, hnet, hdst]
    | forge hsrc hdst => simp [step, hsrc, hdst]
    | wake hi ht ho => simp [step, hi, ht, ho]

namespace Segment

theorem correct (h : Segment P G c l i o base) : i ∈ G.correct := by
  cases h with
  | recv _ hdst => exact hdst
  | forge _ hdst => exact hdst
  | wake hi _ _ => exact hi

theorem node_eq (h : Segment P G c l i o base) : l.node = i := by
  cases h <;> rfl

/-- A segment consumes neither states … -/
theorem base_st (h : Segment P G c l i o base) : base.st = c.st := by
  cases h <;> rfl

/-- … nor coroutines of other nodes … -/
theorem base_tasks_of_ne (h : Segment P G c l i o base) {j : ι} (hj : j ≠ i) :
    base.tasks j = c.tasks j := by
  cases h with
  | recv _ _ => rfl
  | forge _ _ => rfl
  | wake _ _ _ => simp [Config.unpark, hj]

/-- … and creates none of its own node's. -/
theorem mem_tasks_of_mem_base (h : Segment P G c l i o base) {j : ι} {t : T}
    (ht : t ∈ base.tasks j) : t ∈ c.tasks j := by
  cases h with
  | recv _ _ => exact ht
  | forge _ _ => exact ht
  | @wake i t' _ _ _ _ =>
    change t ∈ Function.update c.tasks i ((c.tasks i).erase t') j at ht
    by_cases hj : j = i
    · subst hj
      rw [Function.update_self] at ht
      exact List.mem_of_mem_erase ht
    · rwa [Function.update_of_ne hj] at ht

/-- What is suspended at a node after its segment: the coroutine the segment leaves, and
those that were there before. -/
theorem mem_rest_or_tasks (h : Segment P G c l i o base) {t : T}
    (ht : t ∈ o.rest.toList ++ base.tasks i) : t ∈ o.rest ∨ t ∈ c.tasks i :=
  (List.mem_append.mp ht).imp Option.mem_toList.mp h.mem_tasks_of_mem_base

theorem mem_net_of_mem_base (h : Segment P G c l i o base) {e : Envelope ι M}
    (he : e ∈ base.net) : e ∈ c.net := by
  cases h with
  | recv _ _ => exact List.mem_of_mem_erase he
  | forge _ _ => exact he
  | wake _ _ _ => exact he

/-- A message a segment takes off the network is the one it handles. -/
theorem mem_base_net_or (h : Segment P G c l i o base) {e : Envelope ι M} (he : e ∈ c.net) :
    e ∈ base.net ∨ l = .recv e := by
  cases h with
  | @recv e' _ _ =>
    by_cases hee : e = e'
    · exact .inr (by rw [hee])
    · exact .inl ((List.mem_erase_of_ne hee).mpr he)
  | forge _ _ => exact .inl he
  | wake _ _ _ => exact .inl he

/-- A coroutine that leaves the suspended ones is the one that goes on. -/
theorem mem_base_tasks_or (h : Segment P G c l i o base) {t : T} (ht : t ∈ c.tasks i) :
    t ∈ base.tasks i ∨ l = .wake i t := by
  cases h with
  | recv _ _ => exact .inl ht
  | forge _ _ => exact .inl ht
  | @wake i t' o _ _ _ =>
    by_cases htt : t = t'
    · exact .inr (by rw [htt])
    · refine .inl ?_
      show t ∈ Function.update c.tasks i ((c.tasks i).erase t') i
      rw [Function.update_self]
      exact (List.mem_erase_of_ne htt).mpr ht

/-- A received message has been in flight. -/
theorem mem_net {e : Envelope ι M} (h : Segment P G c (.recv e) i o base) : e ∈ c.net := by
  cases h with
  | recv hnet _ => exact hnet

/-- A label determines its segment. -/
theorem unique {i' : ι} {o' : Outcome ι M S T} {base' : Config ι M S T}
    (h : Segment P G c l i o base) (h' : Segment P G c l i' o' base') :
    i = i' ∧ o = o' ∧ base = base' := by
  cases h with
  | recv _ _ => cases h'; exact ⟨rfl, rfl, rfl⟩
  | forge _ _ => cases h'; exact ⟨rfl, rfl, rfl⟩
  | wake _ _ ho =>
    cases h' with
    | wake _ _ ho' => exact ⟨rfl, Option.some.inj (ho.symm.trans ho'), rfl⟩

end Segment

/-! ## Invariants, node by node and message by message -/

/-- An invariant of the network: what holds of each correct node's state and
suspended coroutines, and of each message in flight, given the history. -/
structure Assertion (ι M S T : Type) where
  node : Trace ι M T → ι → S → List T → Prop
  msg : Trace ι M T → Envelope ι M → Prop

/-- The assertion holds of a configuration after a history: of the correct
nodes, and of every message in flight or already taken off the network. -/
structure Assertion.Holds (A : Assertion ι M S T) (G : Parties ι)
    (ls : Trace ι M T) (c : Config ι M S T) : Prop where
  node : ∀ i ∈ G.correct, A.node ls i (c.st i) (c.tasks i)
  msg : ∀ e ∈ c.net, A.msg ls e
  received : ∀ e, .recv e ∈ ls → A.msg ls e

/-- What has to be shown of an assertion: it holds at the start, it survives
the steps of other nodes, and every segment re-establishes it for the node that
ran and for the messages it sent. A segment may be assumed to satisfy `cond`. -/
structure Assertion.Inductive (A : Assertion ι M S T) (P : Protocol ι M S T) (G : Parties ι)
    (c₀ : Config ι M S T)
    (cond : Trace ι M T → Config ι M S T → Label ι M T → Prop) : Prop where
  init : A.Holds G [] c₀
  node_mono : ∀ {ls l i s ts}, l.node ≠ i → A.node ls i s ts → A.node (ls ++ [l]) i s ts
  msg_mono : ∀ {ls l e}, A.msg ls e → A.msg (ls ++ [l]) e
  segment : ∀ {ls c l i o base}, exec (step P G) c₀ ls = some c → A.Holds G ls c →
    cond ls c l → Segment P G c l i o base →
    A.node (ls ++ [l]) i o.st (o.rest.toList ++ base.tasks i) ∧
      ∀ dm ∈ o.out, A.msg (ls ++ [l]) ⟨i, dm.1, dm.2⟩

/-- One step keeps an inductive assertion. -/
theorem Assertion.Inductive.step {A : Assertion ι M S T} {cond}
    (hA : A.Inductive P G c₀ cond) (hc : exec (step P G) c₀ ls = some c)
    (h : A.Holds G ls c) (hcond : cond ls c l) (hl : Async.step P G c l = some c') :
    A.Holds G (ls ++ [l]) c' := by
  obtain ⟨i, o, base, hseg, rfl⟩ := step_iff.mp hl
  obtain ⟨hnode, hout⟩ := hA.segment hc h hcond hseg
  refine ⟨fun j hj => ?_, fun e he => ?_, fun e he => ?_⟩
  · by_cases hji : j = i
    · subst hji
      rwa [Config.commit_st_self, Config.commit_tasks_self]
    · rw [Config.commit_st_of_ne hji, Config.commit_tasks_of_ne hji, hseg.base_st,
        hseg.base_tasks_of_ne hji]
      exact hA.node_mono (by rw [hseg.node_eq]; exact Ne.symm hji) (h.node j hj)
  · rcases (Config.mem_commit_net _ _ _).mp he with hold | ⟨rfl, hnew⟩
    · exact hA.msg_mono (h.msg e (hseg.mem_net_of_mem_base hold))
    · exact hout (e.dst, e.msg) hnew
  · rcases List.mem_append.mp he with hold | hnew
    · exact hA.msg_mono (h.received e hold)
    · obtain rfl : .recv e = l := by simpa using hnew
      cases hseg with
      | recv hnet _ => exact hA.msg_mono (h.msg e hnet)

/-- **The assertion rule, under a condition on the steps.** -/
theorem Assertion.holds_of_meets {A : Assertion ι M S T} {cond}
    (hA : A.Inductive P G c₀ cond) :
    ∀ ls c, exec (Async.step P G) c₀ ls = some c → Meets (Async.step P G) c₀ cond ls →
      A.Holds G ls c := by
  refine run_induction (P := fun (ls : Trace ι M T) (c : Config ι M S T) =>
    Meets (Async.step P G) c₀ cond ls → A.Holds G ls c) (fun _ => hA.init) ?_
  intro ls c l c' hc ih hl hmeets
  exact hA.step hc (ih hmeets.prefix) (hmeets.last hc) hl

/-- **The assertion rule.** -/
theorem Assertion.holds_of_run {A : Assertion ι M S T}
    (hA : A.Inductive P G c₀ fun _ _ _ => True)
    (hc : exec (Async.step P G) c₀ ls = some c) : A.Holds G ls c :=
  Assertion.holds_of_meets hA ls c hc fun _ _ _ _ _ _ => trivial

/-! ## Nothing is lost, nothing is made up -/

/-- In this step node `i` hands the message `m` for `d` to the transport. -/
def Sends (P : Protocol ι M S T) (G : Parties ι) (i d : ι) (m : M)
    (c : Config ι M S T) (l : Label ι M T) : Prop :=
  ∃ o base, Segment P G c l i o base ∧ (d, m) ∈ o.out

/-- The handler of a message from `src` was started at node `i`. -/
def Handled (ls : Trace ι M T) (i src : ι) (m : M) : Prop :=
  .recv ⟨src, i, m⟩ ∈ ls ∨ .forge ⟨src, i, m⟩ ∈ ls

/-- The message a label hands to a handler. -/
def Label.envelope : Label ι M T → Option (Envelope ι M)
  | .recv e => some e
  | .forge e => some e
  | .wake _ _ => none

/-- The messages whose handlers have been started, oldest first. -/
def envelopes (ls : Trace ι M T) : List (Envelope ι M) := ls.filterMap Label.envelope

omit [DecidableEq ι] [DecidableEq M] [DecidableEq T] in
theorem mem_envelopes {e : Envelope ι M} :
    e ∈ envelopes ls ↔ Handled ls e.dst e.src e.msg := by
  rw [envelopes, List.mem_filterMap]
  constructor
  · rintro ⟨l, hl, hle⟩
    cases l with
    | recv e' => exact .inl (by simpa [Label.envelope, ← Option.some.inj hle] using hl)
    | forge e' => exact .inr (by simpa [Label.envelope, ← Option.some.inj hle] using hl)
    | wake i t => simp [Label.envelope] at hle
  · rintro (h | h)
    · exact ⟨_, h, rfl⟩
    · exact ⟨_, h, rfl⟩

omit [DecidableEq ι] [DecidableEq M] [DecidableEq T] in
theorem Handled.append {src : ι} {m : M} {ls' : Trace ι M T} (h : Handled ls i src m) :
    Handled (ls ++ ls') i src m :=
  h.imp (List.mem_append_left _) (List.mem_append_left _)

omit [DecidableEq ι] [DecidableEq M] [DecidableEq T] in
theorem Handled.of_append {src : ι} {m : M} {ls' : Trace ι M T}
    (h : Handled (ls ++ ls') i src m) : Handled ls i src m ∨ Handled ls' i src m := by
  rcases h with h | h
  all_goals rcases List.mem_append.mp h with h | h
  · exact .inl (.inl h)
  · exact .inr (.inl h)
  · exact .inl (.inr h)
  · exact .inr (.inr h)

/-- A message that was sent has been handled or is still in flight. -/
theorem handled_or_in_flight {d : ι} {m : M} :
    ∀ ls c, exec (step P G) c₀ ls = some c → Occurs (step P G) c₀ ls (Sends P G i d m) →
      Label.recv ⟨i, d, m⟩ ∈ ls ∨ (⟨i, d, m⟩ : Envelope ι M) ∈ c.net := by
  refine run_induction (P := fun (ls : Trace ι M T) (c : Config ι M S T) =>
    Occurs (step P G) c₀ ls (Sends P G i d m) →
      Label.recv ⟨i, d, m⟩ ∈ ls ∨ (⟨i, d, m⟩ : Envelope ι M) ∈ c.net) ?_ ?_
  · intro hocc
    exact absurd hocc not_occurs_nil
  · intro ls c l c' hc ih hl hocc
    obtain ⟨j, o, base, hseg, rfl⟩ := step_iff.mp hl
    rcases hocc.last_or hc with hocc | ⟨o', base', hseg', hout⟩
    · rcases ih hocc with hrecv | hnet
      · exact .inl (List.mem_append_left _ hrecv)
      · rcases hseg.mem_base_net_or hnet with hbase | rfl
        · exact .inr ((Config.mem_commit_net _ _ _).mpr (.inl hbase))
        · exact .inl (by simp)
    · obtain ⟨rfl, rfl, rfl⟩ := hseg'.unique hseg
      exact .inr ((Config.mem_commit_net _ _ _).mpr (.inr ⟨rfl, hout⟩))

/-- Every message in flight was sent by a correct node. -/
theorem sent_of_in_flight (hnet : c₀.net = []) :
    ∀ ls c, exec (step P G) c₀ ls = some c → ∀ e ∈ c.net,
      e.src ∈ G.correct ∧ Occurs (step P G) c₀ ls (Sends P G e.src e.dst e.msg) := by
  refine run_induction (P := fun (ls : Trace ι M T) (c : Config ι M S T) => ∀ e ∈ c.net,
    e.src ∈ G.correct ∧ Occurs (step P G) c₀ ls (Sends P G e.src e.dst e.msg)) ?_ ?_
  · intro e he
    rw [hnet] at he
    simp at he
  · intro ls c l c' hc ih hl e he
    obtain ⟨j, o, base, hseg, rfl⟩ := step_iff.mp hl
    rcases (Config.mem_commit_net _ _ _).mp he with he | ⟨hsrc, he⟩
    · obtain ⟨hcorr, hocc⟩ := ih e (hseg.mem_net_of_mem_base he)
      exact ⟨hcorr, hocc.append⟩
    · rw [hsrc]
      exact ⟨hseg.correct, occurs_last hc ⟨o, base, hseg, he⟩⟩

/-- Every message taken off the network was sent by a correct node. -/
theorem sent_of_received (hnet : c₀.net = []) :
    ∀ ls c, exec (step P G) c₀ ls = some c → ∀ e, .recv e ∈ ls →
      e.src ∈ G.correct ∧ Occurs (step P G) c₀ ls (Sends P G e.src e.dst e.msg) := by
  refine run_induction (P := fun (ls : Trace ι M T) (_ : Config ι M S T) => ∀ e, .recv e ∈ ls →
    e.src ∈ G.correct ∧ Occurs (step P G) c₀ ls (Sends P G e.src e.dst e.msg)) (by simp) ?_
  intro ls c l c' hc ih hl e he
  rcases List.mem_append.mp he with hold | hnew
  · obtain ⟨hcorr, hocc⟩ := ih e hold
    exact ⟨hcorr, hocc.append⟩
  · obtain rfl : .recv e = l := by simpa using hnew
    obtain ⟨j, o, base, hseg, rfl⟩ := step_iff.mp hl
    cases hseg with
    | recv he _ =>
      obtain ⟨hcorr, hocc⟩ := sent_of_in_flight hnet ls c hc e he
      exact ⟨hcorr, hocc.append⟩

/-- What a node outside the protocol sends is sent under its own identity. -/
theorem byz_of_forged {e : Envelope ι M} :
    ∀ ls c, exec (step P G) c₀ ls = some c → .forge e ∈ ls → e.src ∈ G.byz := by
  refine run_induction (P := fun (ls : Trace ι M T) (_ : Config ι M S T) => .forge e ∈ ls →
    e.src ∈ G.byz) (by simp) ?_
  intro ls c l c' hc ih hl he
  rcases List.mem_append.mp he with hold | hnew
  · exact ih hold
  · obtain rfl : .forge e = l := by simpa using hnew
    obtain ⟨j, o, base, hseg, rfl⟩ := step_iff.mp hl
    cases hseg with
    | forge hsrc _ => exact hsrc

/-- A handled message from a correct node came over the network. -/
theorem Handled.received {src : ι} {m : M} (h : Handled ls i src m)
    (hc : exec (step P G) c₀ ls = some c) (hsrc : src ∈ G.correct) :
    .recv ⟨src, i, m⟩ ∈ ls := by
  rcases h with h | h
  · exact h
  · exact absurd (byz_of_forged ls c hc h) (Parties.not_byz hsrc)

/-- Messages come from nodes of the system. -/
theorem Handled.src_mem_nodes {src : ι} {m : M} (h : Handled ls i src m)
    (hc : exec (step P G) c₀ ls = some c) (hnet : c₀.net = []) : src ∈ G.nodes := by
  rcases h with h | h
  · exact Parties.mem_nodes.mpr (.inl (sent_of_received hnet ls c hc _ h).1)
  · exact Parties.mem_nodes.mpr (.inr (byz_of_forged ls c hc h))

/-- What an assertion says of messages it says of every handled message of a
correct node, the one being handled included. -/
theorem Assertion.Holds.msg_of_handled {A : Assertion ι M S T} {src d : ι} {m : M}
    (hA : A.Holds G ls c) (hc : exec (step P G) c₀ ls = some c) (hseg : Segment P G c l i o base)
    (h : Handled (ls ++ [l]) d src m) (hsrc : src ∈ G.correct) : A.msg ls ⟨src, d, m⟩ := by
  have hstep : step P G c l = some (base.commit i o) := step_iff.mpr ⟨i, o, base, hseg, rfl⟩
  rcases List.mem_append.mp (h.received (exec_snoc hc hstep) hsrc) with hold | hnew
  · exact hA.received _ hold
  · obtain rfl : .recv ⟨src, d, m⟩ = l := by simpa using hnew
    cases hseg with
    | recv hnet _ => exact hA.msg _ hnet

/-! ## Messages that are sent once -/

/-- A message that no segment sends twice, or sends again, is at any time in flight at
most once, and is not in flight any more when it has been received. -/
theorem received_once {cond : Trace ι M T → Config ι M S T → Label ι M T → Prop} {d : ι} {m : M}
    (hnet : c₀.net = [])
    (hsends : ∀ ls c l o base, exec (step P G) c₀ ls = some c → Meets (step P G) c₀ cond ls →
      cond ls c l → Segment P G c l i o base → (d, m) ∈ o.out →
        o.out.count (d, m) = 1 ∧ ¬ Occurs (step P G) c₀ ls (Sends P G i d m)) :
    ∀ ls c, exec (step P G) c₀ ls = some c → Meets (step P G) c₀ cond ls →
      c.net.count ⟨i, d, m⟩ ≤ 1 ∧
        (.recv ⟨i, d, m⟩ ∈ ls → (⟨i, d, m⟩ : Envelope ι M) ∉ c.net) := by
  refine run_induction (P := fun (ls : Trace ι M T) (c : Config ι M S T) =>
    Meets (step P G) c₀ cond ls → c.net.count ⟨i, d, m⟩ ≤ 1 ∧
      (.recv ⟨i, d, m⟩ ∈ ls → (⟨i, d, m⟩ : Envelope ι M) ∉ c.net)) ?_ ?_
  · simp [hnet]
  intro ls c l c' hc ih hl hmeets
  obtain ⟨hcount, hrecv⟩ := ih hmeets.prefix
  obtain ⟨j, o, base, hseg, rfl⟩ := step_iff.mp hl
  by_cases hsend : j = i ∧ (d, m) ∈ o.out
  · obtain ⟨rfl, hout⟩ := hsend
    obtain ⟨hone, hfirst⟩ := hsends ls c l o base hc hmeets.prefix (hmeets.last hc) hseg hout
    have hnew : (⟨j, d, m⟩ : Envelope ι M) ∉ c.net :=
      fun hmem => hfirst (sent_of_in_flight hnet ls c hc _ hmem).2
    refine ⟨?_, fun hmem => ?_⟩
    · have hbase : base.net.count ⟨j, d, m⟩ = 0 :=
        List.count_eq_zero.mpr fun hmem => hnew (hseg.mem_net_of_mem_base hmem)
      have hinj : Function.Injective fun dm : ι × M => (⟨j, dm.1, dm.2⟩ : Envelope ι M) := by
        rintro ⟨_, _⟩ ⟨_, _⟩ h
        cases h
        rfl
      have hmap := List.count_map_of_injective o.out _ hinj (d, m)
      rw [Config.commit, List.count_append, hbase, hmap, hone]
    · rcases List.mem_append.mp hmem with hold | hlast
      · exact absurd (sent_of_received hnet ls c hc _ hold).2 hfirst
      · obtain rfl : .recv ⟨j, d, m⟩ = l := by simpa using hlast
        exact absurd hseg.mem_net hnew
  · -- the message is not sent: it is in flight only if it was
    have hzero : (o.out.map fun dm => (⟨j, dm.1, dm.2⟩ : Envelope ι M)).count ⟨i, d, m⟩ = 0 := by
      refine List.count_eq_zero.mpr fun hmem => ?_
      obtain ⟨dm, hdm, heq⟩ := List.mem_map.mp hmem
      cases heq
      exact hsend ⟨rfl, hdm⟩
    have hcommit : (base.commit j o).net.count ⟨i, d, m⟩ = base.net.count ⟨i, d, m⟩ := by
      rw [Config.commit, List.count_append, hzero, Nat.add_zero]
    have hnot {e : Envelope ι M} (he : e = ⟨i, d, m⟩) (hbase : e ∉ base.net) :
        e ∉ (base.commit j o).net := by
      subst he
      rw [← List.count_eq_zero, hcommit, List.count_eq_zero]
      exact hbase
    refine ⟨?_, fun hmem => ?_⟩
    · rw [hcommit]
      refine le_trans ?_ hcount
      cases hseg with
      | recv _ _ => exact List.Sublist.count_le _ List.erase_sublist
      | forge _ _ => exact le_rfl
      | wake _ _ _ => exact le_rfl
    · rcases List.mem_append.mp hmem with hold | hlast
      · exact hnot rfl fun hbase => hrecv hold (hseg.mem_net_of_mem_base hbase)
      · obtain rfl : .recv ⟨i, d, m⟩ = l := by simpa using hlast
        refine hnot rfl ?_
        cases hseg with
        | recv hin _ =>
          rw [← List.count_eq_zero, Config.take, List.count_erase_self]
          omega

/-! ## One node of a network -/

/-- A node with its suspended coroutines. -/
structure Solo (S T : Type) where
  st : S
  tasks : List T

/-- What happens to a node: a handler is started, or a suspended coroutine goes on. -/
inductive SoloLabel (ι M T : Type) where
  | handle (src : ι) (msg : M)
  | wake (t : T)
deriving DecidableEq

/-- What a label of the network is to node `i`. -/
def Label.at (i : ι) : Label ι M T → Option (SoloLabel ι M T)
  | .recv e | .forge e => if e.dst = i then some (.handle e.src e.msg) else none
  | .wake j t => if j = i then some (.wake t) else none

/-- Node `i` on its own: anyone may send it anything. -/
def Protocol.alone (P : Protocol ι M S T) (i : ι) (x : Solo S T) :
    SoloLabel ι M T → Option (Solo S T)
  | .handle src msg =>
    let o := P.handle i x.st src msg
    some ⟨o.st, o.rest.toList ++ x.tasks⟩
  | .wake t =>
    if t ∈ x.tasks then
      (P.resume i x.st t).map fun o => ⟨o.st, o.rest.toList ++ x.tasks.erase t⟩
    else none

/-- The label runs a segment of node `i` with outcome `o`; `ts` are the other
coroutines. -/
inductive Solo.Segment (P : Protocol ι M S T) (i : ι) (x : Solo S T) :
    SoloLabel ι M T → Outcome ι M S T → List T → Prop
  | handle {src : ι} {msg : M} :
      Solo.Segment P i x (.handle src msg) (P.handle i x.st src msg) x.tasks
  | wake {t : T} {o : Outcome ι M S T} (ht : t ∈ x.tasks) (ho : P.resume i x.st t = some o) :
      Solo.Segment P i x (.wake t) o (x.tasks.erase t)

omit [DecidableEq ι] [DecidableEq M] in
/-- **Inversion of `alone`.** -/
theorem Protocol.alone_iff {x x' : Solo S T} {l : SoloLabel ι M T} :
    P.alone i x l = some x' ↔
      ∃ o ts, Solo.Segment P i x l o ts ∧ x' = ⟨o.st, o.rest.toList ++ ts⟩ := by
  constructor
  · intro h
    cases l with
    | handle src msg => exact ⟨_, _, .handle, (Option.some.inj h).symm⟩
    | wake t =>
      obtain ⟨ht, h⟩ := Option.ite_none_right_eq_some.mp h
      obtain ⟨o, ho, rfl⟩ := Option.map_eq_some_iff.mp h
      exact ⟨o, _, .wake ht ho, rfl⟩
  · rintro ⟨o, ts, hseg, rfl⟩
    cases hseg with
    | handle => rfl
    | wake ht ho => simp [Protocol.alone, ht, ho]

/-- A run of the network is a run of each of its nodes on its own. -/
theorem alone_of_run (hi : i ∈ G.correct) :
    ∀ ls c, exec (step P G) c₀ ls = some c →
      exec (P.alone i) ⟨c₀.st i, c₀.tasks i⟩ (ls.filterMap (Label.at i)) =
        some ⟨c.st i, c.tasks i⟩ := by
  refine run_induction (P := fun (ls : Trace ι M T) (c : Config ι M S T) =>
    exec (P.alone i) ⟨c₀.st i, c₀.tasks i⟩ (ls.filterMap (Label.at i)) =
      some ⟨c.st i, c.tasks i⟩) rfl ?_
  intro ls c l c' hc ih hl
  obtain ⟨j, o, base, hseg, rfl⟩ := step_iff.mp hl
  rw [List.filterMap_append]
  by_cases hj : i = j
  · subst hj
    -- the node runs this segment
    have hrun {k : SoloLabel ι M T} (hk : l.at i = some k)
        (halone : P.alone i ⟨c.st i, c.tasks i⟩ k = some ⟨o.st, o.rest.toList ++ base.tasks i⟩) :
        exec (P.alone i) ⟨c₀.st i, c₀.tasks i⟩
          (ls.filterMap (Label.at i) ++ [l].filterMap (Label.at i)) =
            some ⟨(base.commit i o).st i, (base.commit i o).tasks i⟩ := by
      rw [Config.commit_st_self, Config.commit_tasks_self, List.filterMap_cons, hk]
      exact exec_snoc ih halone
    cases hseg with
    | recv _ _ =>
      exact hrun (k := .handle _ _) (if_pos rfl) (Protocol.alone_iff.mpr ⟨_, _, .handle, rfl⟩)
    | forge _ _ =>
      exact hrun (k := .handle _ _) (if_pos rfl) (Protocol.alone_iff.mpr ⟨_, _, .handle, rfl⟩)
    | wake _ ht ho =>
      refine hrun (k := .wake _) (if_pos rfl) (Protocol.alone_iff.mpr ⟨_, _, .wake ht ho, ?_⟩)
      exact congrArg _ (congrArg _ (Function.update_self i _ _))
  · have hnone : l.at i = none := by
      have hnode : l.node ≠ i := fun h => hj (h.symm.trans hseg.node_eq)
      cases l <;> exact if_neg hnode
    rw [List.filterMap_cons, hnone, List.filterMap_nil, List.append_nil,
      Config.commit_st_of_ne hj, Config.commit_tasks_of_ne hj, hseg.base_st,
      hseg.base_tasks_of_ne hj]
    exact ih

/-! ## A scheduler -/

/-- What can happen next in a configuration: a coroutine of one of the nodes goes
on, or else the oldest message to a correct node is handled. -/
def pending (G : Parties ι) (order : List ι) (c : Config ι M S T) : Option (Label ι M T) :=
  (order.findSome? fun i => (c.tasks i).head?.map (.wake i)).or
    ((c.net.find? fun e => e.dst ∈ G.correct).map .recv)

/-- The history of at most `n` steps in which whatever can happen happens. -/
def schedule (P : Protocol ι M S T) (G : Parties ι) (order : List ι) :
    Nat → Config ι M S T → Trace ι M T
  | 0, _ => []
  | n + 1, c =>
    match pending G order c with
    | none => []
    | some l =>
      match step P G c l with
      | none => []
      | some c' => l :: schedule P G order n c'

/-- The scheduler makes nobody outside the protocol say anything. -/
theorem forge_not_mem_schedule {order : List ι} {n : Nat} {e : Envelope ι M} :
    .forge e ∉ schedule P G order n c := by
  induction n generalizing c with
  | zero => exact List.not_mem_nil
  | succ n ih =>
    rw [schedule]
    split
    · exact List.not_mem_nil
    · rename_i l hl
      split
      · exact List.not_mem_nil
      · intro he
        rcases List.mem_cons.mp he with rfl | he
        · rcases Option.or_eq_some_iff.mp hl with hl | ⟨-, hl⟩
          · obtain ⟨i, -, hl⟩ := List.exists_of_findSome?_eq_some hl
            obtain ⟨t, -, hl⟩ := Option.map_eq_some_iff.mp hl
            cases hl
          · obtain ⟨e', -, hl⟩ := Option.map_eq_some_iff.mp hl
            cases hl
        · exact ih he

end DistBench.Async
