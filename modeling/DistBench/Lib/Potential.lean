import DistBench.Lib.Async

/-!
# Potentials

Facts about the runs of a network from weights given locally: how much a node's
state, a suspended coroutine and a message in flight can still cause. The
weights of a configuration add up to its potential. A run is no longer than the
potential it starts with if every segment leaves behind less than it consumes;
and if every segment leaves behind as much as it consumes, the potential stays
what it is. What is added up is a number in the first case and anything that can
be added up, a multiset of events for instance, in the second.

- `Weights`, `Weights.config`: weights and the potential of a configuration.
- `Weights.config_commit`: what one segment does to the potential.
- `Weights.config_eq`: the potential of a run in which nothing is lost or made.
- `Weights.length_le`: the bound on runs.
- `emitted`, `Weights.tally_price_le`, `Weights.tally_le`: the bound on what is sent in runs
  under a condition.
- `Invariant.Spends`, `Invariant.Spending.run`: predicates on states, coroutines and
  messages that every segment keeps while it leaves behind less than it consumes.
-/

namespace DistBench.Async

variable {ι M S T W : Type}

/-- How much there is still to come from a state, a suspended coroutine and a
message in flight. -/
structure Weights (ι M S T : Type) (W : Type := Nat) where
  st : ι → S → W
  task : ι → T → W
  msg : Envelope ι M → W

namespace Weights

section Sums

variable [AddCommMonoid W] (w : Weights ι M S T W)

/-- The weight of what a segment of node `i` leaves behind. -/
def outcome (i : ι) (o : Outcome ι M S T) : W :=
  w.st i o.st + (o.rest.toList.map (w.task i)).sum +
    (o.out.map fun dm => w.msg ⟨i, dm.1, dm.2⟩).sum

/-- The weight of the message or the coroutine a label consumes. -/
def label : Label ι M T → W
  | .recv e => w.msg e
  | .forge _ => 0
  | .wake i t => w.task i t

/-- The weight of a node's state and its suspended coroutines. -/
def node (c : Config ι M S T) (i : ι) : W :=
  w.st i (c.st i) + ((c.tasks i).map (w.task i)).sum

/-- The potential of a configuration. -/
def config (G : Parties ι) (c : Config ι M S T) : W :=
  ∑ i ∈ G.correct, w.node c i + (c.net.map w.msg).sum

variable [DecidableEq ι] [DecidableEq M] [DecidableEq T] {P : Protocol ι M S T} {G : Parties ι}
  {c c₀ base : Config ι M S T} {l : Label ι M T} {ls : Trace ι M T} {i : ι}
  {o : Outcome ι M S T}

omit [DecidableEq M] [DecidableEq T] in
/-- A sum without one of its terms. -/
theorem sum_map_erase_add {α : Type} [DecidableEq α] {a : α} {xs : List α} (f : α → W)
    (ha : a ∈ xs) : ((xs.erase a).map f).sum + f a = (xs.map f).sum := by
  rw [((List.perm_cons_erase ha).map f).sum_eq, List.map_cons, List.sum_cons, add_comm]

/-- What a segment consumes has been part of the weight of its node and of the
messages in flight. -/
theorem node_base_add_net (hseg : Segment P G c l i o base) :
    w.node base i + (base.net.map w.msg).sum + w.label l =
      w.node c i + (c.net.map w.msg).sum := by
  cases hseg with
  | @recv e hnet _ =>
    show w.node c e.dst + ((c.net.erase e).map w.msg).sum + w.msg e = _
    rw [← sum_map_erase_add w.msg hnet, add_assoc]
  | forge _ _ => exact add_zero _
  | @wake _ t _ _ ht _ =>
    simp only [node, label, Config.unpark, Function.update_self]
    rw [← sum_map_erase_add (w.task i) ht]
    abel

/-- **What a segment does to the potential**: it takes the weights of what it
consumes and of the old state, and adds those of what it leaves behind. -/
theorem config_commit (hseg : Segment P G c l i o base) :
    w.config G (base.commit i o) + (w.label l + w.st i (c.st i)) =
      w.config G c + w.outcome i o := by
  have hi := hseg.correct
  -- every other node keeps its weight
  have hothers : ∑ j ∈ G.correct.erase i, w.node (base.commit i o) j =
      ∑ j ∈ G.correct.erase i, w.node c j := by
    refine Finset.sum_congr rfl fun j hj => ?_
    have hji := Finset.ne_of_mem_erase hj
    rw [node, node, Config.commit_st_of_ne hji, Config.commit_tasks_of_ne hji, hseg.base_st,
      hseg.base_tasks_of_ne hji]
  have hself : w.node (base.commit i o) i =
      w.st i o.st + (o.rest.toList.map (w.task i)).sum + ((base.tasks i).map (w.task i)).sum := by
    rw [node, Config.commit_st_self, Config.commit_tasks_self, List.map_append,
      List.sum_append, add_assoc]
  have hnet : ((base.commit i o).net.map w.msg).sum =
      (base.net.map w.msg).sum + (o.out.map fun dm => w.msg ⟨i, dm.1, dm.2⟩).sum := by
    rw [Config.commit, List.map_append, List.sum_append, List.map_map]
    rfl
  have hbase := w.node_base_add_net hseg
  rw [show w.node base i = w.st i (c.st i) + ((base.tasks i).map (w.task i)).sum by
    rw [node, hseg.base_st]] at hbase
  have hsplit (c : Config ι M S T) : w.config G c =
      ∑ j ∈ G.correct.erase i, w.node c j + (w.node c i + (c.net.map w.msg).sum) := by
    rw [config, ← Finset.sum_erase_add _ _ hi, add_assoc]
  rw [hsplit, hsplit, hothers, hself, hnet, ← hbase, outcome]
  abel

/-- **What segments neither lose nor make stays.** -/
theorem config_eq [IsCancelAdd W]
    (hsame : ∀ ls c l i o base, exec (step P G) c₀ ls = some c → Segment P G c l i o base →
      w.outcome i o = w.label l + w.st i (c.st i)) :
    ∀ ls c, exec (step P G) c₀ ls = some c → w.config G c = w.config G c₀ := by
  refine run_induction (P := fun (_ : Trace ι M T) (c : Config ι M S T) =>
    w.config G c = w.config G c₀) rfl ?_
  intro ls c l c' hc ih hl
  obtain ⟨i, o, base, hseg, rfl⟩ := step_iff.mp hl
  have heq := w.config_commit hseg
  rw [hsame ls c l i o base hc hseg] at heq
  exact (add_right_cancel heq).trans ih

end Sums

variable (w : Weights ι M S T) [DecidableEq ι] [DecidableEq M] [DecidableEq T]
  {P : Protocol ι M S T} {G : Parties ι} {c c₀ : Config ι M S T} {ls : Trace ι M T}

/-- **The bound on runs**: if every segment leaves behind less than it consumes,
no run takes more steps than the initial potential. -/
theorem length_le
    (hdec : ∀ ls c l i o base, exec (step P G) c₀ ls = some c → Segment P G c l i o base →
      w.outcome i o < w.label l + w.st i (c.st i))
    (hc : exec (step P G) c₀ ls = some c) : ls.length ≤ w.config G c₀ := by
  have hstep : ∀ ls c l c', exec (step P G) c₀ ls = some c → step P G c l = some c' →
      w.config G c' < w.config G c := by
    intro ls c l c' hc hl
    obtain ⟨i, o, base, hseg, rfl⟩ := step_iff.mp hl
    have heq := w.config_commit hseg
    have hlt := hdec ls c l i o base hc hseg
    omega
  have hmeasure := length_add_measure_le hstep ls c hc
  omega

end Weights

/-! ## What is sent -/

section Emitted

variable [DecidableEq ι] [DecidableEq M] [DecidableEq T] {P : Protocol ι M S T} {G : Parties ι}
  {c c₀ base : Config ι M S T} {l : Label ι M T} {i : ι} {o : Outcome ι M S T}

omit [DecidableEq ι] [DecidableEq M] [DecidableEq T] in
/-- The messages a step hands to the transport. -/
def emitted (P : Protocol ι M S T) (c : Config ι M S T) : Label ι M T → List (ι × M)
  | .recv e | .forge e => (P.handle e.dst (c.st e.dst) e.src e.msg).out
  | .wake i t => (P.resume i (c.st i) t).elim [] Outcome.out

/-- The sum of an indicator is a count. -/
theorem sum_map_ite {α : Type} (p : α → Prop) [DecidablePred p] (xs : List α) :
    (xs.map fun x => if p x then 1 else 0).sum = xs.countP (p ·) := by
  induction xs with
  | nil => rfl
  | cons x xs ih =>
    rw [List.map_cons, List.sum_cons, ih, List.countP_cons, Nat.add_comm]
    simp only [decide_eq_true_eq]

theorem Segment.emitted_eq (h : Segment P G c l i o base) : emitted P c l = o.out := by
  cases h with
  | recv _ _ | forge _ _ => rfl
  | wake _ _ ho => rw [emitted, ho, Option.elim_some]

/-- Where every segment pays a price for each message it sends, the prices of all that is
sent add up to no more than the initial potential. -/
theorem Weights.tally_price_le (w : Weights ι M S T) (price : ι → ι × M → Nat)
    {cond : Trace ι M T → Config ι M S T → Label ι M T → Prop}
    (hdec : ∀ ls c l i o base, exec (step P G) c₀ ls = some c → cond ls c l →
      Segment P G c l i o base →
      (o.out.map (price i)).sum + w.outcome i o ≤ w.label l + w.st i (c.st i)) :
    ∀ ls c, exec (step P G) c₀ ls = some c → Meets (step P G) c₀ cond ls →
      tally (step P G) (fun c l => ((emitted P c l).map (price l.node)).sum) c₀ ls ≤
        w.config G c₀ := by
  intro ls c hc hmeets
  have hpays : ∀ ls c l c', exec (step P G) c₀ ls = some c → cond ls c l →
      step P G c l = some c' →
      ((emitted P c l).map (price l.node)).sum + w.config G c' ≤ w.config G c := by
    intro ls c l c' hc hcond hl
    obtain ⟨i, o, base, hseg, rfl⟩ := step_iff.mp hl
    have heq := w.config_commit hseg
    have hstep := hdec ls c l i o base hc hcond hseg
    rw [hseg.emitted_eq, hseg.node_eq]
    omega
  have hle := tally_add_le_of_meets hpays ls c hc hmeets
  omega

/-- Where every segment pays for what it sends, no more is sent than the initial potential. -/
theorem Weights.tally_le (w : Weights ι M S T)
    {cond : Trace ι M T → Config ι M S T → Label ι M T → Prop}
    (hdec : ∀ ls c l i o base, exec (step P G) c₀ ls = some c → cond ls c l →
      Segment P G c l i o base → o.out.length + w.outcome i o ≤ w.label l + w.st i (c.st i)) :
    ∀ ls c, exec (step P G) c₀ ls = some c → Meets (step P G) c₀ cond ls →
      tally (step P G) (fun c l => (emitted P c l).length) c₀ ls ≤ w.config G c₀ := by
  intro ls c hc hmeets
  have h := w.tally_price_le (fun _ _ => 1)
    (fun ls c l i o base hc hcond hseg => by simpa using hdec ls c l i o base hc hcond hseg)
    ls c hc hmeets
  simpa using h

end Emitted

/-! ## Invariants that pay for themselves -/

/-- Predicates on the nodes' states, the suspended coroutines and the messages. -/
structure Invariant (ι M S T : Type) where
  st : ι → S → Prop
  task : ι → T → Prop
  msg : Envelope ι M → Prop

namespace Invariant

variable (A : Invariant ι M S T) (w : Weights ι M S T)

/-- The predicates, as an assertion that does not look at the history. -/
def assertion : Assertion ι M S T where
  node _ i s ts := A.st i s ∧ ∀ t ∈ ts, A.task i t
  msg _ e := A.msg e

/-- A segment of node `i` keeps the predicates and leaves behind less than `k`. -/
structure Spends (i : ι) (o : Outcome ι M S T) (k : Nat) : Prop where
  st : A.st i o.st
  rest : ∀ t ∈ o.rest, A.task i t
  out : ∀ dm ∈ o.out, A.msg ⟨i, dm.1, dm.2⟩
  lt : w.outcome i o < k

variable {A w} {i : ι} {o : Outcome ι M S T} {k k' : Nat}

/-- A segment that hands nothing to the transport costs what its coroutine does. -/
theorem Spends.quiet {s : S} {t : Option T} (hs : A.st i s) (hw : w.st i s = 0)
    (ht : ∀ t' ∈ t, A.task i t' ∧ w.task i t' < k) (hk : 0 < k) :
    A.Spends w i { st := s, rest := t } k := by
  refine ⟨hs, fun t' ht' => (ht t' ht').1, by simp, ?_⟩
  cases t with
  | none => simpa [Weights.outcome, hw] using hk
  | some t => simpa [Weights.outcome, hw] using (ht t rfl).2

theorem Spends.mono (h : A.Spends w i o k) (hk : k ≤ k') : A.Spends w i o k' :=
  ⟨h.st, h.rest, h.out, h.lt.trans_le hk⟩

variable [DecidableEq ι] [DecidableEq M] [DecidableEq T] {P : Protocol ι M S T} {G : Parties ι}
  {c c₀ base : Config ι M S T} {l : Label ι M T} {ls : Trace ι M T}

variable (A w P G) in
/-- Every segment of a correct node spends less than it consumes. -/
structure Spending : Prop where
  handle : ∀ e s, e.dst ∈ G.correct → A.msg e → A.st e.dst s →
    A.Spends w e.dst (P.handle e.dst s e.src e.msg) (w.msg e + w.st e.dst s)
  resume : ∀ i s t o, i ∈ G.correct → A.task i t → A.st i s → P.resume i s t = some o →
    A.Spends w i o (w.task i t + w.st i s)

/-- The segment of a step, when all nodes are correct. -/
theorem Spending.segment (h : A.Spending w P G) (hall : G.byz = ∅)
    (hA : A.assertion.Holds G ls c) (hseg : Segment P G c l i o base) :
    A.Spends w i o (w.label l + w.st i (c.st i)) := by
  cases hseg with
  | @recv e hnet hdst => exact h.handle e _ hdst (hA.msg e hnet) (hA.node e.dst hdst).1
  | forge hsrc _ => exact absurd (hall ▸ hsrc) (Finset.notMem_empty _)
  | wake hi ht ho => exact h.resume _ _ _ _ hi ((hA.node _ hi).2 _ ht) (hA.node _ hi).1 ho

theorem Spending.inductive (h : A.Spending w P G) (hall : G.byz = ∅)
    (hinit : A.assertion.Holds G [] c₀) :
    A.assertion.Inductive P G c₀ fun _ _ _ => True where
  init := hinit
  node_mono _ h := h
  msg_mono h := h
  segment := by
    intro ls c l i o base _ hA _ hseg
    have hspends := h.segment hall hA hseg
    refine ⟨⟨hspends.st, fun t ht => ?_⟩, hspends.out⟩
    rcases hseg.mem_rest_or_tasks ht with hnew | hold
    · exact hspends.rest t hnew
    · exact (hA.node i hseg.correct).2 t hold

/-- **Runs that spend**: the predicates hold in every reachable state, and no run takes
more steps than the initial potential. -/
theorem Spending.run (h : A.Spending w P G) (hall : G.byz = ∅)
    (hinit : A.assertion.Holds G [] c₀) (hc : exec (step P G) c₀ ls = some c) :
    A.assertion.Holds G ls c ∧ ls.length ≤ w.config G c₀ := by
  have hrun : ∀ {ls c}, exec (step P G) c₀ ls = some c → A.assertion.Holds G ls c :=
    fun hc => Assertion.holds_of_run (h.inductive hall hinit) hc
  refine ⟨hrun hc, w.length_le (fun ls c l i o base hc hseg => ?_) hc⟩
  exact (h.segment hall (hrun hc) hseg).lt

end Invariant

end DistBench.Async
