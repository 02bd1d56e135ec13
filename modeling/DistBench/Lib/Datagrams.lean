import DistBench.Lib.Run

/-!
# Networks of datagrams

Nodes that send one another datagrams, which may be lost, come more than once and in any
order. What has been sent stays in `sent`, and any of it can be delivered at any time: a
packet that is lost is never delivered, a packet that is duplicated more than once.

A handler runs without interruption. What a node does on its own is an action, which the
environment chooses and which the node may not be ready for (`none`).

- `Program`, `State`, `Label`, `step`.
- `Turn`, `step_iff`: the inversion lemma for `step`.
- `sent_mono`, `Fixed`: what has been sent stays sent, and what a node has done.
- `handled_of_delivered`: what the handler of a delivered packet has sent.
-/

namespace DistBench.Datagrams

variable {ι M S A : Type}

/-- A datagram. -/
structure Packet (ι M : Type) where
  src : ι
  dst : ι
  msg : M
deriving DecidableEq

/-- The code of a node: its handler and its own actions. Both give the new state and the
messages handed to the network. -/
structure Program (ι M S A : Type) where
  handle : ι → S → ι → M → S × List (ι × M)
  act : ι → S → A → Option (S × List (ι × M))

/-- A state of the network. -/
structure State (ι M S : Type) where
  st : ι → S
  sent : List (Packet ι M)

/-- What happens next. -/
inductive Label (ι M A : Type) where
  | deliver (p : Packet ι M)
  | act (i : ι) (a : A)
deriving DecidableEq

/-- A history: the labels taken so far, oldest first. -/
abbrev Trace (ι M A : Type) : Type := List (Label ι M A)

variable [DecidableEq ι] [DecidableEq M]

omit [DecidableEq M] in
/-- Node `i` has taken its turn. -/
def State.commit (s : State ι M S) (i : ι) (r : S × List (ι × M)) : State ι M S where
  st := Function.update s.st i r.1
  sent := s.sent ++ r.2.map fun dm => ⟨i, dm.1, dm.2⟩

/-- One step of the network. -/
def step (P : Program ι M S A) (nodes : Finset ι) (s : State ι M S) :
    Label ι M A → Option (State ι M S)
  | .deliver p =>
    if p ∈ s.sent ∧ p.dst ∈ nodes then
      some (s.commit p.dst (P.handle p.dst (s.st p.dst) p.src p.msg))
    else none
  | .act i a => if i ∈ nodes then (P.act i (s.st i) a).map (s.commit i) else none

/-- The label is a turn of node `i` with the result `r`. -/
inductive Turn (P : Program ι M S A) (nodes : Finset ι) (s : State ι M S) :
    Label ι M A → ι → S × List (ι × M) → Prop
  | deliver {p : Packet ι M} (hsent : p ∈ s.sent) (hdst : p.dst ∈ nodes) :
      Turn P nodes s (.deliver p) p.dst (P.handle p.dst (s.st p.dst) p.src p.msg)
  | act {i : ι} {a : A} {r : S × List (ι × M)} (hi : i ∈ nodes)
      (hr : P.act i (s.st i) a = some r) : Turn P nodes s (.act i a) i r

section Projections

variable {s : State ι M S} {i j : ι} {r : S × List (ι × M)} {p : Packet ι M}

omit [DecidableEq M] in
@[simp] theorem State.commit_st_self : (s.commit i r).st i = r.1 := Function.update_self ..

omit [DecidableEq M] in
theorem State.commit_st_of_ne (h : j ≠ i) : (s.commit i r).st j = s.st j :=
  Function.update_of_ne h ..

omit [DecidableEq M] in
@[simp] theorem State.mem_commit_sent :
    p ∈ (s.commit i r).sent ↔ p ∈ s.sent ∨ p.src = i ∧ (p.dst, p.msg) ∈ r.2 := by
  rw [State.commit, List.mem_append, List.mem_map]
  refine or_congr_right ⟨?_, ?_⟩
  · rintro ⟨dm, hdm, rfl⟩
    exact ⟨rfl, hdm⟩
  · rintro ⟨rfl, h⟩
    exact ⟨_, h, rfl⟩

end Projections

variable {P : Program ι M S A} {nodes : Finset ι} {s s' s₀ : State ι M S} {l : Label ι M A}
  {ls : Trace ι M A} {p : Packet ι M} {i : ι} {r : S × List (ι × M)}

/-- **Inversion of `step`**: every step is a turn of one node. -/
theorem step_iff :
    step P nodes s l = some s' ↔ ∃ i r, Turn P nodes s l i r ∧ s' = s.commit i r := by
  constructor
  · intro h
    cases l with
    | deliver p =>
      rw [step, Option.ite_none_right_eq_some] at h
      obtain ⟨⟨hsent, hdst⟩, h⟩ := h
      exact ⟨_, _, .deliver hsent hdst, (Option.some.inj h).symm⟩
    | act i a =>
      rw [step, Option.ite_none_right_eq_some, Option.map_eq_some_iff] at h
      obtain ⟨hi, r, hr, rfl⟩ := h
      exact ⟨_, _, .act hi hr, rfl⟩
  · rintro ⟨i, r, hturn, rfl⟩
    cases hturn with
    | deliver hsent hdst => rw [step, if_pos ⟨hsent, hdst⟩]
    | act hi hr => rw [step, if_pos hi, hr, Option.map_some]

omit [DecidableEq ι] [DecidableEq M] in
theorem Turn.mem_nodes (h : Turn P nodes s l i r) : i ∈ nodes := by
  cases h with
  | deliver _ hdst => exact hdst
  | act hi _ => exact hi

/-- What has been sent stays sent. -/
theorem sent_mono_step (hl : step P nodes s l = some s') (hp : p ∈ s.sent) : p ∈ s'.sent := by
  obtain ⟨i, r, -, rfl⟩ := step_iff.mp hl
  exact State.mem_commit_sent.mpr (.inl hp)

theorem sent_mono (hp : p ∈ s₀.sent) :
    ∀ ls s, exec (step P nodes) s₀ ls = some s → p ∈ s.sent :=
  run_induction (P := fun (_ : Trace ι M A) (s : State ι M S) => p ∈ s.sent) hp
    fun _ _ _ _ _ ih hl => sent_mono_step hl ih

/-- `K` stays true of the state of a node. -/
structure Fixed (P : Program ι M S A) (i : ι) (K : S → Prop) : Prop where
  handle : ∀ st src msg, K st → K (P.handle i st src msg).1
  act : ∀ st a r, P.act i st a = some r → K st → K r.1

theorem Fixed.step {K : S → Prop} (hK : Fixed P i K) (hl : Datagrams.step P nodes s l = some s')
    (h : K (s.st i)) : K (s'.st i) := by
  obtain ⟨j, r, hturn, rfl⟩ := step_iff.mp hl
  by_cases hij : i = j
  · subst hij
    rw [State.commit_st_self]
    cases hturn with
    | deliver _ _ => exact hK.handle _ _ _ h
    | act _ hr => exact hK.act _ _ _ hr h
  · rw [State.commit_st_of_ne hij]
    exact h

theorem Fixed.of_run {K : S → Prop} (hK : Fixed P i K) (h : K (s₀.st i)) :
    ∀ ls s, exec (Datagrams.step P nodes) s₀ ls = some s → K (s.st i) :=
  run_induction (P := fun (_ : Trace ι M A) (s : State ι M S) => K (s.st i)) h
    fun _ _ _ _ _ ih hl => hK.step hl ih

/-- **A delivered packet has been handled**: in some state of the run, in which it had
been sent, its handler ran, and what this sent has been sent by the end. -/
theorem handled_of_delivered (hs : exec (step P nodes) s₀ ls = some s) (hp : .deliver p ∈ ls) :
    ∃ ls₁ ls₂ s₁, ls = ls₁ ++ .deliver p :: ls₂ ∧ exec (step P nodes) s₀ ls₁ = some s₁ ∧
      p ∈ s₁.sent ∧ p.dst ∈ nodes ∧
      exec (step P nodes) (s₁.commit p.dst (P.handle p.dst (s₁.st p.dst) p.src p.msg)) ls₂ =
        some s := by
  obtain ⟨ls₁, ls₂, rfl⟩ := List.append_of_mem hp
  obtain ⟨s₁, hs₁, hrest⟩ := exec_prefix hs
  rw [exec_cons, Option.bind_eq_some_iff] at hrest
  obtain ⟨s₂, hl, hrest⟩ := hrest
  obtain ⟨i, r, hturn, rfl⟩ := step_iff.mp hl
  cases hturn with
  | deliver hsent hdst => exact ⟨ls₁, ls₂, s₁, rfl, hs₁, hsent, hdst, hrest⟩

end DistBench.Datagrams
