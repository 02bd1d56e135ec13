import Mathlib

/-!
# Runs of labelled systems

A system is a partial step function `step : σ → L → Option σ`: a label names
everything that is nondeterministic about a step (which coroutine moves, which
message arrives, what the adversary says), and `none` means that the label is
not enabled. A run is then the list of its labels, so the run *is* its history:
"earlier in the run" is a prefix of the list, and the state a label was taken
in is recovered by executing the prefix before it.

- `exec`: the state reached by a list of labels.
- `run_induction`: the invariant rule — holds at the start, kept by every step
  out of a reachable state.
- `Occurs` / `OccursThen`: some step of the run was an `E`-step (and an
  `F`-step was taken later).
- `Becomes`, `occurs_becomes`: what is true now has become true at some step.
- `Meets`: every step of the run was taken in accordance with a condition on
  its history, the state before it and the label.
- `NonDecreasing`: a value never gets smaller along the run.
- `tally`: a sum over the steps of the run.
- `length_add_measure_le`: a measure that every step decreases bounds the run.
- `countP_add_measure_le`: a measure that some steps decrease bounds their number.
-/

namespace DistBench

universe u v

variable {σ : Type u} {L : Type v}

/-- The state after taking the labels in turn, or `none` as soon as one of them
is not enabled. -/
def exec (step : σ → L → Option σ) : σ → List L → Option σ
  | s, [] => some s
  | s, l :: ls => (step s l).bind fun s' => exec step s' ls

variable {step : σ → L → Option σ} {s₀ s s' : σ} {l : L} {ls ls' : List L}

@[simp] theorem exec_nil : exec step s₀ [] = some s₀ := rfl

@[simp] theorem exec_cons :
    exec step s₀ (l :: ls) = (step s₀ l).bind fun s' => exec step s' ls := rfl

/-- Executing a concatenation is executing its halves one after the other. -/
theorem exec_append :
    exec step s₀ (ls ++ ls') = (exec step s₀ ls).bind fun s' => exec step s' ls' := by
  induction ls generalizing s₀ with
  | nil => rfl
  | cons l rest ih =>
    rw [List.cons_append, exec_cons, exec_cons, Option.bind_assoc]
    exact congrArg _ (funext fun s' => ih)

/-- The last step of a run, split off. -/
theorem exec_snoc_iff :
    exec step s₀ (ls ++ [l]) = some s' ↔
      ∃ s, exec step s₀ ls = some s ∧ step s l = some s' := by
  rw [exec_append, Option.bind_eq_some_iff]
  simp

theorem exec_snoc (h : exec step s₀ ls = some s) (hl : step s l = some s') :
    exec step s₀ (ls ++ [l]) = some s' :=
  exec_snoc_iff.mpr ⟨s, h, hl⟩

/-- Every prefix of a run is a run. -/
theorem exec_prefix (h : exec step s₀ (ls ++ ls') = some s') :
    ∃ s, exec step s₀ ls = some s ∧ exec step s ls' = some s' := by
  rw [exec_append] at h
  exact Option.bind_eq_some_iff.mp h

/-- **The invariant rule.** A property of a history and the state it leads to
that holds at the start and is kept by every step holds of every run. -/
theorem run_induction {P : List L → σ → Prop} (init : P [] s₀)
    (next : ∀ ls s l s', exec step s₀ ls = some s → P ls s → step s l = some s' →
      P (ls ++ [l]) s') :
    ∀ ls s, exec step s₀ ls = some s → P ls s := by
  intro ls
  induction ls using List.reverseRecOn with
  | nil =>
    intro s h
    obtain rfl : s₀ = s := Option.some.inj h
    exact init
  | append_singleton ls l ih =>
    intro s' h
    obtain ⟨s, hs, hl⟩ := exec_snoc_iff.mp h
    exact next ls s l s' hs (ih s hs) hl

/-- A run can be executed to see where it ends. -/
theorem exists_exec_of_any (step : σ → L → Option σ) (s₀ : σ) (ls : List L) (p : σ → Bool)
    (h : (exec step s₀ ls).any p = true) : ∃ s, exec step s₀ ls = some s ∧ p s = true := by
  rw [Option.any_eq_true] at h
  exact h

/-! ## Events of a run -/

/-- Some step of the run, taken in a state `s` with a label `l`, is an
`E`-step. -/
def Occurs (step : σ → L → Option σ) (s₀ : σ) (ls : List L) (E : σ → L → Prop) : Prop :=
  ∃ ls₁ l ls₂ s, ls = ls₁ ++ l :: ls₂ ∧ exec step s₀ ls₁ = some s ∧ E s l

/-- Some step of the run is an `F`-step, and an `E`-step was taken earlier. -/
def OccursThen (step : σ → L → Option σ) (s₀ : σ) (ls : List L) (E F : σ → L → Prop) : Prop :=
  ∃ ls₁ l ls₂ s, ls = ls₁ ++ l :: ls₂ ∧ exec step s₀ ls₁ = some s ∧ Occurs step s₀ ls₁ E ∧ F s l

variable {E F : σ → L → Prop}

/-- What has occurred stays occurred. -/
theorem Occurs.append (h : Occurs step s₀ ls E) : Occurs step s₀ (ls ++ ls') E := by
  obtain ⟨ls₁, l, ls₂, s, rfl, hs, hE⟩ := h
  exact ⟨ls₁, l, ls₂ ++ ls', s, by simp, hs, hE⟩

theorem OccursThen.append (h : OccursThen step s₀ ls E F) :
    OccursThen step s₀ (ls ++ ls') E F := by
  obtain ⟨ls₁, l, ls₂, s, rfl, hs, hE, hF⟩ := h
  exact ⟨ls₁, l, ls₂ ++ ls', s, by simp, hs, hE, hF⟩

/-- The step being taken occurs. -/
theorem occurs_last (hs : exec step s₀ ls = some s) (hE : E s l) :
    Occurs step s₀ (ls ++ [l]) E :=
  ⟨ls, l, [], s, rfl, hs, hE⟩

/-- What occurred in a run occurred before its last step or in it. -/
theorem Occurs.exists_last_or (h : Occurs step s₀ (ls ++ [l]) E) :
    Occurs step s₀ ls E ∨ ∃ s, exec step s₀ ls = some s ∧ E s l := by
  obtain ⟨ls₁, k, ls₂, s', hls, hs', hE⟩ := h
  rcases List.eq_nil_or_concat ls₂ with rfl | ⟨rest, k', rfl⟩
  · obtain ⟨rfl, hk⟩ := List.append_inj' hls rfl
    obtain rfl : l = k := by simpa using hk
    exact .inr ⟨s', hs', hE⟩
  · have hsplit : ls ++ [l] = (ls₁ ++ k :: rest) ++ [k'] := by simpa using hls
    exact .inl ⟨ls₁, k, rest, s', (List.append_inj' hsplit rfl).1, hs', hE⟩

theorem Occurs.last_or (h : Occurs step s₀ (ls ++ [l]) E) (hs : exec step s₀ ls = some s) :
    Occurs step s₀ ls E ∨ E s l := by
  rcases h.exists_last_or with hold | ⟨s', hs', hE⟩
  · exact .inl hold
  · obtain rfl := Option.some.inj (hs.symm.trans hs')
    exact .inr hE

theorem not_occurs_nil : ¬ Occurs step s₀ [] E := by
  rintro ⟨ls₁, l, ls₂, s, h, -⟩
  simp at h

/-- An `F`-step taken after an `E`-step. -/
theorem Occurs.then_last (h : Occurs step s₀ ls E) (hs : exec step s₀ ls = some s)
    (hF : F s l) : OccursThen step s₀ (ls ++ [l]) E F :=
  ⟨ls, l, [], s, rfl, hs, h, hF⟩

theorem OccursThen.occurs (h : OccursThen step s₀ ls E F) : Occurs step s₀ ls E := by
  obtain ⟨ls₁, l, ls₂, s, rfl, -, hE, -⟩ := h
  exact hE.append

theorem Occurs.mono {E' : σ → L → Prop} (hEE' : ∀ s l, E s l → E' s l)
    (h : Occurs step s₀ ls E) : Occurs step s₀ ls E' := by
  obtain ⟨ls₁, l, ls₂, s, hls, hs, hE⟩ := h
  exact ⟨ls₁, l, ls₂, s, hls, hs, hEE' s l hE⟩

/-- The step makes `p` true. -/
def Becomes (step : σ → L → Option σ) (p : σ → Prop) (s : σ) (l : L) : Prop :=
  ¬ p s ∧ ∃ s', step s l = some s' ∧ p s'

variable {p : σ → Prop}

/-- What is true now and was not at the start has become true. -/
theorem occurs_becomes (h₀ : ¬ p s₀) :
    ∀ ls s, exec step s₀ ls = some s → p s → Occurs step s₀ ls (Becomes step p) := by
  refine run_induction (P := fun ls s => p s → Occurs step s₀ ls (Becomes step p))
    (fun h => absurd h h₀) ?_
  intro ls s l s' hs ih hl hp'
  by_cases hp : p s
  · exact (ih hp).append
  · exact occurs_last hs ⟨hp, s', hl, hp'⟩

/-- At the end of a prefix of the run that begins with it, `p` held. -/
theorem Occurs.exists_prefix (h : Occurs step s₀ ls (Becomes step p)) :
    ∃ ls₁ ls₂ s, ls = ls₁ ++ ls₂ ∧ exec step s₀ ls₁ = some s ∧ p s := by
  obtain ⟨ls₁, l, ls₂, s, rfl, hs, -, s', hl, hp⟩ := h
  exact ⟨ls₁ ++ [l], ls₂, s', by simp, exec_snoc hs hl, hp⟩

/-! ## Runs under a condition -/

/-- Every step of the run satisfies `cond`, which may look at the history
before the step, the state before it and its label. -/
def Meets (step : σ → L → Option σ) (s₀ : σ) (cond : List L → σ → L → Prop)
    (ls : List L) : Prop :=
  ∀ ls₁ l ls₂ s, ls = ls₁ ++ l :: ls₂ → exec step s₀ ls₁ = some s → cond ls₁ s l

variable {cond : List L → σ → L → Prop}

theorem Meets.prefix (h : Meets step s₀ cond (ls ++ ls')) : Meets step s₀ cond ls := by
  intro ls₁ l ls₂ s hls hs
  exact h ls₁ l (ls₂ ++ ls') s (by simp [hls]) hs

theorem Meets.last (h : Meets step s₀ cond (ls ++ [l])) (hs : exec step s₀ ls = some s) :
    cond ls s l :=
  h ls l [] s rfl hs

theorem Meets.snoc (h : Meets step s₀ cond ls) (hs : exec step s₀ ls = some s)
    (hl : cond ls s l) : Meets step s₀ cond (ls ++ [l]) := by
  intro ls₁ k ls₂ s' hls hs'
  rcases List.eq_nil_or_concat ls₂ with rfl | ⟨rest, k', rfl⟩
  · obtain ⟨rfl, hk⟩ := List.append_inj' hls rfl
    obtain rfl : l = k := by simpa using hk
    obtain rfl := Option.some.inj (hs.symm.trans hs')
    exact hl
  · have hsplit : ls ++ [l] = (ls₁ ++ k :: rest) ++ [k'] := by simpa using hls
    exact h ls₁ k rest s' (List.append_inj' hsplit rfl).1 hs'

/-- Every step may be assumed to come after a history that meets the condition. -/
theorem Meets.with_history (h : Meets step s₀ cond ls) :
    Meets step s₀ (fun ls s l => Meets step s₀ cond ls ∧ cond ls s l) ls := by
  rintro ls₁ l ls₂ s rfl hs
  have hbefore : Meets step s₀ cond ls₁ := h.prefix
  exact ⟨hbefore, h ls₁ l ls₂ s rfl hs⟩

/-- The remaining steps of a run meet a condition, given the labels `pre` taken
before them and the state these lead to. -/
def MeetsFrom (step : σ → L → Option σ) (cond : List L → σ → L → Prop) :
    List L → σ → List L → Prop
  | _, _, [] => True
  | pre, s, l :: ls =>
    cond pre s l ∧ ∀ s', step s l = some s' → MeetsFrom step cond (pre ++ [l]) s' ls

instance decidableMeetsFrom [∀ ls s l, Decidable (cond ls s l)] :
    ∀ (pre : List L) (s : σ) (ls : List L), Decidable (MeetsFrom step cond pre s ls)
  | _, _, [] => inferInstanceAs (Decidable True)
  | pre, s, l :: ls =>
    match hl : step s l with
    | none => decidable_of_iff (cond pre s l) (by simp [MeetsFrom, hl])
    | some s' =>
      have := decidableMeetsFrom (pre ++ [l]) s' ls
      decidable_of_iff (cond pre s l ∧ MeetsFrom step cond (pre ++ [l]) s' ls)
        (by simp [MeetsFrom, hl])

theorem meets_of_meetsFrom_aux (pre : List L) (hpre : exec step s₀ pre = some s)
    (h : MeetsFrom step cond pre s ls) :
    ∀ ls₁ l ls₂ s', ls = ls₁ ++ l :: ls₂ → exec step s₀ (pre ++ ls₁) = some s' →
      cond (pre ++ ls₁) s' l := by
  induction ls generalizing pre s with
  | nil =>
    intro ls₁ l ls₂ s' hls
    simp at hls
  | cons k rest ih =>
    intro ls₁ l ls₂ s' hls hs'
    obtain ⟨hk, hrest⟩ := h
    cases ls₁ with
    | nil =>
      obtain ⟨rfl, rfl⟩ := List.cons.inj hls
      rw [List.append_nil] at hs' ⊢
      obtain rfl : s = s' := Option.some.inj (hpre.symm.trans hs')
      exact hk
    | cons k' ls₁ =>
      obtain ⟨rfl, rfl⟩ := List.cons.inj hls
      rw [List.append_cons] at hs' ⊢
      obtain ⟨t, ht, -⟩ := exec_prefix hs'
      obtain ⟨s'', hs'', hkt⟩ := exec_snoc_iff.mp ht
      obtain rfl : s = s'' := Option.some.inj (hpre.symm.trans hs'')
      exact ih (pre ++ [k]) ht (hrest t hkt) ls₁ l ls₂ s' rfl hs'

/-- A run can be checked against a condition by walking along it. -/
theorem meets_of_meetsFrom (h : MeetsFrom step cond [] s₀ ls) : Meets step s₀ cond ls :=
  fun ls₁ l ls₂ s hls hs => meets_of_meetsFrom_aux [] rfl h ls₁ l ls₂ s hls hs

/-! ## Values that never get smaller -/

/-- Along the run `f` never gets smaller. -/
def NonDecreasing {α : Type*} [LE α] (step : σ → L → Option σ) (s₀ : σ) (f : σ → α)
    (ls : List L) : Prop :=
  ∀ ls₁ ls₂ ls₃ s s', ls = ls₁ ++ ls₂ ++ ls₃ → exec step s₀ ls₁ = some s →
    exec step s ls₂ = some s' → f s ≤ f s'

theorem NonDecreasing.prefix {α : Type*} [LE α] {f : σ → α}
    (h : NonDecreasing step s₀ f (ls ++ ls')) : NonDecreasing step s₀ f ls := by
  rintro ls₁ ls₂ ls₃ s s' rfl hs hs'
  exact h ls₁ ls₂ (ls₃ ++ ls') s s' (by simp) hs hs'

theorem NonDecreasing.last {α : Type*} [LE α] {f : σ → α}
    (h : NonDecreasing step s₀ f (ls ++ [l])) (hs : exec step s₀ ls = some s)
    (hl : step s l = some s') : f s ≤ f s' :=
  h ls [l] [] s s' (by simp) hs (by simp [hl])

/-- It suffices to look at the single steps. -/
theorem nonDecreasing_iff {α : Type*} [Preorder α] {f : σ → α} :
    NonDecreasing step s₀ f ls ↔
      Meets step s₀ (fun _ s l => ∀ s', step s l = some s' → f s ≤ f s') ls := by
  constructor
  · intro h ls₁ l ls₂ s hls hs s' hl
    exact h ls₁ [l] ls₂ s s' (by simp [hls]) hs (by simp [hl])
  · intro h ls₁ ls₂
    induction ls₂ generalizing ls₁ with
    | nil =>
      intro ls₃ s s' _ _ hs'
      obtain rfl : s = s' := Option.some.inj hs'
      exact le_rfl
    | cons l ls₂ ih =>
      intro ls₃ s s' hls hs hs'
      rw [exec_cons, Option.bind_eq_some_iff] at hs'
      obtain ⟨t, hl, hs'⟩ := hs'
      have hstep : f s ≤ f t := h ls₁ l (ls₂ ++ ls₃) s (by simp [hls]) hs t hl
      exact hstep.trans (ih (ls₁ ++ [l]) ls₃ t s' (by simp [hls]) (exec_snoc hs hl) hs')

/-! ## Counting along a run -/

/-- The sum of `f` over the steps of the run. -/
def tally (step : σ → L → Option σ) (f : σ → L → Nat) : σ → List L → Nat
  | _, [] => 0
  | s, l :: ls => f s l + (step s l).elim 0 fun s' => tally step f s' ls

theorem tally_append {f : σ → L → Nat} (hs : exec step s₀ ls = some s) :
    tally step f s₀ (ls ++ ls') = tally step f s₀ ls + tally step f s ls' := by
  induction ls generalizing s₀ with
  | nil =>
    obtain rfl : s₀ = s := Option.some.inj hs
    simp [tally]
  | cons l rest ih =>
    rw [exec_cons, Option.bind_eq_some_iff] at hs
    obtain ⟨s', hl, hs⟩ := hs
    rw [List.cons_append, tally, tally, hl, Option.elim_some, Option.elim_some, ih hs]
    omega

/-- What has occurred was counted. -/
theorem one_le_tally {f : σ → L → Nat} (h : Occurs step s₀ ls E)
    (hE : Meets step s₀ (fun _ s l => E s l → 1 ≤ f s l) ls) : 1 ≤ tally step f s₀ ls := by
  obtain ⟨ls₁, l, ls₂, s, rfl, hs, hl⟩ := h
  have hweight := hE ls₁ l ls₂ s rfl hs hl
  rw [tally_append hs, tally]
  omega

theorem two_le_tally {f : σ → L → Nat} (h : OccursThen step s₀ ls E F)
    (hE : Meets step s₀ (fun _ s l => E s l → 1 ≤ f s l) ls)
    (hF : Meets step s₀ (fun _ s l => F s l → 1 ≤ f s l) ls) : 2 ≤ tally step f s₀ ls := by
  obtain ⟨ls₁, l, ls₂, s, rfl, hs, hold, hl⟩ := h
  have hprefix : Meets step s₀ (fun _ s l => E s l → 1 ≤ f s l) ls₁ := Meets.prefix hE
  have hbefore := one_le_tally hold hprefix
  have hweight := hF ls₁ l ls₂ s rfl hs hl
  rw [tally_append hs, tally]
  omega

/-- What every step that meets the condition takes from a measure bounds the sum. -/
theorem tally_add_le_of_meets {f : σ → L → Nat} {μ : σ → Nat}
    (hdec : ∀ ls s l s', exec step s₀ ls = some s → cond ls s l → step s l = some s' →
      f s l + μ s' ≤ μ s) :
    ∀ ls s, exec step s₀ ls = some s → Meets step s₀ cond ls →
      tally step f s₀ ls + μ s ≤ μ s₀ := by
  refine run_induction (P := fun ls s => Meets step s₀ cond ls →
    tally step f s₀ ls + μ s ≤ μ s₀) (by simp [tally]) ?_
  intro ls s l s' hs ih hl hmeets
  have hbefore := ih hmeets.prefix
  have hstep := hdec ls s l s' hs (hmeets.last hs) hl
  rw [tally_append hs, tally, hl, Option.elim_some, tally]
  omega

/-- What every step takes from a measure bounds the sum. -/
theorem tally_add_le {f : σ → L → Nat} {μ : σ → Nat}
    (hdec : ∀ ls s l s', exec step s₀ ls = some s → step s l = some s' → f s l + μ s' ≤ μ s) :
    ∀ ls s, exec step s₀ ls = some s → tally step f s₀ ls + μ s ≤ μ s₀ := by
  intro ls s hs
  have hall : Meets step s₀ (fun _ _ _ => True) ls := fun _ _ _ _ _ _ => trivial
  exact tally_add_le_of_meets (fun ls s l s' hs _ hl => hdec ls s l s' hs hl) ls s hs hall

/-! ## Termination -/

/-- A measure decreased by every step out of a reachable state bounds the
length of every run. -/
theorem length_add_measure_le {μ : σ → Nat}
    (hdec : ∀ ls s l s', exec step s₀ ls = some s → step s l = some s' → μ s' < μ s) :
    ∀ ls s, exec step s₀ ls = some s → ls.length + μ s ≤ μ s₀ := by
  refine run_induction (P := fun ls s => ls.length + μ s ≤ μ s₀) (by simp) ?_
  intro ls s l s' hs ih hl
  have hlt := hdec ls s l s' hs hl
  rw [List.length_append, List.length_singleton]
  omega

/-- A measure that some steps decrease, and that the others may increase by the credit they
bring, bounds the number of these steps by the credit of the run. -/
theorem countP_add_measure_le {p : L → Bool} {credit : L → Nat} {μ : σ → Nat}
    (hdec : ∀ s l s', step s l = some s' → (if p l then 1 else 0) + μ s' ≤ μ s + credit l) :
    ∀ ls s, exec step s₀ ls = some s → ls.countP p + μ s ≤ μ s₀ + (ls.map credit).sum := by
  refine run_induction (P := fun ls s => ls.countP p + μ s ≤ μ s₀ + (ls.map credit).sum)
    (by simp) ?_
  intro ls s l s' _ ih hl
  have hstep := hdec s l s' hl
  rw [List.countP_append, List.countP_singleton, List.map_append, List.sum_append, List.map_cons,
    List.map_nil, List.sum_singleton]
  omega

end DistBench
