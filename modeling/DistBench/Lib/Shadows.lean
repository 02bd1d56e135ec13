import DistBench.Lib.Async

/-!
# The networks inside a network

A node that runs one protocol on top of another takes part in two networks at once. A
`Projection` says which part of the state, which coroutines and which messages belong to
one of them, and `Shows` that a configuration of that one is what the projection shows;
the order of suspended coroutines and of messages in flight does not matter, so they are
compared as multisets. A step of the whole then is a step of the part
(`Shows.step`), or none (`Shows.stay`).

- `Segment.tasks_account`, `Segment.net_account`: what a segment consumes and leaves.
- `Config.park`, `exec_park`: coroutines that are suspended from the start on and never
  go on change nothing.
- `Projection`, `Shows`, `Shows.step`, `Shows.stay`.
-/

namespace DistBench.Async

variable {ι M S T M' S' T' : Type}

/-- The coroutine a label runs. -/
def Label.consumed : Label ι M T → Multiset T
  | .wake _ t => {t}
  | _ => 0

/-- The message a label takes off the network. -/
def Label.taken : Label ι M T → Multiset (Envelope ι M)
  | .recv e => {e}
  | _ => 0

/-- The coroutine a segment leaves. -/
def Outcome.left (o : Outcome ι M S T) : Multiset T := ↑o.rest.toList

/-- The messages a segment of node `i` sends. -/
def Outcome.sent (i : ι) (o : Outcome ι M S T) : Multiset (Envelope ι M) :=
  ↑(o.out.map fun dm => (⟨i, dm.1, dm.2⟩ : Envelope ι M))

/-- What of a network belongs to another one. -/
structure Projection (ι M S T M' S' T' : Type) where
  st : S → S'
  task : T → Multiset T'
  msg : Envelope ι M → Multiset (Envelope ι M')

/-- `c'` is what the projection shows of `c`, but for further messages in flight. -/
structure Shows (π : Projection ι M S T M' S' T') (more : Multiset (Envelope ι M'))
    (c : Config ι M S T) (c' : Config ι M' S' T') : Prop where
  st : ∀ i, c'.st i = π.st (c.st i)
  tasks : ∀ i, (c'.tasks i : Multiset T') = (c.tasks i : Multiset T).bind π.task
  net : (c'.net : Multiset (Envelope ι M')) = (c.net : Multiset (Envelope ι M)).bind π.msg + more

namespace Shows

variable {π : Projection ι M S T M' S' T'} {more : Multiset (Envelope ι M')}
  {c : Config ι M S T} {c' : Config ι M' S' T'} {i : ι}

/-- A coroutine of the whole is one of the part. -/
theorem mem_tasks (h : Shows π more c c') {t : T} {t' : T'} (ht : t ∈ c.tasks i)
    (ht' : t' ∈ π.task t) : t' ∈ c'.tasks i := by
  rw [← Multiset.mem_coe, h.tasks, Multiset.mem_bind]
  exact ⟨t, ht, ht'⟩

theorem mem_net (h : Shows π more c c') {e : Envelope ι M} {e' : Envelope ι M'} (he : e ∈ c.net)
    (he' : e' ∈ π.msg e) : e' ∈ c'.net := by
  rw [← Multiset.mem_coe, h.net, Multiset.mem_add, Multiset.mem_bind]
  exact .inl ⟨e, he, he'⟩

theorem mem_net_of_more (h : Shows π more c c') {e' : Envelope ι M'} (he' : e' ∈ more) :
    e' ∈ c'.net := by
  rw [← Multiset.mem_coe, h.net, Multiset.mem_add]
  exact .inr he'

end Shows

/-- An account of the part follows that of the whole. -/
theorem account_eq {α : Type} [AddCancelCommMonoid α] {x x' y y' a b p q m n : α}
    (hpart : y' + b = q + y) (hwhole : x' + a = p + x) (hold : y = x + m)
    (hsame : q + m + a = p + n + b) : y' = x' + n := by
  refine add_right_cancel (b := b + a) ?_
  calc y' + (b + a) = (y' + b) + a := by abel
    _ = (q + m + a) + x := by rw [hpart, hold]; abel
    _ = (p + x) + (n + b) := by rw [hsame]; abel
    _ = x' + n + (b + a) := by rw [← hwhole]; abel

/-- Suspend coroutines, behind those that are. -/
def Config.park [DecidableEq ι] (c : Config ι M S T) (i : ι) (ts : List T) : Config ι M S T :=
  { c with tasks := Function.update c.tasks i (c.tasks i ++ ts) }

section Park

variable [DecidableEq ι] (c : Config ι M S T) (i j : ι)

@[simp] theorem Config.park_nil : c.park i [] = c := by
  simp [Config.park]

theorem Config.commit_park (o : Outcome ι M S T) (ts : List T) :
    (c.park j ts).commit i o = (c.commit i o).park j ts := by
  by_cases hij : i = j
  · subst hij
    simp [Config.park, Config.commit]
  · simp [Config.park, Config.commit, hij, Ne.symm hij, Function.update_comm hij]

end Park

variable [DecidableEq ι] [DecidableEq M] [DecidableEq T] [DecidableEq M'] [DecidableEq T']
  {P : Protocol ι M S T} {G : Parties ι} {c c₀ base : Config ι M S T} {l : Label ι M T}
  {ls : Trace ι M T} {i j : ι} {o : Outcome ι M S T} {P' : Protocol ι M' S' T'} {G' : Parties ι}
  {c' base' : Config ι M' S' T'} {l' : Label ι M' T'} {o' : Outcome ι M' S' T'}
  {π : Projection ι M S T M' S' T'} {more more' : Multiset (Envelope ι M')}

/-! ## Accounts -/

/-- What a segment consumes has been there, and what it leaves comes to the rest. -/
theorem Segment.tasks_account (h : Segment P G c l i o base) :
    ((base.commit i o).tasks i : Multiset T) + l.consumed = o.left + c.tasks i := by
  have hbase : (base.tasks i : Multiset T) + l.consumed = c.tasks i := by
    cases h with
    | recv _ _ | forge _ _ => exact add_zero _
    | wake _ ht _ =>
      rw [add_comm, Label.consumed, Multiset.singleton_add, Multiset.cons_coe]
      simpa [Config.unpark] using (List.perm_cons_erase ht).symm
  rw [Config.commit_tasks_self, ← hbase, Outcome.left, ← Multiset.coe_add, add_assoc]

theorem Segment.net_account (h : Segment P G c l i o base) :
    ((base.commit i o).net : Multiset (Envelope ι M)) + l.taken = o.sent i + c.net := by
  have hbase : (base.net : Multiset (Envelope ι M)) + l.taken = c.net := by
    cases h with
    | forge _ _ | wake _ _ _ => exact add_zero _
    | recv hnet _ =>
      rw [Config.take, Label.taken, add_comm, Multiset.singleton_add, Multiset.cons_coe]
      exact Multiset.coe_eq_coe.mpr (List.perm_cons_erase hnet).symm
  rw [Config.commit, ← hbase, Outcome.sent, ← Multiset.coe_add]
  abel

omit [DecidableEq M'] [DecidableEq T'] in
/-- Only correct nodes take steps. -/
theorem node_mem_correct :
    ∀ ls c, exec (Async.step P G) c₀ ls = some c → ∀ l ∈ ls, l.node ∈ G.correct := by
  refine run_induction (P := fun (ls : Trace ι M T) (_ : Config ι M S T) =>
    ∀ l ∈ ls, l.node ∈ G.correct) nofun ?_
  intro ls c l c' _ ih hl k hk
  rcases List.mem_append.mp hk with hold | hnew
  · exact ih k hold
  · obtain rfl := List.mem_singleton.mp hnew
    obtain ⟨i, o, base, hseg, -⟩ := step_iff.mp hl
    exact hseg.node_eq ▸ hseg.correct

/-- The coroutine that goes on has been suspended. -/
theorem Segment.mem_tasks {j : ι} {t : T} (h : Segment P G c (.wake j t) i o base) :
    j = i ∧ t ∈ c.tasks i ∧ P.resume i (c.st i) t = some o := by
  cases h with
  | wake _ ht ho => exact ⟨rfl, ht, ho⟩

theorem Segment.src_mem_byz {e : Envelope ι M} (h : Segment P G c (.forge e) i o base) :
    e.src ∈ G.byz := by
  cases h with
  | forge hsrc _ => exact hsrc

/-! ## Coroutines that do not go on -/

/-- A segment does not look at the coroutines behind the one it runs. -/
theorem Segment.park (h : Segment P G c l i o base) (ts : List T) :
    Segment P G (c.park j ts) l i o (base.park j ts) := by
  cases h with
  | recv hnet hdst => exact .recv hnet hdst
  | forge hsrc hdst => exact .forge hsrc hdst
  | @wake i t o hi ht ho =>
    have hmem : t ∈ (c.park j ts).tasks i := by
      by_cases hij : i = j
      · subst hij
        simp [Config.park, ht]
      · simpa [Config.park, hij] using ht
    have hbase : (c.unpark i t).park j ts = (c.park j ts).unpark i t := by
      by_cases hij : i = j
      · subst hij
        simp [Config.park, Config.unpark, List.erase_append_left _ ht]
      · simp [Config.park, Config.unpark, hij, Ne.symm hij, Function.update_comm hij]
    rw [hbase]
    exact .wake hi hmem ho

/-- **What a run does not touch can be added to it.** -/
theorem exec_park (ts : List T) :
    ∀ ls c, exec (step P G) c₀ ls = some c →
      exec (step P G) (c₀.park j ts) ls = some (c.park j ts) := by
  refine run_induction (P := fun (ls : Trace ι M T) (c : Config ι M S T) =>
    exec (step P G) (c₀.park j ts) ls = some (c.park j ts)) rfl ?_
  intro ls c l c' _ ih hl
  obtain ⟨i, o, base, hseg, rfl⟩ := step_iff.mp hl
  rw [← Config.commit_park]
  exact exec_snoc ih (step_iff.mpr ⟨i, o, _, hseg.park ts, rfl⟩)

/-! ## Steps of the whole -/

namespace Shows

/-- **A step of the part**, if the segment of the whole consumes and leaves what the one of
the part does. -/
theorem step (h : Shows π more c c') (hseg : Segment P G c l i o base)
    (hseg' : Segment P' G' c' l' i o' base') (hst : o'.st = π.st o.st)
    (htasks : o'.left + l.consumed.bind π.task = o.left.bind π.task + l'.consumed)
    (hnet : o'.sent i + more + l.taken.bind π.msg =
      (o.sent i).bind π.msg + more' + l'.taken) :
    Shows π more' (base.commit i o) (base'.commit i o') where
  st j := by
    by_cases hj : j = i
    · subst hj
      rw [Config.commit_st_self, Config.commit_st_self, hst]
    · rw [Config.commit_st_of_ne hj, Config.commit_st_of_ne hj, hseg.base_st, hseg'.base_st]
      exact h.st j
  tasks j := by
    by_cases hj : j = i
    · subst hj
      have hwhole := congrArg (Multiset.bind · π.task) hseg.tasks_account
      simp only [Multiset.add_bind] at hwhole
      have heq := account_eq (m := 0) (n := 0) hseg'.tasks_account hwhole
        (by rw [h.tasks, add_zero]) (by rw [add_zero, add_zero, htasks])
      rwa [add_zero] at heq
    · rw [Config.commit_tasks_of_ne hj, Config.commit_tasks_of_ne hj, hseg.base_tasks_of_ne hj,
        hseg'.base_tasks_of_ne hj]
      exact h.tasks j
  net := by
    have hwhole := congrArg (Multiset.bind · π.msg) hseg.net_account
    simp only [Multiset.add_bind] at hwhole
    exact account_eq hseg'.net_account hwhole h.net hnet

omit [DecidableEq M'] [DecidableEq T'] in
/-- **No step of the part**, if the segment of the whole consumes and leaves nothing of it,
but for coroutines that it suspends. -/
theorem stay (h : Shows π more c c') (hseg : Segment P G c l i o base) (ts : List T')
    (hst : π.st o.st = π.st (c.st i))
    (htasks : (ts : Multiset T') + l.consumed.bind π.task = o.left.bind π.task)
    (hnet : more + l.taken.bind π.msg = (o.sent i).bind π.msg + more') :
    Shows π more' (base.commit i o) (c'.park i ts) where
  st j := by
    by_cases hj : j = i
    · subst hj
      rw [Config.commit_st_self, hst]
      exact h.st j
    · rw [Config.commit_st_of_ne hj, hseg.base_st]
      exact h.st j
  tasks j := by
    by_cases hj : j = i
    · subst hj
      have hwhole := congrArg (Multiset.bind · π.task) hseg.tasks_account
      simp only [Multiset.add_bind] at hwhole
      have hpart : ((c'.park j ts).tasks j : Multiset T') + 0 = ts + c'.tasks j := by
        rw [add_zero, add_comm, Multiset.coe_add]
        simp [Config.park]
      have heq := account_eq (m := 0) (n := 0) hpart hwhole (by rw [h.tasks, add_zero])
        (by rw [add_zero, add_zero, add_zero, htasks])
      rwa [add_zero] at heq
    · rw [Config.commit_tasks_of_ne hj, hseg.base_tasks_of_ne hj]
      simpa [Config.park, hj] using h.tasks j
  net := by
    have hwhole := congrArg (Multiset.bind · π.msg) hseg.net_account
    simp only [Multiset.add_bind] at hwhole
    have hpart : ((c'.park i ts).net : Multiset (Envelope ι M')) + 0 = 0 + c'.net := by
      rw [add_zero, zero_add]
      rfl
    exact account_eq hpart hwhole h.net (by rw [zero_add, add_zero, hnet])

end Shows

end DistBench.Async
