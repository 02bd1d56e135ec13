import Mathlib

/-!
# Fair reader-writer locks

A lock is held by any number of readers or by one writer. The tasks that ask for it wait in
the order in which they have asked. Which of them is let in, and when, is up to the lock's
`Policy`: it never lets a request overtake another one unless both only read, and it does
let someone in when nobody holds the lock.

- `RwLock`: who holds a lock and who waits for it.
- `RwLock.Fits`: the tasks stand to the lock as they believe. `Fits.ask`, `Fits.grant` and
  `Fits.release` are its rules.
- `Policy`, and `Policy.fifo`, which lets in the head of the queue as soon as that is possible.
- `RwLock.ahead`: the tasks that hold the lock or wait for it before a given one.
  `Policy.mem_ahead`: while a writer waits, only tasks ahead of it are let in.
-/

namespace DistBench

/-- What a task wants to do with what a lock protects. -/
inductive Access where
  | read
  | write
deriving DecidableEq, Repr

theorem write_ne_read : Access.write ≠ .read := by decide

/-- A lock, with the requests it has granted and those it has not, in the order in which they
were made. A task has one request at a time, and one that writes is alone. -/
structure RwLock (T : Type) where
  holding : List (T × Access) := []
  waiting : List (T × Access) := []
  once : ((holding ++ waiting).map Prod.fst).Nodup := by simp
  exclusive : ∀ t, (t, .write) ∈ holding → holding = [(t, .write)] := by simp

/-- How a task stands to a lock. -/
inductive Stand where
  | away
  | waits (access : Access)
  | holds (access : Access)
deriving DecidableEq, Repr

namespace RwLock

variable {T : Type} {l : RwLock T} {t u : T} {a b : Access} {stand : T → Stand}

/-- The tasks that hold the lock or wait for it. -/
def tasks (l : RwLock T) : List T := (l.holding ++ l.waiting).map Prod.fst

theorem nodup_tasks (l : RwLock T) : l.tasks.Nodup := l.once

theorem mem_tasks : t ∈ l.tasks ↔ ∃ a, (t, a) ∈ l.holding ∨ (t, a) ∈ l.waiting := by
  simp [tasks, exists_or]

/-- A task that holds the lock does not wait for it. -/
theorem notMem_waiting_of_holding (h : (t, a) ∈ l.holding) : (t, b) ∉ l.waiting := by
  intro hwait
  have hnodup : (l.holding.map Prod.fst ++ l.waiting.map Prod.fst).Nodup := by
    simpa using l.once
  have hholding : t ∈ l.holding.map Prod.fst := List.mem_map_of_mem h
  have hwaiting : t ∈ l.waiting.map Prod.fst := List.mem_map_of_mem hwait
  exact List.disjoint_of_nodup_append hnodup hholding hwaiting

theorem nodup_waiting (l : RwLock T) : (l.waiting.map Prod.fst).Nodup := by
  have h : (l.holding.map Prod.fst ++ l.waiting.map Prod.fst).Nodup := by simpa using l.once
  exact h.of_append_right

theorem access_unique (ha : (t, a) ∈ l.waiting) (hb : (t, b) ∈ l.waiting) : a = b :=
  (Prod.mk.inj (List.inj_on_of_nodup_map l.nodup_waiting ha hb rfl)).2

/-- A request for the lock can be granted next to those that are. -/
def Admissible (l : RwLock T) (t : T) (a : Access) : Prop :=
  (t, a) ∈ l.waiting ∧ ∀ r ∈ l.holding, r.2 = .read ∧ a = .read

instance [DecidableEq T] : Decidable (l.Admissible t a) :=
  inferInstanceAs (Decidable (_ ∧ _))

section Operations

variable [DecidableEq T]

/-- A task asks for the lock, unless it has. -/
def ask (l : RwLock T) (t : T) (a : Access) : RwLock T :=
  if h : t ∈ l.tasks then l
  else
    { l with
      waiting := l.waiting ++ [(t, a)]
      once := by
        rw [← List.append_assoc, List.map_append]
        exact List.nodup_append_comm.mp (List.nodup_cons.mpr ⟨h, l.once⟩) }

/-- A request is granted. -/
def grant (l : RwLock T) (t : T) (a : Access) : RwLock T :=
  if h : l.Admissible t a then
    { holding := (t, a) :: l.holding
      waiting := l.waiting.erase (t, a)
      once := by
        have hperm : ((t, a) :: l.holding ++ l.waiting.erase (t, a)).Perm
            (l.holding ++ l.waiting) :=
          List.perm_middle.symm.trans ((List.perm_cons_erase h.1).symm.append_left l.holding)
        exact (hperm.map Prod.fst).nodup_iff.mpr l.once
      exclusive := by
        intro u hu
        obtain heq | hold := List.mem_cons.mp hu
        · -- a request to write is granted to a lock that nobody holds
          have hnone : l.holding = [] := by
            refine List.eq_nil_iff_forall_not_mem.mpr fun r hr => ?_
            rw [← (Prod.mk.inj heq).2] at h
            exact absurd (h.2 r hr).2 write_ne_read
          rw [hnone, heq]
        · exact absurd (h.2 _ hold).1 write_ne_read }
  else l

/-- A task gives the lock back. -/
def release (l : RwLock T) (t : T) : RwLock T where
  holding := l.holding.filter (·.1 ≠ t)
  waiting := l.waiting
  once := l.once.sublist ((List.filter_sublist.append_right l.waiting).map Prod.fst)
  exclusive := by
    intro u hu
    obtain ⟨hold, hne⟩ := List.mem_filter.mp hu
    rw [l.exclusive u hold]
    exact List.filter_cons_of_pos hne

theorem holding_ask (l : RwLock T) (t : T) (a : Access) : (l.ask t a).holding = l.holding := by
  unfold ask
  split <;> rfl

theorem waiting_ask (h : t ∉ l.tasks) : (l.ask t a).waiting = l.waiting ++ [(t, a)] := by
  rw [ask, dif_neg h]

theorem holding_grant (h : l.Admissible t a) : (l.grant t a).holding = (t, a) :: l.holding := by
  rw [grant, dif_pos h]

theorem waiting_grant (h : l.Admissible t a) :
    (l.grant t a).waiting = l.waiting.erase (t, a) := by
  rw [grant, dif_pos h]

@[simp] theorem waiting_release (l : RwLock T) (t : T) : (l.release t).waiting = l.waiting :=
  rfl

theorem mem_holding_release :
    (u, a) ∈ (l.release t).holding ↔ (u, a) ∈ l.holding ∧ u ≠ t := by
  simp [release]

end Operations

/-! ## Where the tasks are -/

/-- The lock knows where its tasks are. -/
structure Fits (l : RwLock T) (stand : T → Stand) : Prop where
  waiting : ∀ t a, (t, a) ∈ l.waiting ↔ stand t = .waits a
  holding : ∀ t a, (t, a) ∈ l.holding ↔ stand t = .holds a

namespace Fits

theorem notMem_tasks (h : l.Fits stand) (ht : stand t = .away) : t ∉ l.tasks := by
  intro hmem
  obtain ⟨a, hold | hwait⟩ := mem_tasks.mp hmem
  · rw [(h.holding t a).mp hold] at ht
    cases ht
  · rw [(h.waiting t a).mp hwait] at ht
    cases ht

/-- Who writes is alone. -/
theorem eq_of_writes (h : l.Fits stand) (ht : stand t = .holds .write)
    (hu : stand u = .holds a) : u = t := by
  have halone := l.exclusive t ((h.holding t _).mpr ht)
  have hmem := (h.holding u a).mpr hu
  rw [halone, List.mem_singleton] at hmem
  exact (Prod.mk.inj hmem).1

theorem free (h : l.Fits stand) (hnone : ∀ t a, stand t ≠ .holds a) : l.holding = [] :=
  List.eq_nil_iff_forall_not_mem.mpr fun r hr => hnone r.1 r.2 ((h.holding r.1 r.2).mp hr)

variable [DecidableEq T]

theorem ask (h : l.Fits stand) (ht : stand t = .away) :
    (l.ask t a).Fits (Function.update stand t (.waits a)) := by
  have hnew := h.notMem_tasks ht
  constructor
  · intro u b
    rw [waiting_ask hnew, List.mem_append, List.mem_singleton, h.waiting, Prod.mk.injEq]
    by_cases hut : u = t
    · subst hut
      rw [Function.update_self, ht]
      simp [eq_comm]
    · simp [hut]
  · intro u b
    rw [holding_ask, h.holding]
    by_cases hut : u = t
    · subst hut
      rw [Function.update_self, ht]
      simp
    · rw [Function.update_of_ne hut]

theorem grant (h : l.Fits stand) (hadm : l.Admissible t a) :
    (l.grant t a).Fits (Function.update stand t (.holds a)) := by
  have ht := (h.waiting t a).mp hadm.1
  have hnodup : l.waiting.Nodup := l.nodup_waiting.of_map _
  constructor
  · intro u b
    rw [waiting_grant hadm, hnodup.mem_erase_iff, h.waiting, ne_eq, Prod.mk.injEq]
    by_cases hut : u = t
    · subst hut
      rw [Function.update_self, ht]
      simp [eq_comm]
    · simp [hut]
  · intro u b
    rw [holding_grant hadm, List.mem_cons, h.holding, Prod.mk.injEq]
    by_cases hut : u = t
    · subst hut
      rw [Function.update_self, ht]
      simp [eq_comm]
    · simp [hut]

theorem release (h : l.Fits stand) (ht : stand t = .holds a) :
    (l.release t).Fits (Function.update stand t .away) := by
  constructor
  · intro u b
    rw [waiting_release, h.waiting]
    by_cases hut : u = t
    · subst hut
      rw [Function.update_self, ht]
      simp
    · rw [Function.update_of_ne hut]
  · intro u b
    rw [mem_holding_release, h.holding]
    by_cases hut : u = t
    · subst hut
      simp
    · rw [Function.update_of_ne hut]
      simp [hut]

end Fits

/-! ## Who comes before whom -/

variable [DecidableEq T] {w x : T}

/-- The tasks that hold the lock or wait for it before `w`. -/
def ahead (l : RwLock T) (w : T) : List T := l.tasks.takeWhile (· ≠ w)

theorem mem_tasks_of_mem_ahead (h : x ∈ l.ahead w) : x ∈ l.tasks :=
  (List.takeWhile_sublist _).mem h

theorem ahead_eq {before after : List (T × Access)} (h : l.waiting = before ++ (w, a) :: after) :
    l.ahead w = (l.holding ++ before).map Prod.fst := by
  have hsplit : l.tasks = (l.holding ++ before).map Prod.fst ++ w :: after.map Prod.fst := by
    rw [tasks, h]
    simp
  have hnodup := l.nodup_tasks
  rw [hsplit] at hnodup
  have hw : w ∉ (l.holding ++ before).map Prod.fst := fun hmem =>
    List.disjoint_of_nodup_append hnodup hmem List.mem_cons_self
  have hpos : ∀ y ∈ (l.holding ++ before).map Prod.fst, decide (y ≠ w) = true :=
    fun y hy => decide_eq_true (ne_of_mem_of_not_mem hy hw)
  rw [ahead, hsplit, List.takeWhile_append_of_pos hpos, List.takeWhile_cons_of_neg (by simp),
    List.append_nil]

/-- Who asks now is behind those who wait. -/
theorem ahead_ask (hw : (w, a) ∈ l.waiting) : (l.ask t b).ahead w = l.ahead w := by
  by_cases ht : t ∈ l.tasks
  · rw [ask, dif_pos ht]
  · obtain ⟨before, after, h⟩ := List.append_of_mem hw
    have hask : (l.ask t b).waiting = before ++ (w, a) :: (after ++ [(t, b)]) := by
      rw [waiting_ask ht, h, List.append_assoc, List.cons_append]
    rw [ahead_eq hask, ahead_eq h, holding_ask]

theorem mem_ahead_of_release (hw : (w, a) ∈ l.waiting) (hx : x ∈ (l.release t).ahead w) :
    x ∈ l.ahead w := by
  obtain ⟨before, after, h⟩ := List.append_of_mem hw
  rw [ahead_eq (l := l.release t) h] at hx
  rw [ahead_eq h]
  simp only [List.mem_map, List.mem_append] at hx ⊢
  obtain ⟨r, hold | hbefore, rfl⟩ := hx
  · exact ⟨r, .inl (List.mem_of_mem_filter hold), rfl⟩
  · exact ⟨r, .inr hbefore, rfl⟩

theorem mem_ahead_of_holding (hw : (w, a) ∈ l.waiting) (hx : (x, b) ∈ l.holding) :
    x ∈ l.ahead w := by
  obtain ⟨before, after, h⟩ := List.append_of_mem hw
  rw [ahead_eq h, List.map_append]
  exact List.mem_append_left _ (List.mem_map_of_mem hx)

/-- Who asks for the lock has everyone ahead of it who has asked before. -/
theorem ahead_ask_self (hw : w ∉ l.tasks) : (l.ask w a).ahead w = l.tasks := by
  rw [ahead_eq (l := l.ask w a) (waiting_ask hw), holding_ask]
  rfl

end RwLock

/-! ## Policies -/

/-- Which of the waiting tasks a lock lets in. -/
structure Policy (T : Type) where
  grants : RwLock T → T → Access → Bool
  admissible : ∀ {l t a}, grants l t a = true → l.Admissible t a
  /-- Requests are granted in the order in which they were made, but for reads among
  themselves. -/
  inOrder : ∀ {l t a before after}, grants l t a = true → l.waiting = before ++ (t, a) :: after →
    ∀ r ∈ before, r.2 = .read ∧ a = .read
  /-- A lock that nobody holds is not withheld. -/
  progress : ∀ {l}, l.holding = [] → l.waiting ≠ [] → ∃ t a, grants l t a = true

namespace Policy

variable {T : Type} [DecidableEq T] {l : RwLock T} {t w x : T} {a : Access}

/-- The head of the queue is let in as soon as that is possible. -/
def fifo : Policy T where
  grants l t a := decide (l.waiting.head? = some (t, a) ∧ l.Admissible t a)
  admissible h := (of_decide_eq_true h).2
  inOrder := by
    intro l t a before after hadm h r hr
    have hhead := (of_decide_eq_true hadm).1
    have hnodup : l.waiting.Nodup := l.nodup_waiting.of_map _
    rw [h] at hhead hnodup
    cases before with
    | nil => cases hr
    | cons r' before =>
      obtain rfl : r' = (t, a) := Option.some.inj hhead
      exact absurd (List.mem_append_right _ List.mem_cons_self) (List.nodup_cons.mp hnodup).1
  progress := by
    intro l hfree hwait
    obtain ⟨r, rest, h⟩ := List.exists_cons_of_ne_nil hwait
    refine ⟨r.1, r.2, decide_eq_true ⟨by rw [h]; rfl, ?_, ?_⟩⟩
    · rw [h]
      exact List.mem_cons_self
    · rw [hfree]
      exact List.forall_mem_nil _

variable {P : Policy T}

/-- While a writer waits, only tasks ahead of it are let in, and these stay ahead of it. -/
theorem mem_ahead (h : P.grants l t a = true) (hw : (w, .write) ∈ l.waiting) (hne : t ≠ w) :
    t ∈ l.ahead w ∧ ∀ x, x ∈ (l.grant t a).ahead w ↔ x ∈ l.ahead w := by
  have hadm := P.admissible h
  have hnodup : l.waiting.Nodup := l.nodup_waiting.of_map _
  obtain ⟨before, after, hsplit⟩ := List.append_of_mem hadm.1
  have hafter : (w, .write) ∈ after := by
    rw [hsplit, List.mem_append, List.mem_cons] at hw
    obtain hbefore | heq | hafter := hw
    · exact absurd (P.inOrder h hsplit _ hbefore).1 write_ne_read
    · exact absurd (Prod.mk.inj heq).1.symm hne
    · exact hafter
  obtain ⟨between, rest, rfl⟩ := List.append_of_mem hafter
  have hnew : (t, a) ∉ before := by
    intro hmem
    rw [hsplit] at hnodup
    exact List.disjoint_of_nodup_append hnodup hmem List.mem_cons_self
  have hold : l.waiting = (before ++ (t, a) :: between) ++ (w, .write) :: rest := by
    rw [hsplit, List.append_assoc, List.cons_append]
  have herase : (l.grant t a).waiting = (before ++ between) ++ (w, .write) :: rest := by
    rw [RwLock.waiting_grant hadm, hsplit, List.erase_append_right _ hnew, List.erase_cons_head,
      List.append_assoc]
  rw [RwLock.ahead_eq hold, RwLock.ahead_eq herase, RwLock.holding_grant hadm]
  constructor
  · simp
  · intro x
    simp only [List.cons_append, List.map_cons, List.map_append, List.mem_cons, List.mem_append]
    tauto

/-- A writer is let in after everyone ahead of it. -/
theorem ahead_eq_nil (h : P.grants l w .write = true) : l.ahead w = [] := by
  have hadm := P.admissible h
  obtain ⟨before, after, hsplit⟩ := List.append_of_mem hadm.1
  have hholding : l.holding = [] := List.eq_nil_iff_forall_not_mem.mpr fun r hr =>
    absurd (hadm.2 r hr).2 write_ne_read
  have hbefore : before = [] := List.eq_nil_iff_forall_not_mem.mpr fun r hr =>
    absurd (P.inOrder h hsplit r hr).2 write_ne_read
  rw [RwLock.ahead_eq hsplit, hholding, hbefore]
  rfl

/-- What happens to a lock. -/
inductive Moves (P : Policy T) (l : RwLock T) : RwLock T → Prop
  | stays : Moves P l l
  | asks (t : T) (a : Access) : Moves P l (l.ask t a)
  | grants {t : T} {a : Access} (h : P.grants l t a = true) : Moves P l (l.grant t a)
  | releases (t : T) : Moves P l (l.release t)

/-- While a writer waits, nobody gets ahead of it. -/
theorem Moves.mem_ahead {l' : RwLock T} (h : P.Moves l l') (hw : (w, .write) ∈ l.waiting)
    (hw' : (w, .write) ∈ l'.waiting) (hx : x ∈ l'.ahead w) : x ∈ l.ahead w := by
  cases h with
  | stays => exact hx
  | asks t a => rwa [RwLock.ahead_ask hw] at hx
  | @grants t a hadm =>
    have hne : t ≠ w := by
      rintro rfl
      have hholds : (t, a) ∈ (l.grant t a).holding := by
        rw [RwLock.holding_grant (P.admissible hadm)]
        exact List.mem_cons_self
      exact RwLock.notMem_waiting_of_holding hholds hw'
    exact ((P.mem_ahead hadm hw hne).2 x).mp hx
  | releases t => exact RwLock.mem_ahead_of_release hw hx

/-- Who is ahead of a waiting writer stays ahead of it until it gives the lock back. -/
theorem Moves.ahead_mem {l' : RwLock T} (h : P.Moves l l') (hw : (w, .write) ∈ l.waiting)
    (hx : x ∈ l.ahead w) (hx' : x ∈ l'.tasks) : x ∈ l'.ahead w := by
  cases h with
  | stays => exact hx
  | asks t a => rwa [RwLock.ahead_ask hw]
  | @grants t a hadm =>
    have hne : t ≠ w := by
      rintro rfl
      obtain rfl : a = .write := RwLock.access_unique (P.admissible hadm).1 hw
      rw [P.ahead_eq_nil hadm] at hx
      cases hx
    exact ((P.mem_ahead hadm hw hne).2 x).mpr hx
  | releases t =>
    obtain ⟨before, after, hsplit⟩ := List.append_of_mem hw
    rw [RwLock.ahead_eq (l := l.release t) hsplit]
    rw [RwLock.ahead_eq hsplit] at hx
    obtain ⟨a, hholds | hwaits⟩ := RwLock.mem_tasks.mp hx'
    · exact List.mem_map_of_mem (List.mem_append_left before hholds)
    · -- it does not hold the lock, so it waits for it before the writer
      obtain ⟨r, hr, rfl⟩ := List.mem_map.mp hx
      rcases List.mem_append.mp hr with hold | hbefore
      · exact absurd hwaits (RwLock.notMem_waiting_of_holding (l := l) hold)
      · exact List.mem_map_of_mem (List.mem_append_right _ hbefore)

end Policy

end DistBench
