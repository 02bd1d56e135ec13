import DistBench.Lib.Run

/-!
# Cached connections (connection.py)

A `ConnectionManager` opens a connection to its peer when one is needed and keeps it. A caller
takes the connection out under the lock and uses it outside; if that raises, it takes the lock
again and sets `self.connection` to `None`, whatever connection is there by then.

- `Manager`: the manager and its callers. The connections are numbered as they are opened;
  `send` and `cast` differ only in what they return.
- `Label`, `step`: a caller goes on, up to its next await. A free lock is taken at once, and a
  released one goes to the caller that has waited longest, as those of asyncio do.
- `discards_of_own`: where a caller finds its own connection, or none, when it invalidates,
  only failed connections are discarded, and there is at most one that is usable.
-/

namespace DistBench.ConnectionManager

/-- What the holder of the lock awaits. -/
inductive Holder where
  /-- `transport.connect`. -/
  | connecting (attempt : Nat)
  /-- `asyncio.sleep`, after a failed attempt. -/
  | sleeping (attempt : Nat)
  /-- `connection.close`. -/
  | closing (conn : Nat)
deriving DecidableEq, Repr

/-- What a caller waits for the lock for. -/
inductive Waiter where
  /-- `_ensure_connected`. -/
  | ensureConnected
  /-- It has failed on the connection. -/
  | invalidate (conn : Nat)
  /-- `close`. -/
  | close
deriving DecidableEq, Repr

/-- `transmitting` are the connections callers are in `conn.send` or `conn.cast` of. `failed`
are those on which that has raised, `closed` those that have been closed. -/
structure Manager where
  connection : Option Nat := none
  holder : Option Holder := none
  waiters : List Waiter := []
  transmitting : List Nat := []
  opened : Nat := 0
  failed : Finset Nat := ∅
  closed : Finset Nat := ∅
deriving DecidableEq

inductive Label where
  /-- `send` or `cast` is called. -/
  | call
  /-- `close` is called. -/
  | close
  /-- The caller that has waited longest gets the lock. -/
  | acquire
  /-- `transport.connect` returns a connection, or raises. -/
  | connected (ok : Bool)
  | slept
  /-- A `conn.send` or `conn.cast` returns, or raises. -/
  | transmitted (conn : Nat) (ok : Bool)
  /-- `connection.close` returns, or raises. -/
  | closed (ok : Bool)
deriving DecidableEq, Repr

namespace Manager

variable (maxRetries : Nat) (s : Manager)

/-- The head of the loop of `_ensure_connected`: the next attempt, or the `ConnectionError`
after the last (lines 70–96). -/
def attempt (n : Nat) : Manager :=
  if n < maxRetries then { s with holder := some (.connecting n) } else { s with holder := none }

/-- A caller that has the lock, up to its next await. -/
def enter : Waiter → Manager
  | .ensureConnected =>
    match s.connection with
    | some conn => { s with transmitting := conn :: s.transmitting }
    | none => s.attempt maxRetries 0
  | .invalidate _ => { s with connection := none }
  | .close =>
    match s.connection with
    | some conn => { s with holder := some (.closing conn) }
    | none => s

/-- `async with self.lock`. -/
def lock (w : Waiter) : Manager :=
  if s.holder = none ∧ s.waiters = [] then s.enter maxRetries w
  else { s with waiters := s.waiters ++ [w] }

/-- `connect` returns, and the caller begins to use the connection. -/
def establish : Manager :=
  { s with
    connection := some s.opened
    holder := none
    transmitting := s.opened :: s.transmitting
    opened := s.opened + 1 }

/-- A caller goes on. -/
def step : Label → Option Manager
  | .call => some (s.lock maxRetries .ensureConnected)
  | .close => some (s.lock maxRetries .close)
  | .acquire =>
    match s.holder, s.waiters with
    | none, w :: waiters => some ({ s with waiters := waiters }.enter maxRetries w)
    | _, _ => none
  | .connected ok =>
    match s.holder with
    | some (.connecting n) =>
      if ok then some s.establish
      else if n < maxRetries - 1 then some { s with holder := some (.sleeping n) }
      else some (s.attempt maxRetries (n + 1))
    | _ => none
  | .slept =>
    match s.holder with
    | some (.sleeping n) => some (s.attempt maxRetries (n + 1))
    | _ => none
  | .transmitted conn ok =>
    if conn ∈ s.transmitting then
      let s := { s with transmitting := s.transmitting.erase conn }
      if ok then some s
      else some ({ s with failed := insert conn s.failed }.lock maxRetries (.invalidate conn))
    else none
  | .closed ok =>
    match s.holder with
    | some (.closing conn) =>
      if ok then
        some { s with connection := none, holder := none, closed := insert conn s.closed }
      else some { s with holder := none }
    | _ => none

/-- The connections that are open and have not failed. -/
def usable : Finset Nat := ((Finset.range s.opened) \ s.failed) \ s.closed

/-- At most one connection is usable, and it is the cached one. -/
structure Cached : Prop where
  cached : ∀ conn ∈ s.usable, s.connection = some conn
  card : s.usable.card ≤ 1

/-- The connection on which the caller has failed that gets the lock in this step. -/
def invalidating : Label → Option Nat
  | .acquire =>
    match s.holder, s.waiters with
    | none, .invalidate conn :: _ => some conn
    | _, _ => none
  | .transmitted conn false =>
    if conn ∈ s.transmitting ∧ s.holder = none ∧ s.waiters = [] then some conn else none
  | _ => none

/-- It finds the connection it has failed on, or none. -/
def FindsOwn (l : Label) : Prop :=
  ∀ conn ∈ s.invalidating l, s.connection = none ∨ s.connection = some conn

instance (l : Label) : Decidable (s.FindsOwn l) :=
  inferInstanceAs (Decidable (∀ conn ∈ s.invalidating l, _ ∨ _))

/-- The step does not discard a connection that has not failed, unless it closes it. -/
def DiscardsFailed (l : Label) : Prop :=
  ∀ s' conn, s.step maxRetries l = some s' → s.connection = some conn → s'.connection = none →
    (∀ ok, l ≠ .closed ok) → conn ∈ s'.failed

/-! ## What a step does -/

end Manager

/-- What is cached while the lock is held. -/
def Holder.connection : Holder → Option Nat
  | .connecting _ | .sleeping _ => none
  | .closing conn => some conn

namespace Manager

variable (s : Manager)

/-- What holds of the manager between two steps, if callers find their own connections. -/
structure Ok : Prop where
  cached : ∀ conn ∈ s.usable, s.connection = some conn
  holder : ∀ h ∈ s.holder, s.connection = h.connection
  failed : ∀ conn, .invalidate conn ∈ s.waiters → conn ∈ s.failed

/-- A transmission on `conn` raises. -/
def fail (conn : Nat) : Manager :=
  { s with transmitting := s.transmitting.erase conn, failed := insert conn s.failed }

/-- The ways in which a caller goes on. -/
inductive Moves (maxRetries : Nat) (s : Manager) : Label → Manager → Prop
  | asks {l : Label} {w : Waiter} (hw : ∀ conn, w ≠ .invalidate conn) :
      Moves maxRetries s l (s.lock maxRetries w)
  | acquires {w : Waiter} {waiters : List Waiter} (hfree : s.holder = none)
      (hwaiters : s.waiters = w :: waiters) :
      Moves maxRetries s .acquire ({ s with waiters := waiters }.enter maxRetries w)
  | connects {n : Nat} (hholder : s.holder = some (.connecting n)) :
      Moves maxRetries s (.connected true) s.establish
  | sleeps {n : Nat} (hholder : s.holder = some (.connecting n)) :
      Moves maxRetries s (.connected false) { s with holder := some (.sleeping n) }
  | tries {l : Label} {h : Holder} {n : Nat} (hholder : s.holder = some h)
      (hnone : h.connection = none) : Moves maxRetries s l (s.attempt maxRetries n)
  | returns {conn : Nat} : Moves maxRetries s (.transmitted conn true)
      { s with transmitting := s.transmitting.erase conn }
  | fails {conn : Nat} (hmem : conn ∈ s.transmitting) :
      Moves maxRetries s (.transmitted conn false)
        ((s.fail conn).lock maxRetries (.invalidate conn))
  | closes {conn : Nat} (hholder : s.holder = some (.closing conn)) :
      Moves maxRetries s (.closed true)
        { s with connection := none, holder := none, closed := insert conn s.closed }
  | keeps {conn : Nat} (hholder : s.holder = some (.closing conn)) :
      Moves maxRetries s (.closed false) { s with holder := none }

end Manager

variable {maxRetries : Nat} {s s' : Manager} {l : Label} {ls : List Label} {conn : Nat}

theorem mem_usable : conn ∈ s.usable ↔ conn < s.opened ∧ conn ∉ s.failed ∧ conn ∉ s.closed := by
  rw [Manager.usable, Finset.mem_sdiff, Finset.mem_sdiff, Finset.mem_range, and_assoc]

namespace Manager

theorem moves_of_step (hstep : s.step maxRetries l = some s') : Moves maxRetries s l s' := by
  cases l with
  | call | close =>
    obtain rfl := Option.some.inj hstep
    exact .asks (by simp)
  | acquire =>
    simp only [step] at hstep
    split at hstep
    · next w waiters hfree hwaiters =>
      obtain rfl := Option.some.inj hstep
      exact .acquires hfree hwaiters
    · cases hstep
  | connected ok =>
    simp only [step] at hstep
    split at hstep
    · next n hholder =>
      cases ok with
      | true =>
        obtain rfl := Option.some.inj hstep
        exact .connects hholder
      | false =>
        rw [if_neg Bool.false_ne_true] at hstep
        split at hstep
        · obtain rfl := Option.some.inj hstep
          exact .sleeps hholder
        · obtain rfl := Option.some.inj hstep
          exact .tries hholder rfl
    · cases hstep
  | slept =>
    simp only [step] at hstep
    split at hstep
    · next n hholder =>
      obtain rfl := Option.some.inj hstep
      exact .tries hholder rfl
    · cases hstep
  | transmitted conn ok =>
    obtain ⟨hmem, hstep⟩ := Option.ite_none_right_eq_some.mp hstep
    cases ok with
    | true =>
      obtain rfl := Option.some.inj hstep
      exact .returns
    | false =>
      obtain rfl := Option.some.inj hstep
      exact .fails hmem
  | closed ok =>
    simp only [step] at hstep
    split at hstep
    · next conn hholder =>
      cases ok with
      | true =>
        obtain rfl := Option.some.inj hstep
        exact .closes hholder
      | false =>
        obtain rfl := Option.some.inj hstep
        exact .keeps hholder
    · cases hstep

theorem invalidating_acquire {waiters : List Waiter} (hfree : s.holder = none)
    (hwaiters : s.waiters = .invalidate conn :: waiters) : conn ∈ s.invalidating .acquire := by
  simp [invalidating, hfree, hwaiters]

theorem invalidating_transmitted (hmem : conn ∈ s.transmitting) (hfree : s.holder = none)
    (hwaiters : s.waiters = []) : conn ∈ s.invalidating (.transmitted conn false) := by
  simp [invalidating, hmem, hfree, hwaiters]

theorem connection_attempt {n : Nat} : (s.attempt maxRetries n).connection = s.connection := by
  unfold attempt
  split <;> rfl

/-- Nothing but an invalidation takes the connection away from the callers. -/
theorem enter_keeps (w : Waiter) : (s.enter maxRetries w).failed = s.failed ∧
    ((s.enter maxRetries w).connection = s.connection ∨ ∃ conn, w = .invalidate conn) := by
  cases w with
  | ensureConnected =>
    simp only [enter, attempt]
    split
    · exact ⟨rfl, .inl rfl⟩
    · split <;> exact ⟨rfl, .inl rfl⟩
  | invalidate conn => exact ⟨rfl, .inr ⟨conn, rfl⟩⟩
  | close =>
    simp only [enter]
    split <;> exact ⟨rfl, .inl rfl⟩

theorem lock_keeps (w : Waiter) : (s.lock maxRetries w).failed = s.failed ∧
    ((s.lock maxRetries w).connection = s.connection ∨
      (s.holder = none ∧ s.waiters = []) ∧ ∃ conn, w = .invalidate conn) := by
  unfold lock
  split
  · next hfree => exact (enter_keeps w).imp_right fun h => h.imp_right fun h => ⟨hfree, h⟩
  · exact ⟨rfl, .inl rfl⟩

namespace Ok

theorem attempt {n : Nat} (h : s.Ok) (hnone : s.connection = none) :
    (s.attempt maxRetries n).Ok := by
  unfold Manager.attempt
  split
  · exact ⟨h.cached, by simp [hnone, Holder.connection], h.failed⟩
  · exact ⟨h.cached, by simp, h.failed⟩

/-- Whoever gets the lock leaves the usable connection where it is. -/
theorem enter {w : Waiter} (h : s.Ok) (hfree : s.holder = none)
    (hown : ∀ conn, w = .invalidate conn → conn ∈ s.failed ∧
      (s.connection = none ∨ s.connection = some conn)) : (s.enter maxRetries w).Ok := by
  cases w with
  | ensureConnected =>
    simp only [Manager.enter]
    split
    · exact ⟨h.cached, h.holder, h.failed⟩
    · next hnone => exact h.attempt hnone
  | invalidate conn =>
    obtain ⟨hfailed, hfinds⟩ := hown conn rfl
    refine ⟨fun conn' hconn' => ?_, by simp [Manager.enter, hfree], h.failed⟩
    have hcached := h.cached conn' hconn'
    rcases hfinds with hnone | hsome
    · exact absurd (hnone.symm.trans hcached) nofun
    · obtain rfl := Option.some.inj (hsome.symm.trans hcached)
      exact absurd hfailed (mem_usable.mp hconn').2.1
  | close =>
    simp only [Manager.enter]
    split
    · next hsome => exact ⟨h.cached, by simp [hsome, Holder.connection], h.failed⟩
    · exact h

theorem lock {w : Waiter} (h : s.Ok) (hfailed : ∀ conn, w = .invalidate conn → conn ∈ s.failed)
    (hown : ∀ conn, w = .invalidate conn → s.holder = none → s.waiters = [] →
      s.connection = none ∨ s.connection = some conn) : (s.lock maxRetries w).Ok := by
  unfold Manager.lock
  split
  · next hfree =>
    exact h.enter hfree.1 fun conn hw => ⟨hfailed conn hw, hown conn hw hfree.1 hfree.2⟩
  · refine ⟨h.cached, h.holder, fun conn hconn => ?_⟩
    rcases List.mem_append.mp hconn with hconn | hconn
    · exact h.failed conn hconn
    · exact hfailed conn (List.mem_singleton.mp hconn).symm

theorem establish (h : s.Ok) (hnone : s.connection = none) : s.establish.Ok := by
  refine ⟨fun conn hconn => ?_, by simp [Manager.establish], h.failed⟩
  obtain ⟨hlt, hopen⟩ := mem_usable.mp hconn
  rcases Nat.lt_succ_iff_lt_or_eq.mp hlt with hlt | rfl
  · exact absurd (hnone.symm.trans (h.cached conn (mem_usable.mpr ⟨hlt, hopen⟩))) nofun
  · rfl

end Ok

theorem Ok.fail (h : s.Ok) : (s.fail conn).Ok where
  cached conn' hconn' := by
    obtain ⟨hlt, hfailed, hclosed⟩ := mem_usable.mp hconn'
    refine h.cached conn' (mem_usable.mpr ⟨hlt, fun hmem => ?_, hclosed⟩)
    exact hfailed (Finset.mem_insert_of_mem hmem)
  holder := h.holder
  failed conn' hconn' := Finset.mem_insert_of_mem (h.failed conn' hconn')

theorem Ok.close (h : s.Ok) (hclosing : s.connection = some conn) :
    { s with connection := none, holder := none, closed := insert conn s.closed }.Ok := by
  refine ⟨fun conn' hconn' => ?_, by simp, h.failed⟩
  obtain ⟨hlt, hfailed, hclosed⟩ := mem_usable.mp hconn'
  have hne : conn' ∉ s.closed := fun hmem => hclosed (Finset.mem_insert_of_mem hmem)
  have hcached := h.cached conn' (mem_usable.mpr ⟨hlt, hfailed, hne⟩)
  obtain rfl := Option.some.inj (hclosing.symm.trans hcached)
  exact absurd (Finset.mem_insert_self _ _) hclosed

/-- The caller that has waited longest leaves the others waiting. -/
theorem Ok.dequeue {w : Waiter} {waiters : List Waiter} (h : s.Ok)
    (hwaiters : s.waiters = w :: waiters) : { s with waiters := waiters }.Ok where
  cached := h.cached
  holder := h.holder
  failed conn hconn := h.failed conn (hwaiters ▸ List.mem_cons_of_mem _ hconn)

theorem Ok.step (h : s.Ok) (hown : s.FindsOwn l) (hmoves : Moves maxRetries s l s') : s'.Ok := by
  cases hmoves with
  | asks hw => exact h.lock (fun conn hc => absurd hc (hw conn)) fun conn hc => absurd hc (hw conn)
  | acquires hfree hwaiters =>
    refine (h.dequeue hwaiters).enter hfree fun conn hw => ?_
    subst hw
    exact ⟨h.failed conn (hwaiters ▸ List.mem_cons_self),
      hown conn (invalidating_acquire hfree hwaiters)⟩
  | connects hholder => exact h.establish (h.holder _ hholder)
  | sleeps hholder =>
    have hnone : s.connection = none := h.holder _ hholder
    exact ⟨h.cached, by simp [hnone, Holder.connection], h.failed⟩
  | tries hholder hnone => exact h.attempt ((h.holder _ hholder).trans hnone)
  | returns => exact ⟨h.cached, h.holder, h.failed⟩
  | fails hmem =>
    refine h.fail.lock (fun conn' hw => ?_) fun conn' hw hfree hwaiters => ?_
    · cases hw
      exact Finset.mem_insert_self _ _
    · cases hw
      exact hown _ (invalidating_transmitted hmem hfree hwaiters)
  | closes hholder => exact h.close (h.holder _ hholder)
  | keeps hholder => exact ⟨h.cached, by simp, h.failed⟩

/-- What can take the connection away. -/
theorem invalidates_of_discards (hmoves : Moves maxRetries s l s')
    (hsome : s.connection = some conn)
    (hnone : s'.connection = none) (hclosed : ∀ ok, l ≠ .closed ok) :
    ∃ conn' ∈ s.invalidating l, s.failed ⊆ s'.failed ∧
      (conn' ∈ s'.failed ∨ .invalidate conn' ∈ s.waiters) := by
  have hchanged : s'.connection ≠ s.connection := by
    rw [hsome, hnone]
    exact nofun
  cases hmoves with
  | asks hw =>
    obtain ⟨-, hsame | ⟨-, conn', hc⟩⟩ := lock_keeps (s := s) _
    · exact absurd hsame hchanged
    · exact absurd hc (hw conn')
  | @acquires w waiters hfree hwaiters =>
    obtain ⟨hfailed, hsame | ⟨conn', rfl⟩⟩ := enter_keeps (s := { s with waiters := waiters }) w
    · exact absurd hsame hchanged
    · exact ⟨conn', invalidating_acquire hfree hwaiters, hfailed.ge,
        .inr (hwaiters ▸ List.mem_cons_self)⟩
  | connects _ => cases hnone
  | sleeps _ | returns => exact absurd rfl hchanged
  | tries _ _ => exact absurd connection_attempt hchanged
  | @fails conn' hmem =>
    obtain ⟨hfailed, hsame | ⟨hfree, -⟩⟩ := lock_keeps (s := s.fail conn') (.invalidate conn')
    · exact absurd hsame hchanged
    · refine ⟨conn', invalidating_transmitted hmem hfree.1 hfree.2, ?_, .inl ?_⟩
      · exact hfailed.ge.trans' (Finset.subset_insert _ _)
      · exact hfailed.ge (Finset.mem_insert_self _ _)
  | closes _ | keeps _ => exact absurd rfl (hclosed _)

/-- A caller that finds its own connection discards one that has failed. -/
theorem Ok.discardsFailed (h : s.Ok) (hown : s.FindsOwn l) : s.DiscardsFailed maxRetries l := by
  intro s' conn hstep hsome hnone hclosed
  obtain ⟨conn', hinv, hsub, hfailed⟩ :=
    invalidates_of_discards (moves_of_step hstep) hsome hnone hclosed
  have hown : conn = conn' := by
    rcases hown conn' hinv with hno | hself
    · exact absurd (hsome.symm.trans hno) nofun
    · exact Option.some.inj (hsome.symm.trans hself)
  subst hown
  exact hfailed.elim id fun hwaits => hsub (h.failed conn hwaits)

theorem Ok.toCached (h : s.Ok) : s.Cached where
  cached := h.cached
  card := Finset.card_le_one.mpr fun conn hconn conn' hconn' =>
    Option.some.inj ((h.cached conn hconn).symm.trans (h.cached conn' hconn'))

/-! ## Runs -/

theorem ok_of_run (hown : Meets (step maxRetries) {} (fun _ s l => s.FindsOwn l) ls)
    (hs : exec (step maxRetries) {} ls = some s) : s.Ok := by
  have hinit : Ok {} := ⟨by simp [usable], by simp, by simp⟩
  refine run_induction (P := fun ls s =>
    Meets (step maxRetries) {} (fun _ s l => s.FindsOwn l) ls → s.Ok)
    (fun _ => hinit) ?_ ls s hs hown
  intro ls s l s' hs ih hstep hown
  have hbefore : Meets _ _ _ ls := hown.prefix
  exact (ih hbefore).step (hown.last hs) (moves_of_step hstep)

/-- As long as the callers that have failed find their own connection, or none, only failed
connections are discarded, and at most one is usable. -/
theorem discards_of_own (hown : Meets (step maxRetries) {} (fun _ s l => s.FindsOwn l) ls)
    (hs : exec (step maxRetries) {} ls = some s) :
    s.Cached ∧ Meets (step maxRetries) {} (fun _ s l => s.DiscardsFailed maxRetries l) ls := by
  refine ⟨(ok_of_run hown hs).toCached, fun ls₁ l ls₂ s hls hs => ?_⟩
  obtain ⟨hbefore, hown⟩ := hown.with_history ls₁ l ls₂ s hls hs
  exact (ok_of_run hbefore hs).discardsFailed hown

/-- A caller that finds another connection discards it, whether it has failed or not. -/
theorem not_discardsFailed_of_other {other : Nat} (hinv : conn ∈ s.invalidating l)
    (hother : s.connection = some other) (hne : other ≠ conn) (hfailed : other ∉ s.failed) :
    ¬ s.DiscardsFailed maxRetries l := by
  intro h
  unfold invalidating at hinv
  split at hinv
  · split at hinv
    · next waiters hfree hwaiters =>
      have hstep : s.step maxRetries .acquire =
          some { s with waiters := waiters, connection := none } := by
        simp [step, hfree, hwaiters, enter]
      have hmem := h _ other hstep hother rfl (by simp)
      exact hfailed hmem
    · cases hinv
  · next conn' =>
    obtain ⟨⟨hmem, hfree, hwaiters⟩, hconn⟩ := Option.ite_none_right_eq_some.mp hinv
    obtain rfl := Option.some.inj hconn
    have hlock : (s.fail conn').lock maxRetries (.invalidate conn') =
        { s.fail conn' with connection := none } := if_pos ⟨hfree, hwaiters⟩
    have hstep : s.step maxRetries (.transmitted conn' false) =
        some ((s.fail conn').lock maxRetries (.invalidate conn')) := if_pos hmem
    rw [hlock] at hstep
    have hmem := h _ other hstep hother rfl (by simp)
    exact hfailed ((Finset.mem_insert.mp hmem).resolve_left hne)
  · cases hinv

/-- Two callers share a connection, which fails for one of them. -/
def failing : List Label := [.call, .connected true, .call, .transmitted 0 false]

/-- A third opens another one before it fails for the second. -/
def overtaken : List Label := failing ++ [.call, .connected true]

theorem discards_of_own_failing : ∃ s, exec (step 3) {} failing = some s ∧ s.Cached ∧
    Meets (step 3) {} (fun _ s l => s.DiscardsFailed 3 l) failing := by
  obtain ⟨s, hs⟩ := Option.isSome_iff_exists.mp
    (show (exec (step 3) {} failing).isSome = true by decide)
  exact ⟨s, hs, discards_of_own (meets_of_meetsFrom (by decide)) hs⟩

/-- The new connection is discarded. -/
theorem discards_broken : ¬ ∀ maxRetries ls s, exec (step maxRetries) {} ls = some s →
    s.Cached ∧ Meets (step maxRetries) {} (fun _ s l => s.DiscardsFailed maxRetries l) ls := by
  intro h
  obtain ⟨s, hs, hother⟩ := exists_exec_of_any (step 3) {} overtaken
    (fun s => decide (s.connection = some 1 ∧ 1 ∉ s.failed ∧
      s.invalidating (.transmitted 0 false) = some 0)) (by decide)
  obtain ⟨hother, hfailed, hinv⟩ := of_decide_eq_true hother
  obtain ⟨s', hs'⟩ := Option.isSome_iff_exists.mp
    (show (exec (step 3) {} (overtaken ++ [.transmitted 0 false])).isSome = true by decide)
  have hdiscards := (h 3 _ s' hs').2.last hs
  exact not_discardsFailed_of_other hinv hother (by decide) hfailed hdiscards

end Manager

end DistBench.ConnectionManager
