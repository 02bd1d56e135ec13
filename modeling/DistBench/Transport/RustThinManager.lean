import DistBench.Lib.Run
import DistBench.Lib.RwLock

/-!
# The connection manager of the Rust implementation (managers/thin.rs)

A `ThinConnectionManager` opens a connection when it is first needed and keeps it. A call of
`send` or `cast` looks for it under the read lock; if there is none it takes the write lock,
looks again, and keeps the lock while it connects. Unlike the manager of the Python
implementation, it never discards a connection.

- `Call`, `Manager`, `Label`, `step`: the calls up to the point where they have a connection.
  What they do with it is not the manager's.
- `one_connection`: at most one attempt to connect succeeds, and all calls use its connection.
- `rests_or_connects`: the manager waits for nothing but the transport.
-/

namespace DistBench.RustThinManager

/-- Where a call of `send` or `cast` is in `ensure_connected`. -/
inductive Call where
  | idle
  /-- `self.connection.read().await`. -/
  | locking
  /-- It has the read guard. -/
  | reading
  /-- `self.connection.write().await`. -/
  | upgrading
  /-- It has the write guard. -/
  | writing
  /-- `self.transport.connect`, with the write guard. -/
  | connecting
  /-- It goes on with a connection. -/
  | uses (conn : Nat)
  /-- It returns the error of its attempt to connect. -/
  | failed
deriving DecidableEq, Repr

/-- The manager and its calls. The connections are numbered as they are opened. -/
structure Manager (C : Type) where
  connection : Option Nat := none
  lock : RwLock C := {}
  calls : C → Call := fun _ => .idle
  opened : Nat := 0

inductive Label (C : Type) where
  /-- `send` or `cast` is called. -/
  | call (c : C)
  /-- The lock lets a call in. -/
  | grant (c : C)
  /-- The look under the read lock. -/
  | check (c : C)
  /-- The look under the write lock. -/
  | recheck (c : C)
  /-- `transport.connect` returns a connection, or an error. -/
  | connected (c : C) (ok : Bool)
deriving DecidableEq, Repr, Fintype

/-- The calls go on by themselves: nothing is called, and the transport does nothing. -/
def Label.internal {C : Type} : Label C → Bool
  | .call _ | .connected _ _ => false
  | _ => true

/-- An attempt to connect succeeds. -/
def Label.succeeds {C : Type} : Label C → Bool
  | .connected _ true => true
  | _ => false

variable {C : Type} [DecidableEq C]

namespace Manager

variable (σ : Manager C)

def setCall (c : C) (call : Call) : Manager C :=
  { σ with calls := Function.update σ.calls c call }

/-- The first look (thin.rs:43–50): the read guard is dropped either way, before the write lock
is asked for. -/
def check (c : C) : Manager C :=
  match σ.connection with
  | some conn => { σ.setCall c (.uses conn) with lock := σ.lock.release c }
  | none => { σ.setCall c .upgrading with lock := (σ.lock.release c).ask c .write }

/-- The second look (thin.rs:52–56). -/
def recheck (c : C) : Manager C :=
  match σ.connection with
  | some conn => { σ.setCall c (.uses conn) with lock := σ.lock.release c }
  | none => σ.setCall c .connecting

/-- `transport.connect` returns (thin.rs:56–59). -/
def connected (c : C) (ok : Bool) : Manager C :=
  if ok then
    { σ.setCall c (.uses σ.opened) with
      connection := some σ.opened
      lock := σ.lock.release c
      opened := σ.opened + 1 }
  else { σ.setCall c .failed with lock := σ.lock.release c }

end Manager

/-- A call goes on, up to its next await. -/
def step (policy : Policy C) (σ : Manager C) : Label C → Option (Manager C)
  | .call c =>
    match σ.calls c with
    | .idle => some { σ.setCall c .locking with lock := σ.lock.ask c .read }
    | _ => none
  | .grant c =>
    match σ.calls c with
    | .locking =>
      if policy.grants σ.lock c .read then
        some { σ.setCall c .reading with lock := σ.lock.grant c .read }
      else none
    | .upgrading =>
      if policy.grants σ.lock c .write then
        some { σ.setCall c .writing with lock := σ.lock.grant c .write }
      else none
    | _ => none
  | .check c =>
    match σ.calls c with
    | .reading => some (σ.check c)
    | _ => none
  | .recheck c =>
    match σ.calls c with
    | .writing => some (σ.recheck c)
    | _ => none
  | .connected c ok =>
    match σ.calls c with
    | .connecting => some (σ.connected c ok)
    | _ => none

/-! ## What holds between two steps -/

/-- How a call stands to the lock. -/
def Call.stand : Call → Stand
  | .idle | .uses _ | .failed => .away
  | .locking => .waits .read
  | .reading => .holds .read
  | .upgrading => .waits .write
  | .writing | .connecting => .holds .write

/-- What a call may do. -/
inductive Moves (policy : Policy C) (σ : Manager C) : Label C → Manager C → Prop
  | calls {c : C} (hcall : σ.calls c = .idle) :
      Moves policy σ (.call c) { σ.setCall c .locking with lock := σ.lock.ask c .read }
  | reads {c : C} (hcall : σ.calls c = .locking) (hadm : policy.grants σ.lock c .read = true) :
      Moves policy σ (.grant c) { σ.setCall c .reading with lock := σ.lock.grant c .read }
  | writes {c : C} (hcall : σ.calls c = .upgrading)
      (hadm : policy.grants σ.lock c .write = true) :
      Moves policy σ (.grant c) { σ.setCall c .writing with lock := σ.lock.grant c .write }
  | finds {c : C} {l : Label C} {conn : Nat} {a : Access} (hl : l.succeeds = false)
      (hcall : (σ.calls c).stand = .holds a) (hconn : σ.connection = some conn) :
      Moves policy σ l { σ.setCall c (.uses conn) with lock := σ.lock.release c }
  | upgrades {c : C} (hcall : σ.calls c = .reading) (hnone : σ.connection = none) :
      Moves policy σ (.check c)
        { σ.setCall c .upgrading with lock := (σ.lock.release c).ask c .write }
  | tries {c : C} (hcall : σ.calls c = .writing) (hnone : σ.connection = none) :
      Moves policy σ (.recheck c) (σ.setCall c .connecting)
  | succeeds {c : C} (hcall : σ.calls c = .connecting) :
      Moves policy σ (.connected c true)
        { σ.setCall c (.uses σ.opened) with
          connection := some σ.opened
          lock := σ.lock.release c
          opened := σ.opened + 1 }
  | fails {c : C} (hcall : σ.calls c = .connecting) :
      Moves policy σ (.connected c false)
        { σ.setCall c .failed with lock := σ.lock.release c }

variable {policy : Policy C} {σ σ' : Manager C} {l : Label C} {ls : List (Label C)} {c c' : C}
  {conn : Nat}

theorem moves_of_step (hstep : step policy σ l = some σ') : Moves policy σ l σ' := by
  cases l with
  | call c =>
    simp only [step] at hstep
    split at hstep
    · next hcall =>
      obtain rfl := Option.some.inj hstep
      exact .calls hcall
    · cases hstep
  | grant c =>
    simp only [step] at hstep
    split at hstep
    · next hcall =>
      obtain ⟨hadm, hstep⟩ := Option.ite_none_right_eq_some.mp hstep
      obtain rfl := Option.some.inj hstep
      exact .reads hcall hadm
    · next hcall =>
      obtain ⟨hadm, hstep⟩ := Option.ite_none_right_eq_some.mp hstep
      obtain rfl := Option.some.inj hstep
      exact .writes hcall hadm
    · cases hstep
  | check c =>
    simp only [step] at hstep
    split at hstep
    · next hcall =>
      obtain rfl := Option.some.inj hstep
      unfold Manager.check
      split
      · next conn hconn => exact .finds rfl (by rw [hcall]; rfl) hconn
      · next hnone => exact .upgrades hcall hnone
    · cases hstep
  | recheck c =>
    simp only [step] at hstep
    split at hstep
    · next hcall =>
      obtain rfl := Option.some.inj hstep
      unfold Manager.recheck
      split
      · next conn hconn => exact .finds rfl (by rw [hcall]; rfl) hconn
      · next hnone => exact .tries hcall hnone
    · cases hstep
  | connected c ok =>
    simp only [step] at hstep
    split at hstep
    · next hcall =>
      obtain rfl := Option.some.inj hstep
      cases ok with
      | true => exact .succeeds hcall
      | false => exact .fails hcall
    · cases hstep

/-- A call keeps its connection. -/
theorem uses_of_step (huses : σ.calls c = .uses conn) (hstep : step policy σ l = some σ') :
    σ'.calls c = .uses conn := by
  have hother : ∀ c' call, c ≠ c' → Function.update σ.calls c' call c = .uses conn := by
    intro c' call hc
    rw [Function.update_of_ne hc]
    exact huses
  cases moves_of_step hstep with
  | calls hcall | reads hcall _ | writes hcall _ | finds _ hcall _ | upgrades hcall _
  | tries hcall _ | succeeds hcall | fails hcall =>
    refine hother _ _ ?_
    rintro rfl
    rw [huses] at hcall
    cases hcall

theorem stand_update (call : Call) :
    (fun c' => (Function.update σ.calls c call c').stand) =
      Function.update (fun c => (σ.calls c).stand) c call.stand := by
  funext c'
  by_cases hc : c' = c
  · subst hc
    simp
  · simp [hc]

/-- The one connection that may have been opened is the cached one, all calls use it, and none
is being opened if it has been. -/
structure Ok (ls : List (Label C)) (σ : Manager C) : Prop where
  fits : σ.lock.Fits fun c => (σ.calls c).stand
  opened : σ.opened = σ.connection.toList.length
  count : ls.countP Label.succeeds = σ.opened
  uses : ∀ c conn, σ.calls c = .uses conn → σ.connection = some conn
  connecting : ∀ c, σ.calls c = .connecting → σ.connection = none
  failed : ∀ c, σ.calls c = .failed → .connected c false ∈ ls

namespace Ok

/-- A call goes on, and opens no connection. -/
theorem setCall (h : Ok ls σ) {call : Call} {lock : RwLock C} (hl : l.succeeds = false)
    (hfits : lock.Fits (Function.update (fun c => (σ.calls c).stand) c call.stand))
    (huses : ∀ conn, call = .uses conn → σ.connection = some conn)
    (hconnecting : call = .connecting → σ.connection = none)
    (hfailed : call = .failed → l = .connected c false) :
    Ok (ls ++ [l]) { σ.setCall c call with lock := lock } where
  fits := by
    show lock.Fits fun c' => (Function.update σ.calls c call c').stand
    rw [stand_update]
    exact hfits
  opened := h.opened
  count := by
    rw [List.countP_append, h.count]
    simp [hl, Manager.setCall]
  uses c' conn hc' := by
    by_cases hc : c' = c
    · subst hc
      exact huses conn (by simpa [Manager.setCall] using hc')
    · exact h.uses c' conn (by simpa [Manager.setCall, hc] using hc')
  connecting c' hc' := by
    by_cases hc : c' = c
    · subst hc
      exact hconnecting (by simpa [Manager.setCall] using hc')
    · exact h.connecting c' (by simpa [Manager.setCall, hc] using hc')
  failed c' hc' := by
    by_cases hc : c' = c
    · subst hc
      rw [hfailed (by simpa [Manager.setCall] using hc')]
      simp
    · exact List.mem_append_left _ (h.failed c' (by simpa [Manager.setCall, hc] using hc'))

/-- The attempt of a call succeeds. It has the lock alone, so nobody else was connecting and
nobody has a connection yet. -/
theorem succeed (h : Ok ls σ) (hcall : σ.calls c = .connecting) :
    Ok (ls ++ [.connected c true])
      { σ.setCall c (.uses σ.opened) with
        connection := some σ.opened
        lock := σ.lock.release c
        opened := σ.opened + 1 } := by
  have hnone := h.connecting c hcall
  have hstand : (σ.calls c).stand = .holds .write := by rw [hcall]; rfl
  constructor
  · show (σ.lock.release c).Fits fun c' => (Function.update σ.calls c (.uses σ.opened) c').stand
    rw [stand_update]
    exact h.fits.release hstand
  · show σ.opened + 1 = 1
    rw [h.opened, hnone]
    rfl
  · rw [List.countP_append, h.count]
    rfl
  · intro c' conn hc'
    by_cases hc : c' = c
    · subst hc
      have hconn : σ.opened = conn := by simpa [Manager.setCall] using hc'
      exact congrArg some hconn
    · have hold := h.uses c' conn (by simpa [Manager.setCall, hc] using hc')
      rw [hnone] at hold
      cases hold
  · intro c' hc'
    by_cases hc : c' = c
    · subst hc
      simp [Manager.setCall] at hc'
    · have hother : (σ.calls c').stand = .holds .write := by
        have hold : σ.calls c' = .connecting := by simpa [Manager.setCall, hc] using hc'
        rw [hold]
        rfl
      exact absurd (h.fits.eq_of_writes hstand hother) hc
  · intro c' hc'
    by_cases hc : c' = c
    · subst hc
      simp [Manager.setCall] at hc'
    · exact List.mem_append_left _ (h.failed c' (by simpa [Manager.setCall, hc] using hc'))

theorem step (h : Ok ls σ) (hstep : RustThinManager.step policy σ l = some σ') :
    Ok (ls ++ [l]) σ' := by
  cases moves_of_step hstep with
  | @calls c hcall =>
    have haway : (σ.calls c).stand = .away := by rw [hcall]; rfl
    exact h.setCall rfl (h.fits.ask haway) (by simp) (by simp) (by simp)
  | reads _ hadm | writes _ hadm =>
    exact h.setCall rfl (h.fits.grant (policy.admissible hadm)) (by simp) (by simp) (by simp)
  | finds hl hcall hconn =>
    refine h.setCall hl (h.fits.release hcall) ?_ (by simp) (by simp)
    rintro _ ⟨⟩
    exact hconn
  | @upgrades c hcall hnone =>
    have hread : (σ.calls c).stand = .holds .read := by rw [hcall]; rfl
    have hfits := (h.fits.release hread).ask (a := .write) (Function.update_self c _ _)
    rw [Function.update_idem] at hfits
    exact h.setCall rfl hfits (by simp) (by simp) (by simp)
  | @tries c hcall hnone =>
    have hstand : (σ.calls c).stand = .holds .write := by rw [hcall]; rfl
    have hfits : σ.lock.Fits
        (Function.update (fun c => (σ.calls c).stand) c (Call.stand .connecting)) := by
      rw [show Call.stand .connecting = (σ.calls c).stand from hstand.symm,
        Function.update_eq_self]
      exact h.fits
    exact h.setCall rfl hfits (by simp) (fun _ => hnone) (by simp)
  | succeeds hcall => exact h.succeed hcall
  | @fails c hcall =>
    have hwrite : (σ.calls c).stand = .holds .write := by rw [hcall]; rfl
    exact h.setCall rfl (h.fits.release hwrite) (by simp) (by simp) (by simp)

end Ok

omit [DecidableEq C] in
theorem ok_initial : Ok [] ({} : Manager C) where
  fits := by constructor <;> simp [Call.stand]
  opened := rfl
  count := rfl
  uses c conn hc := by cases hc
  connecting c hc := by cases hc
  failed c hc := by cases hc

theorem Ok.run (hrun : exec (RustThinManager.step policy) {} ls = some σ) : Ok ls σ :=
  run_induction (P := fun ls (σ : Manager C) => Ok ls σ) ok_initial
    (fun _ _ _ _ _ h hstep => h.step hstep) ls σ hrun

/-- **One connection**: at most one attempt to connect ever succeeds, and every call that gets a
connection gets that one, for good. One call connects at a time, and none once there is a
connection; a call fails to get one only if its own attempt has failed. -/
theorem one_connection (hrun : exec (step policy) {} ls = some σ) :
    ls.countP Label.succeeds ≤ 1 ∧
      (∀ c conn, σ.calls c = .uses conn → σ.connection = some conn) ∧
      (∀ c c', σ.calls c = .connecting → σ.calls c' = .connecting → c = c') ∧
      (∀ c, σ.calls c = .connecting → σ.connection = none) ∧
      ∀ c, σ.calls c = .failed → .connected c false ∈ ls := by
  have h := Ok.run hrun
  refine ⟨?_, h.uses, fun c c' hc hc' => ?_, h.connecting, h.failed⟩
  · rw [h.count, h.opened]
    exact Option.length_toList_le
  · have hwrite : (σ.calls c).stand = .holds .write := by rw [hc]; rfl
    have hwrite' : (σ.calls c').stand = .holds .write := by rw [hc']; rfl
    exact h.fits.eq_of_writes hwrite' hwrite

/-- Two calls that find no connection, of which the second connects. -/
def race (c d : C) : List (Label C) :=
  [.call c, .call d, .grant c, .grant d, .check c, .check d, .grant c, .recheck c,
    .connected c false, .grant d, .recheck d, .connected d true]

theorem one_connection_race : ∃ σ : Manager (Fin 2), exec (step .fifo) {} (race 0 1) = some σ ∧
    σ.calls 0 = .failed ∧ σ.calls 1 = .uses 0 ∧
    (race (0 : Fin 2) 1).countP Label.succeeds ≤ 1 ∧ σ.connection = some 0 ∧
    .connected 0 false ∈ race (0 : Fin 2) 1 := by
  obtain ⟨σ, hrun, hcalls⟩ := exists_exec_of_any (step .fifo) {} (race (0 : Fin 2) 1)
    (fun σ => decide (σ.calls 0 = .failed ∧ σ.calls 1 = .uses 0)) (by decide)
  obtain ⟨hfailed, huses⟩ := of_decide_eq_true hcalls
  obtain ⟨hcount, hcached, -, -, hown⟩ := one_connection hrun
  exact ⟨σ, hrun, hfailed, huses, hcount, hcached 1 0 huses, hown 0 hfailed⟩

/-! ## Progress -/

/-- No call goes on unless something is called or the transport does something. -/
def Stuck (policy : Policy C) (σ : Manager C) : Prop :=
  ∀ l : Label C, l.internal = true → step policy σ l = none

/-- **The manager waits for nothing but the transport**: where no call can go on, some call is
connecting, or no call waits for anything. -/
theorem rests_or_connects (hrun : exec (step policy) {} ls = some σ) (hstuck : Stuck policy σ) :
    (∃ c, σ.calls c = .connecting) ∨ ∀ c, (σ.calls c).stand = .away := by
  have h := Ok.run hrun
  by_cases hconnecting : ∃ c, σ.calls c = .connecting
  · exact .inl hconnecting
  right
  have hnobody : ∀ c a, (σ.calls c).stand ≠ .holds a := by
    intro c a hholds
    have hcheck := hstuck (.check c) rfl
    have hrecheck := hstuck (.recheck c) rfl
    cases hcall : σ.calls c <;> simp_all [Call.stand, step]
  have hfree : σ.lock.holding = [] := h.fits.free hnobody
  have hwaiting : σ.lock.waiting = [] := by
    by_contra hwait
    obtain ⟨c, a, hadm⟩ := policy.progress hfree hwait
    have hstand := (h.fits.waiting c a).mp (policy.admissible hadm).1
    have hnone := hstuck (.grant c) rfl
    cases hcall : σ.calls c <;> rw [hcall] at hstand <;> cases hstand <;>
      simp [step, hcall, hadm] at hnone
  intro c
  cases hstand : (σ.calls c).stand with
  | away => rfl
  | waits a =>
    have hmem := (h.fits.waiting c a).mpr hstand
    rw [hwaiting] at hmem
    cases hmem
  | holds a => exact absurd hstand (hnobody c a)

theorem rests_or_connects_race : ∃ σ : Manager (Fin 2),
    exec (step .fifo) {} (race 0 1) = some σ ∧ ∀ c, (σ.calls c).stand = .away := by
  obtain ⟨σ, hrun, hσ⟩ := exists_exec_of_any (step .fifo) {} (race (0 : Fin 2) 1)
    (fun σ => decide ((∀ c, σ.calls c ≠ .connecting) ∧
      ∀ l : Label (Fin 2), l.internal = true → (step .fifo σ l).isNone = true)) (by decide)
  obtain ⟨hnone, hstuck⟩ := of_decide_eq_true hσ
  refine ⟨σ, hrun, (rests_or_connects hrun fun l hl => ?_).resolve_left fun ⟨c, hc⟩ => hnone c hc⟩
  exact Option.isNone_iff_eq_none.mp (hstuck l hl)

end DistBench.RustThinManager
