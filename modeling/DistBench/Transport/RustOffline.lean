import DistBench.Transport.RustChannelConnection
import DistBench.Transport.RustThinManager

/-!
# The way to a peer in offline mode (managers/thin.rs over transport/channel.rs)

In offline mode a node reaches a peer through a `ThinConnectionManager` over the in-memory
transport. A call of `send` or `cast` first gets a connection from the manager, and then goes on
with it.

- `Route`, `Label`, `step`: the manager, and the connections it opens.
- `manager_run`, `connection_run`: a run is a run of the manager, and one of every connection.
- `sent_in_order`: no message overtakes another.
-/

namespace DistBench.RustOffline

open RustThinManager (Manager)
open RustChannelConnection (Connection Result)

/-- A manager and the connections it opens, by their numbers. -/
structure Route (C E : Type) where
  manager : Manager C := {}
  connections : Nat → Connection C E := fun _ => {}

inductive Label (C E : Type) where
  /-- A call is made, or goes on in `ensure_connected`. -/
  | manager (l : RustThinManager.Label C)
  /-- A call goes on with its connection, or the handler of a connection goes on. -/
  | connection (conn : Nat) (l : RustChannelConnection.Label C E)

variable {C E : Type} [DecidableEq C]

namespace Route

variable (ρ : Route C E)

/-- A call goes on with the connection that `ensure_connected` has returned (thin.rs:83–91). The
handler of a connection may be there before, and even end before. -/
def ready (conn : Nat) : RustChannelConnection.Label C E → Bool
  | .call c => ρ.manager.calls c = .uses conn
  | _ => true

def setConnection (conn : Nat) (connection : Connection C E) : Route C E :=
  { ρ with connections := Function.update ρ.connections conn connection }

variable {conn conn' : Nat} {connection : Connection C E}

omit [DecidableEq C] in
theorem connections_setConnection_self :
    (ρ.setConnection conn connection).connections conn = connection := by
  simp [setConnection]

omit [DecidableEq C] in
theorem connections_setConnection_of_ne (hconn : conn' ≠ conn) :
    (ρ.setConnection conn connection).connections conn' = ρ.connections conn' := by
  simp [setConnection, hconn]

end Route

def step (policy : Policy C) (isSend : C → Bool) (ρ : Route C E) :
    Label C E → Option (Route C E)
  | .manager l =>
    (RustThinManager.step policy ρ.manager l).map fun manager => { ρ with manager := manager }
  | .connection conn l =>
    if ρ.ready conn l then
      (RustChannelConnection.step isSend (ρ.connections conn) l).map (ρ.setConnection conn)
    else none

/-- What a step does. -/
inductive Moves (policy : Policy C) (isSend : C → Bool) (ρ : Route C E) :
    Label C E → Route C E → Prop
  | manager {l : RustThinManager.Label C} {manager : Manager C}
      (hstep : RustThinManager.step policy ρ.manager l = some manager) :
      Moves policy isSend ρ (.manager l) { ρ with manager := manager }
  | connection {conn : Nat} {l : RustChannelConnection.Label C E} {connection : Connection C E}
      (hready : ρ.ready conn l = true)
      (hstep : RustChannelConnection.step isSend (ρ.connections conn) l = some connection) :
      Moves policy isSend ρ (.connection conn l) (ρ.setConnection conn connection)

variable {policy : Policy C} {isSend : C → Bool} {ρ ρ' : Route C E} {l : Label C E}
  {ls ls' : List (Label C E)} {c c' : C} {conn conn' : Nat} {r : Result E}

theorem moves_of_step (hstep : step policy isSend ρ l = some ρ') :
    Moves policy isSend ρ l ρ' := by
  cases l with
  | manager l =>
    obtain ⟨manager, hmanager, rfl⟩ := Option.map_eq_some_iff.mp hstep
    exact .manager hmanager
  | connection conn l =>
    obtain ⟨hready, hstep⟩ := Option.ite_none_right_eq_some.mp hstep
    obtain ⟨connection, hconnection, rfl⟩ := Option.map_eq_some_iff.mp hstep
    exact .connection hready hconnection

/-! ## Runs of the parts -/

theorem manager_run (hrun : exec (step policy isSend) ρ ls = some ρ') :
    ∃ ms, exec (RustThinManager.step policy) ρ.manager ms = some ρ'.manager := by
  refine run_induction (P := fun _ (τ : Route C E) =>
    ∃ ms, exec (RustThinManager.step policy) ρ.manager ms = some τ.manager) ⟨[], rfl⟩ ?_ ls ρ' hrun
  rintro _ τ l τ' - ⟨ms, hms⟩ hstep
  cases moves_of_step hstep with
  | @manager l _ hmanager => exact ⟨ms ++ [l], exec_snoc hms hmanager⟩
  | connection _ _ => exact ⟨ms, hms⟩

theorem connection_run (hrun : exec (step policy isSend) ρ ls = some ρ') (conn : Nat) :
    ∃ cs, exec (RustChannelConnection.step isSend) (ρ.connections conn) cs =
      some (ρ'.connections conn) := by
  refine run_induction (P := fun _ (τ : Route C E) =>
    ∃ cs, exec (RustChannelConnection.step isSend) (ρ.connections conn) cs =
      some (τ.connections conn)) ⟨[], rfl⟩ ?_ ls ρ' hrun
  rintro _ τ l τ' - ⟨cs, hcs⟩ hstep
  cases moves_of_step hstep with
  | manager _ => exact ⟨cs, hcs⟩
  | @connection conn' l connection _ hconnection =>
    by_cases hconn : conn = conn'
    · subst hconn
      refine ⟨cs ++ [l], ?_⟩
      rw [Route.connections_setConnection_self]
      exact exec_snoc hcs hconnection
    · refine ⟨cs, ?_⟩
      rw [Route.connections_setConnection_of_ne τ hconn]
      exact hcs

/-- Between two steps a connection is in order. -/
theorem connection_ok (hrun : exec (step policy isSend) {} ls = some ρ) (conn : Nat) :
    RustChannelConnection.Ok isSend (ρ.connections conn) := by
  obtain ⟨cs, hcs⟩ := connection_run hrun conn
  exact RustChannelConnection.Ok.run hcs

/-- A call that has gone on with a connection got it from the manager. -/
theorem uses_of_called (hrun : exec (step policy isSend) {} ls = some ρ)
    (hcalled : (ρ.connections conn).calls c ≠ .idle) : ρ.manager.calls c = .uses conn := by
  refine run_induction (P := fun _ (τ : Route C E) =>
    (τ.connections conn).calls c ≠ .idle → τ.manager.calls c = .uses conn)
    (fun hne => absurd rfl hne) ?_ ls ρ hrun hcalled
  intro _ τ l τ' hτ ih hstep hne
  cases moves_of_step hstep with
  | manager hmanager => exact RustThinManager.uses_of_step (ih hne) hmanager
  | @connection conn' l connection hready hconnection =>
    by_cases hconn : conn = conn'
    · subst hconn
      rw [Route.connections_setConnection_self] at hne
      by_cases hidle : (τ.connections conn).calls c = .idle
      · have hl : l = .call c := by
          by_contra hl
          exact hne ((connection_ok hτ conn).idle_of_step hidle hl hconnection)
        subst hl
        exact of_decide_eq_true hready
      · exact ih hidle
    · rw [Route.connections_setConnection_of_ne τ hconn] at hne
      exact ih hne

/-- A message that is in a connection was put there by a call that got it from the manager. -/
theorem uses_of_accepted (hrun : exec (step policy isSend) {} ls = some ρ)
    (hmem : c ∈ (ρ.connections conn).accepted) : ρ.manager.calls c = .uses conn := by
  refine uses_of_called hrun fun hidle => ?_
  obtain ⟨hcall, -⟩ | ⟨r, hcall⟩ := (connection_ok hrun conn).entered hmem <;>
    rw [hidle] at hcall <;> cases hcall

/-- **No message to a peer overtakes another**: if a call is made after another one has
returned, other than with `ConnectionClosed`, then its message takes the same connection, and is
only handled after that of the other. -/
theorem sent_in_order (hrun : exec (step policy isSend) {} ls = some ρ)
    (hreturned : (ρ.connections conn).calls c = .returned r) (hr : r ≠ .error .connectionClosed)
    (hidle : ρ.manager.calls c' = .idle) (hrun' : exec (step policy isSend) ρ ls' = some ρ')
    (hhandled : c' ∈ (ρ'.connections conn').handled.map Prod.fst) :
    conn' = conn ∧ [c, c'].Sublist ((ρ'.connections conn).handled.map Prod.fst) := by
  have hall : exec (step policy isSend) {} (ls ++ ls') = some ρ' := by
    rw [exec_append, hrun]
    exact hrun'
  obtain ⟨cs, hcs⟩ := connection_run hrun conn
  obtain ⟨cs', hcs'⟩ := connection_run hrun' conn
  have hold : c ∈ (ρ'.connections conn).accepted :=
    (RustChannelConnection.accepted_grows hcs').subset
      ((connection_ok hrun conn).mem_accepted_of_returned hreturned hr)
  have hnew : c' ∈ (ρ'.connections conn').accepted :=
    (connection_ok hall conn').mem_accepted_of_handled hhandled
  -- the manager has opened one connection only
  have hsame : conn' = conn := by
    obtain ⟨ms, hms⟩ := manager_run hall
    have hmanager := RustThinManager.Ok.run hms
    have hconn := hmanager.uses c conn (uses_of_accepted hall hold)
    have hconn' := hmanager.uses c' conn' (uses_of_accepted hall hnew)
    exact Option.some.inj (hconn'.symm.trans hconn)
  subst hsame
  refine ⟨rfl, RustChannelConnection.handled_after hcs hreturned hr ?_ hcs' hhandled⟩
  by_contra hcalled
  have huses := uses_of_called hrun hcalled
  rw [hidle] at huses
  cases huses

/-- The first call of `cast`, which has to connect. -/
def firstCast (c : C) : List (Label C Unit) :=
  [.manager (.call c), .manager (.grant c), .manager (.check c), .manager (.grant c),
    .manager (.recheck c), .manager (.connected c true), .connection 0 (.call c),
    .connection 0 (.enqueue c)]

/-- Another one, after which both messages are handled. -/
def secondCast (c : C) : List (Label C Unit) :=
  [.manager (.call c), .manager (.grant c), .manager (.check c), .connection 0 (.call c),
    .connection 0 (.enqueue c), .connection 0 .receive, .connection 0 (.handled (.ok none)),
    .connection 0 .receive, .connection 0 (.handled (.ok none))]

theorem sent_in_order_twoCasts : ∃ ρ ρ' : Route (Fin 2) Unit,
    exec (step .fifo fun _ => false) {} (firstCast 0) = some ρ ∧
      exec (step .fifo fun _ => false) ρ (secondCast 1) = some ρ' ∧
      [0, 1].Sublist ((ρ'.connections 0).handled.map Prod.fst) := by
  have hrun : exec (step .fifo fun _ => false) {} (firstCast (0 : Fin 2)) = some _ := rfl
  refine ⟨_, _, hrun, rfl, ?_⟩
  have hhandled : ∀ ρ : Route (Fin 2) Unit, (ρ.connections 0).handled.map Prod.fst = [0, 1] →
      1 ∈ (ρ.connections 0).handled.map Prod.fst := by
    intro ρ hρ
    simp [hρ]
  exact (sent_in_order hrun (r := .ok []) rfl (by simp) rfl
    (show exec _ _ (secondCast 1) = some _ from rfl) (hhandled _ rfl)).2

end DistBench.RustOffline
