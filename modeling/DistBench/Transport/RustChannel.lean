import DistBench.Lib.Run
import DistBench.Lib.RwLock

/-!
# The in-memory transport (transport/channel.rs)

The transports of a run share a registry of the nodes that serve, behind a reader-writer lock.
`connect` takes the lock to look its peer up, and keeps it while it waits for room in the
peer's channel and for the peer's answer. `serve` takes the lock to enter its node, and again
to remove it once it has left its loop; the requests that are still in its channel are only
dropped when it returns.

- `Call`, `Serve`: where the calls of `connect` and `serve` are.
- `Label`, `step`: a call goes on, up to its next await. Whether a waiting call gets the lock
  is up to the lock's `Policy`.
- `Ok`, `Ok.run`: what holds between two steps.
- `never_closed`: no call ever fails with `ConnectionClosed`, since no channel is dropped that a
  call is sending to.
-/

namespace DistBench.RustChannel

/-- What `connect` returns: a connection to the handler that a call of `serve` has started for
it, or an error. -/
inductive Answer (S : Type) where
  | connection (server : S)
  | unknownPeer
  | connectionClosed
deriving DecidableEq, Repr

/-- Where a call of `connect` is. A sender in the registry is named by the call of `serve` it
belongs to. -/
inductive Call (S : Type) where
  | idle
  /-- `self.registry.read().await`. -/
  | locking
  /-- It has the guard, and looks its peer up. -/
  | reading
  /-- `tx.send(message).await`. -/
  | sending (server : S)
  /-- `channel_rx.await`. -/
  | awaiting (server : S)
  /-- The answer is there. -/
  | connected (server : S)
  | returned (answer : Answer S)
deriving DecidableEq, Repr

/-- Where a call of `serve` is. -/
inductive Phase where
  | idle
  /-- `self.registry.write().await`, to enter itself. -/
  | registering
  /-- It has the guard. -/
  | inserting
  /-- In the loop. -/
  | serving
  /-- `self.registry.write().await`, to remove itself. -/
  | leaving
  /-- It has the guard. -/
  | removing
  | returned (ok : Bool)
deriving DecidableEq, Repr

/-- A call of `serve`, with the requests in its channel, named by the calls of `connect` that
have made them. -/
structure Serve (C : Type) where
  phase : Phase := .idle
  rx : List C := []
deriving DecidableEq, Repr

/-- The arguments of the calls: the peer to connect to, and the `local_addr` of who serves. -/
structure Calls (P C S : Type) where
  addr : C → P
  localAddr : S → P

/-- The registry, its lock and the calls. -/
structure State (P C S : Type) where
  registry : P → Option S := fun _ => none
  lock : RwLock (C ⊕ S) := {}
  calls : C → Call S := fun _ => .idle
  serves : S → Serve C := fun _ => {}

inductive Label (C S : Type) where
  /-- `connect` is called. -/
  | connect (c : C)
  /-- `serve` is called. -/
  | serve (s : S)
  /-- The stop signal is given, or the server has terminated. -/
  | leave (s : S)
  /-- The lock lets a call in. -/
  | grant (t : C ⊕ S)
  | insert (s : S)
  | lookup (c : C)
  | send (c : C)
  | accept (s : S)
  | finish (c : C)
  | remove (s : S)
deriving DecidableEq, Repr, Fintype

/-- The calls go on by themselves: nothing is called, and no server is told to stop. -/
def Label.internal {C S : Type} : Label C S → Bool
  | .connect _ | .serve _ | .leave _ => false
  | _ => true

/-- `mpsc::channel(100)`. -/
def capacity : Nat := 100

variable {P C S : Type} [DecidableEq P] [DecidableEq C] [DecidableEq S]

namespace State

variable (σ : State P C S)

def setCall (c : C) (call : Call S) : State P C S :=
  { σ with calls := Function.update σ.calls c call }

def setServe (s : S) (serve : Serve C) : State P C S :=
  { σ with serves := Function.update σ.serves s serve }

def setPhase (s : S) (phase : Phase) : State P C S :=
  σ.setServe s { σ.serves s with phase := phase }

/-- A call asks for the lock. -/
def ask (t : C ⊕ S) (access : Access) : State P C S :=
  { σ with lock := σ.lock.ask t access }

def grant (t : C ⊕ S) (access : Access) : State P C S :=
  { σ with lock := σ.lock.grant t access }

/-- A guard is dropped. -/
def release (t : C ⊕ S) : State P C S :=
  { σ with lock := σ.lock.release t }

/-- `connect` returns, and its guard is dropped. -/
def answer (c : C) (a : Answer S) : State P C S :=
  (σ.setCall c (.returned a)).release (.inl c)

/-- `registry.insert` (channel.rs:158–161). -/
def insert (N : Calls P C S) (s : S) : State P C S :=
  { (σ.setPhase s .serving).release (.inr s) with
    registry := Function.update σ.registry (N.localAddr s) (some s) }

/-- `registry.remove` (channel.rs:222–225), and the end of `serve`: the channel is dropped with
what is in it. The guard is dropped just before the channel is; who is let in meanwhile finds no
sender for this channel in the registry, and nobody has one from before (`never_closed`). -/
def remove (N : Calls P C S) (s : S) : State P C S :=
  { (σ.setServe s { phase := .returned true }).release (.inr s) with
    registry := Function.update σ.registry (N.localAddr s) none }

/-- `registry.get` (channel.rs:130–135). -/
def lookup (N : Calls P C S) (c : C) : State P C S :=
  match σ.registry (N.addr c) with
  | some s => σ.setCall c (.sending s)
  | none => σ.answer c .unknownPeer

/-- `tx.send` (channel.rs:140–142). It fails when the receiver is gone, and waits for room
otherwise. -/
def send (c : C) (s : S) : Option (State P C S) :=
  match (σ.serves s).phase with
  | .returned _ => some (σ.answer c .connectionClosed)
  | _ =>
    if (σ.serves s).rx.length < capacity then
      some ((σ.setCall c (.awaiting s)).setServe s
        { σ.serves s with rx := (σ.serves s).rx ++ [c] })
    else none

/-- The branch `rx.recv()` of `select!` (channel.rs:174–218). Where the caller is gone, `serve`
returns the error. -/
def accept (s : S) (c : C) (rest : List C) : State P C S :=
  if σ.calls c = .awaiting s then
    (σ.setCall c (.connected s)).setServe s { σ.serves s with rx := rest }
  else σ.setServe s { phase := .returned false }

end State

/-- A call goes on. -/
def step (N : Calls P C S) (policy : Policy (C ⊕ S)) (σ : State P C S) :
    Label C S → Option (State P C S)
  | .connect c =>
    match σ.calls c with
    | .idle => some ((σ.setCall c .locking).ask (.inl c) .read)
    | _ => none
  | .serve s =>
    match (σ.serves s).phase with
    | .idle => some ((σ.setPhase s .registering).ask (.inr s) .write)
    | _ => none
  | .leave s =>
    match (σ.serves s).phase with
    | .serving => some ((σ.setPhase s .leaving).ask (.inr s) .write)
    | _ => none
  | .grant (.inl c) =>
    match σ.calls c with
    | .locking =>
      if policy.grants σ.lock (.inl c) .read then
        some ((σ.setCall c .reading).grant (.inl c) .read)
      else none
    | _ => none
  | .grant (.inr s) =>
    if policy.grants σ.lock (.inr s) .write then
      match (σ.serves s).phase with
      | .registering => some ((σ.setPhase s .inserting).grant (.inr s) .write)
      | .leaving => some ((σ.setPhase s .removing).grant (.inr s) .write)
      | _ => none
    else none
  | .insert s =>
    match (σ.serves s).phase with
    | .inserting => some (σ.insert N s)
    | _ => none
  | .lookup c =>
    match σ.calls c with
    | .reading => some (σ.lookup N c)
    | _ => none
  | .send c =>
    match σ.calls c with
    | .sending s => σ.send c s
    | _ => none
  | .accept s =>
    match (σ.serves s).phase, (σ.serves s).rx with
    | .serving, c :: rest => some (σ.accept s c rest)
    | _, _ => none
  | .finish c =>
    match σ.calls c with
    | .connected s => some (σ.answer c (.connection s))
    | .awaiting s =>
      -- the sender of its answer has been dropped with the server's channel
      match (σ.serves s).phase with
      | .returned _ => some (σ.answer c .connectionClosed)
      | _ => none
    | _ => none
  | .remove s =>
    match (σ.serves s).phase with
    | .removing => some (σ.remove N s)
    | _ => none

/-! ## What a step does -/

/-- How a call of `connect` stands to the lock. -/
def Call.stand : Call S → Stand
  | .idle | .returned _ => .away
  | .locking => .waits .read
  | .reading | .sending _ | .awaiting _ | .connected _ => .holds .read

/-- How a call of `serve` stands to the lock. -/
def Phase.stand : Phase → Stand
  | .idle | .serving | .returned _ => .away
  | .registering | .leaving => .waits .write
  | .inserting | .removing => .holds .write

/-- Its channel is open, and the registry may have a sender for it. -/
def Phase.isOpen : Phase → Bool
  | .serving | .leaving | .removing => true
  | _ => false

/-- The server a request has been or is being sent to. -/
def Call.server : Call S → Option S
  | .sending s | .awaiting s => some s
  | _ => none

/-- The server the call has found. -/
def Call.peer : Call S → Option S
  | .sending s | .awaiting s | .connected s | .returned (.connection s) => some s
  | _ => none

/-- How the calls stand to the lock. -/
def State.stand (σ : State P C S) : C ⊕ S → Stand :=
  Sum.elim (fun c => (σ.calls c).stand) fun s => (σ.serves s).phase.stand

/-- What a call may do. -/
inductive Moves (N : Calls P C S) (policy : Policy (C ⊕ S)) (σ : State P C S) :
    Label C S → State P C S → Prop
  | connects {c : C} (hcall : σ.calls c = .idle) :
      Moves N policy σ (.connect c) ((σ.setCall c .locking).ask (.inl c) .read)
  | serves {s : S} (hphase : (σ.serves s).phase = .idle) :
      Moves N policy σ (.serve s) ((σ.setPhase s .registering).ask (.inr s) .write)
  | leaves {s : S} (hphase : (σ.serves s).phase = .serving) :
      Moves N policy σ (.leave s) ((σ.setPhase s .leaving).ask (.inr s) .write)
  | reads {c : C} (hcall : σ.calls c = .locking)
      (hadm : policy.grants σ.lock (.inl c) .read = true) :
      Moves N policy σ (.grant (.inl c)) ((σ.setCall c .reading).grant (.inl c) .read)
  | enters {s : S} (hphase : (σ.serves s).phase = .registering)
      (hadm : policy.grants σ.lock (.inr s) .write = true) :
      Moves N policy σ (.grant (.inr s)) ((σ.setPhase s .inserting).grant (.inr s) .write)
  | exits {s : S} (hphase : (σ.serves s).phase = .leaving)
      (hadm : policy.grants σ.lock (.inr s) .write = true) :
      Moves N policy σ (.grant (.inr s)) ((σ.setPhase s .removing).grant (.inr s) .write)
  | inserts {s : S} (hphase : (σ.serves s).phase = .inserting) :
      Moves N policy σ (.insert s) (σ.insert N s)
  | finds {c : C} {s : S} (hcall : σ.calls c = .reading)
      (hs : σ.registry (N.addr c) = some s) :
      Moves N policy σ (.lookup c) (σ.setCall c (.sending s))
  | misses {c : C} (hcall : σ.calls c = .reading) (hnone : σ.registry (N.addr c) = none) :
      Moves N policy σ (.lookup c) (σ.answer c .unknownPeer)
  | sends {c : C} {s : S} (hcall : σ.calls c = .sending s)
      (hroom : (σ.serves s).rx.length < capacity) :
      Moves N policy σ (.send c) ((σ.setCall c (.awaiting s)).setServe s
        { σ.serves s with rx := (σ.serves s).rx ++ [c] })
  | accepts {c : C} {s : S} {rest : List C} (hphase : (σ.serves s).phase = .serving)
      (hrx : (σ.serves s).rx = c :: rest) (hcall : σ.calls c = .awaiting s) :
      Moves N policy σ (.accept s)
        ((σ.setCall c (.connected s)).setServe s { σ.serves s with rx := rest })
  | refuses {c : C} {s : S} {rest : List C} (hphase : (σ.serves s).phase = .serving)
      (hrx : (σ.serves s).rx = c :: rest) (hcall : σ.calls c ≠ .awaiting s) :
      Moves N policy σ (.accept s) (σ.setServe s { phase := .returned false })
  | finishes {c : C} {s : S} (hcall : σ.calls c = .connected s) :
      Moves N policy σ (.finish c) (σ.answer c (.connection s))
  | closes {c : C} {s : S} {l : Label C S} {ok : Bool} (hserver : (σ.calls c).server = some s)
      (hphase : (σ.serves s).phase = .returned ok) :
      Moves N policy σ l (σ.answer c .connectionClosed)
  | removes {s : S} (hphase : (σ.serves s).phase = .removing) :
      Moves N policy σ (.remove s) (σ.remove N s)

variable {N : Calls P C S} {policy : Policy (C ⊕ S)} {σ σ' : State P C S} {l : Label C S}
  {ls : List (Label C S)} {c : C} {s : S}

theorem moves_of_step (hstep : step N policy σ l = some σ') : Moves N policy σ l σ' := by
  cases l with
  | connect c =>
    simp only [step] at hstep
    split at hstep
    · next hcall =>
      obtain rfl := Option.some.inj hstep
      exact .connects hcall
    · cases hstep
  | serve s =>
    simp only [step] at hstep
    split at hstep
    · next hphase =>
      obtain rfl := Option.some.inj hstep
      exact .serves hphase
    · cases hstep
  | leave s =>
    simp only [step] at hstep
    split at hstep
    · next hphase =>
      obtain rfl := Option.some.inj hstep
      exact .leaves hphase
    · cases hstep
  | grant t =>
    cases t with
    | inl c =>
      simp only [step] at hstep
      split at hstep
      · next hcall =>
        obtain ⟨hadm, hstep⟩ := Option.ite_none_right_eq_some.mp hstep
        obtain rfl := Option.some.inj hstep
        exact .reads hcall hadm
      · cases hstep
    | inr s =>
      simp only [step] at hstep
      obtain ⟨hadm, hstep⟩ := Option.ite_none_right_eq_some.mp hstep
      split at hstep
      · next hphase =>
        obtain rfl := Option.some.inj hstep
        exact .enters hphase hadm
      · next hphase =>
        obtain rfl := Option.some.inj hstep
        exact .exits hphase hadm
      · cases hstep
  | insert s =>
    simp only [step] at hstep
    split at hstep
    · next hphase =>
      obtain rfl := Option.some.inj hstep
      exact .inserts hphase
    · cases hstep
  | lookup c =>
    simp only [step] at hstep
    split at hstep
    · next hcall =>
      obtain rfl := Option.some.inj hstep
      unfold State.lookup
      split
      · next hs => exact .finds hcall hs
      · next hnone => exact .misses hcall hnone
    · cases hstep
  | send c =>
    simp only [step] at hstep
    split at hstep
    · next s hcall =>
      unfold State.send at hstep
      split at hstep
      · next hphase =>
        obtain rfl := Option.some.inj hstep
        exact .closes (s := s) (by rw [hcall]; rfl) hphase
      · obtain ⟨hroom, hstep⟩ := Option.ite_none_right_eq_some.mp hstep
        obtain rfl := Option.some.inj hstep
        exact .sends hcall hroom
    · cases hstep
  | accept s =>
    simp only [step] at hstep
    split at hstep
    · next c rest hphase hrx =>
      obtain rfl := Option.some.inj hstep
      unfold State.accept
      split
      · next hcall => exact .accepts hphase hrx hcall
      · next hcall => exact .refuses hphase hrx hcall
    · cases hstep
  | finish c =>
    simp only [step] at hstep
    split at hstep
    · next hcall =>
      obtain rfl := Option.some.inj hstep
      exact .finishes hcall
    · next s hcall =>
      split at hstep
      · next hphase =>
        obtain rfl := Option.some.inj hstep
        exact .closes (s := s) (by rw [hcall]; rfl) hphase
      · cases hstep
    · cases hstep
  | remove s =>
    simp only [step] at hstep
    split at hstep
    · next hphase =>
      obtain rfl := Option.some.inj hstep
      exact .removes hphase
    · cases hstep

/-! ## What holds between two steps -/

omit [DecidableEq P] in
theorem State.stand_setCall (call : Call S) :
    (σ.setCall c call).stand = Function.update σ.stand (.inl c) call.stand := by
  funext t
  cases t with
  | inl c' =>
    by_cases hc : c' = c
    · subst hc
      simp [stand, setCall]
    · simp [stand, setCall, hc]
  | inr s' => simp [stand, setCall]

omit [DecidableEq P] in
theorem State.stand_setServe (serve : Serve C) :
    (σ.setServe s serve).stand = Function.update σ.stand (.inr s) serve.phase.stand := by
  funext t
  cases t with
  | inl c' => simp [stand, setServe]
  | inr s' =>
    by_cases hs : s' = s
    · subst hs
      simp [stand, setServe]
    · simp [stand, setServe, hs]

omit [DecidableEq S] in
theorem Call.peer_of_server {call : Call S} (h : call.server = some s) : call.peer = some s := by
  cases call <;> first | exact h | cases h

/-- A request is in the channel of the server its call awaits. A server that the registry or a
call knows is open and has the address that was asked for, and nothing has been refused. -/
structure Ok (N : Calls P C S) (σ : State P C S) : Prop where
  fits : σ.lock.Fits σ.stand
  rx : ∀ s c, c ∈ (σ.serves s).rx ↔ σ.calls c = .awaiting s
  nodup : ∀ s, (σ.serves s).rx.Nodup
  registry : ∀ p s, σ.registry p = some s →
    N.localAddr s = p ∧ (σ.serves s).phase.isOpen = true
  server : ∀ c s, (σ.calls c).server = some s → (σ.serves s).phase.isOpen = true
  peer : ∀ c s, (σ.calls c).peer = some s → N.localAddr s = N.addr c
  answers : ∀ c, σ.calls c ≠ .returned .connectionClosed
  serves : ∀ s, (σ.serves s).phase ≠ .returned false

namespace Ok

omit [DecidableEq P] in
/-- A call goes on that neither was in a channel nor is. -/
theorem setCall (h : Ok N σ) {call : Call S} {lock : RwLock (C ⊕ S)}
    (hfits : lock.Fits (Function.update σ.stand (.inl c) call.stand))
    (hold : ∀ s, σ.calls c ≠ .awaiting s) (hnew : ∀ s, call ≠ .awaiting s)
    (hserver : ∀ s, call.server = some s → (σ.serves s).phase.isOpen = true)
    (hpeer : ∀ s, call.peer = some s → N.localAddr s = N.addr c)
    (hanswer : call ≠ .returned .connectionClosed) :
    Ok N { σ.setCall c call with lock := lock } where
  fits := by
    rw [← State.stand_setCall] at hfits
    exact hfits
  rx s c' := by
    by_cases hc : c' = c
    · subst hc
      simp [State.setCall, h.rx, hold, hnew]
    · simp [State.setCall, h.rx, hc]
  nodup := h.nodup
  registry := h.registry
  server c' s hs := by
    by_cases hc : c' = c
    · subst hc
      exact hserver s (by simpa [State.setCall] using hs)
    · exact h.server c' s (by simpa [State.setCall, hc] using hs)
  peer c' s hs := by
    by_cases hc : c' = c
    · subst hc
      exact hpeer s (by simpa [State.setCall] using hs)
    · exact h.peer c' s (by simpa [State.setCall, hc] using hs)
  answers c' := by
    by_cases hc : c' = c
    · subst hc
      simpa [State.setCall] using hanswer
    · simpa [State.setCall, hc] using h.answers c'
  serves := h.serves

omit [DecidableEq P] in
/-- A server goes on, with what is in its channel. -/
theorem setPhase (h : Ok N σ) {phase : Phase} {lock : RwLock (C ⊕ S)}
    (hfits : lock.Fits (Function.update σ.stand (.inr s) phase.stand))
    (hopen : (σ.serves s).phase.isOpen = true → phase.isOpen = true)
    (hok : phase ≠ .returned false) :
    Ok N { σ.setPhase s phase with lock := lock } := by
  have hrx : ∀ s', ((σ.setPhase s phase).serves s').rx = (σ.serves s').rx := by
    intro s'
    by_cases hs : s' = s
    · subst hs
      simp [State.setPhase, State.setServe]
    · simp [State.setPhase, State.setServe, hs]
  have hphase : ∀ s', (σ.serves s').phase.isOpen = true →
      ((σ.setPhase s phase).serves s').phase.isOpen = true := by
    intro s' hs'
    by_cases hs : s' = s
    · subst hs
      simpa [State.setPhase, State.setServe] using hopen hs'
    · simpa [State.setPhase, State.setServe, hs] using hs'
  constructor
  · rw [← State.stand_setServe (σ := σ) { σ.serves s with phase := phase }] at hfits
    exact hfits
  · intro s' c'
    show c' ∈ ((σ.setPhase s phase).serves s').rx ↔ σ.calls c' = .awaiting s'
    rw [hrx, h.rx]
  · intro s'
    show ((σ.setPhase s phase).serves s').rx.Nodup
    rw [hrx]
    exact h.nodup s'
  · intro p s' hs'
    obtain ⟨hp, hs'⟩ := h.registry p s' hs'
    exact ⟨hp, hphase s' hs'⟩
  · intro c' s' hs'
    exact hphase s' (h.server c' s' hs')
  · exact h.peer
  · exact h.answers
  · intro s'
    show ((σ.setPhase s phase).serves s').phase ≠ .returned false
    by_cases hs : s' = s
    · subst hs
      simpa [State.setPhase, State.setServe] using hok
    · simpa [State.setPhase, State.setServe, hs] using h.serves s'

omit [DecidableEq P] in
/-- A request enters its server's channel, or leaves it. -/
theorem transfer (h : Ok N σ) {call : Call S} {rx : List C}
    (hold : (σ.calls c).server = some s) (hnew : ∀ s', call.peer = some s' → s' = s)
    (hstand : call.stand = .holds .read) (hnodup : rx.Nodup)
    (hmem : ∀ c', c' ∈ rx ↔ if c' = c then call = .awaiting s else c' ∈ (σ.serves s).rx) :
    Ok N ((σ.setCall c call).setServe s { σ.serves s with rx := rx }) := by
  have hopen : (σ.serves s).phase.isOpen = true := h.server c s hold
  have haddr : N.localAddr s = N.addr c := h.peer c s (Call.peer_of_server hold)
  have hphase : ∀ s', (((σ.setCall c call).setServe s
      { σ.serves s with rx := rx }).serves s').phase = (σ.serves s').phase := by
    intro s'
    by_cases hs : s' = s
    · subst hs
      simp [State.setServe]
    · simp [State.setServe, State.setCall, hs]
  have hother : ∀ s', s' ≠ s → σ.calls c ≠ .awaiting s' ∧ call ≠ .awaiting s' := by
    intro s' hs
    constructor
    · intro hc
      rw [hc] at hold
      exact hs (Option.some.inj hold)
    · intro hc
      exact hs (hnew s' (by rw [hc]; rfl))
  constructor
  · -- the call keeps the lock
    have hc : σ.stand (.inl c) = .holds .read := by
      show (σ.calls c).stand = _
      cases hcall : σ.calls c <;> simp_all [Call.server, Call.stand]
    have hs : σ.stand (.inr s) = (σ.serves s).phase.stand := rfl
    rw [State.stand_setServe, State.stand_setCall, hstand, ← hc, Function.update_eq_self, ← hs,
      Function.update_eq_self]
    exact h.fits
  · intro s' c'
    by_cases hs : s' = s <;> by_cases hc : c' = c
    · simp [State.setServe, State.setCall, hs, hc, hmem]
    · simp [State.setServe, State.setCall, hs, hc, hmem, h.rx]
    · simp [State.setServe, State.setCall, hs, hc, h.rx, hother s' hs]
    · simp [State.setServe, State.setCall, hs, hc, h.rx]
  · intro s'
    by_cases hs : s' = s
    · subst hs
      simpa [State.setServe] using hnodup
    · simpa [State.setServe, State.setCall, hs] using h.nodup s'
  · intro p s' hs'
    rw [hphase]
    exact h.registry p s' hs'
  · intro c' s' hs'
    rw [hphase]
    by_cases hc : c' = c
    · subst hc
      have hcall : call.server = some s' := by simpa [State.setServe, State.setCall] using hs'
      rw [hnew s' (Call.peer_of_server hcall)]
      exact hopen
    · exact h.server c' s' (by simpa [State.setServe, State.setCall, hc] using hs')
  · intro c' s' hs'
    by_cases hc : c' = c
    · subst hc
      rw [hnew s' (by simpa [State.setServe, State.setCall] using hs')]
      exact haddr
    · exact h.peer c' s' (by simpa [State.setServe, State.setCall, hc] using hs')
  · intro c'
    by_cases hc : c' = c
    · subst hc
      intro heq
      have hcall : call = .returned .connectionClosed := by
        simpa [State.setServe, State.setCall] using heq
      rw [hcall] at hstand
      cases hstand
    · simpa [State.setServe, State.setCall, hc] using h.answers c'
  · intro s'
    rw [hphase]
    exact h.serves s'

/-- A server is entered in the registry. -/
theorem insert (h : Ok N σ) (hphase : (σ.serves s).phase = .inserting) :
    Ok N (σ.insert N s) := by
  have hs : σ.stand (.inr s) = .holds .write := by simp [State.stand, hphase, Phase.stand]
  have hsame : Ok N ((σ.setPhase s .serving).release (.inr s)) :=
    h.setPhase (h.fits.release hs) (by simp [hphase, Phase.isOpen]) (by simp)
  refine { hsame with registry := ?_ }
  intro p s' hs'
  by_cases hp : p = N.localAddr s
  · subst hp
    obtain rfl : s = s' := by simpa [State.insert] using hs'
    simp [State.insert, State.setPhase, State.setServe, State.release, Phase.isOpen]
  · have hold : Function.update σ.registry (N.localAddr s) (some s) p = some s' := hs'
    rw [Function.update_of_ne hp] at hold
    exact hsame.registry p s' hold

/-- A server is removed, and returns. Nobody else has the lock, so no request is lost. -/
theorem remove (h : Ok N σ) (hphase : (σ.serves s).phase = .removing) :
    Ok N (σ.remove N s) := by
  have hs : σ.stand (.inr s) = .holds .write := by simp [State.stand, hphase, Phase.stand]
  have hnone : ∀ c, (σ.calls c).server ≠ some s := by
    intro c hc
    have hread : σ.stand (.inl c) = .holds .read := by
      show (σ.calls c).stand = _
      cases hcall : σ.calls c <;> simp_all [Call.server, Call.stand]
    cases h.fits.eq_of_writes hs hread
  have hserves : ∀ s', s' ≠ s → (σ.remove N s).serves s' = σ.serves s' := by
    intro s' hs'
    simp [State.remove, State.setServe, State.release, hs']
  have hself : (σ.remove N s).serves s = { phase := .returned true } := by
    simp [State.remove, State.setServe, State.release]
  constructor
  · have hfits := h.fits.release hs
    show (σ.lock.release (.inr s)).Fits
      (σ.setServe s { phase := .returned true }).stand
    rw [State.stand_setServe]
    exact hfits
  · intro s' c'
    by_cases hs' : s' = s
    · subst hs'
      rw [hself]
      have hc : σ.calls c' ≠ .awaiting s' := fun hc => hnone c' (by rw [hc]; rfl)
      show c' ∈ [] ↔ σ.calls c' = .awaiting s'
      simp [hc]
    · rw [hserves s' hs']
      exact h.rx s' c'
  · intro s'
    by_cases hs' : s' = s
    · subst hs'
      rw [hself]
      exact List.nodup_nil
    · rw [hserves s' hs']
      exact h.nodup s'
  · intro p s' hs'
    by_cases hp : p = N.localAddr s
    · simp [State.remove, hp] at hs'
    · have hold := h.registry p s'
        (by simpa [State.remove, hp, State.setServe, State.release] using hs')
      have hne : s' ≠ s := fun heq => hp (by rw [← heq, hold.1])
      rw [hserves s' hne]
      exact hold
  · intro c' s' hs'
    have hne : s' ≠ s := fun heq => hnone c' (heq ▸ hs')
    rw [hserves s' hne]
    exact h.server c' s' hs'
  · exact h.peer
  · exact h.answers
  · intro s'
    by_cases hs' : s' = s
    · subst hs'
      rw [hself]
      simp
    · rw [hserves s' hs']
      exact h.serves s'

theorem step (h : Ok N σ) (hstep : RustChannel.step N policy σ l = some σ') : Ok N σ' := by
  cases moves_of_step hstep with
  | @connects c hcall =>
    have haway : σ.stand (.inl c) = .away := by simp [State.stand, hcall, Call.stand]
    exact h.setCall (h.fits.ask haway) (by simp [hcall]) (by simp) (by simp [Call.server])
      (by simp [Call.peer]) (by simp)
  | @serves s hphase =>
    have haway : σ.stand (.inr s) = .away := by simp [State.stand, hphase, Phase.stand]
    exact h.setPhase (h.fits.ask haway) (by simp [hphase, Phase.isOpen]) (by simp)
  | @leaves s hphase =>
    have haway : σ.stand (.inr s) = .away := by simp [State.stand, hphase, Phase.stand]
    exact h.setPhase (h.fits.ask haway) (by simp [Phase.isOpen]) (by simp)
  | reads hcall hadm =>
    exact h.setCall (h.fits.grant (policy.admissible hadm)) (by simp [hcall]) (by simp)
      (by simp [Call.server]) (by simp [Call.peer]) (by simp)
  | enters hphase hadm =>
    exact h.setPhase (h.fits.grant (policy.admissible hadm)) (by simp [hphase, Phase.isOpen])
      (by simp)
  | exits hphase hadm =>
    exact h.setPhase (h.fits.grant (policy.admissible hadm)) (by simp [Phase.isOpen]) (by simp)
  | inserts hphase => exact h.insert hphase
  | @finds c s hcall hs =>
    have hstand : σ.stand (.inl c) = .holds .read := by simp [State.stand, hcall, Call.stand]
    have hfits : σ.lock.Fits (Function.update σ.stand (.inl c) (Call.stand (.sending s))) := by
      rw [show Call.stand (.sending s) = σ.stand (.inl c) from hstand.symm,
        Function.update_eq_self]
      exact h.fits
    obtain ⟨haddr, hopen⟩ := h.registry _ s hs
    exact h.setCall hfits (by simp [hcall]) (by simp) (by simpa [Call.server] using hopen)
      (by simpa [Call.peer] using haddr) (by simp)
  | @misses c hcall hnone =>
    have hstand : σ.stand (.inl c) = .holds .read := by simp [State.stand, hcall, Call.stand]
    exact h.setCall (h.fits.release hstand) (by simp [hcall]) (by simp) (by simp [Call.server])
      (by simp [Call.peer]) (by simp)
  | @sends c s hcall hroom =>
    have hnew : c ∉ (σ.serves s).rx := by
      rw [h.rx, hcall]
      simp
    refine h.transfer (by rw [hcall]; rfl) (by simp [Call.peer, eq_comm]) rfl ?_ ?_
    · exact List.nodup_append_comm.mp (List.nodup_cons.mpr ⟨hnew, h.nodup s⟩)
    · intro c'
      by_cases hc : c' = c
      · simp [hc]
      · simp [hc]
  | @accepts c s rest hphase hrx hcall =>
    have hnodup := h.nodup s
    rw [hrx, List.nodup_cons] at hnodup
    refine h.transfer (by rw [hcall]; rfl) (by simp [Call.peer, eq_comm]) rfl hnodup.2 ?_
    intro c'
    by_cases hc : c' = c
    · simp [hc, hnodup.1]
    · simp [hc, hrx]
  | @refuses c s rest hphase hrx hcall =>
    refine absurd ((h.rx s c).mp ?_) hcall
    rw [hrx]
    exact List.mem_cons_self
  | @finishes c s hcall =>
    have hstand : σ.stand (.inl c) = .holds .read := by simp [State.stand, hcall, Call.stand]
    have haddr : N.localAddr s = N.addr c := h.peer c s (by rw [hcall]; rfl)
    exact h.setCall (h.fits.release hstand) (by simp [hcall]) (by simp) (by simp [Call.server])
      (by simpa [Call.peer] using haddr) (by simp)
  | closes hserver hphase =>
    have hopen := h.server _ _ hserver
    rw [hphase] at hopen
    cases hopen
  | removes hphase => exact h.remove hphase

end Ok

omit [DecidableEq P] [DecidableEq C] [DecidableEq S] in
theorem ok_initial (N : Calls P C S) : Ok N ({} : State P C S) where
  fits := by constructor <;> rintro (c | s) a <;> simp [State.stand, Call.stand, Phase.stand]
  rx s c := by simp
  nodup s := List.nodup_nil
  registry p s hs := by cases hs
  server c s hs := by cases hs
  peer c s hs := by cases hs
  answers c := by simp
  serves s := by simp

theorem Ok.run (hrun : exec (RustChannel.step N policy) {} ls = some σ) : Ok N σ :=
  run_induction (P := fun _ (σ : State P C S) => Ok N σ) (ok_initial N)
    (fun _ _ _ _ _ h hstep => h.step hstep) ls σ hrun

/-- **What the calls return**: a connection to a server of the peer that was asked for, or
`UnknownPeer`, but never `ConnectionClosed`. The channel that a call of `connect` has a sender
for, or waits for an answer from, has not been dropped. -/
theorem never_closed (hrun : exec (step N policy) {} ls = some σ) :
    (∀ c a, σ.calls c = .returned a →
      a = .unknownPeer ∨ ∃ s, a = .connection s ∧ N.localAddr s = N.addr c) ∧
      (∀ s, (σ.serves s).phase ≠ .returned false) ∧
      ∀ c s, (σ.calls c).server = some s → (σ.serves s).phase.isOpen = true := by
  have h := Ok.run hrun
  refine ⟨fun c a hc => ?_, h.serves, h.server⟩
  cases a with
  | connection s => exact .inr ⟨s, rfl, h.peer c s (by rw [hc]; rfl)⟩
  | unknownPeer => exact .inl rfl
  | connectionClosed => exact absurd hc (h.answers c)

/-- Two nodes that serve and connect to each other. -/
def pair : Calls (Fin 2) (Fin 2) (Fin 2) where
  addr c := 1 - c
  localAddr := id

theorem pair_injective : Function.Injective pair.localAddr := Function.injective_id

/-- Node 1 is entered, and node 0 asks it for a connection. -/
def request : List (Label (Fin 2) (Fin 2)) :=
  [.serve 1, .grant (.inr 1), .insert 1, .connect 0, .grant (.inl 0), .lookup 0, .send 0]

theorem never_closed_pair : ∃ σ, exec (step pair .fifo) {} (request ++ [.accept 1, .finish 0]) =
    some σ ∧ σ.calls 0 = .returned (.connection 1) ∧
      (∀ c a, σ.calls c = .returned a →
        a = .unknownPeer ∨ ∃ s, a = .connection s ∧ pair.localAddr s = pair.addr c) ∧
      (∀ s, (σ.serves s).phase ≠ .returned false) ∧
      ∀ c s, (σ.calls c).server = some s → (σ.serves s).phase.isOpen = true := by
  obtain ⟨σ, hrun, hanswer⟩ := exists_exec_of_any (step pair .fifo) {}
    (request ++ [.accept 1, .finish 0])
    (fun σ => decide (σ.calls 0 = .returned (.connection 1))) (by decide)
  exact ⟨σ, hrun, of_decide_eq_true hanswer, never_closed hrun⟩

end DistBench.RustChannel
