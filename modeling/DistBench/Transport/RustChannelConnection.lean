import DistBench.Lib.Run

/-!
# One connection of the in-memory transport (transport/channel.rs)

A connection is a channel of at most 100 messages to the handler that the server has spawned
for it. The handler takes one message at a time, and answers it if the caller waits for that.
When it ends, the messages in the channel are dropped, and with them the senders of their
answers.

- `Connection`, `Label`, `step`: the calls of `send` and `cast` on a connection, and its
  handler. What `server.handle` returns is part of the label.
- `delivered_in_order`: what is handled, and who gets which answer.
- `handled_after`: no message overtakes another.
- `every_call_returns`: no call waits forever, unless the server does.
-/

namespace DistBench.RustChannelConnection

/-- What `server.handle` returns. -/
abbrev Outcome (E : Type) : Type := Except E (Option (List UInt8))

inductive TransportError (E : Type) where
  | connectionClosed
  /-- An error of `server.handle`, which is handed on as it is. -/
  | handler (e : E)
deriving DecidableEq, Repr

/-- What `send` returns; `cast` returns no data. -/
abbrev Result (E : Type) : Type := Except (TransportError E) (List UInt8)

/-- The response to a message (channel.rs:200–204). -/
def response {E : Type} : Outcome E → Result E
  | .ok (some data) => .ok data
  | .ok none => .ok []
  | .error e => .error (.handler e)

/-- Where a call of `send` or `cast` is. -/
inductive Call (E : Type) where
  | idle
  /-- `self.tx.send`. -/
  | sending
  /-- `response_rx.await`. -/
  | awaiting
  | returned (result : Result E)
deriving Repr

/-- Where the handler is. -/
inductive Handler (C : Type) where
  /-- In `select!`. -/
  | receiving
  /-- `server.handle`. -/
  | handling (c : C)
  /-- `server.terminate`. -/
  | terminating
  | ended
deriving DecidableEq, Repr

/-- The connection: its channel, its handler and its calls, each of which stands for its
message. `accepted` are the messages that have been put into the channel, `handled` those the
server has handled, and `lost` those that were dropped, each in order. -/
structure Connection (C E : Type) where
  rx : List C := []
  handler : Handler C := .receiving
  calls : C → Call E := fun _ => .idle
  accepted : List C := []
  handled : List (C × Outcome E) := []
  lost : List C := []

inductive Label (C E : Type) where
  /-- `send` or `cast` is called. -/
  | call (c : C)
  /-- The stop signal is given. -/
  | stop
  /-- The server has terminated. -/
  | terminated
  /-- `server.terminate` returns. -/
  | terminate
  /-- `server.handle` returns. -/
  | handled (outcome : Outcome E)
  /-- A call finds room in the channel, or that the handler is gone. -/
  | enqueue (c : C)
  /-- The handler takes a message. -/
  | receive
  /-- A call finds that its answer will never come. -/
  | closed (c : C)
deriving Repr

/-- The calls and the handler go on by themselves. -/
def Label.internal {C E : Type} : Label C E → Bool
  | .enqueue _ | .receive | .closed _ => true
  | _ => false

/-- `mpsc::channel(100)`. -/
def capacity : Nat := 100

variable {C E : Type} [DecidableEq C]

namespace Connection

variable (σ : Connection C E)

def setCall (c : C) (call : Call E) : Connection C E :=
  { σ with calls := Function.update σ.calls c call }

/-- The handler ends, and its channel is dropped. -/
def finish : Connection C E :=
  { σ with rx := [], handler := .ended, lost := σ.lost ++ σ.rx }

/-- The message of a call is put into the channel. -/
def push (isSend : C → Bool) (c : C) : Connection C E :=
  { σ.setCall c (if isSend c then .awaiting else .returned (.ok [])) with
    rx := σ.rx ++ [c]
    accepted := σ.accepted ++ [c] }

/-- `tx.send` (channel.rs:70–73 and 81–86). -/
def enqueue (isSend : C → Bool) (c : C) : Option (Connection C E) :=
  match σ.handler with
  | .ended => some (σ.setCall c (.returned (.error .connectionClosed)))
  | _ => if σ.rx.length < capacity then some (σ.push isSend c) else none

/-- The rest of the branch `rx.recv()` (channel.rs:199–207): only a call of `send` has left a
sender for the response. -/
def respond (isSend : C → Bool) (c : C) (outcome : Outcome E) : Connection C E :=
  { σ with
    calls :=
      if isSend c then Function.update σ.calls c (.returned (response outcome)) else σ.calls
    handler := .receiving
    handled := σ.handled ++ [(c, outcome)] }

end Connection

/-- A call or the handler goes on, up to its next await. -/
def step (isSend : C → Bool) (σ : Connection C E) : Label C E → Option (Connection C E)
  | .call c =>
    match σ.calls c with
    | .idle => some (σ.setCall c .sending)
    | _ => none
  | .stop =>
    match σ.handler with
    | .receiving => some { σ with handler := .terminating }
    | _ => none
  | .terminated =>
    match σ.handler with
    | .receiving => some σ.finish
    | _ => none
  | .terminate =>
    match σ.handler with
    | .terminating => some σ.finish
    | _ => none
  | .handled outcome =>
    match σ.handler with
    | .handling c => some (σ.respond isSend c outcome)
    | _ => none
  | .enqueue c =>
    match σ.calls c with
    | .sending => σ.enqueue isSend c
    | _ => none
  | .receive =>
    match σ.handler, σ.rx with
    | .receiving, c :: rest => some { σ with handler := .handling c, rx := rest }
    | _, _ => none
  | .closed c =>
    -- the sender of its answer was dropped with the channel
    match σ.calls c with
    | .awaiting =>
      if c ∈ σ.lost then some (σ.setCall c (.returned (.error .connectionClosed))) else none
    | _ => none

/-- What a step does. -/
inductive Moves (isSend : C → Bool) (σ : Connection C E) : Label C E → Connection C E → Prop
  | calls {c : C} (hcall : σ.calls c = .idle) : Moves isSend σ (.call c) (σ.setCall c .sending)
  | stops (hhandler : σ.handler = .receiving) :
    Moves isSend σ .stop { σ with handler := .terminating }
  | ends (hhandler : σ.handler = .receiving) : Moves isSend σ .terminated σ.finish
  | terminates (hhandler : σ.handler = .terminating) : Moves isSend σ .terminate σ.finish
  | responds {c : C} {outcome : Outcome E} (hhandler : σ.handler = .handling c) :
    Moves isSend σ (.handled outcome) (σ.respond isSend c outcome)
  | refuses {c : C} (hcall : σ.calls c = .sending) (hended : σ.handler = .ended) :
    Moves isSend σ (.enqueue c) (σ.setCall c (.returned (.error .connectionClosed)))
  | pushes {c : C} (hcall : σ.calls c = .sending) (hne : σ.handler ≠ .ended)
    (hroom : σ.rx.length < capacity) : Moves isSend σ (.enqueue c) (σ.push isSend c)
  | receives {c : C} {rest : List C} (hhandler : σ.handler = .receiving)
    (hrx : σ.rx = c :: rest) :
    Moves isSend σ .receive { σ with handler := .handling c, rx := rest }
  | closes {c : C} (hcall : σ.calls c = .awaiting) (hlost : c ∈ σ.lost) :
    Moves isSend σ (.closed c) (σ.setCall c (.returned (.error .connectionClosed)))

/-! ## What holds between two steps -/

/-- The message that is being handled. -/
def Handler.current : Handler C → List C
  | .handling c => [c]
  | _ => []

/-- What a call knows of its message. -/
def Call.Knows (isSend : C → Bool) (σ : Connection C E) (c : C) : Call E → Prop
  | .idle | .sending => c ∉ σ.accepted
  | .awaiting => isSend c = true ∧ (c ∈ σ.handler.current ∨ c ∈ σ.rx ∨ c ∈ σ.lost)
  | .returned r =>
    r = .error .connectionClosed ∧ σ.handler = .ended ∨
      isSend c = true ∧ (∃ outcome, (c, outcome) ∈ σ.handled ∧ r = response outcome) ∨
      isSend c = false ∧ c ∈ σ.accepted ∧ r = .ok []

/-- Every message is in one place, and every call knows where its own is. -/
structure Ok (isSend : C → Bool) (σ : Connection C E) : Prop where
  order : σ.handled.map Prod.fst ++ (σ.handler.current ++ (σ.rx ++ σ.lost)) = σ.accepted
  lost : σ.lost ≠ [] → σ.handler = .ended
  dropped : σ.handler = .ended → σ.rx = []
  nodup : σ.accepted.Nodup
  room : σ.rx.length ≤ capacity
  calls : ∀ c, (σ.calls c).Knows isSend σ c

variable {isSend : C → Bool} {σ σ' : Connection C E} {l : Label C E}
  {ls ls' : List (Label C E)} {c c' : C} {r : Result E} {call : Call E} {rest : List C}
  {outcome : Outcome E}

theorem moves_of_step (hstep : step isSend σ l = some σ') : Moves isSend σ l σ' := by
  cases l with
  | call c =>
    simp only [step] at hstep
    split at hstep
    · next hcall =>
      obtain rfl := Option.some.inj hstep
      exact .calls hcall
    · cases hstep
  | stop =>
    simp only [step] at hstep
    split at hstep
    · next hhandler =>
      obtain rfl := Option.some.inj hstep
      exact .stops hhandler
    · cases hstep
  | terminated =>
    simp only [step] at hstep
    split at hstep
    · next hhandler =>
      obtain rfl := Option.some.inj hstep
      exact .ends hhandler
    · cases hstep
  | terminate =>
    simp only [step] at hstep
    split at hstep
    · next hhandler =>
      obtain rfl := Option.some.inj hstep
      exact .terminates hhandler
    · cases hstep
  | handled outcome =>
    simp only [step] at hstep
    split at hstep
    · next hhandler =>
      obtain rfl := Option.some.inj hstep
      exact .responds hhandler
    · cases hstep
  | enqueue c =>
    simp only [step] at hstep
    split at hstep
    · next hcall =>
      unfold Connection.enqueue at hstep
      split at hstep
      · next hended =>
        obtain rfl := Option.some.inj hstep
        exact .refuses hcall hended
      · next hne =>
        obtain ⟨hroom, hstep⟩ := Option.ite_none_right_eq_some.mp hstep
        obtain rfl := Option.some.inj hstep
        exact .pushes hcall hne hroom
    · cases hstep
  | receive =>
    simp only [step] at hstep
    split at hstep
    · next hhandler hrx =>
      obtain rfl := Option.some.inj hstep
      exact .receives hhandler hrx
    · cases hstep
  | closed c =>
    simp only [step] at hstep
    split at hstep
    · next hcall =>
      obtain ⟨hlost, hstep⟩ := Option.ite_none_right_eq_some.mp hstep
      obtain rfl := Option.some.inj hstep
      exact .closes hcall hlost
    · cases hstep

omit [DecidableEq C] in
/-- What a call knows stays true where its message stays accepted, goes on from place to place
and is not forgotten. -/
theorem Call.Knows.mono (hknows : call.Knows isSend σ c)
    (haccepted : c ∈ σ'.accepted ↔ c ∈ σ.accepted)
    (hplace : isSend c = true → c ∈ σ.handler.current ∨ c ∈ σ.rx ∨ c ∈ σ.lost →
      c ∈ σ'.handler.current ∨ c ∈ σ'.rx ∨ c ∈ σ'.lost)
    (hended : σ.handler = .ended → σ'.handler = .ended)
    (hhandled : ∀ o, (c, o) ∈ σ.handled → (c, o) ∈ σ'.handled) : call.Knows isSend σ' c := by
  cases call with
  | idle | sending => exact fun hmem => hknows (haccepted.mp hmem)
  | awaiting => exact ⟨hknows.1, hplace hknows.1 hknows.2⟩
  | returned r =>
    obtain ⟨hr, hend⟩ | ⟨hsend, o, hmem, hr⟩ | ⟨hcast, hmem, hr⟩ := hknows
    · exact .inl ⟨hr, hended hend⟩
    · exact .inr (.inl ⟨hsend, o, hhandled o hmem, hr⟩)
    · exact .inr (.inr ⟨hcast, haccepted.mpr hmem, hr⟩)

namespace Ok

omit [DecidableEq C] in
theorem lost_eq_nil (h : Ok isSend σ) (hne : σ.handler ≠ .ended) : σ.lost = [] := by
  by_contra hlost
  exact hne (h.lost hlost)

/-- Only a call goes on. -/
theorem setCall (h : Ok isSend σ) (hcall : call.Knows isSend σ c) :
    Ok isSend (σ.setCall c call) := by
  constructor
  · exact h.order
  · exact h.lost
  · exact h.dropped
  · exact h.nodup
  · exact h.room
  · intro c'
    show (Function.update σ.calls c call c').Knows isSend σ c'
    by_cases hc : c' = c
    · subst hc
      rw [Function.update_self]
      exact hcall
    · rw [Function.update_of_ne hc]
      exact h.calls c'

omit [DecidableEq C] in
theorem finish (h : Ok isSend σ) (hcurrent : σ.handler.current = [])
    (hne : σ.handler ≠ .ended) : Ok isSend σ.finish := by
  constructor
  · have horder := h.order
    rw [hcurrent, h.lost_eq_nil hne] at horder
    show σ.handled.map Prod.fst ++ ([] ++ ([] ++ (σ.lost ++ σ.rx))) = σ.accepted
    rw [h.lost_eq_nil hne, ← horder]
    simp
  · exact fun _ => rfl
  · exact fun _ => rfl
  · exact h.nodup
  · exact Nat.zero_le _
  · intro c'
    refine (h.calls c').mono Iff.rfl (fun _ hplace => ?_) (fun _ => rfl) fun _ => id
    rw [hcurrent] at hplace
    obtain hmem | hmem | hmem := hplace
    · cases hmem
    · exact .inr (.inr (List.mem_append_right _ hmem))
    · exact .inr (.inr (List.mem_append_left _ hmem))

omit [DecidableEq C] in
/-- The handler is told to stop. -/
theorem terminate (h : Ok isSend σ) (hhandler : σ.handler = .receiving) :
    Ok isSend { σ with handler := .terminating } := by
  have hcurrent : Handler.current (.terminating : Handler C) = σ.handler.current := by
    rw [hhandler]
    rfl
  have hne : σ.handler ≠ .ended := by
    rw [hhandler]
    simp
  constructor
  · show σ.handled.map Prod.fst ++ (Handler.current .terminating ++ (σ.rx ++ σ.lost)) = σ.accepted
    rw [hcurrent]
    exact h.order
  · exact fun hlost => absurd (h.lost hlost) hne
  · intro hended
    cases hended
  · exact h.nodup
  · exact h.room
  · intro c'
    refine (h.calls c').mono Iff.rfl (fun _ hplace => ?_) (fun hended => absurd hended hne)
      fun _ => id
    rw [← hcurrent] at hplace
    exact hplace

omit [DecidableEq C] in
/-- A message is taken out of the channel. -/
theorem receive (h : Ok isSend σ) (hhandler : σ.handler = .receiving) (hrx : σ.rx = c :: rest) :
    Ok isSend { σ with handler := .handling c, rx := rest } := by
  have hne : σ.handler ≠ .ended := by
    rw [hhandler]
    simp
  constructor
  · have horder := h.order
    rw [hhandler, hrx] at horder
    exact horder
  · exact fun hlost => absurd (h.lost hlost) hne
  · intro hended
    cases hended
  · exact h.nodup
  · have hroom := h.room
    rw [hrx, List.length_cons] at hroom
    exact Nat.le_of_succ_le hroom
  · intro c'
    refine (h.calls c').mono Iff.rfl (fun _ hplace => ?_) (fun hended => absurd hended hne)
      fun _ => id
    rw [hhandler, hrx] at hplace
    simpa [Handler.current, or_assoc] using hplace

/-- A message has been handled, and answered if somebody waits for that. -/
theorem respond (h : Ok isSend σ) (hhandler : σ.handler = .handling c) :
    Ok isSend (σ.respond isSend c outcome) := by
  have hne : σ.handler ≠ .ended := by
    rw [hhandler]
    simp
  -- a call of `send` that waits for another message goes on waiting
  have hother : ∀ c', (isSend c' = true → c' ≠ c) →
      (σ.calls c').Knows isSend (σ.respond isSend c outcome) c' := by
    intro c' hc
    refine (h.calls c').mono Iff.rfl (fun hsend hplace => .inr ?_)
      (fun hended => absurd hended hne) fun _ => List.mem_append_left _
    rw [hhandler] at hplace
    exact hplace.resolve_left fun hmem => hc hsend (List.mem_singleton.mp hmem)
  constructor
  · have horder := h.order
    rw [hhandler] at horder
    show (σ.handled ++ [(c, outcome)]).map Prod.fst ++ ([] ++ (σ.rx ++ σ.lost)) = σ.accepted
    rw [← horder]
    simp [Handler.current]
  · exact fun hlost => absurd (h.lost hlost) hne
  · intro hended
    cases hended
  · exact h.nodup
  · exact h.room
  · intro c'
    show ((if isSend c then Function.update σ.calls c (.returned (response outcome))
      else σ.calls) c').Knows isSend (σ.respond isSend c outcome) c'
    by_cases hsend : isSend c = true
    · rw [if_pos hsend]
      by_cases hc : c' = c
      · subst hc
        rw [Function.update_self]
        exact .inr (.inl ⟨hsend, outcome, List.mem_append_right _ List.mem_cons_self, rfl⟩)
      · rw [Function.update_of_ne hc]
        exact hother c' fun _ => hc
    · rw [if_neg hsend]
      refine hother c' fun hs hc => hsend ?_
      rw [← hc]
      exact hs

/-- A call finds room in the channel. -/
theorem push (h : Ok isSend σ) (hcall : σ.calls c = .sending) (hne : σ.handler ≠ .ended)
    (hroom : σ.rx.length < capacity) : Ok isSend (σ.push isSend c) := by
  have hnew : c ∉ σ.accepted := by
    have hknows := h.calls c
    rw [hcall] at hknows
    exact hknows
  constructor
  · show σ.handled.map Prod.fst ++ (σ.handler.current ++ ((σ.rx ++ [c]) ++ σ.lost)) =
      σ.accepted ++ [c]
    rw [← h.order, h.lost_eq_nil hne]
    simp
  · exact h.lost
  · exact fun hended => absurd hended hne
  · exact List.nodup_append_comm.mp (List.nodup_cons.mpr ⟨hnew, h.nodup⟩)
  · show (σ.rx ++ [c]).length ≤ capacity
    rw [List.length_append, List.length_singleton]
    exact hroom
  · intro c'
    show (Function.update σ.calls c (if isSend c then .awaiting else .returned (.ok [])) c').Knows
      isSend (σ.push isSend c) c'
    by_cases hc : c' = c
    · subst hc
      rw [Function.update_self]
      by_cases hsend : isSend c' = true
      · rw [if_pos hsend]
        exact ⟨hsend, .inr (.inl (List.mem_append_right _ List.mem_cons_self))⟩
      · rw [if_neg hsend]
        refine .inr (.inr ⟨Bool.eq_false_iff.mpr hsend, ?_, rfl⟩)
        exact List.mem_append_right _ List.mem_cons_self
    · rw [Function.update_of_ne hc]
      refine (h.calls c').mono ?_ (fun _ hplace => ?_) id fun _ => id
      · show c' ∈ σ.accepted ++ [c] ↔ c' ∈ σ.accepted
        simp [hc]
      · exact hplace.imp_right fun hmem => hmem.imp_left (List.mem_append_left _)

theorem step (h : Ok isSend σ) (hstep : RustChannelConnection.step isSend σ l = some σ') :
    Ok isSend σ' := by
  cases moves_of_step hstep with
  | @calls c hcall =>
    have hknows := h.calls c
    rw [hcall] at hknows
    exact h.setCall hknows
  | stops hhandler => exact h.terminate hhandler
  | ends hhandler | terminates hhandler =>
    exact h.finish (by rw [hhandler]; rfl) (by simp [hhandler])
  | responds hhandler => exact h.respond hhandler
  | refuses _ hended => exact h.setCall (.inl ⟨rfl, hended⟩)
  | pushes hcall hne hroom => exact h.push hcall hne hroom
  | receives hhandler hrx => exact h.receive hhandler hrx
  | closes _ hlost => exact h.setCall (.inl ⟨rfl, h.lost (List.ne_nil_of_mem hlost)⟩)

end Ok

omit [DecidableEq C] in
theorem ok_initial : Ok isSend ({} : Connection C E) where
  order := rfl
  lost hne := absurd rfl hne
  dropped hended := by cases hended
  nodup := List.nodup_nil
  room := Nat.zero_le _
  calls c := List.not_mem_nil

theorem Ok.run (hrun : exec (RustChannelConnection.step isSend) {} ls = some σ) : Ok isSend σ :=
  run_induction (P := fun _ (σ : Connection C E) => Ok isSend σ) ok_initial
    (fun _ _ _ _ _ h hstep => h.step hstep) ls σ hrun

omit [DecidableEq C] in
theorem Ok.entered (h : Ok isSend σ) (hmem : c ∈ σ.accepted) :
    σ.calls c = .awaiting ∧ isSend c = true ∨ ∃ r, σ.calls c = .returned r := by
  have hknows := h.calls c
  cases hcall : σ.calls c with
  | idle | sending =>
    rw [hcall] at hknows
    exact absurd hmem hknows
  | awaiting =>
    rw [hcall] at hknows
    exact .inl ⟨rfl, hknows.1⟩
  | returned r => exact .inr ⟨r, rfl⟩

/-- A call that is not made does nothing. -/
theorem Ok.idle_of_step (h : Ok isSend σ) (hidle : σ.calls c = .idle) (hl : l ≠ .call c)
    (hstep : RustChannelConnection.step isSend σ l = some σ') : σ'.calls c = .idle := by
  have hother : ∀ c' call, c ≠ c' → Function.update σ.calls c' call c = .idle := by
    intro c' call hc
    rw [Function.update_of_ne hc]
    exact hidle
  cases moves_of_step hstep with
  | calls _ =>
    refine hother _ _ ?_
    rintro rfl
    exact hl rfl
  | refuses hcall _ | pushes hcall _ _ | closes hcall _ =>
    refine hother _ _ ?_
    rintro rfl
    rw [hidle] at hcall
    cases hcall
  | @responds c' outcome hhandler =>
    have hmem : c' ∈ σ.accepted := by
      rw [← h.order, hhandler]
      simp [Handler.current]
    have hc : c ≠ c' := by
      rintro rfl
      obtain ⟨hcall, -⟩ | ⟨r, hcall⟩ := h.entered hmem <;> rw [hidle] at hcall <;> cases hcall
    show (if isSend c' then Function.update σ.calls c' (.returned (response outcome))
      else σ.calls) c = .idle
    split
    · exact hother _ _ hc
    · exact hidle
  | stops _ | ends _ | terminates _ | receives _ _ => exact hidle

/-- **In order, at most once, and to whom it belongs**: what the handler has handled, is handling,
has before it and has dropped is what was put into the channel, in this order and each message
once. At most 100 messages wait, and only a handler that has ended drops anything. A call of
`send` returns the response to its own message, a call of `cast` that its message was put into
the channel, and either returns `ConnectionClosed` only once the handler has ended. -/
theorem delivered_in_order (hrun : exec (step isSend) {} ls = some σ) :
    σ.handled.map Prod.fst ++ (σ.handler.current ++ (σ.rx ++ σ.lost)) = σ.accepted ∧
      σ.accepted.Nodup ∧ σ.rx.length ≤ capacity ∧ (σ.lost ≠ [] → σ.handler = .ended) ∧
      ∀ c r, σ.calls c = .returned r →
        r = .error .connectionClosed ∧ σ.handler = .ended ∨
          isSend c = true ∧ (∃ outcome, (c, outcome) ∈ σ.handled ∧ r = response outcome) ∨
          isSend c = false ∧ c ∈ σ.accepted ∧ r = .ok [] := by
  have h := Ok.run hrun
  refine ⟨h.order, h.nodup, h.room, h.lost, fun c r hcall => ?_⟩
  have hknows := h.calls c
  rw [hcall] at hknows
  exact hknows

/-- A call of `cast` and two calls of `send`. The handler ends before it comes to the second. -/
def threeCalls (cast first second : C) : List (Label C Unit) :=
  [.call cast, .call first, .call second, .enqueue first, .enqueue cast, .receive,
    .handled (.ok (some [7])), .receive, .enqueue second, .handled (.ok none), .terminated,
    .closed second]

theorem delivered_in_order_threeCalls : ∃ σ : Connection (Fin 3) Unit,
    exec (step (· ≠ 0)) {} (threeCalls 0 1 2) = some σ ∧
      σ.calls 1 = .returned (.ok [7]) ∧
      σ.calls 2 = .returned (.error .connectionClosed) ∧
      σ.handled.map Prod.fst ++ (σ.handler.current ++ (σ.rx ++ σ.lost)) = σ.accepted ∧
      σ.accepted.Nodup ∧ σ.rx.length ≤ capacity ∧ (σ.lost ≠ [] → σ.handler = .ended) ∧
      ∀ c r, σ.calls c = .returned r →
        r = .error .connectionClosed ∧ σ.handler = .ended ∨
          c ≠ 0 ∧ (∃ outcome, (c, outcome) ∈ σ.handled ∧ r = response outcome) ∨
          c = 0 ∧ c ∈ σ.accepted ∧ r = .ok [] := by
  have hrun : exec (step (· ≠ 0)) {} (threeCalls (0 : Fin 3) 1 2) = some _ := rfl
  refine ⟨_, hrun, rfl, rfl, ?_⟩
  simpa using delivered_in_order hrun

/-! ## Calls after each other -/

theorem accepted_grows_of_step (hstep : step isSend σ l = some σ') :
    σ.accepted <+: σ'.accepted := by
  cases moves_of_step hstep with
  | pushes _ _ _ => exact List.prefix_append _ _
  | _ => exact List.prefix_rfl

theorem accepted_grows (hrun : exec (step isSend) σ ls = some σ') :
    σ.accepted <+: σ'.accepted :=
  run_induction (P := fun _ (τ : Connection C E) => σ.accepted <+: τ.accepted) List.prefix_rfl
    (fun _ _ _ _ _ h hstep => h.trans (accepted_grows_of_step hstep)) ls σ' hrun

omit [DecidableEq C] in
theorem Ok.mem_accepted_of_handled (h : Ok isSend σ) (hmem : c ∈ σ.handled.map Prod.fst) :
    c ∈ σ.accepted := by
  rw [← h.order]
  exact List.mem_append_left _ hmem

omit [DecidableEq C] in
theorem Ok.mem_accepted_of_returned (h : Ok isSend σ) (hreturned : σ.calls c = .returned r)
    (hr : r ≠ .error .connectionClosed) : c ∈ σ.accepted := by
  have hknows := h.calls c
  rw [hreturned] at hknows
  obtain ⟨hclosed, -⟩ | ⟨-, outcome, hmem, -⟩ | ⟨-, hmem, -⟩ := hknows
  · exact absurd hclosed hr
  · exact h.mem_accepted_of_handled (List.mem_map_of_mem hmem)
  · exact hmem

/-- **No message overtakes another**: if a call is made after another one has returned, other
than with `ConnectionClosed`, then the message of the second is only handled after that of the
first. -/
theorem handled_after (hrun : exec (step isSend) {} ls = some σ)
    (hreturned : σ.calls c = .returned r) (hr : r ≠ .error .connectionClosed)
    (hidle : σ.calls c' = .idle) (hrun' : exec (step isSend) σ ls' = some σ')
    (hhandled : c' ∈ σ'.handled.map Prod.fst) :
    [c, c'].Sublist (σ'.handled.map Prod.fst) := by
  have h := Ok.run hrun
  have hall : exec (step isSend) {} (ls ++ ls') = some σ' := by
    rw [exec_append, hrun]
    exact hrun'
  have h' := Ok.run hall
  have hold := h.mem_accepted_of_returned hreturned hr
  have hnew : c' ∉ σ.accepted := by
    have hknows := h.calls c'
    rw [hidle] at hknows
    exact hknows
  -- the handler has gone past all that had been put into the channel at that time
  have hpast : σ.accepted <+: σ'.handled.map Prod.fst := by
    have hprefix : σ'.handled.map Prod.fst <+: σ'.accepted := ⟨_, h'.order⟩
    obtain hpast | hpast := List.prefix_or_prefix_of_prefix (accepted_grows hrun') hprefix
    · exact hpast
    · exact absurd (hpast.subset hhandled) hnew
  obtain ⟨later, hlater⟩ := hpast
  rw [← hlater] at hhandled ⊢
  have hlast : c' ∈ later := (List.mem_append.mp hhandled).resolve_left hnew
  exact (List.singleton_sublist.mpr hold).append (List.singleton_sublist.mpr hlast)

/-! ## Nobody waits forever -/

/-- No call goes on by itself, and the handler takes no message. -/
def Stuck (isSend : C → Bool) (σ : Connection C E) : Prop :=
  ∀ l : Label C E, l.internal = true → step isSend σ l = none

/-- Where no call can go on, and the handler is not inside the server, every call that was made
has returned. -/
theorem answered_of_stuck (hrun : exec (step isSend) {} ls = some σ) (hstuck : Stuck isSend σ)
    (hidle : σ.handler = .receiving ∨ σ.handler = .ended) (c : C) :
    σ.calls c = .idle ∨ ∃ r, σ.calls c = .returned r := by
  have h := Ok.run hrun
  have hrx : σ.rx = [] := by
    obtain hreceiving | hended := hidle
    · have hnone := hstuck .receive rfl
      cases hrx : σ.rx with
      | nil => rfl
      | cons c rest => simp [step, hreceiving, hrx] at hnone
    · exact h.dropped hended
  have hcurrent : σ.handler.current = [] := by
    obtain hreceiving | hended := hidle
    · rw [hreceiving]
      rfl
    · rw [hended]
      rfl
  cases hcall : σ.calls c with
  | idle => exact .inl rfl
  | returned r => exact .inr ⟨r, rfl⟩
  | sending =>
    have hnone := hstuck (.enqueue c) rfl
    obtain hhandler | hhandler := hidle
    · simp [step, hcall, Connection.enqueue, hhandler, hrx, capacity] at hnone
    · simp [step, hcall, Connection.enqueue, hhandler] at hnone
  | awaiting =>
    have hknows := h.calls c
    rw [hcall] at hknows
    obtain ⟨-, hmem⟩ := hknows
    rw [hcurrent, hrx] at hmem
    have hlost : c ∈ σ.lost := by simpa using hmem
    have hnone := hstuck (.closed c) rfl
    simp [step, hcall, hlost] at hnone

def Handler.weight : Handler C → Nat
  | .receiving | .handling _ => 2
  | .terminating => 1
  | .ended => 0

/-- How many steps a call has before it, those of the handler with its message included. -/
def Connection.pending (σ : Connection C E) (c : C) : Nat :=
  match σ.calls c with
  | .idle => 4
  | .sending => 3
  | .awaiting => if c ∈ σ.rx then 2 else 1
  | .returned _ => if c ∈ σ.rx then 2 else if c ∈ σ.handler.current then 1 else 0

theorem Connection.pending_le (hcall : σ'.calls c = σ.calls c) (hrx : c ∈ σ'.rx → c ∈ σ.rx)
    (hcurrent : c ∈ σ'.handler.current → c ∈ σ.rx ∨ c ∈ σ.handler.current) :
    σ'.pending c ≤ σ.pending c := by
  unfold pending
  rw [hcall]
  cases σ.calls c with
  | idle | sending => exact le_rfl
  | awaiting =>
    by_cases h' : c ∈ σ'.rx
    · simp [h', hrx h']
    · by_cases h : c ∈ σ.rx <;> simp [h, h']
  | returned r =>
    by_cases h : c ∈ σ.rx
    · by_cases h' : c ∈ σ'.rx <;> by_cases h'' : c ∈ σ'.handler.current <;> simp [h, h', h'']
    · have h' : c ∉ σ'.rx := fun h' => h (hrx h')
      by_cases h'' : c ∈ σ'.handler.current
      · have hold := (hcurrent h'').resolve_left h
        simp [h, h', h'', hold]
      · simp [h', h'']

variable [Fintype C]

def Connection.weight (σ : Connection C E) : Nat :=
  ∑ c, σ.pending c + σ.handler.weight

theorem Connection.weight_lt_of_call (c : C) (hhandler : σ'.handler.weight ≤ σ.handler.weight)
    (hothers : ∀ c' ≠ c, σ'.pending c' ≤ σ.pending c') (h : σ'.pending c < σ.pending c) :
    σ'.weight < σ.weight := by
  refine Nat.add_lt_add_of_lt_of_le ?_ hhandler
  refine Finset.sum_lt_sum (fun c' _ => ?_) ⟨c, Finset.mem_univ c, h⟩
  by_cases hc : c' = c
  · rw [hc]
    exact h.le
  · exact hothers c' hc

theorem Connection.weight_lt_of_handler (hcalls : ∀ c, σ'.pending c ≤ σ.pending c)
    (h : σ'.handler.weight < σ.handler.weight) : σ'.weight < σ.weight :=
  Nat.add_lt_add_of_le_of_lt (Finset.sum_le_sum fun c _ => hcalls c) h

theorem Connection.weight_setCall_lt (h : (σ.setCall c call).pending c < σ.pending c) :
    (σ.setCall c call).weight < σ.weight := by
  refine weight_lt_of_call c le_rfl (fun c' hc => ?_) h
  exact pending_le (Function.update_of_ne hc _ _) id .inr

/-- Every step is one less. -/
theorem weight_step_lt (h : Ok isSend σ) (hstep : step isSend σ l = some σ') :
    σ'.weight < σ.weight := by
  cases moves_of_step hstep with
  | @calls c hcall =>
    refine Connection.weight_setCall_lt ?_
    simp [Connection.pending, Connection.setCall, hcall]
  | stops hhandler =>
    refine Connection.weight_lt_of_handler (fun c => ?_) (by simp [hhandler, Handler.weight])
    exact Connection.pending_le rfl id fun hmem => absurd hmem List.not_mem_nil
  | ends hhandler | terminates hhandler =>
    refine Connection.weight_lt_of_handler (fun c => ?_)
      (by simp [hhandler, Connection.finish, Handler.weight])
    exact Connection.pending_le rfl (fun hmem => absurd hmem List.not_mem_nil)
      fun hmem => absurd hmem List.not_mem_nil
  | @responds c outcome hhandler =>
    have hnodup := h.nodup
    rw [← h.order, hhandler] at hnodup
    have hmem : c ∈ σ.accepted := by
      rw [← h.order, hhandler]
      simp [Handler.current]
    have hrx : c ∉ σ.rx := by
      intro hrx
      simp [Handler.current, List.nodup_append, hrx] at hnodup
    refine Connection.weight_lt_of_call c (by simp [hhandler, Connection.respond, Handler.weight])
      (fun c' hc => ?_) ?_
    · refine Connection.pending_le ?_ id fun hmem => absurd hmem List.not_mem_nil
      unfold Connection.respond
      dsimp only
      split
      · exact Function.update_of_ne hc _ _
      · rfl
    · obtain ⟨hcall, hsend⟩ | ⟨r, hcall⟩ := h.entered hmem
      · simp [Connection.pending, Connection.respond, hcall, hsend, hrx, Handler.current]
      · cases hsend : isSend c <;>
          simp [Connection.pending, Connection.respond, hcall, hsend, hrx, hhandler,
            Handler.current]
  | @refuses c hcall hended =>
    refine Connection.weight_setCall_lt ?_
    simp only [Connection.pending, Connection.setCall, Function.update_self, hcall, hended]
    split <;> simp [Handler.current]
  | @pushes c hcall hne hroom =>
    refine Connection.weight_lt_of_call c le_rfl (fun c' hc => ?_) ?_
    · refine Connection.pending_le (Function.update_of_ne hc _ _) (fun hmem => ?_) .inr
      exact (List.mem_append.mp hmem).resolve_right fun hmem => hc (List.mem_singleton.mp hmem)
    · cases hsend : isSend c <;>
        simp [Connection.pending, Connection.push, Connection.setCall, hcall, hsend]
  | @receives c rest hhandler hrx =>
    have hnodup := h.nodup
    rw [← h.order, hhandler, hrx] at hnodup
    have hmem : c ∈ σ.accepted := by
      rw [← h.order, hrx]
      simp
    have hrest : c ∉ rest := by
      intro hrest
      simp [Handler.current, List.nodup_append, hrest] at hnodup
    refine Connection.weight_lt_of_call c (by simp [hhandler, Handler.weight]) (fun c' hc => ?_) ?_
    · refine Connection.pending_le rfl (fun hmem => ?_) fun hmem => ?_
      · rw [hrx]
        exact List.mem_cons_of_mem c hmem
      · exact absurd (List.mem_singleton.mp hmem) hc
    · obtain ⟨hcall, -⟩ | ⟨r, hcall⟩ := h.entered hmem <;>
        simp [Connection.pending, hcall, hrx, hrest, Handler.current]
  | @closes c hcall hlost =>
    have hended := h.lost (List.ne_nil_of_mem hlost)
    refine Connection.weight_setCall_lt ?_
    simp [Connection.pending, Connection.setCall, hcall, hended, h.dropped hended,
      Handler.current]

/-- **Every call returns**: `n` calls take at most `4 * n + 2` steps, those of the handler and
of the server included; and where no call can go on, and the handler is not inside the server,
every call that was made has returned. -/
theorem every_call_returns (hrun : exec (step isSend) {} ls = some σ) :
    ls.length ≤ 4 * Fintype.card C + 2 ∧
      (Stuck isSend σ → σ.handler = .receiving ∨ σ.handler = .ended →
        ∀ c, σ.calls c = .idle ∨ ∃ r, σ.calls c = .returned r) := by
  have hbound := length_add_measure_le
    (fun _ _ _ _ hs hstep => weight_step_lt (Ok.run hs) hstep) ls σ hrun
  have hinitial : ({} : Connection C E).weight = 4 * Fintype.card C + 2 := by
    simp [Connection.weight, Connection.pending, Handler.weight, Nat.mul_comm]
  refine ⟨by omega, fun hstuck hidle c => answered_of_stuck hrun hstuck hidle c⟩

theorem every_call_returns_threeCalls : ∃ σ : Connection (Fin 3) Unit,
    exec (step (· ≠ 0)) {} (threeCalls 0 1 2) = some σ ∧
      (threeCalls (0 : Fin 3) 1 2).length ≤ 4 * Fintype.card (Fin 3) + 2 ∧
      ∀ c, σ.calls c = .idle ∨ ∃ r, σ.calls c = .returned r := by
  obtain ⟨σ, hrun, hσ⟩ := exists_exec_of_any (step (· ≠ 0)) {} (threeCalls (0 : Fin 3) 1 2)
    (fun σ => decide (σ.handler = .ended ∧ (step (· ≠ 0) σ .receive).isNone = true ∧
      ∀ c, (step (· ≠ 0) σ (.enqueue c)).isNone = true ∧
        (step (· ≠ 0) σ (.closed c)).isNone = true)) (by decide)
  obtain ⟨hended, hreceive, hcalls⟩ := of_decide_eq_true hσ
  obtain ⟨hlength, hreturned⟩ := every_call_returns hrun
  refine ⟨σ, hrun, hlength, hreturned (fun l hl => ?_) (.inr hended)⟩
  cases l with
  | enqueue c => exact Option.isNone_iff_eq_none.mp (hcalls c).1
  | receive => exact Option.isNone_iff_eq_none.mp hreceive
  | closed c => exact Option.isNone_iff_eq_none.mp (hcalls c).2
  | _ => cases hl

end DistBench.RustChannelConnection
