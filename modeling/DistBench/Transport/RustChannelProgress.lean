import DistBench.Transport.RustChannel

/-!
# How the in-memory transport comes to rest, and how it locks up

A server that leaves its loop answers nobody any more, but the requests in its channel are
dropped only after it has had the lock, and their callers have the lock until they are
answered. So the transport comes to rest if no call of `connect` is under way to a server when
it leaves; and if one is, that call and the server wait for each other forever, and everyone
who asks for the lock later waits with them.

- `State.Bound`: a call of `connect` is under way to a server.
- `Doomed`, `Doomed.step`: such a call and a server that has left.
- `waits_forever`: what becomes of the others.
- `atRest_of_stuck`, `comes_to_rest`: the transport comes to rest otherwise, within a number of
  steps that is bounded by the number of calls.
-/

namespace DistBench.RustChannel

variable {P C S : Type} [DecidableEq P] [DecidableEq C] [DecidableEq S]

/-- No call goes on unless something is called or told to stop. -/
def Stuck (N : Calls P C S) (policy : Policy (C ⊕ S)) (σ : State P C S) : Prop :=
  ∀ l : Label C S, l.internal = true → step N policy σ l = none

/-- A call that is over, or has not begun. -/
def Call.Rests : Call S → Prop
  | .idle | .returned _ => True
  | _ => False

/-- A server that is not running, or has nothing to do. -/
def Serve.Rests (serve : Serve C) : Prop :=
  match serve.phase with
  | .idle | .returned _ => True
  | .serving => serve.rx = []
  | _ => False

/-- Nobody waits for anything. -/
structure AtRest (σ : State P C S) : Prop where
  calls : ∀ c, (σ.calls c).Rests
  serves : ∀ s, (σ.serves s).Rests

/-- The call has been made and is not answered, and the server is the one it has found or would
find. -/
def State.Bound (N : Calls P C S) (σ : State P C S) (c : C) (s : S) : Prop :=
  match σ.calls c with
  | .locking | .reading => σ.registry (N.addr c) = some s
  | .sending s' | .awaiting s' => s' = s
  | _ => False

instance (N : Calls P C S) (σ : State P C S) (c : C) (s : S) : Decidable (σ.Bound N c s) :=
  match h : σ.calls c with
  | .locking | .reading =>
    decidable_of_iff (σ.registry (N.addr c) = some s) (by simp [State.Bound, h])
  | .sending s' | .awaiting s' => decidable_of_iff (s' = s) (by simp [State.Bound, h])
  | .idle | .connected _ | .returned _ => .isFalse (by simp [State.Bound, h])

/-- The call is under way to a server that has left, and has the lock or gets it first. -/
structure Doomed (N : Calls P C S) (σ : State P C S) (c : C) (s : S) : Prop where
  leaving : (σ.serves s).phase = .leaving
  ahead : .inl c ∈ σ.lock.ahead (.inr s)
  bound : σ.Bound N c s

variable {N : Calls P C S} {policy : Policy (C ⊕ S)} {σ σ' τ : State P C S} {l : Label C S}
  {ls ls' : List (Label C S)} {c : C} {s : S}

/-! ## What a step does to the lock and to the calls -/

theorem lockMoves_of_step (hstep : step N policy σ l = some σ') :
    policy.Moves σ.lock σ'.lock := by
  cases moves_of_step hstep with
  | connects _ | serves _ | leaves _ => exact .asks _ _
  | reads _ hadm | enters _ hadm | exits _ hadm => exact .grants hadm
  | finds _ _ | sends _ _ | accepts _ _ _ | refuses _ _ _ => exact .stays
  | inserts _ | misses _ _ | finishes _ | closes _ _ | removes _ => exact .releases _

namespace Ok

omit [DecidableEq P] [DecidableEq C] [DecidableEq S] in
theorem waiting_of_leaving (h : Ok N σ) (hphase : (σ.serves s).phase = .leaving) :
    (.inr s, .write) ∈ σ.lock.waiting := by
  rw [h.fits.waiting]
  simp [State.stand, hphase, Phase.stand]

omit [DecidableEq P] [DecidableEq C] [DecidableEq S] in
theorem mem_tasks_of_bound (h : Ok N σ) (hbound : σ.Bound N c s) : .inl c ∈ σ.lock.tasks := by
  rw [RwLock.mem_tasks]
  unfold State.Bound at hbound
  cases hcall : σ.calls c with
  | locking =>
    refine ⟨.read, .inr ?_⟩
    rw [h.fits.waiting]
    simp [State.stand, hcall, Call.stand]
  | reading | sending _ | awaiting _ =>
    refine ⟨.read, .inl ?_⟩
    rw [h.fits.holding]
    simp [State.stand, hcall, Call.stand]
  | idle | connected _ | returned _ =>
    rw [hcall] at hbound
    exact hbound.elim

omit [DecidableEq P] [DecidableEq C] [DecidableEq S] in
theorem addr_of_bound (h : Ok N σ) (hbound : σ.Bound N c s) : N.localAddr s = N.addr c := by
  unfold State.Bound at hbound
  cases hcall : σ.calls c with
  | locking | reading =>
    rw [hcall] at hbound
    exact (h.registry _ s hbound).1
  | sending s' | awaiting s' =>
    rw [hcall] at hbound
    obtain rfl : s' = s := hbound
    exact h.peer c s' (by rw [hcall]; rfl)
  | idle | connected _ | returned _ =>
    rw [hcall] at hbound
    exact hbound.elim

/-- A server leaves while a call is under way to it. -/
theorem doomed_of_leave (h : Ok N σ) (hbound : σ.Bound N c s)
    (hstep : RustChannel.step N policy σ (.leave s) = some σ') : Doomed N σ' c s := by
  simp only [RustChannel.step] at hstep
  split at hstep
  · next hphase =>
    obtain rfl := Option.some.inj hstep
    have haway : σ.stand (.inr s) = .away := by simp [State.stand, hphase, Phase.stand]
    constructor
    · simp [State.ask, State.setPhase, State.setServe]
    · show .inl c ∈ (σ.lock.ask (.inr s) .write).ahead (.inr s)
      rw [RwLock.ahead_ask_self (h.fits.notMem_tasks haway)]
      exact h.mem_tasks_of_bound hbound
    · exact hbound
  · cases hstep

end Ok

omit [DecidableEq P] [DecidableEq C] [DecidableEq S] in
theorem State.Bound.congr (hbound : σ.Bound N c s) (hcall : σ'.calls c = σ.calls c)
    (hregistry : σ.registry (N.addr c) = some s → σ'.registry (N.addr c) = some s) :
    σ'.Bound N c s := by
  unfold State.Bound at hbound ⊢
  rw [hcall]
  split at hbound
  · exact hregistry hbound
  · exact hregistry hbound
  · exact hbound
  · exact hbound
  · exact hbound

omit [DecidableEq P] [DecidableEq S] in
/-- Nothing that another call does takes a call off its way. -/
theorem State.Bound.setCall (hbound : σ.Bound N c s) {c' : C} {call : Call S}
    {lock : RwLock (C ⊕ S)} {serves : S → Serve C}
    (hself : c' = c → State.Bound N { σ.setCall c call with lock := lock, serves := serves } c s) :
    State.Bound N { σ.setCall c' call with lock := lock, serves := serves } c s := by
  by_cases hc : c' = c
  · subst hc
    exact hself rfl
  · exact hbound.congr (Function.update_of_ne (Ne.symm hc) _ _) id

/-- While its server waits to be removed, a call stays on its way to it. -/
theorem State.Bound.step (hbound : σ.Bound N c s) (h : Ok N σ)
    (hinj : Function.Injective N.localAddr) (hphase : (σ.serves s).phase = .leaving)
    (hstep : RustChannel.step N policy σ l = some σ') : σ'.Bound N c s := by
  have haddr := h.addr_of_bound hbound
  have hother : ∀ s', s' ≠ s → N.addr c ≠ N.localAddr s' := by
    intro s' hs' heq
    exact hs' (hinj (heq.symm.trans haddr.symm))
  cases moves_of_step hstep with
  | @connects c' hcall =>
    refine hbound.setCall fun hc => ?_
    subst hc
    simp [State.Bound, hcall] at hbound
  | serves _ | leaves _ | enters _ _ | exits _ _ => exact hbound
  | @reads c' hcall =>
    refine hbound.setCall fun hc => ?_
    subst hc
    simpa [State.Bound, hcall, State.setCall] using hbound
  | @finds c' s' hcall hs' =>
    refine hbound.setCall fun hc => ?_
    subst hc
    have hfound : σ.registry (N.addr c') = some s := by simpa [State.Bound, hcall] using hbound
    obtain rfl : s' = s := Option.some.inj (hs'.symm.trans hfound)
    simp [State.Bound, State.setCall]
  | @misses c' hcall hnone =>
    refine hbound.setCall fun hc => ?_
    subst hc
    simp [State.Bound, hcall, hnone] at hbound
  | @sends c' s' hcall _ =>
    refine hbound.setCall fun hc => ?_
    subst hc
    simpa [State.Bound, hcall, State.setCall] using hbound
  | @accepts c' s' rest hserving hrx hcall =>
    refine hbound.setCall fun hc => ?_
    subst hc
    obtain rfl : s' = s := by simpa [State.Bound, hcall] using hbound
    rw [hserving] at hphase
    cases hphase
  | @refuses c' s' rest hserving hrx hcall =>
    refine absurd ((h.rx s' c').mp ?_) hcall
    rw [hrx]
    exact List.mem_cons_self
  | @finishes c' s' hcall =>
    refine hbound.setCall fun hc => ?_
    subst hc
    simp [State.Bound, hcall] at hbound
  | closes hserver hreturned =>
    have hopen := h.server _ _ hserver
    rw [hreturned] at hopen
    cases hopen
  | @inserts s' hinserting =>
    have hne : s' ≠ s := by
      rintro rfl
      rw [hinserting] at hphase
      cases hphase
    exact hbound.congr rfl (Function.update_of_ne (hother s' hne) _ _).trans
  | @removes s' hremoving =>
    have hne : s' ≠ s := by
      rintro rfl
      rw [hremoving] at hphase
      cases hphase
    exact hbound.congr rfl (Function.update_of_ne (hother s' hne) _ _).trans

/-! ## Locking up -/

/-- What a server does that is not let in: it asks for the lock. -/
def Phase.Asks (phase phase' : Phase) : Prop :=
  phase' = phase ∨ phase = .idle ∧ phase' = .registering ∨ phase = .serving ∧ phase' = .leaving

theorem phase_step (hok : Ok N σ) (hstep : step N policy σ l = some σ')
    (haway : ∀ a, (σ.serves s).phase.stand ≠ .holds a)
    (hwaits : policy.grants σ.lock (.inr s) .write = true → l ≠ .grant (.inr s)) :
    (σ.serves s).phase.Asks (σ'.serves s).phase := by
  have hsame : ∀ (s' : S) (serve : Serve C), (s' = s → (σ.serves s).phase.Asks serve.phase) →
      (σ.serves s).phase.Asks ((σ.setServe s' serve).serves s).phase := by
    intro s' serve hserve
    by_cases hs : s' = s
    · subst hs
      simpa [State.setServe] using hserve rfl
    · exact .inl (by simp [State.setServe, Ne.symm hs])
  cases moves_of_step hstep with
  | connects _ | reads _ _ | finds _ _ | misses _ _ | finishes _ | closes _ _ => exact .inl rfl
  | serves hidle =>
    refine hsame _ _ fun hs => .inr (.inl ⟨?_, rfl⟩)
    rw [← hs, hidle]
  | leaves hserving =>
    refine hsame _ _ fun hs => .inr (.inr ⟨?_, rfl⟩)
    rw [← hs, hserving]
  | enters _ hadm | exits _ hadm =>
    refine hsame _ _ fun hs => ?_
    subst hs
    exact absurd rfl (hwaits hadm)
  | inserts hholds | removes hholds =>
    refine hsame _ _ fun hs => ?_
    rw [hs] at hholds
    exact absurd (by rw [hholds]; rfl) (haway .write)
  | sends _ _ | accepts _ _ _ =>
    refine hsame _ _ fun hs => ?_
    subst hs
    exact .inl rfl
  | @refuses c' s' rest hserving hrx hcall =>
    refine absurd ((hok.rx s' c').mp ?_) hcall
    rw [hrx]
    exact List.mem_cons_self

/-- What a call of `connect` does that is not let in. -/
theorem call_step (hstep : step N policy σ l = some σ')
    (hcall : σ.calls c = .idle ∨ σ.calls c = .locking)
    (hwaits : policy.grants σ.lock (.inl c) .read = true → l ≠ .grant (.inl c)) :
    σ'.calls c = .idle ∨ σ'.calls c = .locking := by
  have hsame : ∀ (c' : C) (call : Call S), (c' = c → call = .locking) →
      (σ.setCall c' call).calls c = .idle ∨ (σ.setCall c' call).calls c = .locking := by
    intro c' call hnew
    by_cases hc : c' = c
    · subst hc
      exact .inr (by simp [State.setCall, hnew rfl])
    · simpa [State.setCall, Ne.symm hc] using hcall
  cases moves_of_step hstep with
  | serves _ | leaves _ | enters _ _ | exits _ _ | inserts _ | refuses _ _ _ | removes _ =>
    exact hcall
  | connects _ => exact hsame _ _ fun _ => rfl
  | reads _ hadm =>
    refine hsame _ _ fun hc => ?_
    subst hc
    exact absurd rfl (hwaits hadm)
  | finds hother _ | misses hother _ | sends hother _ | accepts _ _ hother | finishes hother =>
    refine hsame _ _ fun hc => ?_
    rw [hc] at hother
    rw [hother] at hcall
    simp at hcall
  | closes hserver _ =>
    refine hsame _ _ fun hc => ?_
    rw [hc] at hserver
    obtain hidle | hlocking := hcall
    · rw [hidle] at hserver
      cases hserver
    · rw [hlocking] at hserver
      cases hserver

namespace Doomed

omit [DecidableEq P] in
/-- The server is not let in, as the call is ahead of it. -/
theorem not_grants (h : Doomed N σ c s) : policy.grants σ.lock (.inr s) .write = false := by
  refine Bool.eq_false_iff.mpr fun hadm => ?_
  have hahead := h.ahead
  rw [policy.ahead_eq_nil hadm] at hahead
  cases hahead

/-- The call and the server wait for each other. -/
theorem step (h : Doomed N σ c s) (hok : Ok N σ) (hinj : Function.Injective N.localAddr)
    (hstep : RustChannel.step N policy σ l = some σ') : Doomed N σ' c s := by
  have hok' := hok.step hstep
  have hbound := h.bound.step hok hinj h.leaving hstep
  constructor
  · have hphase := phase_step hok hstep (s := s) (by simp [h.leaving, Phase.stand])
      fun hadm => absurd hadm (by simp [h.not_grants])
    simpa [Phase.Asks, h.leaving] using hphase
  · exact (lockMoves_of_step hstep).ahead_mem (hok.waiting_of_leaving h.leaving) h.ahead
      (hok'.mem_tasks_of_bound hbound)
  · exact hbound

end Doomed

/-- What becomes of the others while a server waits: who has not asked for the lock yet does not
get it. -/
structure Waits (σ₀ σ : State P C S) (s : S) : Prop where
  behind : ∀ t, σ₀.stand t = .away → t ∉ σ.lock.ahead (.inr s)
  connect : ∀ c, σ₀.calls c = .idle → σ.calls c = .idle ∨ σ.calls c = .locking
  serve : ∀ s', (σ₀.serves s').phase = .idle →
    (σ.serves s').phase = .idle ∨ (σ.serves s').phase = .registering
  remove : ∀ s', (σ₀.serves s').phase = .serving →
    (σ.serves s').phase = .serving ∨ (σ.serves s').phase = .leaving

theorem Ok.waits_of_leave (h : Ok N σ)
    (hstep : RustChannel.step N policy σ (.leave s) = some σ') : Waits σ σ' s := by
  simp only [RustChannel.step] at hstep
  split at hstep
  · next hphase =>
    obtain rfl := Option.some.inj hstep
    have haway : σ.stand (.inr s) = .away := by simp [State.stand, hphase, Phase.stand]
    have hself : ((σ.setPhase s .leaving).serves s).phase = .leaving := by
      simp [State.setPhase, State.setServe]
    have hother : ∀ s', s' ≠ s → (σ.setPhase s .leaving).serves s' = σ.serves s' := by
      intro s' hs'
      simp [State.setPhase, State.setServe, hs']
    constructor
    · intro t ht
      show t ∉ (σ.lock.ask (.inr s) .write).ahead (.inr s)
      rw [RwLock.ahead_ask_self (h.fits.notMem_tasks haway)]
      exact h.fits.notMem_tasks ht
    · exact fun _ hc => .inl hc
    · intro s' hs'
      have hne : s' ≠ s := by
        rintro rfl
        rw [hs'] at hphase
        cases hphase
      exact .inl ((congrArg Serve.phase (hother s' hne)).trans hs')
    · intro s' hs'
      by_cases hne : s' = s
      · subst hne
        exact .inr hself
      · exact .inl ((congrArg Serve.phase (hother s' hne)).trans hs')
  · cases hstep

theorem Waits.step {σ₀ : State P C S} (h : Waits σ₀ σ s) (hok : Ok N σ)
    (hphase : (σ.serves s).phase = .leaving) (hphase' : (σ'.serves s).phase = .leaving)
    (hstep : RustChannel.step N policy σ l = some σ') : Waits σ₀ σ' s := by
  have hw := hok.waiting_of_leaving hphase
  have hw' := (hok.step hstep).waiting_of_leaving hphase'
  -- whoever is let in is ahead of the server
  have hgrants : ∀ t a, policy.grants σ.lock t a = true → t ≠ .inr s → σ₀.stand t ≠ .away :=
    fun t a hadm hne haway => h.behind t haway (policy.mem_ahead hadm hw hne).1
  have hphases : ∀ s', s' ≠ s → (σ₀.serves s').phase.stand = .away →
      (∀ a, (σ.serves s').phase.stand ≠ .holds a) →
      (σ.serves s').phase.Asks (σ'.serves s').phase := by
    intro s' hne haway hnot
    refine phase_step hok hstep hnot fun hadm => ?_
    exact absurd haway (hgrants _ _ hadm (by simpa using hne))
  constructor
  · intro t haway hmem
    exact h.behind t haway ((lockMoves_of_step hstep).mem_ahead hw hw' hmem)
  · intro c hc
    refine call_step hstep (h.connect c hc) fun hadm => ?_
    exact absurd (by simp [State.stand, hc, Call.stand]) (hgrants _ _ hadm (by simp))
  · intro s' hs'
    have hold := h.serve s' hs'
    have hne : s' ≠ s := by
      rintro rfl
      simp [hphase] at hold
    have hasks := hphases s' hne (by simp [hs', Phase.stand])
      (by obtain hold | hold := hold <;> simp [hold, Phase.stand])
    obtain hold | hold := hold
    · simpa [Phase.Asks, hold] using hasks
    · exact .inr (by simpa [Phase.Asks, hold] using hasks)
  · intro s' hs'
    by_cases hne : s' = s
    · subst hne
      exact .inr hphase'
    have hold := h.remove s' hs'
    have hasks := hphases s' hne (by simp [hs', Phase.stand])
      (by obtain hold | hold := hold <;> simp [hold, Phase.stand])
    obtain hold | hold := hold
    · simpa [Phase.Asks, hold] using hasks
    · exact .inr (by simpa [Phase.Asks, hold] using hasks)

/-- **A server that leaves too early locks up the transport**, where no peer is served by two
calls of `serve`. If a call of `connect` is under way to a server that leaves its loop, neither
of them ever returns, and no call that is made from then on gets past the lock: a new `connect`
neither finds its peer nor fails to, the server of a new `serve` is not entered in the registry,
and no server that is in its loop is ever removed from it. -/
theorem waits_forever (hinj : Function.Injective N.localAddr)
    (hrun : exec (step N policy) {} ls = some σ) (hbound : σ.Bound N c s)
    (hleave : exec (step N policy) σ (.leave s :: ls') = some τ) :
    (∀ a, τ.calls c ≠ .returned a) ∧ (τ.serves s).phase = .leaving ∧
      (∀ c', σ.calls c' = .idle → τ.calls c' = .idle ∨ τ.calls c' = .locking) ∧
      (∀ s', (σ.serves s').phase = .idle →
        (τ.serves s').phase = .idle ∨ (τ.serves s').phase = .registering) ∧
      ∀ s', (σ.serves s').phase = .serving →
        (τ.serves s').phase = .serving ∨ (τ.serves s').phase = .leaving := by
  rw [exec_cons, Option.bind_eq_some_iff] at hleave
  obtain ⟨σ₁, hstep, hrest⟩ := hleave
  have hok := Ok.run hrun
  have hstays : Ok N τ ∧ Doomed N τ c s ∧ Waits σ τ s := by
    refine run_induction (P := fun _ τ => Ok N τ ∧ Doomed N τ c s ∧ Waits σ τ s)
      ⟨hok.step hstep, hok.doomed_of_leave hbound hstep, hok.waits_of_leave hstep⟩ ?_ _ _ hrest
    rintro _ σ₂ l σ₃ - ⟨hok, hdoomed, hwaits⟩ hstep
    have hdoomed' := hdoomed.step hok hinj hstep
    exact ⟨hok.step hstep, hdoomed', hwaits.step hok hdoomed.leaving hdoomed'.leaving hstep⟩
  obtain ⟨-, hdoomed, hwaits⟩ := hstays
  refine ⟨fun a ha => ?_, hdoomed.leaving, hwaits.connect, hwaits.serve, hwaits.remove⟩
  have hbound' := hdoomed.bound
  simp [State.Bound, ha] at hbound'

/-- Node 1 leaves before it has answered node 0; then node 0 wants to serve, and node 1 wants a
connection. -/
theorem waits_forever_pair : ∃ σ τ, exec (step pair .fifo) {} request = some σ ∧
    exec (step pair .fifo) σ [.leave 1, .serve 0, .connect 1] = some τ ∧
    (∀ a, τ.calls 0 ≠ .returned a) ∧ (τ.serves 1).phase = .leaving ∧
    (τ.serves 0).phase = .registering ∧ τ.calls 1 = .locking ∧
    ∀ ls υ, exec (step pair .fifo) σ (.leave 1 :: ls) = some υ →
      ∀ a, υ.calls 0 ≠ .returned a ∧ υ.calls 1 ≠ .returned a := by
  obtain ⟨σ, hrun, hσ⟩ := exists_exec_of_any (step pair .fifo) {} request
    (fun σ => decide (σ.Bound pair 0 1) && decide (σ.calls 1 = .idle) &&
      (exec (step pair .fifo) σ [.leave 1, .serve 0, .connect 1]).any
        fun τ : State (Fin 2) (Fin 2) (Fin 2) =>
          decide ((τ.serves 0).phase = .registering ∧ τ.calls 1 = .locking)) (by decide)
  simp only [Bool.and_eq_true, decide_eq_true_eq, Option.any_eq_true] at hσ
  obtain ⟨⟨hbound, hidle⟩, τ, hleave, hserve, hconnect⟩ := hσ
  have hforever := waits_forever pair_injective hrun hbound hleave
  refine ⟨σ, τ, hrun, hleave, hforever.1, hforever.2.1, hserve, hconnect, fun ls υ hrun' a => ?_⟩
  obtain ⟨hcall, -, hothers, -⟩ := waits_forever pair_injective hrun hbound hrun'
  refine ⟨hcall a, fun ha => ?_⟩
  have hwaits := hothers 1 hidle
  simp [ha] at hwaits

/-! ## Coming to rest -/

section Rest

/-- In a state in which nobody can go on, a call that has the lock is under way to a server
that has left. -/
theorem exists_doomed_of_holds (h : Ok N σ) (hstuck : Stuck N policy σ) {a : Access}
    (hholds : σ.stand (.inl c) = .holds a) : ∃ s, Doomed N σ c s := by
  have hmem : (.inl c, a) ∈ σ.lock.holding := (h.fits.holding _ _).mpr hholds
  have hread : a = .read := by
    change (σ.calls c).stand = _ at hholds
    cases hcall : σ.calls c <;> simp_all [Call.stand]
  subst hread
  have hreading : σ.calls c ≠ .reading := fun hc => by
    simpa [step, hc] using hstuck (.lookup c) rfl
  have hconnected : ∀ s, σ.calls c ≠ .connected s := fun s hc => by
    simpa [step, hc] using hstuck (.finish c) rfl
  obtain ⟨s, hs⟩ : ∃ s, (σ.calls c).server = some s := by
    change (σ.calls c).stand = _ at hholds
    cases hcall : σ.calls c <;> simp_all [Call.stand, Call.server]
  have hopen := h.server c s hs
  have hbound : σ.Bound N c s := by
    unfold State.Bound
    cases hcall : σ.calls c <;> simp_all [Call.server]
  have haccept : (σ.serves s).phase = .serving → (σ.serves s).rx = [] := by
    intro hserving
    have hnone := hstuck (.accept s) rfl
    cases hrx : (σ.serves s).rx with
    | nil => rfl
    | cons c' rest => simp [step, hserving, hrx] at hnone
  have hnotServing : (σ.serves s).phase ≠ .serving := by
    intro hserving
    have hrx := haccept hserving
    have hsend := hstuck (.send c) rfl
    have hnot := h.rx s c
    cases hcall : σ.calls c <;>
      simp_all [Call.server, step, State.send, capacity]
  have hnotRemoving : (σ.serves s).phase ≠ .removing := by
    intro hremoving
    have hwrites : σ.stand (.inr s) = .holds .write := by
      simp [State.stand, hremoving, Phase.stand]
    cases h.fits.eq_of_writes hwrites hholds
  have hleaving : (σ.serves s).phase = .leaving := by
    cases hphase : (σ.serves s).phase <;> simp_all [Phase.isOpen]
  exact ⟨s, hleaving, RwLock.mem_ahead_of_holding (h.waiting_of_leaving hleaving) hmem, hbound⟩

/-- A server that has the lock goes on. -/
theorem not_writes_of_stuck (hstuck : Stuck N policy σ) {a : Access} :
    (σ.serves s).phase.stand ≠ .holds a := by
  intro hholds
  have hinsert := hstuck (.insert s) rfl
  have hremove := hstuck (.remove s) rfl
  cases hphase : (σ.serves s).phase <;> simp_all [Phase.stand, step]

/-- Where nobody has the lock and nobody can go on, nobody waits for it. -/
theorem waiting_eq_nil (h : Ok N σ) (hstuck : Stuck N policy σ) (hfree : σ.lock.holding = []) :
    σ.lock.waiting = [] := by
  by_contra hwait
  obtain ⟨t, a, hadm⟩ := policy.progress hfree hwait
  have hstand := (h.fits.waiting t a).mp (policy.admissible hadm).1
  have hnone := hstuck (.grant t) rfl
  cases t with
  | inl c =>
    change (σ.calls c).stand = _ at hstand
    cases hcall : σ.calls c <;> rw [hcall] at hstand <;> cases hstand
    simp [step, hcall, hadm] at hnone
  | inr s =>
    change (σ.serves s).phase.stand = _ at hstand
    cases hphase : (σ.serves s).phase <;> rw [hphase] at hstand <;> cases hstand <;>
      simp [step, hphase, hadm] at hnone

/-- **Nothing else stops the transport**: where nobody can go on and no call is under way to a
server that has left, nobody waits for anything. -/
theorem atRest_of_stuck (h : Ok N σ) (hstuck : Stuck N policy σ)
    (hnone : ∀ c s, ¬ Doomed N σ c s) : AtRest σ := by
  have hfree : σ.lock.holding = [] := by
    refine h.fits.free fun t a hholds => ?_
    cases t with
    | inl c =>
      obtain ⟨s, hdoomed⟩ := exists_doomed_of_holds h hstuck hholds
      exact hnone c s hdoomed
    | inr s => exact not_writes_of_stuck hstuck hholds
  have hwaiting := waiting_eq_nil h hstuck hfree
  have haway : ∀ t, σ.stand t = .away := by
    intro t
    cases hstand : σ.stand t with
    | away => rfl
    | waits a =>
      have hmem := (h.fits.waiting t a).mpr hstand
      rw [hwaiting] at hmem
      cases hmem
    | holds a =>
      have hmem := (h.fits.holding t a).mpr hstand
      rw [hfree] at hmem
      cases hmem
  constructor
  · intro c
    have hc : (σ.calls c).stand = .away := haway (.inl c)
    cases hcall : σ.calls c with
    | idle | returned _ => trivial
    | locking | reading | sending _ | awaiting _ | connected _ =>
      rw [hcall] at hc
      cases hc
  · intro s
    have hs : (σ.serves s).phase.stand = .away := haway (.inr s)
    unfold Serve.Rests
    cases hphase : (σ.serves s).phase with
    | idle | returned _ => trivial
    | serving =>
      show (σ.serves s).rx = []
      cases hrx : (σ.serves s).rx with
      | nil => rfl
      | cons c rest => simpa [step, hphase, hrx] using hstuck (.accept s) rfl
    | registering | inserting | leaving | removing =>
      rw [hphase] at hs
      cases hs

/-! ## Servers that leave when no call is under way to them -/

/-- A call is on its way to a leaving server because it was before. -/
theorem State.Bound.back (hbound : σ'.Bound N c s) (h : Ok N σ)
    (hphase : (σ.serves s).phase ≠ .inserting) (hmem : .inl c ∈ σ.lock.tasks)
    (hstep : RustChannel.step N policy σ l = some σ') : σ.Bound N c s := by
  have hsame : ∀ {c' : C} {call : Call S} {lock : RwLock (C ⊕ S)} {serves : S → Serve C},
      State.Bound N { σ.setCall c' call with lock := lock, serves := serves } c s →
      (c' = c → State.Bound N { σ.setCall c call with lock := lock, serves := serves } c s →
        σ.Bound N c s) → σ.Bound N c s := by
    intro c' call lock serves hbound hself
    by_cases hc : c' = c
    · subst hc
      exact hself rfl hbound
    · exact hbound.congr (Function.update_of_ne (Ne.symm hc) _ _).symm id
  cases moves_of_step hstep with
  | @connects c' hcall =>
    refine hsame hbound fun hc _ => ?_
    subst hc
    have haway : σ.stand (.inl c') = .away := by simp [State.stand, hcall, Call.stand]
    exact absurd hmem (h.fits.notMem_tasks haway)
  | serves _ | leaves _ | enters _ _ | exits _ _ | refuses _ _ _ => exact hbound
  | @reads c' hcall =>
    refine hsame hbound fun hc hself => ?_
    subst hc
    simpa [State.Bound, hcall, State.setCall] using hself
  | @finds c' s' hcall hs' =>
    refine hsame hbound fun hc hself => ?_
    subst hc
    obtain rfl : s' = s := by simpa [State.Bound, State.setCall] using hself
    simpa [State.Bound, hcall] using hs'
  | misses _ _ | accepts _ _ _ | finishes _ | closes _ _ =>
    refine hsame hbound fun hc hself => ?_
    simp [State.Bound, State.setCall] at hself
  | @sends c' s' hcall _ =>
    refine hsame hbound fun hc hself => ?_
    subst hc
    simpa [State.Bound, hcall, State.setCall] using hself
  | @inserts s' hinserting =>
    refine hbound.congr rfl fun hs => ?_
    have hnew : Function.update σ.registry (N.localAddr s') (some s') (N.addr c) = some s := hs
    by_cases hp : N.addr c = N.localAddr s'
    · rw [hp, Function.update_self] at hnew
      obtain rfl := Option.some.inj hnew
      exact absurd hinserting hphase
    · rwa [Function.update_of_ne hp] at hnew
  | @removes s' _ =>
    refine hbound.congr rfl fun hs => ?_
    have hnew : Function.update σ.registry (N.localAddr s') none (N.addr c) = some s := hs
    by_cases hp : N.addr c = N.localAddr s'
    · rw [hp, Function.update_self] at hnew
      cases hnew
    · rwa [Function.update_of_ne hp] at hnew

/-- A server is leaving because it was, or because it leaves. -/
theorem leaving_of_step (hstep : step N policy σ l = some σ')
    (hphase : (σ'.serves s).phase = .leaving) :
    (σ.serves s).phase = .leaving ∨ l = .leave s := by
  have hsame : ∀ {s' : S} {serve : Serve C},
      ((σ.setServe s' serve).serves s).phase = .leaving →
      (s' = s → serve.phase = .leaving → (σ.serves s).phase = .leaving ∨ l = .leave s) →
      (σ.serves s).phase = .leaving ∨ l = .leave s := by
    intro s' serve hleaving hself
    by_cases hs : s' = s
    · subst hs
      exact hself rfl (by simpa [State.setServe] using hleaving)
    · exact .inl (by simpa [State.setServe, Ne.symm hs] using hleaving)
  cases moves_of_step hstep with
  | connects _ | reads _ _ | finds _ _ | misses _ _ | finishes _ | closes _ _ => exact .inl hphase
  | leaves _ => exact hsame hphase fun hs _ => .inr (congrArg _ hs)
  | serves _ | enters _ _ | exits _ _ | inserts _ | refuses _ _ _ | removes _ =>
    exact hsame hphase fun _ hleaving => by cases hleaving
  | sends _ _ | accepts _ _ _ =>
    refine hsame hphase fun hs hleaving => ?_
    subst hs
    exact .inl hleaving

/-- A call gets into this situation only when its server leaves. -/
theorem Doomed.back (h : Doomed N σ' c s) (hok : Ok N σ)
    (hstep : RustChannel.step N policy σ l = some σ')
    (hcalm : l = .leave s → ¬ σ.Bound N c s) : Doomed N σ c s := by
  have hok' := hok.step hstep
  obtain hleaving | rfl := leaving_of_step hstep h.leaving
  · have hahead := (lockMoves_of_step hstep).mem_ahead (hok.waiting_of_leaving hleaving)
      (hok'.waiting_of_leaving h.leaving) h.ahead
    refine ⟨hleaving, hahead, ?_⟩
    exact h.bound.back hok (by simp [hleaving]) (RwLock.mem_tasks_of_mem_ahead hahead) hstep
  · refine absurd ?_ (hcalm rfl)
    simp only [RustChannel.step] at hstep
    split at hstep
    · obtain rfl := Option.some.inj hstep
      exact h.bound
    · cases hstep

/-- No server leaves while a call is under way to it. -/
def Calm (N : Calls P C S) (_ : List (Label C S)) (σ : State P C S) (l : Label C S) : Prop :=
  ∀ s, l = .leave s → ∀ c, ¬ σ.Bound N c s

instance [Fintype C] [Fintype S] (N : Calls P C S) (ls : List (Label C S)) (σ : State P C S)
    (l : Label C S) : Decidable (Calm N ls σ l) :=
  inferInstanceAs (Decidable (∀ s, l = .leave s → ∀ c, ¬ σ.Bound N c s))

theorem not_doomed_of_calm (hrun : exec (step N policy) {} ls = some σ)
    (hcalm : Meets (step N policy) {} (Calm N) ls) : ¬ Doomed N σ c s := by
  refine run_induction (P := fun ls (σ : State P C S) =>
    Meets (step N policy) {} (Calm N) ls → ¬ Doomed N σ c s) ?_ ?_ ls σ hrun hcalm
  · rintro - hdoomed
    cases hdoomed.leaving
  · intro ls σ l σ' hrun ih hstep hcalm hdoomed
    refine ih hcalm.prefix (hdoomed.back (Ok.run hrun) hstep fun hl => ?_)
    exact hcalm.last hrun s hl c

/-- **The transport comes to rest, or locks up, and which of the two was decided when the
servers left**: where nobody can go on, nobody waits for anything if and only if no server has
left while a call was under way to it. -/
theorem atRest_iff_calm (hinj : Function.Injective N.localAddr)
    (hrun : exec (step N policy) {} ls = some σ) (hstuck : Stuck N policy σ) :
    AtRest σ ↔ Meets (step N policy) {} (Calm N) ls := by
  constructor
  · rintro hrest ls₁ l ls₂ σ₁ rfl hrun₁ s rfl c hbound
    obtain ⟨σ₁', hrun₁', hrun₂⟩ := exec_prefix hrun
    obtain rfl := Option.some.inj (hrun₁.symm.trans hrun₁')
    have hleaving := (waits_forever hinj hrun₁ hbound hrun₂).2.1
    have hrests := hrest.serves s
    simp [Serve.Rests, hleaving] at hrests
  · intro hcalm
    exact atRest_of_stuck (Ok.run hrun) hstuck fun c s => not_doomed_of_calm hrun hcalm

end Rest

/-! ## How long that takes -/

section Weight

/-- How many steps a call of `connect` has before it. -/
def Call.weight : Call S → Nat
  | .locking => 5
  | .reading => 4
  | .sending _ => 3
  | .awaiting _ => 2
  | .connected _ => 1
  | .idle | .returned _ => 0

/-- How many steps a call of `serve` has before it. -/
def Phase.weight : Phase → Nat
  | .registering | .leaving => 2
  | .inserting | .removing => 1
  | .idle | .serving | .returned _ => 0

variable [Fintype C] [Fintype S]

def State.weight (σ : State P C S) : Nat :=
  ∑ c, (σ.calls c).weight + ∑ s, (σ.serves s).phase.weight

omit [DecidableEq P] [DecidableEq S] in
theorem State.weight_lt_of_call {call : Call S} (hcalls : σ'.calls = (σ.setCall c call).calls)
    (hserves : ∀ s, (σ'.serves s).phase = (σ.serves s).phase)
    (h : call.weight < (σ.calls c).weight) : σ'.weight < σ.weight := by
  have hphases : ∑ s, (σ'.serves s).phase.weight = ∑ s, (σ.serves s).phase.weight :=
    Finset.sum_congr rfl fun s _ => congrArg _ (hserves s)
  rw [State.weight, State.weight, hphases, hcalls]
  refine Nat.add_lt_add_right (Finset.sum_lt_sum (fun c' _ => ?_) ⟨c, Finset.mem_univ c, ?_⟩) _
  · by_cases hc : c' = c
    · subst hc
      simpa [State.setCall] using h.le
    · simp [State.setCall, hc]
  · simpa [State.setCall] using h

omit [DecidableEq P] [DecidableEq C] in
theorem State.weight_lt_of_serve {serve : Serve C} (hcalls : σ'.calls = σ.calls)
    (hserves : σ'.serves = (σ.setServe s serve).serves)
    (h : serve.phase.weight < (σ.serves s).phase.weight) : σ'.weight < σ.weight := by
  rw [State.weight, State.weight, hcalls, hserves]
  refine Nat.add_lt_add_left (Finset.sum_lt_sum (fun s' _ => ?_) ⟨s, Finset.mem_univ s, ?_⟩) _
  · by_cases hs : s' = s
    · subst hs
      simpa [State.setServe] using h.le
    · simp [State.setServe, hs]
  · simpa [State.setServe] using h

/-- Every step that the calls take by themselves is one less. -/
theorem weight_step_lt (h : Ok N σ) (hinternal : l.internal = true)
    (hstep : step N policy σ l = some σ') : σ'.weight < σ.weight := by
  cases moves_of_step hstep with
  | connects _ | serves _ | leaves _ => cases hinternal
  | reads hcall _ | finds hcall _ | misses hcall _ | finishes hcall =>
    exact State.weight_lt_of_call rfl (fun _ => rfl) (by simp [hcall, Call.weight])
  | enters hphase _ | exits hphase _ | inserts hphase | removes hphase =>
    exact State.weight_lt_of_serve rfl rfl (by simp [hphase, Phase.weight])
  | @sends _ s hcall _ | @accepts _ s _ _ _ hcall =>
    refine State.weight_lt_of_call rfl (fun s' => ?_) (by simp [hcall, Call.weight])
    by_cases hs : s' = s
    · subst hs
      simp [State.setServe]
    · simp [State.setServe, State.setCall, hs]
  | @refuses c s rest hserving hrx hcall =>
    refine absurd ((h.rx s c).mp ?_) hcall
    rw [hrx]
    exact List.mem_cons_self
  | closes hserver hreturned =>
    have hopen := h.server _ _ hserver
    rw [hreturned] at hopen
    cases hopen

theorem length_add_weight_le (h : Ok N σ) (hinternal : ∀ l ∈ ls', l.internal = true)
    (hrun : exec (step N policy) σ ls' = some τ) : ls'.length + τ.weight ≤ σ.weight := by
  induction ls' generalizing σ with
  | nil =>
    obtain rfl : σ = τ := Option.some.inj hrun
    simp
  | cons l ls' ih =>
    rw [exec_cons, Option.bind_eq_some_iff] at hrun
    obtain ⟨σ', hstep, hrun⟩ := hrun
    have hlt := weight_step_lt h (hinternal l List.mem_cons_self) hstep
    have hrest := ih (h.step hstep) (fun l' hl' => hinternal l' (List.mem_cons_of_mem l hl')) hrun
    rw [List.length_cons]
    omega

omit [DecidableEq P] [DecidableEq C] [DecidableEq S] in
theorem State.weight_le (σ : State P C S) :
    σ.weight ≤ 5 * Fintype.card C + 2 * Fintype.card S := by
  have hcalls : ∑ c, (σ.calls c).weight ≤ Fintype.card C * 5 := by
    refine Finset.sum_le_card_nsmul Finset.univ _ 5 fun c _ => ?_
    cases σ.calls c <;> simp [Call.weight]
  have hserves : ∑ s, (σ.serves s).phase.weight ≤ Fintype.card S * 2 := by
    refine Finset.sum_le_card_nsmul Finset.univ _ 2 fun s _ => ?_
    cases (σ.serves s).phase <;> simp [Phase.weight]
  unfold State.weight
  omega

/-- **Without new calls the transport stops after a number of steps**, if no other server leaves
and no peer is served by two calls: at most five for every call of `connect` and two for every
call of `serve`, whatever the order. It stops at rest if and only if no server has left while a
call was under way to it. -/
theorem comes_to_rest (hinj : Function.Injective N.localAddr)
    (hrun : exec (step N policy) {} ls = some σ) (hinternal : ∀ l ∈ ls', l.internal = true)
    (hrun' : exec (step N policy) σ ls' = some τ) :
    ls'.length ≤ 5 * Fintype.card C + 2 * Fintype.card S ∧
      (Stuck N policy τ → (AtRest τ ↔ Meets (step N policy) {} (Calm N) ls)) := by
  have hbound := length_add_weight_le (Ok.run hrun) hinternal hrun'
  have hweight := σ.weight_le
  refine ⟨by omega, fun hstuck => ?_⟩
  have hall : exec (step N policy) {} (ls ++ ls') = some τ := by
    rw [exec_append, hrun]
    exact hrun'
  rw [atRest_iff_calm hinj hall hstuck]
  constructor
  · exact Meets.prefix
  · intro hcalm ls₁ l ls₂ σ₁ heq hrun₁ s hl c
    rcases List.append_eq_append_iff.mp heq with ⟨mid, -, hmid⟩ | ⟨mid, hls, hmid⟩
    · -- no server leaves in the second part
      have hl' := hinternal l (by rw [hmid]; simp)
      rw [hl] at hl'
      cases hl'
    · cases mid with
      | nil =>
        have hl' := hinternal l (by rw [← List.nil_append ls', ← hmid]; simp)
        rw [hl] at hl'
        cases hl'
      | cons l' mid =>
        obtain ⟨rfl, rfl⟩ := List.cons.inj hmid
        exact hcalm ls₁ l mid σ₁ hls hrun₁ s hl c

/-- Node 0 leaves when nobody wants a connection to it, node 1 stays. -/
theorem comes_to_rest_pair : ∃ σ τ,
    exec (step pair .fifo) {} ([.serve 0, .grant (.inr 0), .insert 0] ++ request ++ [.leave 0]) =
      some σ ∧
    exec (step pair .fifo) σ [.accept 1, .finish 0, .grant (.inr 0), .remove 0] = some τ ∧
    AtRest τ := by
  obtain ⟨σ, hrun, hσ⟩ := exists_exec_of_any (step pair .fifo) {}
    ([.serve 0, .grant (.inr 0), .insert 0] ++ request ++ [.leave 0])
    (fun σ => (exec (step pair .fifo) σ [.accept 1, .finish 0, .grant (.inr 0), .remove 0]).any
      fun τ => decide (∀ l : Label (Fin 2) (Fin 2), l.internal = true →
        (step pair .fifo τ l).isNone = true)) (by decide)
  obtain ⟨τ, hrun', hτ⟩ := (Option.any_eq_true _ _).mp hσ
  have hstuck : Stuck pair .fifo τ := fun l hl =>
    Option.isNone_iff_eq_none.mp (of_decide_eq_true hτ l hl)
  have hrest := comes_to_rest pair_injective hrun (by decide) hrun'
  exact ⟨σ, τ, hrun, hrun', (hrest.2 hstuck).mpr (meets_of_meetsFrom (by decide))⟩

end Weight

end DistBench.RustChannel
