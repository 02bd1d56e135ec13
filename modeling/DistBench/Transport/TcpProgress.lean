import DistBench.Transport.TcpPairing

/-!
# How the calls of one TCP connection come to their end

A call has to wait for the lock, for the bytes that are on their way and for the server. None of
them waits forever: every step uses up something that a call has brought with it, or a byte of
a response, and as long as the server has not closed the connection some step is left until
every call is through.

- `State.weight`, `weight_step`: what is still to be done for the calls that have been made.
- `Bounded`: a run has no more steps than its calls and the responses account for.
- `Inv.complete`: where no step is left, every call is through.
- `paired_of_run`: the pairing, the bound, and what is left at the end.
-/

namespace DistBench.Tcp

/-! ## What a call costs -/

/-- The steps of a call and of the server that handles it, and for every byte of its frame one
to arrive and one to be read. -/
def Call.cost (call : Call) : Nat :=
  3 + 2 * (call.frame.getD []).length

/-- A step that the connection takes for the calls it has. -/
def Label.forCalls : Label → Bool
  | .call _ | .stop | .arriveResponses _ => false
  | _ => true

/-- A chunk of a response arrives. -/
def Label.forResponses : Label → Bool
  | .arriveResponses _ => true
  | _ => false

def Label.cost : Label → Nat
  | .call made => made.cost
  | _ => 0

/-- The bytes that answer a call. -/
def Label.responseBytes : Label → Nat
  | .respond response => ((responseFrame response).getD []).length
  | _ => 0

/-- The steps of a run: no more than its calls cost, two bytes of the client's id included, and
no more chunks of responses than these have bytes. -/
structure Bounded (ls : List Label) : Prop where
  calls : ls.countP Label.forCalls ≤ 4 + (ls.map Label.cost).sum
  responses : ls.countP Label.forResponses ≤ (ls.map Label.responseBytes).sum

/-! ## What is still to be done -/

namespace State

/-- The call has not had the lock and has not ended. -/
def Waiting (s : State) (k : Nat) : Prop :=
  s.results k = none ∧ s.lock.map Holder.call ≠ some k

instance (s : State) (k : Nat) : Decidable (s.Waiting k) :=
  inferInstanceAs (Decidable (_ ∧ _))

def due (s : State) (k : Nat) : Nat :=
  if s.Waiting k then s.calls[k]?.elim 0 Call.cost else 0

end State

/-- The steps that are left to the call that holds the lock. -/
def lockWeight : Option Holder → Nat
  | none => 0
  | some ⟨_, false⟩ => 2
  | some ⟨_, true⟩ => 1

def ServerPhase.weight : ServerPhase → Nat
  | .handling _ _ => 1
  | _ => 0

def State.callsWeight (s : State) : Nat :=
  ∑ k ∈ Finset.range s.calls.length, s.due k

def State.weight (s : State) : Nat :=
  s.callsWeight + lockWeight s.lock +
    (2 * s.requests.flight.length + s.requests.arrived.length) + s.server.weight

section

variable {id : UInt16} {s s' : State} {l : Label} {k : Nat}

@[simp] theorem weight_loop (src : Nat) : (s.loop src).weight = 0 := by
  unfold State.loop
  split <;> rfl

/-- A call that has not been waiting does not begin to wait. -/
theorem due_le (hcalls : s'.calls = s.calls) (hwaiting : s'.Waiting k → s.Waiting k) :
    s'.due k ≤ s.due k := by
  unfold State.due
  rw [hcalls]
  by_cases hk : s'.Waiting k
  · rw [if_pos hk, if_pos (hwaiting hk)]
  · rw [if_neg hk]
    exact Nat.zero_le _

theorem callsWeight_le (s s' : State) (hcalls : s'.calls = s.calls)
    (hwaiting : ∀ k, s'.Waiting k → s.Waiting k) : s'.callsWeight ≤ s.callsWeight := by
  unfold State.callsWeight
  rw [hcalls]
  exact Finset.sum_le_sum fun k _ => due_le hcalls (hwaiting k)

/-- A call that stops waiting has been counted. -/
theorem callsWeight_add_cost_le (s s' : State) (hcalls : s'.calls = s.calls)
    (hwaiting : ∀ j, s'.Waiting j → s.Waiting j ∧ j ≠ k) (hk : s.Waiting k) {call : Call}
    (hcall : s.calls[k]? = some call) : s'.callsWeight + call.cost ≤ s.callsWeight := by
  have hmem : k ∈ Finset.range s.calls.length :=
    Finset.mem_range.mpr (List.getElem?_eq_some_iff.1 hcall).1
  have hdue : s.due k = call.cost := by simp [State.due, hk, hcall]
  have hdue' : s'.due k = 0 := if_neg fun h => (hwaiting k h).2 rfl
  unfold State.callsWeight
  rw [hcalls, ← Finset.sum_erase_add _ _ hmem, ← Finset.sum_erase_add _ _ hmem, hdue, hdue',
    Nat.add_zero]
  refine Nat.add_le_add_right (Finset.sum_le_sum fun j _ => ?_) _
  exact due_le hcalls fun h => (hwaiting j h).1

theorem waiting_finish {result : Result} {j : Nat} (hlock : ∀ g, s.lock = some g → g.call = k)
    (h : (s.finish k result).Waiting j) : s.Waiting j ∧ j ≠ k := by
  obtain ⟨hresult, -⟩ := h
  have hjk : j ≠ k := by
    rintro rfl
    simp [State.finish] at hresult
  refine ⟨⟨by simpa [State.finish, hjk] using hresult, fun hmap => ?_⟩, hjk⟩
  obtain ⟨g, hg, hcall⟩ := Option.map_eq_some_iff.1 hmap
  exact hjk (hcall.symm.trans (hlock g hg))

/-! ## What a step does to it -/

theorem weight_call (call : Call) :
    State.weight { s with calls := s.calls ++ [call] } ≤ s.weight + call.cost := by
  have hold : ∑ k ∈ Finset.range s.calls.length,
      State.due { s with calls := s.calls ++ [call] } k = s.callsWeight := by
    refine Finset.sum_congr rfl fun k hk => ?_
    unfold State.due
    rw [List.getElem?_append_left (Finset.mem_range.mp hk)]
    rfl
  have hnew : State.due { s with calls := s.calls ++ [call] } s.calls.length ≤ call.cost := by
    unfold State.due
    split
    · simp
    · exact Nat.zero_le _
  have hcalls : State.callsWeight { s with calls := s.calls ++ [call] } ≤
      s.callsWeight + call.cost := by
    simp only [State.callsWeight, List.length_append, List.length_singleton,
      Finset.sum_range_succ] at hold ⊢
    omega
  simp only [State.weight]
  omega

/-- The call that takes the lock pays for its own steps and for its frame. -/
theorem weight_acquire (hs : s.acquire k = some s') : 1 + s'.weight ≤ s.weight := by
  unfold State.acquire at hs
  split at hs
  · next call hlock hcall hresult =>
    have hk : s.Waiting k := ⟨hresult, by simp [hlock]⟩
    have hfinish (result : Result) : 1 + (s.finish k result).weight ≤ s.weight := by
      have hcalls := callsWeight_add_cost_le s (s.finish k result) rfl
        (fun j => waiting_finish (by simp [hlock])) hk hcall
      simp only [State.weight, State.finish, lockWeight, hlock, Call.cost] at hcalls ⊢
      omega
    split_ifs at hs with hclosed
    · cases hs
      exact hfinish _
    · split at hs
      · next bytes hframe =>
        have hs := Option.some.inj hs
        have hwaiting : ∀ j, s'.Waiting j → s.Waiting j ∧ j ≠ k := by
          rw [← hs]
          rintro j ⟨hresult, hother⟩
          exact ⟨⟨hresult, by simp [hlock]⟩, fun hjk => hother (by rw [hjk]; rfl)⟩
        have hcalls := callsWeight_add_cost_le s s' (by rw [← hs]) hwaiting hk hcall
        rw [← hs] at hcalls ⊢
        simp only [State.weight, lockWeight, hlock, Call.cost, hframe, Option.getD_some, Pipe.write,
          List.length_append] at hcalls ⊢
        omega
      · cases hs
        exact hfinish _
  · cases hs

/-- The call that holds the lock ends. -/
theorem weight_finish {g : Holder} (hlock : s.lock = some g) (result : Result) :
    1 + (s.finish g.call result).weight ≤ s.weight := by
  have hcalls := callsWeight_le s (s.finish g.call result) rfl fun j hj =>
    (waiting_finish (fun g' hg' => by rw [hlock] at hg'; cases hg'; rfl) hj).1
  obtain ⟨k, drained⟩ := g
  cases drained <;>
    simp only [State.weight, State.finish, hlock, lockWeight] at hcalls ⊢ <;>
    omega

theorem weight_drain (hs : s.drain = some s') : 1 + s'.weight ≤ s.weight := by
  unfold State.drain at hs
  split at hs
  · next k hlock =>
    split at hs
    · cases hs
      have hcalls := callsWeight_le s { s with lock := some ⟨k, true⟩ } rfl
        fun j hj => ⟨hj.1, by simpa [hlock] using hj.2⟩
      simp only [State.weight, lockWeight, hlock] at hcalls ⊢
      omega
    · cases hs
      exact weight_finish hlock _
    · cases hs
  · cases hs

theorem weight_readResponse (hs : s.readResponse = some s') : 1 + s'.weight ≤ s.weight := by
  unfold State.readResponse at hs
  split at hs
  · next k hlock =>
    split at hs
    · cases hs
      exact weight_finish hlock _
    · cases hs
  · cases hs

theorem weight_fail (hs : s.fail = some s') : 1 + s'.weight ≤ s.weight := by
  unfold State.fail at hs
  split at hs
  · next k drained _ hlock =>
    split_ifs at hs
    cases hs
    exact weight_finish hlock _
  · cases hs

theorem weight_arriveRequests {n : Nat} (hn : 0 < n) (hle : n ≤ s.requests.flight.length) :
    1 + State.weight { s with requests := s.requests.arrive n } ≤ s.weight := by
  have hcalls : State.callsWeight { s with requests := s.requests.arrive n } = s.callsWeight := rfl
  simp only [State.weight, hcalls]
  simp only [Pipe.arrive, List.length_append, List.length_take, List.length_drop]
  omega

theorem weight_handshake (hs : s.handshake = some s') : 1 + s'.weight ≤ s.weight := by
  unfold State.handshake at hs
  split at hs
  · next src rest _ hread =>
    have hs := Option.some.inj hs
    have hcalls : s'.callsWeight = s.callsWeight := by rw [← hs]; rfl
    have htakes := Reader.Takes.readBE 2 hread
    rw [← hs] at hcalls ⊢
    simp only [State.weight, weight_loop, hcalls]
    omega
  · cases hs

theorem takes_readRequest : readRequest.Takes 4 :=
  (Reader.Takes.readBE 4).bind fun _ =>
    (Reader.Takes.ite (Reader.Takes.readBE 4).zero (.pure _)).bind fun _ =>
      (Reader.Takes.readExact _).zero.bind fun _ => .pure _

theorem weight_receive (hs : s.receive = some s') : 1 + s'.weight ≤ s.weight := by
  unfold State.receive at hs
  split at hs
  · next src call rest _ hread =>
    have hs := Option.some.inj hs
    have hcalls : s'.callsWeight = s.callsWeight := by rw [← hs]; rfl
    have htakes := takes_readRequest hread
    rw [← hs] at hcalls ⊢
    simp only [State.weight, ServerPhase.weight, hcalls]
    omega
  · cases hs

/-- The server has done with a call. -/
theorem weight_handled {src : Nat} {call : Call} (hserver : s.server = .handling src call)
    (hcalls : s'.callsWeight = s.callsWeight) (hlock : s'.lock = s.lock)
    (hrequests : s'.requests = s.requests) (hdone : s'.server.weight = 0) :
    1 + s'.weight ≤ s.weight := by
  have hhandling : s.server.weight = 1 := by rw [hserver]; rfl
  simp only [State.weight, hcalls, hlock, hrequests, hdone, hhandling]
  omega

theorem weight_respond {response : Option Bytes} (hs : s.respond response = some s') :
    1 + s'.weight ≤ s.weight := by
  unfold State.respond at hs
  split at hs
  · next src call hserver =>
    dsimp only at hs
    split at hs <;> cases hs
    · exact weight_handled hserver rfl rfl rfl (weight_loop _)
    · exact weight_handled hserver rfl rfl rfl (weight_loop _)
    · exact weight_handled hserver rfl rfl rfl rfl
  · cases hs

theorem weight_raise (hs : Tcp.step s .raise = some s') : 1 + s'.weight ≤ s.weight := by
  simp only [Tcp.step] at hs
  split at hs
  · next hserver =>
    cases hs
    exact weight_handled hserver rfl rfl rfl rfl
  · cases hs

/-- A step for the calls takes something from the weight, and a call brings its cost. -/
theorem weight_step (hs : step s l = some s') :
    (if l.forCalls then 1 else 0) + s'.weight ≤ s.weight + l.cost := by
  cases l with
  | call call =>
    cases hs
    simpa [Label.forCalls, Label.cost] using weight_call call
  | acquire k => exact weight_acquire hs
  | drain => exact weight_drain hs
  | readResponse => exact weight_readResponse hs
  | fail => exact weight_fail hs
  | arriveRequests n =>
    simp only [Tcp.step] at hs
    split_ifs at hs with hn
    cases hs
    exact weight_arriveRequests hn.1 hn.2
  | arriveResponses n =>
    simp only [Tcp.step] at hs
    split_ifs at hs
    cases hs
    exact (Nat.zero_add _).le
  | handshake => exact weight_handshake hs
  | receive => exact weight_receive hs
  | respond response => exact weight_respond hs
  | raise => exact weight_raise hs
  | stop =>
    cases hs
    exact (Nat.zero_add _).le

/-- A chunk of a response is taken from the bytes on their way. -/
theorem responses_step (hs : step s l = some s') :
    (if l.forResponses then 1 else 0) + s'.responses.flight.length ≤
      s.responses.flight.length + l.responseBytes := by
  cases l with
  | call call | stop =>
    cases hs
    exact (Nat.zero_add _).le
  | arriveResponses n =>
    simp only [Tcp.step] at hs
    split_ifs at hs with hn
    cases hs
    simp only [Label.forResponses, if_true, Label.responseBytes, Pipe.arrive, List.length_drop]
    omega
  | respond response =>
    simp only [Tcp.step, State.respond] at hs
    split at hs
    · split at hs <;> cases hs
      · simp [Label.forResponses]
      · next hframe => simp [Label.forResponses, Label.responseBytes, hframe, Pipe.write]
      · simp [Label.forResponses]
    · cases hs
  | acquire k | drain | readResponse | fail | arriveRequests n | handshake | receive | raise =>
    simp only [Tcp.step, State.acquire, State.drain, State.readResponse, State.fail,
      State.handshake, State.receive, State.finish] at hs
    repeat' split at hs
    all_goals
      cases hs <;> exact (Nat.zero_add _).le

theorem bounded_of_run {ls : List Label} (hs : exec step (initial id) ls = some s) :
    Bounded ls := by
  have hcalls : ls.countP Label.forCalls + s.weight ≤
      (initial id).weight + (ls.map Label.cost).sum :=
    countP_add_measure_le (fun _ _ _ hl => weight_step hl) ls s hs
  have hresponses : ls.countP Label.forResponses + s.responses.flight.length ≤
      (initial id).responses.flight.length + (ls.map Label.responseBytes).sum :=
    countP_add_measure_le (fun _ _ _ hl => responses_step hl) ls s hs
  have hstart : (initial id).weight = 4 := by
    simp [initial, State.weight, State.callsWeight, lockWeight, ServerPhase.weight]
  have hempty : (initial id).responses.flight.length = 0 := rfl
  exact ⟨by omega, by omega⟩

/-! ## At the end -/

/-- When no step is left and the connection has not failed, every call is through. -/
theorem Inv.complete (h : Inv id s) (hq : Quiescent s) (hserver : s.server ≠ .closed) :
    Complete id s := by
  have hl := h.live hserver
  obtain ⟨todo, htodo, hhandled, hstream⟩ := hl.stream
  -- every byte has arrived
  have hrequests : s.requests.flight = [] := by
    have hnone := hq (.arriveRequests s.requests.flight.length) (by simp) (by simp)
    simp only [Tcp.step] at hnone
    split_ifs at hnone with hif
    exact List.length_eq_zero_iff.1 (by omega)
  have hresponses : s.responses.flight = [] := by
    have hnone := hq (.arriveResponses s.responses.flight.length) (by simp) (by simp)
    simp only [Tcp.step] at hnone
    split_ifs at hnone with hif
    exact List.length_eq_zero_iff.1 (by omega)
  rw [Pipe.bytes, hrequests, List.append_nil] at hstream
  -- the server waits for a message, and there is none
  have hreading : ∃ src, s.server = .reading src := by
    cases hphase : s.server with
    | handshake =>
      have hnone := hq .handshake (by simp) (by simp)
      have hid : id.toNat < 256 ^ 2 := id.toNat_lt
      have hread := Reads.readBE hid (requestFraming.stream todo)
      rw [State.prelude, if_pos hphase] at hstream
      rw [← hstream] at hread
      simp [Tcp.step, State.handshake, hphase, hread] at hnone
    | reading src => exact ⟨src, rfl⟩
    | handling src call =>
      have hnone := hq (.respond none) (by simp) (by simp)
      simp only [Tcp.step, State.respond, hphase] at hnone
      split at hnone <;> cases hnone
    | closed => exact absurd hphase hserver
  obtain ⟨src, hphase⟩ := hreading
  rw [State.prelude, if_neg (by rw [hphase]; simp), List.nil_append] at hstream
  obtain rfl : todo = [] := by
    cases todo with
    | nil => rfl
    | cons call todo =>
      have hnone := hq .receive (by simp) (by simp)
      have hread := requestFraming.reads_write call (htodo call (by simp))
        (requestFraming.stream todo)
      rw [Framing.stream_cons] at hstream
      rw [← hstream] at hread
      have hread' : readRequest s.requests.arrived = some (call, requestFraming.stream todo) :=
        hread
      simp [Tcp.step, State.receive, hphase, hread'] at hnone
  rw [List.map_nil, List.append_nil] at hhandled
  have hreturned : s.returned.length = s.order.length := by
    have hlive := hl.server
    rw [hphase] at hlive
    rw [hlive.2, ← hhandled, List.length_map]
  -- no call holds the lock
  have hlock : s.lock = none := by
    cases hg : s.lock with
    | none => rfl
    | some g =>
      obtain ⟨before, call, horder, hdrained⟩ := h.lock g hg
      obtain ⟨k, drained⟩ := g
      have hcall := h.paired.called (k, call) (by simp [horder])
      cases drained with
      | false =>
        have hnone := hq .drain (by simp) (by simp)
        obtain ⟨kind, msg⟩ := call
        cases kind <;> simp [Tcp.step, State.drain, hg, hcall] at hnone
      | true =>
        have hnone := hq .readResponse (by simp) (by simp)
        obtain ⟨_, _, _, r, -, -, -, -, hvalid, hbytes⟩ :=
          hl.answered before _ call hg horder (hdrained rfl) hreturned
        rw [Pipe.bytes, hresponses, List.append_nil] at hbytes
        have hread := responseFraming.reads_write _ hvalid []
        rw [List.append_nil, ← hbytes] at hread
        have hread' : Tcp.readResponse s.responses.arrived = some (r.getD [], []) := hread
        simp [Tcp.step, State.readResponse, hg, hread'] at hnone
  have hcalled : ∀ k call, s.calls[k]? = some call → (k, call) ∈ s.order := by
    intro k call hcall
    by_contra hnot
    have hk : k ∉ s.order.map Prod.fst := by
      intro hmem
      obtain ⟨⟨j, c⟩, hj, rfl⟩ := List.mem_map.1 hmem
      have hc := h.paired.called _ hj
      rw [hcall] at hc
      cases hc
      exact hnot hj
    have hnone := hq (.acquire k) (by simp) (by simp)
    simp only [Tcp.step, State.acquire, hlock, hcall, hl.waiting k hk, hl.opened] at hnone
    cases hframe : call.frame <;> simp [hframe] at hnone
  have hdone : ∀ k call, s.calls[k]? = some call → ∃ i, s.Done i k call := by
    intro k call hcall
    obtain ⟨i, hi⟩ := List.mem_iff_getElem?.1 (hcalled k call hcall)
    exact ⟨i, hl.done i k call hi (by simp [hlock])⟩
  refine ⟨hhandled.symm, hcalled, fun k msg hcall => ?_, fun k msg hcall => ?_⟩
  · obtain ⟨i, r, -, hresult⟩ := hdone k _ hcall
    exact ⟨_, hresult⟩
  · obtain ⟨i, hresult⟩ := hdone k _ hcall
    exact hresult

/-- **The pairing of the calls with those of `server.handle`**, in every run. The calls account
for its steps, and where no step is left, each has been handled once and has ended. -/
theorem paired_of_run {ls : List Label} (hs : exec step (initial id) ls = some s)
    (hvalid : ∀ call ∈ s.calls, call.Valid) :
    Paired id s ∧ Bounded ls ∧ (Quiescent s → s.server ≠ .closed → Complete id s) :=
  have hinv := inv_of_run hs hvalid
  ⟨hinv.paired, bounded_of_run hs, hinv.complete⟩

/-- When all calls have ended and all bytes have been read, nothing is left to do. -/
theorem quiescent_of_ended {src : Nat} (hserver : s.server = .reading src) (hlock : s.lock = none)
    (hrequests : s.requests = {}) (hresponses : s.responses = {})
    (hresults : ∀ k < s.calls.length, s.results k ≠ none) : Quiescent s := by
  intro l hcall hstop
  cases l with
  | call call => exact absurd rfl (hcall call)
  | acquire k =>
    simp only [Tcp.step, State.acquire, hlock]
    split
    · next hk hnone =>
      exact absurd hnone (hresults k (List.getElem?_eq_some_iff.1 hk).1)
    · rfl
  | drain => simp [Tcp.step, State.drain, hlock]
  | readResponse => simp [Tcp.step, State.readResponse, hlock]
  | fail => simp [Tcp.step, State.fail, hlock]
  | arriveRequests n => simp [Tcp.step, hrequests, Nat.pos_iff_ne_zero]
  | arriveResponses n => simp [Tcp.step, hresponses, Nat.pos_iff_ne_zero]
  | handshake => simp [Tcp.step, State.handshake, hserver]
  | receive =>
    have hread : readRequest [] = none := rfl
    simp [Tcp.step, State.receive, hrequests, hread]
  | respond response => simp [Tcp.step, State.respond, hserver]
  | raise => simp [Tcp.step, hserver]
  | stop => exact absurd rfl hstop

end

/-- Two casts, the first with a message that looks like the marker, and a `send` with a
message that looks like a cast; the `send` takes the lock between them. -/
def threeCalls : List Label :=
  [.call ⟨.cast, [255, 255, 255, 255]⟩, .call ⟨.send, [255, 255, 255, 255, 0, 0, 0, 1, 9]⟩,
    .call ⟨.cast, []⟩, .acquire 0, .drain, .acquire 1, .arriveRequests 5, .handshake, .drain,
    .arriveRequests 22, .receive, .respond (some [4]), .receive, .respond none,
    .arriveResponses 1, .arriveResponses 3, .readResponse, .acquire 2, .drain, .arriveRequests 8,
    .receive, .respond none]

theorem paired_of_run_threeCalls :
    ∃ s, exec step (initial 7) threeCalls = some s ∧ Paired 7 s ∧ Bounded threeCalls ∧
      Complete 7 s := by
  obtain ⟨s, hs, hcheck⟩ := exists_exec_of_any step (initial 7) threeCalls
    (fun s => (∀ call ∈ s.calls, call.msg.length < 256 ^ 4 ∧
        (call.kind = .send → call.msg.length ≠ castMarker)) ∧
      s.server = .reading 7 ∧ s.lock = none ∧ s.requests = {} ∧ s.responses = {} ∧
      ∀ k < s.calls.length, s.results k ≠ none) (by decide)
  obtain ⟨hvalid, hserver, hlock, hrequests, hresponses, hresults⟩ := of_decide_eq_true hcheck
  obtain ⟨hpaired, hbounded, hcomplete⟩ := paired_of_run hs hvalid
  refine ⟨s, hs, hpaired, hbounded, hcomplete ?_ ?_⟩
  · exact quiescent_of_ended hserver hlock hrequests hresponses hresults
  · rw [hserver]
    nofun

end DistBench.Tcp
