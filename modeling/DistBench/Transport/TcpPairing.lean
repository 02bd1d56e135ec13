import DistBench.Transport.Tcp

/-!
# Pairing over one TCP connection

The messages of concurrent calls stand on one stream in the order in which the calls
have taken the lock, and the server reads them back one by one: a length and the
marker for casts share the first four bytes, and differ unless a `send` has a message
of exactly that length. A response is the only one on its way, because its call keeps
the lock until it has read it.

- `requestFraming`, `responseFraming`: both formats read back what was written.
- `Paired`: the calls of `server.handle` are those of the order of the lock, and a
  `send` has returned what `server.handle` returned for it.
- `Complete`: every call has been handled and has ended.
- `Inv`, `inv_of_run`: the invariant, and that it holds in every run.
-/

namespace DistBench.Tcp

/-! ## Formats -/

/-- The messages that can be told apart. -/
def Call.Valid (call : Call) : Prop :=
  call.msg.length < 256 ^ 4 ∧ (call.kind = .send → call.msg.length ≠ castMarker)

theorem packI_eq_some {n : Nat} {bytes : Bytes} :
    packI n = some bytes ↔ n < 256 ^ 4 ∧ bytes = toBytesBE 4 n := by
  unfold packI
  split_ifs with h
  · exact ⟨fun heq => ⟨h, (Option.some.inj heq).symm⟩, fun hn => congrArg some hn.2.symm⟩
  · exact ⟨nofun, fun hn => absurd hn.1 h⟩

theorem reads_request {call : Call} (h : call.Valid) :
    Reads readRequest call ((call.frame).getD []) := by
  obtain ⟨kind, msg⟩ := call
  obtain ⟨hlength, hmarker⟩ := h
  have hpack : packI msg.length = some (toBytesBE 4 msg.length) := packI_eq_some.2 ⟨hlength, rfl⟩
  have hmarker' : castMarker < 256 ^ 4 := by decide
  cases kind with
  | send =>
    have hne : msg.length ≠ castMarker := hmarker rfl
    have hread : Reads readRequest ⟨if msg.length = castMarker then .cast else .send, msg⟩
        (toBytesBE 4 msg.length ++ ([] ++ msg)) := by
      refine (Reads.readBE hlength).bind (Reads.bind ?_ (Reads.readExact msg).last)
      rw [if_neg hne]
      exact .pure _
    simpa [Call.frame, hpack, if_neg hne] using hread
  | cast =>
    have hread : Reads readRequest ⟨if castMarker = castMarker then .cast else .send, msg⟩
        (toBytesBE 4 castMarker ++ (toBytesBE 4 msg.length ++ msg)) := by
      refine (Reads.readBE hmarker').bind (Reads.bind ?_ (Reads.readExact msg).last)
      rw [if_pos rfl]
      exact Reads.readBE hlength
    simpa [Call.frame, hpack, packI_eq_some.2 ⟨hmarker', rfl⟩] using hread

theorem stable_readRequest : readRequest.Stable :=
  (Reader.Stable.readBE 4).bind fun _ =>
    (Reader.Stable.ite (.readBE 4) (.pure _)).bind fun _ =>
      (Reader.Stable.readExact _).bind fun _ => .pure _

def requestFraming : Framing Call where
  write call := call.frame.getD []
  read := readRequest
  Valid := Call.Valid
  reads_write _ := reads_request
  stable := stable_readRequest
  read_nil := rfl

theorem Call.Valid.frame_eq {call : Call} (h : call.Valid) :
    call.frame = some (requestFraming.write call) := by
  obtain ⟨kind, msg⟩ := call
  have hpack : packI msg.length = some (toBytesBE 4 msg.length) := packI_eq_some.2 ⟨h.1, rfl⟩
  have hmarker : packI castMarker = some (toBytesBE 4 castMarker) :=
    packI_eq_some.2 ⟨by decide, rfl⟩
  cases kind <;> simp [requestFraming, Call.frame, hpack, hmarker]

theorem reads_response {response : Bytes} (h : response.length < 256 ^ 4) :
    Reads readResponse response (toBytesBE 4 response.length ++ response) := by
  refine (Reads.readBE h).bind ?_
  split
  · exact .readExact response
  · next hzero =>
    obtain rfl : response = [] := List.length_eq_zero_iff.1 (by omega)
    exact .pure []

def responseFraming : Framing Bytes where
  write response := toBytesBE 4 response.length ++ response
  read := readResponse
  Valid response := response.length < 256 ^ 4
  reads_write _ := reads_response
  stable := (Reader.Stable.readBE 4).bind fun _ => .ite (.readExact _) (.pure _)
  read_nil := rfl

theorem responseFrame_eq_some {response : Option Bytes} {bytes : Bytes}
    (h : responseFrame response = some bytes) :
    responseFraming.Valid (response.getD []) ∧
      bytes = responseFraming.write (response.getD []) := by
  cases response with
  | none =>
    obtain ⟨hlength, rfl⟩ := packI_eq_some.1 h
    exact ⟨hlength, by simp [responseFraming]⟩
  | some response =>
    obtain ⟨pre, hpre, rfl⟩ := Option.map_eq_some_iff.1 h
    obtain ⟨hlength, rfl⟩ := packI_eq_some.1 hpre
    exact ⟨hlength, rfl⟩

/-! ## What the connection is for -/

/-- The `send` numbered `k` gets this response: it was the `i`-th to take the lock, and
`server.handle` returned it (`b""` for `None`) at its `i`-th call. -/
def State.Answered (s : State) (k : Nat) (response : Bytes) : Prop :=
  ∃ (i : Nat) (call : Call) (r : Option Bytes), s.order[i]? = some (k, call) ∧
    call.kind = .send ∧ s.returned[i]? = some r ∧ response = r.getD []

/-- The pairing of the calls of the client `id` with those of `server.handle`. -/
structure Paired (id : UInt16) (s : State) : Prop where
  once : (s.order.map Prod.fst).Nodup
  called : ∀ p ∈ s.order, s.calls[p.1]? = some p.2
  handled : s.handled <+: s.order.map fun p => (id.toNat, p.2)
  returned : s.returned.length ≤ s.handled.length
  results : ∀ k response, s.results k = some (.returned (some response)) → s.Answered k response

/-- Every call has been handled once and has ended. -/
structure Complete (id : UInt16) (s : State) : Prop where
  handled : s.handled = s.order.map fun p => (id.toNat, p.2)
  called : ∀ k call, s.calls[k]? = some call → (k, call) ∈ s.order
  send : ∀ k msg, s.calls[k]? = some ⟨.send, msg⟩ →
    ∃ response, s.results k = some (.returned (some response))
  cast : ∀ k msg, s.calls[k]? = some ⟨.cast, msg⟩ → s.results k = some (.returned none)

/-- No step is left but those that begin a call or stop the server. -/
def Quiescent (s : State) : Prop :=
  ∀ l, (∀ call, l ≠ .call call) → l ≠ .stop → step s l = none

/-! ## The invariant -/

/-- The bytes the client has written before its messages and the server has not read. -/
def State.prelude (id : UInt16) (s : State) : Bytes :=
  if s.server = .handshake then toBytesBE 2 id.toNat else []

/-- A call that is through has its result; `i` is its place in the order of the lock. -/
def State.Done (s : State) (i : Nat) (k : Nat) (call : Call) : Prop :=
  match call.kind with
  | .cast => s.results k = some (.returned none)
  | .send => ∃ r, s.returned[i]? = some r ∧ s.results k = some (.returned (some (r.getD [])))

/-- The response to the call that holds the lock is on its way. -/
def State.Responding (s : State) : Prop :=
  ∃ before h call, ∃ r : Option Bytes, s.lock = some h ∧ s.order = before ++ [(h.call, call)] ∧
    call.kind = .send ∧ s.returned[before.length]? = some r ∧
    responseFraming.Valid (r.getD []) ∧ s.responses.bytes = responseFraming.write (r.getD [])

/-- What holds while the server has not closed the connection. -/
structure Live (id : UInt16) (s : State) : Prop where
  opened : s.closed = false
  /-- What has not been handled is on its way. -/
  stream : ∃ todo, (∀ call ∈ todo, call.Valid) ∧
    (s.order.map fun p => (id.toNat, p.2)) = s.handled ++ todo.map (id.toNat, ·) ∧
    s.requests.bytes = s.prelude id ++ requestFraming.stream todo
  server : match s.server with
    | .handshake => s.handled = [] ∧ s.returned = []
    | .reading src => src = id.toNat ∧ s.returned.length = s.handled.length
    | .handling src call => src = id.toNat ∧ s.handled.getLast? = some (src, call) ∧
        s.returned.length + 1 = s.handled.length
    | .closed => True
  done : ∀ i k call, s.order[i]? = some (k, call) → (∀ h, s.lock = some h → h.call ≠ k) →
    s.Done i k call
  waiting : ∀ k, k ∉ s.order.map Prod.fst → s.results k = none
  /-- A `send` whose call of `server.handle` has returned is being answered. -/
  answered : ∀ before h call, s.lock = some h → s.order = before ++ [(h.call, call)] →
    call.kind = .send → s.returned.length = s.order.length → s.Responding

structure Inv (id : UInt16) (s : State) : Prop where
  paired : Paired id s
  ended : s.closed = true → s.lock = none
  finished : ∀ k ∈ s.order.map Prod.fst, (∃ h, s.lock = some h ∧ h.call = k) ∨ s.results k ≠ none
  lock : ∀ h, s.lock = some h → ∃ before call, s.order = before ++ [(h.call, call)] ∧
    (h.drained = true → call.kind = .send)
  responses : s.closed = false → s.responses.bytes = [] ∨ s.Responding
  live : s.server ≠ .closed → Live id s

section

variable {id : UInt16} {s s' : State}

theorem inv_initial : Inv id (initial id) where
  paired := ⟨List.nodup_nil, by simp [initial], List.nil_prefix, Nat.zero_le _, by simp [initial]⟩
  ended := nofun
  finished := by simp [initial]
  lock := nofun
  responses _ := .inl rfl
  live _ := by
    refine ⟨rfl, ⟨[], by simp, rfl, by simp [initial, State.prelude, Pipe.bytes]⟩, ⟨rfl, rfl⟩,
      by simp [initial], fun _ _ => rfl, nofun⟩

theorem Inv.returned_le (h : Inv id s) : s.returned.length ≤ s.order.length := by
  have hle := h.paired.handled.length_le
  rw [List.length_map] at hle
  exact Nat.le_trans h.paired.returned hle

theorem Inv.call (h : Inv id s) (call : Call) :
    Inv id { s with calls := s.calls ++ [call] } where
  paired := by
    refine ⟨h.paired.once, ?_, h.paired.handled, h.paired.returned, h.paired.results⟩
    intro p hp
    have hcalled := h.paired.called p hp
    rw [List.getElem?_append_left (List.getElem?_eq_some_iff.1 hcalled).1]
    exact hcalled
  ended := h.ended
  finished := h.finished
  lock := h.lock
  responses := h.responses
  live hs :=
    have hl := h.live hs
    ⟨hl.opened, hl.stream, hl.server, hl.done, hl.waiting, hl.answered⟩

/-- The pairing does not look at the connection. -/
theorem Paired.congr (h : Paired id s) (hcalls : s'.calls = s.calls)
    (hresults : s'.results = s.results) (horder : s'.order = s.order)
    (hhandled : s'.handled = s.handled) (hreturned : s'.returned = s.returned) :
    Paired id s' := by
  obtain ⟨once, called, handled, returned, results⟩ := h
  refine ⟨?_, ?_, ?_, ?_, ?_⟩ <;>
    simpa only [State.Answered, hcalls, hresults, horder, hhandled, hreturned]

/-- A call ends without a response. -/
theorem Paired.finish (h : Paired id s) {k : Nat} {result : Result}
    (hresult : ∀ response, result ≠ .returned (some response)) : Paired id (s.finish k result) := by
  refine ⟨h.once, h.called, h.handled, h.returned, fun j response hj => ?_⟩
  by_cases hjk : j = k
  · subst hjk
    simp only [State.finish, Function.update_self] at hj
    exact absurd (Option.some.inj hj) (hresult response)
  · simp only [State.finish, Function.update_of_ne hjk] at hj
    exact h.results j response hj

/-- The calls in the order of the lock have ended, once the last of them has. -/
theorem Inv.finished_finish (h : Inv id s) {k : Nat} {result : Result}
    (hlock : ∀ g, s.lock = some g → g.call = k) :
    ∀ j ∈ s.order.map Prod.fst, (∃ g, (s.finish k result).lock = some g ∧ g.call = j) ∨
      (s.finish k result).results j ≠ none := by
  intro j hj
  right
  by_cases hjk : j = k
  · simp [State.finish, hjk]
  · simp only [State.finish, Function.update_of_ne hjk]
    refine (h.finished j hj).resolve_left ?_
    rintro ⟨g, hg, rfl⟩
    exact hjk (hlock g hg)

/-- The waiting call writes its message behind those of the calls before it. -/
theorem Inv.acquire (h : Inv id s) (hvalid : ∀ call ∈ s.calls, call.Valid) {k : Nat}
    (hs : s.acquire k = some s') : Inv id s' := by
  unfold State.acquire at hs
  split at hs
  · next call hlock hcall hresult =>
    have hk : k ∉ s.order.map Prod.fst := by
      intro hmem
      rcases h.finished k hmem with ⟨g, hg, -⟩ | hsome
      · rw [hlock] at hg
        cases hg
      · exact hsome hresult
    have hcallValid := hvalid call (List.mem_of_getElem? hcall)
    split_ifs at hs with hclosed
    · cases hs
      refine ⟨h.paired.finish nofun, fun _ => rfl, h.finished_finish (by simp [hlock]), nofun,
        fun hopen => absurd hclosed (by simp_all [State.finish]), fun hserver => ?_⟩
      have hopened := (h.live hserver).opened
      rw [hclosed] at hopened
      cases hopened
    · rw [hcallValid.frame_eq] at hs
      cases hs
      have hbytes : s.responses.bytes = [] := by
        refine (h.responses (by simpa using hclosed)).resolve_right ?_
        rintro ⟨before, g, call, r, hg, -⟩
        rw [hlock] at hg
        cases hg
      refine ⟨?_, fun hc => absurd hc hclosed, ?_, ?_, fun _ => .inl hbytes, fun hserver => ?_⟩
      · refine ⟨?_, ?_, ?_, h.paired.returned, ?_⟩
        · rw [List.map_append, List.nodup_append]
          refine ⟨h.paired.once, by simp, ?_⟩
          rintro _ hold _ hsingle rfl
          obtain rfl : _ = k := by simpa using hsingle
          exact hk hold
        · intro p hp
          rcases List.mem_append.1 hp with hp | hp
          · exact h.paired.called p hp
          · rw [List.mem_singleton.1 hp]
            exact hcall
        · refine h.paired.handled.trans ?_
          rw [List.map_append]
          exact List.prefix_append _ _
        · intro j response hj
          obtain ⟨i, c, r, hi, hanswer⟩ := h.paired.results j response hj
          refine ⟨i, c, r, ?_, hanswer⟩
          rw [List.getElem?_append_left (List.getElem?_eq_some_iff.1 hi).1]
          exact hi
      · intro j hj
        rw [List.map_append, List.mem_append] at hj
        rcases hj with hj | hj
        · right
          refine (h.finished j hj).resolve_left ?_
          rintro ⟨g, hg, -⟩
          rw [hlock] at hg
          cases hg
        · exact .inl ⟨⟨k, false⟩, rfl, (by simpa using hj : j = k).symm⟩
      · intro g hg
        cases hg
        exact ⟨s.order, call, rfl, nofun⟩
      · have hl := h.live hserver
        obtain ⟨todo, htodo, hhandled, hstream⟩ := hl.stream
        refine ⟨hl.opened, ⟨todo ++ [call], ?_, ?_, ?_⟩, hl.server, ?_, ?_, ?_⟩
        · intro c hc
          rcases List.mem_append.1 hc with hc | hc
          · exact htodo c hc
          · rw [List.mem_singleton.1 hc]
            exact hcallValid
        · simp [hhandled]
        · rw [Pipe.bytes_write, hstream, Framing.stream_append, List.append_assoc]
          simp [State.prelude, requestFraming]
        · intro i j c hi hj
          rw [List.getElem?_append] at hi
          split at hi
          · refine hl.done i j c hi ?_
            rw [hlock]
            nofun
          · have hlast := List.mem_singleton.1 (List.mem_of_getElem? hi)
            cases hlast
            exact absurd rfl (hj _ rfl)
        · intro j hj
          refine hl.waiting j fun hmem => hj ?_
          rw [List.map_append]
          exact List.mem_append_left _ hmem
        · intro before g c _ _ _ hlength
          have hlength' : s.returned.length = (s.order ++ [(k, call)]).length := hlength
          have hle := h.returned_le
          rw [List.length_append, List.length_singleton] at hlength'
          omega
  · cases hs

/-- When the call that holds the lock ends as it should, all calls before it have. -/
theorem Live.done_finish (hl : Live id s) {g : Holder} (hg : s.lock = some g) {result : Result}
    (hdone : ∀ i call, s.order[i]? = some (g.call, call) →
      (s.finish g.call result).Done i g.call call) :
    ∀ i j call, s.order[i]? = some (j, call) → (s.finish g.call result).Done i j call := by
  intro i j call hi
  by_cases hj : j = g.call
  · subst hj
    exact hdone i call hi
  · have hold : s.Done i j call := hl.done i j call hi (by simpa [hg] using fun h => hj h.symm)
    simpa only [State.Done, State.finish, Function.update_of_ne hj] using hold

theorem Live.waiting_finish (hl : Live id s) {k : Nat} (hk : k ∈ s.order.map Prod.fst)
    {result : Result} :
    ∀ j, j ∉ s.order.map Prod.fst → (s.finish k result).results j = none := by
  intro j hj
  have hne : j ≠ k := fun h => hj (h ▸ hk)
  simp only [State.finish, Function.update_of_ne hne]
  exact hl.waiting j hj

theorem Inv.eq_of_mem_order (h : Inv id s) {k i : Nat} {call c : Call}
    (hi : s.order[i]? = some (k, call)) (hcall : s.calls[k]? = some c) : call = c :=
  Option.some.inj ((h.paired.called _ (List.mem_of_getElem? hi)).symm.trans hcall)

theorem Inv.place_unique (h : Inv id s) {k i j : Nat} {call call' : Call}
    (hi : s.order[i]? = some (k, call)) (hj : s.order[j]? = some (k, call')) : i = j := by
  have hlt : i < (s.order.map Prod.fst).length := by
    rw [List.length_map]
    exact (List.getElem?_eq_some_iff.1 hi).1
  refine (List.getElem?_inj hlt h.paired.once).1 ?_
  rw [List.getElem?_map, List.getElem?_map, hi, hj]
  rfl

theorem Inv.drain (h : Inv id s) (hs : s.drain = some s') : Inv id s' := by
  unfold State.drain at hs
  split at hs
  · next k hlock =>
    obtain ⟨before, call, horder, -⟩ := h.lock _ hlock
    have hi : s.order[before.length]? = some (k, call) := by simp [horder]
    have hmem : k ∈ s.order.map Prod.fst := List.mem_map.2 ⟨_, List.mem_of_getElem? hi, rfl⟩
    split at hs
    · next msg hcall =>
      obtain rfl := h.eq_of_mem_order hi hcall
      cases hs
      refine ⟨h.paired.congr rfl rfl rfl rfl rfl, ?_, ?_, ?_, ?_, fun hserver => ?_⟩
      · intro hclosed
        rw [h.ended hclosed] at hlock
        cases hlock
      · intro j hj
        refine (h.finished j hj).imp_left ?_
        rintro ⟨g, hg, rfl⟩
        rw [hlock] at hg
        cases hg
        exact ⟨_, rfl, rfl⟩
      · intro g hg
        cases hg
        exact ⟨before, _, horder, fun _ => rfl⟩
      · intro hopen
        refine (h.responses hopen).imp_right ?_
        rintro ⟨before', g, call, r, hg, hresponding⟩
        rw [hlock] at hg
        cases hg
        exact ⟨before', ⟨k, true⟩, call, r, rfl, hresponding⟩
      · have hl := h.live hserver
        refine ⟨hl.opened, hl.stream, hl.server, ?_, hl.waiting, ?_⟩
        · intro i j c hij hj
          refine hl.done i j c hij ?_
          rw [hlock]
          rintro g hg
          cases hg
          exact hj ⟨k, true⟩ rfl
        · intro before' g c hg horder' hsend hlength
          cases hg
          obtain ⟨b, g, c, r, hg, hresponding⟩ :=
            hl.answered before' ⟨k, false⟩ c hlock horder' hsend hlength
          rw [hlock] at hg
          cases hg
          exact ⟨b, ⟨k, true⟩, c, r, rfl, hresponding⟩
    · next msg hcall =>
      obtain rfl := h.eq_of_mem_order hi hcall
      cases hs
      refine ⟨h.paired.finish nofun, fun _ => rfl, h.finished_finish (by simp [hlock]), nofun,
        fun hopen => ?_, fun hserver => ?_⟩
      · refine .inl ((h.responses hopen).resolve_right ?_)
        rintro ⟨before', g, call, r, hg, horder', hsend, -⟩
        rw [hlock] at hg
        cases hg
        have hlast := congrArg List.getLast? (horder.symm.trans horder')
        simp only [List.getLast?_append_cons, List.getLast?_singleton] at hlast
        cases hlast
        cases hsend
      · have hl := h.live hserver
        refine ⟨hl.opened, hl.stream, hl.server, fun i j c hij _ => ?_, hl.waiting_finish hmem,
          nofun⟩
        refine hl.done_finish hlock ?_ i j c hij
        intro i c hic
        obtain rfl := h.eq_of_mem_order hic hcall
        simp [State.Done, State.finish]
    · cases hs
  · cases hs

/-- The response a `send` reads is the one for it. -/
theorem Inv.readResponse (h : Inv id s) (hs : s.readResponse = some s') : Inv id s' := by
  unfold State.readResponse at hs
  split at hs
  · next k hlock =>
    split at hs
    · next response rest hread =>
      have hopen : s.closed = false := by
        cases hclosed : s.closed with
        | false => rfl
        | true =>
          rw [h.ended hclosed] at hlock
          cases hlock
      rcases h.responses hopen with
        hnone | ⟨before, g, call, r, hg, horder, hsend, hr, hvalid, hbytes⟩
      · -- nothing has been written to be read
        obtain ⟨harrived, -⟩ := List.append_eq_nil_iff.1 hnone
        rw [harrived] at hread
        cases responseFraming.read_nil.symm.trans hread
      rw [hlock] at hg
      cases hg
      have hstream : s.responses.arrived ++ s.responses.flight =
          responseFraming.stream [r.getD []] := by
        rw [Framing.stream_cons, Framing.stream_nil, List.append_nil, ← hbytes, Pipe.bytes]
      obtain ⟨more, hmore, hrest⟩ :=
        responseFraming.read_stream (by simpa using hvalid) hstream hread
      obtain ⟨rfl, rfl⟩ := List.cons.inj hmore
      have hi : s.order[before.length]? = some (k, call) := by simp [horder]
      have hmem : k ∈ s.order.map Prod.fst := List.mem_map.2 ⟨_, List.mem_of_getElem? hi, rfl⟩
      cases hs
      refine ⟨⟨h.paired.once, h.paired.called, h.paired.handled, h.paired.returned, ?_⟩,
        fun _ => rfl, h.finished_finish (by simp [hlock]), by rintro _ ⟨⟩, fun _ => .inl hrest,
        fun hserver => ?_⟩
      · intro j response hj
        by_cases hjk : j = k
        · subst hjk
          simp only [State.finish, Function.update_self] at hj
          cases hj
          exact ⟨before.length, call, r, hi, hsend, hr, rfl⟩
        · simp only [State.finish, Function.update_of_ne hjk] at hj
          exact h.paired.results j response hj
      · have hl := h.live hserver
        refine ⟨hl.opened, hl.stream, hl.server, fun i j c hij _ => ?_, hl.waiting_finish hmem,
          by rintro _ _ _ ⟨⟩⟩
        refine hl.done_finish hlock ?_ i j c hij
        intro i c hic
        have hcalled := h.paired.called _ (List.mem_of_getElem? hi)
        obtain rfl := h.eq_of_mem_order hic hcalled
        -- the call stands at one place in the order
        obtain rfl := h.place_unique hic hi
        simp [State.Done, State.finish, hsend, hr]
    · cases hs
  · cases hs

theorem Inv.fail (h : Inv id s) (hs : s.fail = some s') : Inv id s' := by
  unfold State.fail at hs
  split at hs
  · next k drained hclosed hlock =>
    split_ifs at hs
    cases hs
    have hpaired : Paired id (s.finish k .connectionError) := h.paired.finish nofun
    exact ⟨hpaired.congr rfl rfl rfl rfl rfl, fun _ => rfl, h.finished_finish (by simp [hlock]),
      nofun, nofun, fun hserver => absurd hclosed hserver⟩
  · cases hs

theorem Inv.arriveRequests (h : Inv id s) (n : Nat) :
    Inv id { s with requests := s.requests.arrive n } := by
  refine ⟨h.paired.congr rfl rfl rfl rfl rfl, h.ended, h.finished, h.lock, h.responses,
    fun hserver => ?_⟩
  have hl := h.live hserver
  obtain ⟨todo, htodo, hhandled, hstream⟩ := hl.stream
  refine ⟨hl.opened, ⟨todo, htodo, hhandled, ?_⟩, hl.server, hl.done, hl.waiting, hl.answered⟩
  rw [Pipe.bytes_arrive, hstream]
  rfl

theorem State.responding_arrive {n : Nat} :
    State.Responding { s with responses := s.responses.arrive n } ↔ s.Responding := by
  simp only [State.Responding, Pipe.bytes_arrive]

theorem Inv.arriveResponses (h : Inv id s) (n : Nat) :
    Inv id { s with responses := s.responses.arrive n } := by
  refine ⟨h.paired.congr rfl rfl rfl rfl rfl, h.ended, h.finished, h.lock, ?_, fun hserver => ?_⟩
  · rw [State.responding_arrive]
    simpa only [Pipe.bytes_arrive] using h.responses
  · have hl := h.live hserver
    refine ⟨hl.opened, hl.stream, hl.server, hl.done, hl.waiting, ?_⟩
    rw [State.responding_arrive]
    exact hl.answered

/-- The server knows who it talks to. -/
theorem Inv.handshake (h : Inv id s) (hs : s.handshake = some s') : Inv id s' := by
  unfold State.handshake at hs
  split at hs
  · next remoteNumericId rest hserver hread =>
    cases hs
    refine ⟨h.paired.congr rfl rfl rfl rfl rfl, h.ended, h.finished, h.lock, h.responses,
      fun hloop => ?_⟩
    have hl := h.live (by rw [hserver]; nofun)
    obtain ⟨todo, htodo, hhandled, hstream⟩ := hl.stream
    have hphase := hl.server
    rw [hserver] at hphase
    have hid : id.toNat < 256 ^ 2 := id.toNat_lt
    have hall := Reader.Stable.readBE 2 hread s.requests.flight
    rw [State.prelude, if_pos hserver] at hstream
    rw [← Pipe.bytes, hstream, Reads.readBE hid] at hall
    obtain ⟨rfl, hrest⟩ := Prod.mk.inj (Option.some.inj hall)
    by_cases hstop : s.stopEvent = true
    · exact absurd (by simp [State.loop, hstop]) hloop
    · have hloop' : s.loop id.toNat = .reading id.toNat := by simp [State.loop, hstop]
      refine ⟨hl.opened, ⟨todo, htodo, hhandled, ?_⟩, ?_, hl.done, hl.waiting, hl.answered⟩
      · simp [State.prelude, hloop', hrest, Pipe.bytes]
      · simp [hloop', hphase]
  · cases hs

/-- The next message the server reads is the first one that has not been handled. -/
theorem Inv.receive (h : Inv id s) (hs : s.receive = some s') : Inv id s' := by
  unfold State.receive at hs
  split at hs
  · next src call rest hserver hread =>
    cases hs
    have hl := h.live (by rw [hserver]; nofun)
    obtain ⟨todo, htodo, hhandled, hstream⟩ := hl.stream
    have hphase := hl.server
    rw [hserver] at hphase
    obtain ⟨rfl, hlength⟩ := hphase
    rw [State.prelude, if_neg (by rw [hserver]; nofun), List.nil_append] at hstream
    obtain ⟨todo, rfl, hrest⟩ := requestFraming.read_stream htodo hstream hread
    have hprefix : s.handled ++ [(id.toNat, call)] <+: s.order.map fun p => (id.toNat, p.2) := by
      exact ⟨todo.map (id.toNat, ·), by simp [hhandled]⟩
    refine ⟨⟨h.paired.once, h.paired.called, hprefix, ?_, h.paired.results⟩, h.ended, h.finished,
      h.lock, h.responses, fun _ => ?_⟩
    · rw [List.length_append]
      exact Nat.le_add_right_of_le h.paired.returned
    · refine ⟨hl.opened, ⟨todo, fun c hc => htodo c (by simp [hc]), ?_, ?_⟩, ?_, hl.done,
        hl.waiting, hl.answered⟩
      · simp [hhandled]
      · simp [State.prelude, hrest, Pipe.bytes]
      · simp [hlength]
  · cases hs

theorem getElem?_snoc {α : Type} {xs : List α} {x y : α} {i : Nat} (h : xs[i]? = some x) :
    (xs ++ [y])[i]? = some x := by
  rw [List.getElem?_append_left (List.getElem?_eq_some_iff.1 h).1, h]

/-- `server.handle` has returned, whatever becomes of the connection. -/
theorem Inv.returned_snoc (h : Inv id s) (hreturned : s.returned.length < s.handled.length)
    (response : Option Bytes) (server : ServerPhase) :
    Paired id { s with returned := s.returned ++ [response], server := server } where
  once := h.paired.once
  called := h.paired.called
  handled := h.paired.handled
  returned := by
    rw [List.length_append]
    exact hreturned
  results := by
    intro k b hb
    obtain ⟨i, call, r, hi, hsend, hr, heq⟩ := h.paired.results k b hb
    exact ⟨i, call, r, hi, hsend, getElem?_snoc hr, heq⟩

theorem State.Responding.returned_snoc (h : s.Responding) (response : Option Bytes)
    (server : ServerPhase) :
    State.Responding { s with returned := s.returned ++ [response], server := server } := by
  obtain ⟨before, g, call, r, hg, horder, hsend, hr, hbytes⟩ := h
  exact ⟨before, g, call, r, hg, horder, hsend, getElem?_snoc hr, hbytes⟩

theorem State.Done.returned_snoc {i k : Nat} {call : Call} (h : s.Done i k call)
    (response : Option Bytes) (server : ServerPhase) (responses : Pipe) :
    State.Done
      { s with returned := s.returned ++ [response], server := server, responses := responses }
      i k call := by
  unfold State.Done at h ⊢
  split at h
  · exact h
  · obtain ⟨r, hr, hresult⟩ := h
    exact ⟨r, getElem?_snoc hr, hresult⟩

/-- The call that is being handled is the first whose `server.handle` has not returned. -/
theorem Inv.handling (h : Inv id s) {src : Nat} {call : Call}
    (hserver : s.server = .handling src call) :
    s.returned.length + 1 = s.handled.length ∧
      ∃ k, s.order[s.returned.length]? = some (k, call) := by
  have hl := h.live (by rw [hserver]; nofun)
  have hphase := hl.server
  rw [hserver] at hphase
  obtain ⟨rfl, hlast, hlength⟩ := hphase
  refine ⟨hlength, ?_⟩
  have hhandled : s.handled[s.returned.length]? = some (id.toNat, call) := by
    rw [List.getLast?_eq_getElem?, ← hlength] at hlast
    simpa using hlast
  obtain ⟨more, hmore⟩ := h.paired.handled
  have hall : (s.order.map fun p => (id.toNat, p.2))[s.returned.length]? =
      some (id.toNat, call) := by
    rw [← hmore, List.getElem?_append_left (by omega), hhandled]
  rw [List.getElem?_map, Option.map_eq_some_iff] at hall
  obtain ⟨⟨k, c⟩, hk, heq⟩ := hall
  cases heq
  exact ⟨k, hk⟩

/-- A `send` that is being handled holds the lock, and no response is on its way. -/
theorem Inv.handling_send (h : Inv id s) {src : Nat} {call : Call}
    (hserver : s.server = .handling src call) (hsend : call.kind = .send) :
    s.responses.bytes = [] ∧ ∃ before g, s.lock = some g ∧ s.order = before ++ [(g.call, call)] ∧
      before.length = s.returned.length := by
  have hl := h.live (by rw [hserver]; nofun)
  obtain ⟨hlength, k, hk⟩ := h.handling hserver
  have hlock : ∃ g, s.lock = some g ∧ g.call = k := by
    by_contra hnot
    have hdone := hl.done _ k call hk fun g hg hgk => hnot ⟨g, hg, hgk⟩
    simp [State.Done, hsend] at hdone
  obtain ⟨g, hg, rfl⟩ := hlock
  obtain ⟨before, call', horder, -⟩ := h.lock g hg
  have hlast : s.order[before.length]? = some (g.call, call') := by simp [horder]
  have hplace := h.place_unique hk hlast
  rw [← hplace, hk] at hlast
  cases hlast
  refine ⟨(h.responses hl.opened).resolve_right ?_, before, g, hg, horder, hplace.symm⟩
  rintro ⟨before', g', c, r, -, horder', -, hr, -⟩
  have hlen := congrArg List.length (horder.symm.trans horder')
  simp only [List.length_append, List.length_singleton] at hlen
  have hlt := (List.getElem?_eq_some_iff.1 hr).1
  omega

theorem Inv.respond (h : Inv id s) {response : Option Bytes} (hs : s.respond response = some s') :
    Inv id s' := by
  unfold State.respond at hs
  split at hs
  · next src call hserver =>
    have hl := h.live (by rw [hserver]; nofun)
    obtain ⟨hlength, k, hk⟩ := h.handling hserver
    have hlt : s.returned.length < s.handled.length := by omega
    obtain ⟨todo, htodo, hhandled, hstream⟩ := hl.stream
    rw [State.prelude, if_neg (by rw [hserver]; nofun), List.nil_append] at hstream
    have hsrc : src = id.toNat := by
      have hphase := hl.server
      rw [hserver] at hphase
      exact hphase.1
    subst hsrc
    have hstreamLoop : s.loop id.toNat ≠ .closed →
        s.loop id.toNat = .reading id.toNat := by
      unfold State.loop
      split <;> simp
    dsimp only at hs
    split at hs
    · next hcast =>
      cases hs
      refine ⟨h.returned_snoc hlt response _, h.ended, h.finished, h.lock, fun hopen => ?_,
        fun hloop => ?_⟩
      · exact (h.responses hopen).imp_right fun hr => hr.returned_snoc response _
      · refine ⟨hl.opened, ⟨todo, htodo, hhandled, ?_⟩, ?_, fun i j c hi hj => ?_, hl.waiting, ?_⟩
        · simp [State.prelude, hstreamLoop hloop, hstream]
        · simp [hstreamLoop hloop, hlength]
        · exact (hl.done i j c hi hj).returned_snoc response _ _
        · intro before g c hg horder hsend hfull
          -- the last call would be the cast that has just been handled
          have hfull' : (s.returned ++ [response]).length = s.order.length := hfull
          have horder' : s.order = before ++ [(g.call, c)] := horder
          rw [horder', List.length_append, List.length_append, List.length_singleton,
            List.length_singleton, Nat.add_right_cancel_iff] at hfull'
          rw [horder', hfull', List.getElem?_concat_length] at hk
          cases hk
          rw [hcast] at hsend
          cases hsend
    · next bytes hsend hframe =>
      cases hs
      obtain ⟨hempty, before, g, hg, horder, hbefore⟩ := h.handling_send hserver hsend
      obtain ⟨hvalid, rfl⟩ := responseFrame_eq_some hframe
      have hresponding : State.Responding { s with
          returned := s.returned ++ [response]
          server := s.loop id.toNat
          responses := s.responses.write (responseFraming.write (response.getD [])) } := by
        refine ⟨before, g, call, response, hg, horder, hsend, ?_, hvalid, ?_⟩
        · rw [hbefore, List.getElem?_concat_length]
        · rw [Pipe.bytes_write, hempty, List.nil_append]
      have hpaired := h.returned_snoc hlt response (s.loop id.toNat)
      refine ⟨hpaired.congr rfl rfl rfl rfl rfl, h.ended, h.finished, h.lock,
        fun _ => .inr hresponding, fun hloop => ?_⟩
      refine ⟨hl.opened, ⟨todo, htodo, hhandled, ?_⟩, ?_, fun i j c hi hj => ?_, hl.waiting,
        fun _ _ _ _ _ _ _ => hresponding⟩
      · simp [State.prelude, hstreamLoop hloop, hstream]
      · simp [hstreamLoop hloop, hlength]
      · exact (hl.done i j c hi hj).returned_snoc response _ _
    · cases hs
      exact ⟨h.returned_snoc hlt response _, h.ended, h.finished, h.lock,
        fun hopen => (h.responses hopen).imp_right fun hr => hr.returned_snoc response _,
        fun hclosed => absurd rfl hclosed⟩
  · cases hs

/-! ## Runs -/

theorem Inv.step {l : Label} (h : Inv id s) (hvalid : ∀ call ∈ s.calls, call.Valid)
    (hs : step s l = some s') : Inv id s' := by
  cases l with
  | call call =>
    cases hs
    exact h.call call
  | acquire k => exact h.acquire hvalid hs
  | drain => exact h.drain hs
  | readResponse => exact h.readResponse hs
  | fail => exact h.fail hs
  | arriveRequests n =>
    simp only [Tcp.step] at hs
    split_ifs at hs
    cases hs
    exact h.arriveRequests n
  | arriveResponses n =>
    simp only [Tcp.step] at hs
    split_ifs at hs
    cases hs
    exact h.arriveResponses n
  | handshake => exact h.handshake hs
  | receive => exact h.receive hs
  | respond response => exact h.respond hs
  | raise =>
    simp only [Tcp.step] at hs
    split at hs
    · cases hs
      exact ⟨h.paired.congr rfl rfl rfl rfl rfl, h.ended, h.finished, h.lock, h.responses,
        fun hclosed => absurd rfl hclosed⟩
    · cases hs
  | stop =>
    cases hs
    refine ⟨h.paired.congr rfl rfl rfl rfl rfl, h.ended, h.finished, h.lock, h.responses,
      fun hserver => ?_⟩
    have hl := h.live hserver
    exact ⟨hl.opened, hl.stream, hl.server, hl.done, hl.waiting, hl.answered⟩

/-- No step forgets a call. -/
theorem calls_step {l : Label} (hs : Tcp.step s l = some s') : s.calls <+: s'.calls := by
  cases l <;> simp only [Tcp.step, State.acquire, State.drain, State.readResponse, State.fail,
    State.handshake, State.receive, State.respond, State.finish] at hs <;>
    (repeat' split at hs) <;> cases hs <;>
    first | exact List.prefix_rfl | exact List.prefix_append _ _

theorem inv_of_run {ls : List Label} (hs : exec Tcp.step (initial id) ls = some s)
    (hvalid : ∀ call ∈ s.calls, call.Valid) : Inv id s := by
  have hrun := run_induction (P := fun _ s => (∀ call ∈ s.calls, call.Valid) → Inv id s)
    (fun _ => inv_initial)
    (fun _ s l s' _ ih hl hvalid =>
      have hbefore : ∀ call ∈ s.calls, call.Valid :=
        fun call hcall => hvalid call ((calls_step hl).mem hcall)
      (ih hbefore).step hbefore hl)
    ls s hs
  exact hrun hvalid

end

end DistBench.Tcp
