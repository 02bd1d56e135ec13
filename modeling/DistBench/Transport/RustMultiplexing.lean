import DistBench.Transport.RustTcp

/-!
# Multiplexing over one TCP connection

The responses to concurrent requests come back in any order over one stream, so a
`send` returns the response to its own request only if the frames are parsed as
they were written and an id stands for one request at a time.

- `framing`: the frames read back as they were written, up to a length of 2³².
- `Client.Consistent`: the pending requests are the requests that have been
  written and have no result, and their ids differ.
- `Multiplexed`: what the connection is for. The frames that have been parsed are
  the first ones the server has written, the others are on their way, and what a
  `send` has returned was the server's answer to its request.
- `multiplexed_of_run`: it holds in every run that takes no message while a frame
  is half read (`Uninterrupted`).
- `not_multiplexed`: the task reads a response from the middle of another one.
-/

namespace DistBench.RustTcp

/-! ## Frames -/

theorem reads_frame (frame : Frame) (h : frame.payload.length < 256 ^ 4) :
    Reads readFrame frame (writeFrame frame) := by
  have htype : frame.msgType.toNat < 256 ^ 1 := frame.msgType.toNat_lt
  have hid : frame.requestId.toNat < 256 ^ 8 := frame.requestId.toNat_lt
  have hread : Reads readFrame
      ⟨UInt8.ofNat frame.msgType.toNat, UInt64.ofNat frame.requestId.toNat, frame.payload⟩
      (writeFrame frame) :=
    (Reads.readBE htype).bind ((Reads.readBE hid).bind ((Reads.readBE h).bind
      (Reads.readExact frame.payload).last))
  rwa [UInt8.ofNat_toNat, UInt64.ofNat_toNat] at hread

theorem stable_readFrame : readFrame.Stable :=
  (Reader.Stable.readBE 1).bind fun _ => (Reader.Stable.readBE 8).bind fun _ =>
    (Reader.Stable.readBE 4).bind fun _ => (Reader.Stable.readExact _).bind fun _ => .pure _

def framing : Framing Frame where
  write := writeFrame
  read := readFrame
  Valid frame := frame.payload.length < 256 ^ 4
  reads_write := reads_frame
  stable := stable_readFrame
  read_nil := rfl

/-! ## The pending requests -/

/-- The requests among messages. -/
def sends (msgs : List ConnectionMessage) : List Request :=
  msgs.filterMap fun
    | .send request => some request
    | _ => none

@[simp] theorem sends_append (msgs msgs' : List ConnectionMessage) :
    sends (msgs ++ msgs') = sends msgs ++ sends msgs' :=
  List.filterMap_append

namespace Client

/-- The requests that have not been written yet. -/
def queue (c : Client) : List Request :=
  sends c.waiting ++ sends c.channel

/-- The call waits for its result. -/
def Live (c : Client) (request : Request) : Prop :=
  c.results request.responseTx = none

/-- The bookkeeping of a client whose task runs. `answered` are the places, among the
written requests, of those whose answer has been parsed. -/
structure Consistent (c : Client) (answered : List Nat) : Prop where
  called : ∀ r ∈ c.queue ++ c.written, c.calls[r.responseTx]? = some r
  distinct : ((c.queue ++ c.written).map Request.responseTx).Nodup
  fresh : ∀ k, c.calls.length ≤ k → c.results k = none
  ids : ∀ r ∈ c.queue ++ c.written, ∀ r' ∈ c.queue ++ c.written, c.Live r → c.Live r' →
    r.requestId = r'.requestId → r = r'
  queued : ∀ r ∈ c.queue, c.Live r
  pending : ∀ requestId responseTx, c.pendingRequests.lookup requestId = some responseTx ↔
    ∃ r ∈ c.written, r.requestId = requestId ∧ r.responseTx = responseTx ∧ c.Live r
  unanswered : ∀ n r, c.written[n]? = some r → n ∉ answered → c.Live r

variable {c c' : Client} {answered : List Nat} {r r' : Request} {n : Nat}

/-- Messages that move towards the task, and those without a response, change nothing. -/
theorem Consistent.of_perm (h : c.Consistent answered) (hq : c'.queue.Perm c.queue)
    (hw : c'.written = c.written) (hc : c'.calls = c.calls) (hr : c'.results = c.results)
    (hp : c'.pendingRequests = c.pendingRequests) : c'.Consistent answered := by
  have hperm : (c'.queue ++ c'.written).Perm (c.queue ++ c.written) := by
    rw [hw]
    exact hq.append_right _
  have hlive : ∀ r, c'.Live r ↔ c.Live r := fun r => by rw [Live, Live, hr]
  refine ⟨?_, ?_, ?_, ?_, ?_, ?_, ?_⟩
  · intro r hmem
    rw [hc]
    exact h.called r (hperm.mem_iff.1 hmem)
  · exact (hperm.map _).nodup_iff.2 h.distinct
  · rw [hc, hr]
    exact h.fresh
  · intro r hmem r' hmem' hl hl'
    exact h.ids r (hperm.mem_iff.1 hmem) r' (hperm.mem_iff.1 hmem') ((hlive r).1 hl)
      ((hlive r').1 hl')
  · intro r hmem
    exact (hlive r).2 (h.queued r (hq.mem_iff.1 hmem))
  · intro requestId responseTx
    simp only [hp, hw, hlive]
    exact h.pending requestId responseTx
  · intro n r hn ha
    exact (hlive r).2 (h.unanswered n r (hw ▸ hn) ha)

theorem Consistent.post (h : c.Consistent answered) {msg : ConnectionMessage}
    (hmsg : sends [msg] = []) : (c.post msg).Consistent answered := by
  unfold Client.post submit
  split
  · refine h.of_perm ?_ rfl rfl rfl rfl
    simp [queue, hmsg]
  · exact h

theorem Consistent.enqueue (h : c.Consistent answered) {i : Nat} (hc : c.enqueue i = some c') :
    c'.Consistent answered := by
  unfold Client.enqueue at hc
  split at hc
  · next msg hi =>
    split at hc
    · cases hc
      refine h.of_perm ?_ rfl rfl rfl rfl
      obtain ⟨hlt, rfl⟩ := List.getElem?_eq_some_iff.1 hi
      have hperm : (c.waiting.eraseIdx i ++ (c.channel ++ [c.waiting[i]])).Perm
          (c.waiting ++ c.channel) := by
        rw [← List.append_assoc]
        refine List.perm_append_singleton _ _ |>.trans ?_
        rw [← List.cons_append]
        exact (List.getElem_cons_eraseIdx_perm hlt).append_right _
      simpa [queue, sends] using hperm.filterMap _
    · cases hc
  · cases hc

/-- A request is one of the calls, so a later call has another number. -/
theorem Consistent.responseTx_lt (h : c.Consistent answered) (hr : r ∈ c.queue ++ c.written) :
    r.responseTx < c.calls.length :=
  (List.getElem?_eq_some_iff.1 (h.called r hr)).1

theorem Consistent.eq_of_responseTx (h : c.Consistent answered) (hr : r ∈ c.queue ++ c.written)
    (hr' : r' ∈ c.queue ++ c.written) (heq : r.responseTx = r'.responseTx) : r = r' :=
  List.inj_on_of_nodup_map h.distinct hr hr' heq

theorem Consistent.ne_of_queued (h : c.Consistent answered) (hr : r ∈ c.queue)
    (hr' : r' ∈ c.written) : r.responseTx ≠ r'.responseTx := by
  have hdisjoint := h.distinct
  rw [List.map_append, List.nodup_append] at hdisjoint
  exact hdisjoint.2.2 _ (List.mem_map_of_mem hr) _ (List.mem_map_of_mem hr')

theorem Consistent.send (h : c.Consistent answered) (hrunning : c.running = true) (payload : Bytes)
    (hid : ∀ r ∈ c.calls, c.Live r → r.requestId ≠ c.nextRequestId) :
    (c.send payload).Consistent answered := by
  unfold Client.send submit
  rw [if_pos hrunning]
  dsimp only
  generalize hnew : (⟨c.nextRequestId, payload, c.calls.length⟩ : Request) = new
  have htx : new.responseTx = c.calls.length := by rw [← hnew]
  have hnewId : new.requestId = c.nextRequestId := by rw [← hnew]
  set c' : Client := { c with
    nextRequestId := c.nextRequestId + 1
    waiting := c.waiting ++ [.send new]
    calls := c.calls ++ [new] } with hc'
  have hq : c'.queue.Perm (new :: c.queue) := by
    simp only [queue, hc', sends_append, List.append_assoc]
    exact List.perm_middle
  have hperm : (c'.queue ++ c'.written).Perm (new :: (c.queue ++ c.written)) :=
    hq.append_right _
  have hlive : c'.Live new := h.fresh _ (le_of_eq htx.symm)
  -- an unfinished call has another id
  have hother : ∀ r ∈ c.queue ++ c.written, c.Live r → r.requestId ≠ new.requestId := by
    intro r hr hl
    rw [hnewId]
    exact hid r (List.mem_of_getElem? (h.called r hr)) hl
  refine ⟨?_, ?_, ?_, ?_, ?_, h.pending, h.unanswered⟩
  · intro r hr
    rcases List.mem_cons.1 (hperm.mem_iff.1 hr) with rfl | hr
    · simp [hc', htx]
    · have hlt := h.responseTx_lt hr
      rw [hc', List.getElem?_append_left hlt]
      exact h.called r hr
  · rw [(hperm.map _).nodup_iff, List.map_cons, List.nodup_cons]
    refine ⟨fun hmem => ?_, h.distinct⟩
    obtain ⟨r, hr, heq⟩ := List.mem_map.1 hmem
    have hlt := h.responseTx_lt hr
    omega
  · intro k hk
    rw [hc', List.length_append, List.length_singleton] at hk
    exact h.fresh k (by omega)
  · intro r hr r' hr' hl hl' heq
    rcases List.mem_cons.1 (hperm.mem_iff.1 hr) with rfl | hold
    · rcases List.mem_cons.1 (hperm.mem_iff.1 hr') with rfl | hold'
      · rfl
      · exact absurd heq.symm (hother r' hold' hl')
    · rcases List.mem_cons.1 (hperm.mem_iff.1 hr') with rfl | hold'
      · exact absurd heq (hother r hold hl)
      · exact h.ids r hold r' hold' hl hl' heq
  · intro r hr
    rcases List.mem_cons.1 (hq.mem_iff.1 hr) with rfl | hr
    · exact hlive
    · exact h.queued r hr

/-- A request that is taken from the channel has an id that is not pending. -/
theorem Consistent.lookup_queued (h : c.Consistent answered) (hr : r ∈ c.queue) :
    c.pendingRequests.lookup r.requestId = none := by
  cases hlookup : c.pendingRequests.lookup r.requestId with
  | none => rfl
  | some responseTx =>
    obtain ⟨r', hr', hid, -, hl⟩ := (h.pending _ _).1 hlookup
    have heq := h.ids r' (by simp [hr']) r (by simp [hr]) hl (h.queued r hr) hid
    exact absurd (congrArg Request.responseTx heq.symm) (h.ne_of_queued hr hr')

theorem Consistent.write (h : c.Consistent answered) {rest : List ConnectionMessage}
    (hchannel : c.channel = .send r :: rest) :
    ({ c with channel := rest, taken := [] }.handleOutgoingMessage (.send r)).1.Consistent
      answered := by
  have hsends : c.queue = sends c.waiting ++ r :: sends rest := by
    rw [queue, hchannel]
    rfl
  have hr : r ∈ c.queue := by simp [hsends]
  have hfree := h.lookup_queued hr
  unfold handleOutgoingMessage
  simp only [hfree, drop]
  set c' : Client := { c with
    channel := rest
    taken := []
    pendingRequests := c.pendingRequests.insert r.requestId r.responseTx
    written := c.written ++ [r] } with hc'
  have hmem : ∀ x, x ∈ c'.queue → x ∈ c.queue := by
    intro x hx
    rw [hsends]
    rcases List.mem_append.1 hx with hx | hx
    · exact List.mem_append_left _ hx
    · exact List.mem_append_right _ (List.mem_cons_of_mem _ hx)
  have hperm : (c'.queue ++ c'.written).Perm (c.queue ++ c.written) := by
    rw [hsends]
    simp only [queue, hc', List.append_assoc]
    refine List.Perm.append_left _ ?_
    rw [← List.append_assoc]
    exact List.perm_append_singleton r _
  refine ⟨?_, ?_, h.fresh, ?_, ?_, ?_, ?_⟩
  · exact fun x hx => h.called x (hperm.mem_iff.1 hx)
  · exact (hperm.map _).nodup_iff.2 h.distinct
  · exact fun x hx y hy => h.ids x (hperm.mem_iff.1 hx) y (hperm.mem_iff.1 hy)
  · exact fun x hx => h.queued x (hmem x hx)
  · intro requestId responseTx
    by_cases hid : requestId = r.requestId
    · subst hid
      rw [hc', AList.lookup_insert]
      constructor
      · intro heq
        exact ⟨r, by simp, rfl, Option.some.inj heq, h.queued r hr⟩
      · rintro ⟨x, hx, hxid, rfl, hl⟩
        rcases List.mem_append.1 hx with hx | hx
        · have hsome := (h.pending _ _).2 ⟨x, hx, hxid, rfl, hl⟩
          rw [hfree] at hsome
          cases hsome
        · rw [List.mem_singleton.1 hx]
    · rw [hc', AList.lookup_insert_ne hid, h.pending]
      constructor
      · rintro ⟨x, hx, hxs⟩
        exact ⟨x, List.mem_append_left _ hx, hxs⟩
      · rintro ⟨x, hx, hxid, hxs⟩
        rcases List.mem_append.1 hx with hx | hx
        · exact ⟨x, hx, hxid, hxs⟩
        · rw [List.mem_singleton.1 hx] at hxid
          exact absurd hxid.symm hid
  · intro n x hx ha
    rw [hc', List.getElem?_append] at hx
    split at hx
    · exact h.unanswered n x hx ha
    · obtain rfl := List.mem_singleton.1 (List.mem_of_getElem? hx)
      exact h.queued x hr

/-- The request that stands at place `n` is pending until its answer is parsed. -/
theorem Consistent.lookup_written (h : c.Consistent answered) (hr : c.written[n]? = some r)
    (hn : n ∉ answered) : c.pendingRequests.lookup r.requestId = some r.responseTx :=
  (h.pending _ _).2 ⟨r, List.mem_of_getElem? hr, rfl, rfl, h.unanswered n r hr hn⟩

theorem Consistent.respond (h : c.Consistent answered) (hr : c.written[n]? = some r)
    (hn : n ∉ answered) (result : Result) :
    (c.respond r.requestId result).Consistent (answered ++ [n]) := by
  have hwritten : r ∈ c.written := List.mem_of_getElem? hr
  have hmem : r ∈ c.queue ++ c.written := List.mem_append_right _ hwritten
  have hrlive := h.unanswered n r hr hn
  unfold Client.respond resolve
  rw [h.lookup_written hr hn]
  dsimp only
  set c' : Client := { c with
    results := Function.update c.results r.responseTx (some result)
    pendingRequests := c.pendingRequests.erase r.requestId } with hc'
  have hlive : ∀ x, c'.Live x ↔ c.Live x ∧ x.responseTx ≠ r.responseTx := by
    intro x
    by_cases hx : x.responseTx = r.responseTx <;> simp [Live, hc', hx]
  refine ⟨h.called, h.distinct, ?_, ?_, ?_, ?_, ?_⟩
  · intro k hk
    have hlt := h.responseTx_lt hmem
    have hne : k ≠ r.responseTx := by
      rintro rfl
      exact absurd hlt (not_lt.2 hk)
    show Function.update c.results _ _ k = none
    rw [Function.update_of_ne hne]
    exact h.fresh k hk
  · intro x hx y hy hxl hyl
    exact h.ids x hx y hy ((hlive x).1 hxl).1 ((hlive y).1 hyl).1
  · intro x hx
    exact (hlive x).2 ⟨h.queued x hx, h.ne_of_queued hx hwritten⟩
  · intro requestId responseTx
    by_cases hid : requestId = r.requestId
    · subst hid
      rw [hc', AList.lookup_erase]
      refine ⟨nofun, ?_⟩
      rintro ⟨x, hx, hxid, -, hl⟩
      obtain ⟨hxl, hxne⟩ := (hlive x).1 hl
      have heq := h.ids x (List.mem_append_right _ hx) r hmem hxl hrlive hxid
      exact absurd (congrArg Request.responseTx heq) hxne
    · rw [hc', AList.lookup_erase_ne hid, h.pending]
      refine exists_congr fun x => and_congr_right fun hx => and_congr_right fun hxid =>
        and_congr_right fun _ => ?_
      rw [hlive, iff_self_and]
      intro _ heq
      have := h.eq_of_responseTx (List.mem_append_right _ hx) hmem heq
      exact hid (by rw [← hxid, this])
  · intro k x hx hk
    rw [List.mem_append, List.mem_singleton, not_or] at hk
    refine (hlive x).2 ⟨h.unanswered k x hx hk.1, fun heq => hk.2 ?_⟩
    have hnodup : (c.written.map Request.responseTx).Nodup := by
      have hdistinct := h.distinct
      rw [List.map_append] at hdistinct
      exact hdistinct.of_append_right
    have hlt : k < (c.written.map Request.responseTx).length := by
      rw [List.length_map]
      exact (List.getElem?_eq_some_iff.1 hx).1
    refine (List.getElem?_inj hlt hnodup).1 ?_
    have hx' : c.written[k]? = some x := hx
    rw [List.getElem?_map, List.getElem?_map, hx', hr, Option.map_some, Option.map_some, heq]

@[simp] theorem respond_parsed {requestId : UInt64} {result : Result} :
    (c.respond requestId result).parsed = c.parsed := by
  unfold Client.respond
  split <;> rfl

@[simp] theorem respond_taken {requestId : UInt64} {result : Result} :
    (c.respond requestId result).taken = c.taken := by
  unfold Client.respond
  split <;> rfl

@[simp] theorem respond_written {requestId : UInt64} {result : Result} :
    (c.respond requestId result).written = c.written := by
  unfold Client.respond
  split <;> rfl

@[simp] theorem respond_calls {requestId : UInt64} {result : Result} :
    (c.respond requestId result).calls = c.calls := by
  unfold Client.respond
  split <;> rfl

/-- A response frame is handled by giving its call the result the server meant. -/
theorem handleIncomingFrame_answer (c : Client) (a : Answer) :
    c.handleIncomingFrame a.frame = c.respond a.requestId a.outcome.result := by
  obtain ⟨request, requestId, outcome⟩ := a
  cases outcome <;> rfl

end Client

/-! ## The two directions -/

/-- What the server reads of a request. -/
def Request.sent (r : Request) : UInt64 × Bytes :=
  (r.requestId, r.payload)

/-- The Send frames among frames. -/
def accepts (frames : List Frame) : List (UInt64 × Bytes) :=
  frames.filterMap fun frame =>
    if frame.msgType = frameTypeSend then some (frame.requestId, frame.payload) else none

/-- The requests are read in the order in which they have been written; those that have
not been read are on their way. -/
def Requested (accepted : List (UInt64 × Bytes)) (requests : Pipe) (written : List Request) :
    Prop :=
  ∃ frames, (∀ frame ∈ frames, framing.Valid frame) ∧ requests.bytes = framing.stream frames ∧
    accepted ++ accepts frames = written.map Request.sent

section

variable {accepted : List (UInt64 × Bytes)} {requests : Pipe} {written : List Request}
  {frame : Frame}

theorem Requested.write (h : Requested accepted requests written) (hvalid : framing.Valid frame)
    (more : List Request) (hmore : accepts [frame] = more.map Request.sent) :
    Requested accepted (requests.write (writeFrame frame)) (written ++ more) := by
  obtain ⟨frames, hframes, hbytes, haccepted⟩ := h
  refine ⟨frames ++ [frame], ?_, ?_, ?_⟩
  · intro f hf
    rcases List.mem_append.1 hf with hf | hf
    · exact hframes f hf
    · rw [List.mem_singleton.1 hf]
      exact hvalid
  · rw [Pipe.bytes_write, hbytes, Framing.stream_append]
    simp [framing]
  · rw [List.map_append, ← hmore, ← haccepted]
    simp [accepts]

theorem Requested.serve (h : Requested accepted requests written) {rest : Bytes}
    (hread : readFrame requests.arrived = some (frame, rest)) :
    Requested (accepted ++ accepts [frame]) { requests with arrived := rest } written := by
  obtain ⟨frames, hframes, hbytes, haccepted⟩ := h
  obtain ⟨frames', rfl, hrest⟩ := framing.read_stream hframes hbytes hread
  refine ⟨frames', fun f hf => hframes f (by simp [hf]), hrest, ?_⟩
  rw [← haccepted, List.append_assoc]
  simp only [accepts, ← List.filterMap_append, List.singleton_append]

/-- The `n`-th request the server has read is the `n`-th that was written. -/
theorem Requested.getElem? (h : Requested accepted requests written) {n : Nat}
    {p : UInt64 × Bytes} (hn : accepted[n]? = some p) :
    ∃ r, written[n]? = some r ∧ r.sent = p := by
  obtain ⟨frames, -, -, haccepted⟩ := h
  have hlt := (List.getElem?_eq_some_iff.1 hn).1
  have hall : (accepted ++ accepts frames)[n]? = some p := by
    rw [List.getElem?_append_left hlt, hn]
  rwa [haccepted, List.getElem?_map, Option.map_eq_some_iff] at hall

end

/-- The call numbered `k` is a request whose answer has the result. -/
def State.Answered (s : State) (k : Nat) (result : Result) : Prop :=
  ∃ a ∈ s.server.answers, ∃ r, s.client.written[a.request]? = some r ∧ r.responseTx = k ∧
    a.outcome.result = result

/-- What holds in every state of a run that meets the condition. -/
structure Inv (s : State) : Prop where
  requests : Requested s.server.accepted s.requests s.client.written
  answers : ∀ a ∈ s.server.answers,
    ∃ payload, s.server.accepted[a.request]? = some (a.requestId, payload)
  once : (s.server.answers.map Answer.request).Nodup
  called : ∀ r ∈ s.client.written, s.client.calls[r.responseTx]? = some r
  results : ∀ k result, s.client.results k = some result →
    result = .error .connectionClosed ∨ s.Answered k result
  parsed : s.client.parsed <+: s.server.frames
  /-- The answers are those whose frame has been parsed and those on their way. -/
  running : s.client.running = true → ∃ done todo, s.server.answers = done ++ todo ∧
    s.client.parsed = done.map Answer.frame ∧ (∀ a ∈ todo, framing.Valid a.frame) ∧
    s.client.taken ++ s.responses.bytes = framing.stream (todo.map Answer.frame) ∧
    s.client.Consistent (done.map Answer.request)

/-! ## Steps -/

/-- The bytes a message carries. -/
def ConnectionMessage.payload : ConnectionMessage → Bytes
  | .send request => request.payload
  | .cast payload => payload
  | .close => []

variable {s s' : State}

theorem inv_initial : Inv initial where
  requests := ⟨[], by simp, rfl, rfl⟩
  answers := by simp [initial]
  once := by simp [initial]
  called := by simp [initial]
  results := by simp [initial]
  parsed := List.nil_prefix
  running _ := by
    refine ⟨[], [], rfl, rfl, by simp, rfl, ?_⟩
    exact ⟨by simp [initial, Client.queue, sends], by simp [initial, Client.queue, sends],
      by simp [initial], by simp [initial, Client.queue, sends],
      by simp [initial, Client.queue, sends], by simp [initial], by simp [initial]⟩

/-- A step of the client alone, which writes and parses nothing. -/
theorem Inv.client (h : Inv s) {c : Client} (hw : c.written = s.client.written)
    (hp : c.parsed = s.client.parsed) (ht : c.taken = s.client.taken)
    (hr : c.running = s.client.running) (hcalls : s.client.calls <+: c.calls)
    (hresults : ∀ k result, c.results k = some result →
      result = .error .connectionClosed ∨ s.client.results k = some result)
    (hcons : ∀ answered, s.client.running = true → s.client.Consistent answered →
      c.Consistent answered) : Inv { s with client := c } where
  requests := by
    simp only [hw]
    exact h.requests
  answers := h.answers
  once := h.once
  called := by
    simp only [hw]
    intro r hmem
    obtain ⟨more, hmore⟩ := hcalls
    have hcalled := h.called r hmem
    rw [← hmore, List.getElem?_append_left (List.getElem?_eq_some_iff.1 hcalled).1]
    exact hcalled
  results := by
    intro k result hk
    simp only [State.Answered, hw]
    rcases hresults k result hk with hclosed | hold
    · exact .inl hclosed
    · exact h.results k result hold
  parsed := by
    simp only [hp]
    exact h.parsed
  running := by
    simp only [hp, ht, hr]
    intro hrun
    obtain ⟨done, todo, hanswers, hparsed, hvalid, hstream, hc⟩ := h.running hrun
    exact ⟨done, todo, hanswers, hparsed, hvalid, hstream, hcons _ hrun hc⟩

theorem Inv.send (h : Inv s) (payload : Bytes)
    (hid : ∀ r ∈ s.client.calls, s.client.Live r → r.requestId ≠ s.client.nextRequestId) :
    Inv { s with client := s.client.send payload } := by
  have hcons : ∀ answered, s.client.running = true → s.client.Consistent answered →
      (s.client.send payload).Consistent answered :=
    fun answered hrun hc => hc.send hrun payload hid
  by_cases hrun : s.client.running = true
  · refine h.client ?_ ?_ ?_ ?_ ?_ ?_ hcons <;>
      simp +contextual [Client.send, hrun, Client.submit]
  · refine h.client ?_ ?_ ?_ ?_ ?_ ?_ hcons
    case refine_6 =>
      intro k result hk
      simp only [Client.send, hrun, Client.resolve] at hk
      by_cases hnew : k = s.client.calls.length
      · left
        simpa [hnew, eq_comm] using hk
      · right
        simpa [hnew] using hk
    all_goals simp [Client.send, hrun, Client.resolve]

theorem Inv.post (h : Inv s) {msg : ConnectionMessage} (hmsg : sends [msg] = []) :
    Inv { s with client := s.client.post msg } := by
  have hcons : ∀ answered, s.client.running = true → s.client.Consistent answered →
      (s.client.post msg).Consistent answered := fun answered _ hc => hc.post hmsg
  refine h.client ?_ ?_ ?_ ?_ ?_ ?_ hcons <;> unfold Client.post <;> split <;>
    simp +contextual [Client.submit]

theorem Inv.enqueue (h : Inv s) {i : Nat} {c : Client} (hc : s.client.enqueue i = some c) :
    Inv { s with client := c } := by
  have hcons : ∀ answered, s.client.running = true → s.client.Consistent answered →
      c.Consistent answered := fun answered _ hcons => hcons.enqueue hc
  unfold Client.enqueue at hc
  split at hc
  · split at hc
    · cases hc
      exact h.client rfl rfl rfl rfl List.prefix_rfl (fun _ _ => .inr) hcons
    · cases hc
  · cases hc

theorem Inv.arriveRequests (h : Inv s) (n : Nat) :
    Inv { s with requests := s.requests.arrive n } where
  requests := by
    obtain ⟨frames, hframes, hbytes, haccepted⟩ := h.requests
    exact ⟨frames, hframes, by rw [Pipe.bytes_arrive, hbytes], haccepted⟩
  answers := h.answers
  once := h.once
  called := h.called
  results := h.results
  parsed := h.parsed
  running := h.running

theorem Inv.arriveResponses (h : Inv s) (n : Nat) :
    Inv { s with responses := s.responses.arrive n } where
  requests := h.requests
  answers := h.answers
  once := h.once
  called := h.called
  results := h.results
  parsed := h.parsed
  running := by
    simp only [Pipe.bytes_arrive]
    exact h.running

/-- The server reads a frame: the requests it has accepted grow by it if it is one. -/
theorem Inv.serve (h : Inv s) (hs : s.serve = some s') : Inv s' := by
  unfold State.serve at hs
  split at hs
  · next frame rest hread =>
    have haccepted : (if frame.msgType = frameTypeSend then
        { s.server with accepted := s.server.accepted ++ [(frame.requestId, frame.payload)] }
        else s.server) =
        { s.server with accepted := s.server.accepted ++ accepts [frame] } := by
      by_cases hsend : frame.msgType = frameTypeSend <;> simp [accepts, hsend]
    rw [haccepted] at hs
    cases hs
    refine ⟨h.requests.serve hread, ?_, h.once, h.called, h.results, h.parsed, h.running⟩
    intro a ha
    obtain ⟨payload, hpayload⟩ := h.answers a ha
    have hlt := (List.getElem?_eq_some_iff.1 hpayload).1
    refine ⟨payload, ?_⟩
    rw [List.getElem?_append_left hlt]
    exact hpayload
  · cases hs

/-- The server writes an answer: it joins those on their way. -/
theorem Inv.answer (h : Inv s) {request : Nat} {outcome : Outcome}
    (hvalid : outcome.payload.length < 256 ^ 4) (hs : s.answer request outcome = some s') :
    Inv s' := by
  unfold State.answer at hs
  split at hs
  · next requestId payload haccepted =>
    split at hs
    · cases hs
    · next hnew =>
      cases hs
      refine ⟨h.requests, ?_, ?_, h.called, ?_, ?_, ?_⟩
      · intro a ha
        rcases List.mem_append.1 ha with ha | ha
        · exact h.answers a ha
        · rw [List.mem_singleton.1 ha]
          exact ⟨payload, haccepted⟩
      · rw [List.map_append, List.nodup_append]
        refine ⟨h.once, by simp, ?_⟩
        rintro _ hold _ hsingle rfl
        obtain rfl : _ = request := by simpa using hsingle
        exact hnew hold
      · intro k result hk
        refine (h.results k result hk).imp_right ?_
        rintro ⟨a, ha, hanswer⟩
        exact ⟨a, List.mem_append_left _ ha, hanswer⟩
      · refine h.parsed.trans ?_
        simp [Server.frames]
      · intro hrun
        obtain ⟨done, todo, hanswers, hparsed, htodo, hstream, hcons⟩ := h.running hrun
        refine ⟨done, todo ++ [⟨request, requestId, outcome⟩], ?_, hparsed, ?_, ?_, hcons⟩
        · simp [hanswers]
        · intro a ha
          rcases List.mem_append.1 ha with ha | ha
          · exact htodo a ha
          · rw [List.mem_singleton.1 ha]
            exact hvalid
        · rw [Pipe.bytes_write, ← List.append_assoc, hstream, List.map_append,
            Framing.stream_append]
          simp [framing]
  · cases hs

/-- The task writes a message. A request finds its id free, so no other call loses its
sender. -/
theorem Inv.takeMessage (h : Inv s)
    (hmsg : ∀ msg ∈ s.client.channel.head?, msg.payload.length < 256 ^ 4 ∧
      (msg ≠ .close → s.client.taken = [])) (hs : s.takeMessage = some s') : Inv s' := by
  unfold State.takeMessage at hs
  split at hs
  · next msg rest hrun hchannel =>
    obtain ⟨hlength, htaken⟩ := hmsg msg (by simp [hchannel])
    obtain ⟨done, todo, hanswers, hparsed, hvalid, hstream, hcons⟩ := h.running hrun
    cases msg with
    | send r =>
      have hr : r ∈ s.client.queue := by simp [Client.queue, hchannel, sends]
      have hwrite := hcons.write hchannel
      have hcalled := hcons.called r (List.mem_append_left _ hr)
      simp only [Client.handleOutgoingMessage, hcons.lookup_queued hr, Client.drop] at hs hwrite
      cases hs
      have hframe : framing.Valid ⟨frameTypeSend, r.requestId, r.payload⟩ := hlength
      have hrequests := h.requests.write hframe [r] rfl
      refine ⟨hrequests, h.answers, h.once, ?_, ?_, h.parsed, ?_⟩
      · intro x hx
        rcases List.mem_append.1 hx with hx | hx
        · exact h.called x hx
        · rw [List.mem_singleton.1 hx]
          exact hcalled
      · intro k result hk
        refine (h.results k result hk).imp_right ?_
        rintro ⟨a, ha, x, hx, hanswer⟩
        refine ⟨a, ha, x, ?_, hanswer⟩
        rw [List.getElem?_append_left (List.getElem?_eq_some_iff.1 hx).1]
        exact hx
      · intro _
        rw [htaken nofun] at hstream
        exact ⟨done, todo, hanswers, hparsed, hvalid, hstream, hwrite⟩
    | cast payload =>
      cases hs
      have hframe : framing.Valid ⟨frameTypeCast, 0, payload⟩ := hlength
      have hrequests := h.requests.write hframe [] rfl
      rw [List.append_nil] at hrequests
      refine ⟨hrequests, h.answers, h.once, h.called, h.results, h.parsed, fun _ => ?_⟩
      rw [htaken nofun] at hstream
      refine ⟨done, todo, hanswers, hparsed, hvalid, hstream, ?_⟩
      refine hcons.of_perm ?_ rfl rfl rfl rfl
      simp [Client.queue, hchannel, sends]
    | close =>
      cases hs
      refine ⟨?_, h.answers, h.once, h.called, ?_, h.parsed, nofun⟩
      · obtain ⟨frames, hframes, hbytes, haccepted⟩ := h.requests
        exact ⟨frames, hframes, by rw [Pipe.bytes_write, hbytes, List.append_nil], haccepted⟩
      · intro k result hk
        simp only [Client.stop] at hk
        split at hk
        · cases hold : s.client.results k with
          | none => simp_all
          | some result' =>
            rw [hold] at hk
            obtain rfl := Option.some.inj hk
            exact h.results k _ hold
        · cases hk
  · cases hs

/-- The task reads: a frame that is complete is the next answer, and its request is
pending. -/
theorem Inv.poll (h : Inv s) (hs : s.poll = some s') : Inv s' := by
  unfold State.poll at hs
  split at hs
  · next hrun =>
    obtain ⟨done, todo, hanswers, hparsed, hvalid, hstream, hcons⟩ := h.running hrun
    have hmore : (s.client.taken ++ s.responses.arrived) ++ s.responses.flight =
        framing.stream (todo.map Answer.frame) := by
      rw [← hstream, Pipe.bytes, List.append_assoc]
    split at hs
    · next frame rest hread =>
      have hframes : ∀ f ∈ todo.map Answer.frame, framing.Valid f := by
        intro f hf
        obtain ⟨a, ha, rfl⟩ := List.mem_map.1 hf
        exact hvalid a ha
      obtain ⟨frames, htodo, hrest⟩ := framing.read_stream hframes hmore hread
      obtain ⟨a, todo, rfl, rfl, rfl⟩ := List.map_eq_cons_iff.1 htodo
      -- the frame answers the request at the place the server has recorded
      have ha : a ∈ s.server.answers := by simp [hanswers]
      obtain ⟨payload, haccepted⟩ := h.answers a ha
      obtain ⟨r, hr, hsent⟩ := h.requests.getElem? haccepted
      have hid : r.requestId = a.requestId := congrArg Prod.fst hsent
      have hnew : a.request ∉ done.map Answer.request := by
        have honce := h.once
        rw [hanswers, List.map_append, List.nodup_append] at honce
        exact fun hmem => honce.2.2 _ hmem _ (by simp) rfl
      simp only [Client.handleIncomingFrame_answer, ← hid] at hs
      cases hs
      set c : Client := { s.client with taken := [], parsed := s.client.parsed ++ [a.frame] }
        with hc
      have hcons' : c.Consistent (done.map Answer.request) :=
        hcons.of_perm (List.Perm.refl _) rfl rfl rfl rfl
      have hall : s.client.parsed ++ [a.frame] = (done ++ [a]).map Answer.frame := by
        rw [hparsed, List.map_append, List.map_singleton]
      refine ⟨?_, h.answers, h.once, ?_, ?_, ?_, fun _ => ?_⟩
      · simpa [hc] using h.requests
      · simpa [hc] using h.called
      · intro k result hk
        have hlookup := hcons'.lookup_written hr hnew
        simp only [Client.respond, hlookup, Client.resolve] at hk
        by_cases hk' : k = r.responseTx
        · subst hk'
          rw [Function.update_self] at hk
          exact .inr ⟨a, ha, r, by simpa [hc] using hr, rfl, Option.some.inj hk⟩
        · rw [Function.update_of_ne hk'] at hk
          simpa [hc, State.Answered] using h.results k result hk
      · simp only [Client.respond_parsed, hc, hall, Server.frames, hanswers]
        exact ⟨todo.map Answer.frame, by simp⟩
      · refine ⟨done ++ [a], todo, ?_, ?_, fun b hb => hvalid b (by simp [hb]), ?_, ?_⟩
        · simp [hanswers]
        · rw [Client.respond_parsed, hc, hall]
        · rw [Client.respond_taken, hc, List.nil_append, ← hrest, Pipe.bytes]
        · rw [List.map_append, List.map_singleton]
          exact hcons'.respond hr hnew _
    · cases hs
      refine ⟨h.requests, h.answers, h.once, h.called, h.results, h.parsed, fun _ => ?_⟩
      exact ⟨done, todo, hanswers, hparsed, hvalid, hmore,
        hcons.of_perm (List.Perm.refl _) rfl rfl rfl rfl⟩
  · cases hs

/-! ## Runs -/

/-- What the connection is for: frames are parsed as the server has written them, and
what a `send` returns is the server's answer to its request. -/
structure Multiplexed (s : State) : Prop where
  frames : ∃ rest, s.server.frames = s.client.parsed ++ rest ∧
    (s.client.running = true → s.client.taken ++ s.responses.bytes = framing.stream rest)
  results : ∀ k payload, s.client.results k = some (.ok payload) →
    ∃ a ∈ s.server.answers, ∃ r, s.client.written[a.request]? = some r ∧
      s.client.calls[k]? = some r ∧ s.server.accepted[a.request]? = some (r.requestId, r.payload) ∧
      a.outcome.result = .ok payload

/-- The condition on a step: no message is taken while a frame is half read (the end of
the task apart), no call takes the id of one without a result, and lengths fit a `u32`. -/
def Uninterrupted (s : State) : Label → Prop
  | .send _ => ∀ r ∈ s.client.calls, s.client.Live r → r.requestId ≠ s.client.nextRequestId
  | .takeMessage => ∀ msg ∈ s.client.channel.head?, msg.payload.length < 256 ^ 4 ∧
      (msg ≠ .close → s.client.taken = [])
  | .answer _ outcome => outcome.payload.length < 256 ^ 4
  | _ => True

theorem Inv.step (h : Inv s) {l : Label} (hl : Uninterrupted s l) (hs : step s l = some s') :
    Inv s' := by
  cases l with
  | send payload =>
    cases hs
    exact h.send payload hl
  | cast payload =>
    cases hs
    exact h.post rfl
  | close =>
    cases hs
    exact h.post rfl
  | enqueue i =>
    obtain ⟨c, hc, rfl⟩ := Option.map_eq_some_iff.1 hs
    exact h.enqueue hc
  | takeMessage => exact h.takeMessage hl hs
  | poll => exact h.poll hs
  | arriveRequests n =>
    cases hs
    exact h.arriveRequests n
  | arriveResponses n =>
    cases hs
    exact h.arriveResponses n
  | serve => exact h.serve hs
  | answer request outcome => exact h.answer hl hs

theorem Inv.multiplexed (h : Inv s) : Multiplexed s where
  frames := by
    by_cases hrun : s.client.running = true
    · obtain ⟨done, todo, hanswers, hparsed, -, hstream, -⟩ := h.running hrun
      refine ⟨todo.map Answer.frame, ?_, fun _ => hstream⟩
      rw [Server.frames, hanswers, List.map_append, hparsed]
    · obtain ⟨rest, hrest⟩ := h.parsed
      exact ⟨rest, hrest.symm, fun hr => absurd hr hrun⟩
  results := by
    intro k payload hk
    rcases h.results k _ hk with hclosed | ⟨a, ha, r, hr, rfl, hresult⟩
    · cases hclosed
    · obtain ⟨payload', haccepted⟩ := h.answers a ha
      obtain ⟨r', hr', hsent⟩ := h.requests.getElem? haccepted
      obtain rfl : r = r' := Option.some.inj (hr.symm.trans hr')
      refine ⟨a, ha, r, hr, h.called r (List.mem_of_getElem? hr), ?_, hresult⟩
      rw [haccepted, ← hsent, Request.sent]

theorem multiplexed_of_run {ls : List Label} (hs : exec DistBench.RustTcp.step initial ls = some s)
    (h : Meets DistBench.RustTcp.step initial (fun _ => Uninterrupted) ls) : Multiplexed s := by
  have hinv := run_induction
    (P := fun ls s => Meets DistBench.RustTcp.step initial (fun _ => Uninterrupted) ls → Inv s)
    (fun _ => inv_initial)
    (fun ls s l s' hs ih hl hmeets =>
      (ih hmeets.prefix).step (hmeets.last hs) hl)
    ls s hs
  exact (hinv h).multiplexed

/-! ## Two connections -/

instance (s : State) : DecidablePred (Uninterrupted s)
  | .send _ => inferInstanceAs (Decidable (∀ r ∈ s.client.calls,
      s.client.results r.responseTx = none → r.requestId ≠ s.client.nextRequestId))
  | .takeMessage => inferInstanceAs (Decidable (∀ msg ∈ s.client.channel.head?,
      msg.payload.length < 256 ^ 4 ∧ (msg ≠ .close → s.client.taken = [])))
  | .answer _ outcome => inferInstanceAs (Decidable (outcome.payload.length < 256 ^ 4))
  | .cast _ | .close | .enqueue _ | .poll | .arriveRequests _ | .arriveResponses _ | .serve =>
    inferInstanceAs (Decidable True)

/-- Two requests that are answered in the other order; the first response arrives
together with a part of the second one. -/
def twoSends : List Label :=
  [.send [7], .send [8], .enqueue 1, .enqueue 0, .takeMessage, .takeMessage, .arriveRequests 28,
    .serve, .serve, .cast [9], .answer 1 (.ok none), .answer 0 (.ok (some [5, 6])),
    .enqueue 0, .takeMessage, .arriveResponses 20, .poll, .poll, .arriveResponses 8, .poll]

theorem multiplexed_of_run_twoSends :
    ∃ s, exec step initial twoSends = some s ∧ s.client.results 0 = some (.ok []) ∧
      s.client.results 1 = some (.ok [5, 6]) ∧ Multiplexed s := by
  obtain ⟨s, hs, hresults⟩ := exists_exec_of_any step initial twoSends
    (fun s => s.client.results 0 = some (.ok []) ∧ s.client.results 1 = some (.ok [5, 6]))
    (by decide)
  have hmeets : Meets step initial (fun _ => Uninterrupted) twoSends :=
    meets_of_meetsFrom (by decide)
  exact ⟨s, hs, (of_decide_eq_true hresults).1, (of_decide_eq_true hresults).2,
    multiplexed_of_run hs hmeets⟩

/-- The server's response is itself the bytes of a response frame. -/
def nested : Bytes :=
  writeFrame ⟨frameTypeResponseOk, 1, [66]⟩

/-- When the header of the response has been read, a cast is taken: the task goes on
with the payload. -/
def interrupted : List Label :=
  [.send [7], .enqueue 0, .takeMessage, .arriveRequests 14, .serve, .answer 0 (.ok (some nested)),
    .arriveResponses 13, .poll, .cast [8], .enqueue 0, .takeMessage, .arriveResponses 14, .poll]

/-- **A message taken while a frame is half read breaks the connection**: the `send`
returns what stands inside the server's payload. -/
theorem not_multiplexed : ¬ ∀ ls s, exec step initial ls = some s → Multiplexed s := by
  intro hall
  obtain ⟨s, hs, hcheck⟩ := exists_exec_of_any step initial interrupted
    (fun s => s.client.results 0 = some (.ok [66]) ∧
      ∀ a ∈ s.server.answers, a.outcome.result ≠ .ok [66]) (by decide)
  obtain ⟨hreturned, hanswers⟩ := of_decide_eq_true hcheck
  obtain ⟨a, ha, -, -, -, -, hresult⟩ := (hall _ s hs).results 0 _ hreturned
  exact hanswers a ha hresult

end DistBench.RustTcp
