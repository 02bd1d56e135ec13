import DistBench.Lifecycle.Node

/-!
# Nobody runs before everybody has started, nobody ends before everybody stops

A node sends STARTED only in the status STARTING and FINISHED only in the status
STOPPING, so an entry RUNNING or TERMINATED in a peer table says that the peer
has been in the earlier status, also long after the peer has left it. The
invariant (`ok`) records this of messages and of tables, and of the statuses that
are entered when a table is full. A node enters STARTING only with the keys of
all its peers, and keys are never removed; so once anybody is RUNNING everybody
has all keys, and since algorithm messages come from code that runs after that,
no handler of one lacks a key.

- `Enters`, `Seen`, `Ran`: the events of a run these statements are about.
- `StateOk`, `TaskOk`, `MsgOk`, `ok_inductive`: the invariant.
- `running_of_run`, `terminated_of_run`, `keys_of_ran`: the three parts.
- `barrier`: all of it.
-/

namespace DistBench.Lifecycle.System

open DistBench.Async

variable {A M K : Type} [DecidableEq M] [DecidableEq K] {Y : System A M K}
  {ls ls' : Trace PeerId (NodeMessage M) (Cont K)} {l : Label PeerId (NodeMessage M) (Cont K)}
  {c c' base : Config PeerId (NodeMessage M) (NodeState A) (Cont K)}
  {o : Outcome PeerId (NodeMessage M) (NodeState A) (Cont K)} {i j : PeerId} {s : NodeState A}
  {st : NodeStatus}

/-- One step of the network of the nodes. -/
abbrev step (Y : System A M K) := Async.step Y.protocol Y.parties

/-! ## Events -/

/-- Node `i` enters the status `st`. -/
def Enters (Y : System A M K) (i : PeerId) (st : NodeStatus) :
    Config PeerId (NodeMessage M) (NodeState A) (Cont K) →
      Label PeerId (NodeMessage M) (Cont K) → Prop :=
  Becomes Y.step fun c => (c.st i).status = st

/-- Node `i` handles the message `msg` of node `j`. -/
def Handles (i j : PeerId) (msg : NodeMessage M)
    (_ : Config PeerId (NodeMessage M) (NodeState A) (Cont K))
    (l : Label PeerId (NodeMessage M) (Cont K)) : Prop :=
  l = .recv ⟨j, i, msg⟩

/-- Node `j` has entered the status `st`, and later node `i` has handled its
message `msg`. -/
def Seen (Y : System A M K) (ls : Trace PeerId (NodeMessage M) (Cont K)) (i j : PeerId)
    (st : NodeStatus) (msg : NodeMessage M) : Prop :=
  OccursThen Y.step Y.initial ls (Y.Enters j st) (Handles i j msg)

/-- Some node has entered the status RUNNING. -/
def Ran (Y : System A M K) (ls : Trace PeerId (NodeMessage M) (Cont K)) : Prop :=
  ∃ i ∈ Y.parties.nodes, Occurs Y.step Y.initial ls (Y.Enters i .running)

theorem Ran.append (h : Y.Ran ls) : Y.Ran (ls ++ ls') := by
  obtain ⟨i, hi, hocc⟩ := h
  exact ⟨i, hi, hocc.append⟩

/-- A status a node has and did not begin with has been entered. -/
theorem entered (hc : exec Y.step Y.initial ls = some c) (hst : (c.st i).status = st)
    (hne : st ≠ .notStarted) : Occurs Y.step Y.initial ls (Y.Enters i st) := by
  refine occurs_becomes (p := fun c => (c.st i).status = st) ?_ ls c hc hst
  intro h
  exact hne h.symm

/-! ## The invariant -/

/-- What is true of a node's state. -/
structure StateOk (Y : System A M K) (ls : Trace PeerId (NodeMessage M) (Cont K)) (i : PeerId)
    (s : NodeState A) : Prop where
  own : s.started = true → i ∈ s.keys
  sound : ∀ k v, s.keys.lookup k = some v → v = Y.publicKey k
  created : s.status ≠ .notStarted → s.started = true
  starting : s.status = .starting → ∀ j ∈ Y.peers i, j ∈ s.keys
  table_running : ∀ j, s.peerStatus.get j .notStarted = .running → Y.Seen ls i j .starting .started
  table_terminated : ∀ j, s.peerStatus.get j .notStarted = .terminated →
    Y.Seen ls i j .stopping .finished
  running : s.status = .running → Occurs Y.step Y.initial ls (Y.Enters i .starting) ∧
    ∀ j ∈ Y.peers i, Y.Seen ls i j .starting .started
  terminated : s.status = .terminated → ∀ j ∈ Y.peers i, Y.Seen ls i j .stopping .finished

/-- What is true of a suspended coroutine of a node in state `s`: it exists because
`start` has been called, the node has entered the status it works for, and code
of the algorithm is there because some node is running. -/
def TaskOk (Y : System A M K) (ls : Trace PeerId (NodeMessage M) (Cont K)) (i : PeerId)
    (s : NodeState A) : Cont K → Prop
  | .start | .serve | .monitor => True
  | .delaying | .waiting | .notStarted _ | .keySharing | .running _ => s.started = true
  | .starting => s.started = true ∧ Occurs Y.step Y.initial ls (Y.Enters i .starting)
  | .stopping => s.started = true ∧ Occurs Y.step Y.initial ls (Y.Enters i .stopping)
  | .onStart _ => s.started = true ∧ Y.Ran ls
  | .handler _ => Y.Ran ls

/-- What is true of a message. -/
def MsgOk (Y : System A M K) (ls : Trace PeerId (NodeMessage M) (Cont K)) (src : PeerId) :
    NodeMessage M → Prop
  | .pubkey key => key = Y.publicKey src
  | .started => Occurs Y.step Y.initial ls (Y.Enters src .starting)
  | .finished => Occurs Y.step Y.initial ls (Y.Enters src .stopping)
  | .algorithm _ => Y.Ran ls

theorem StateOk.append (h : Y.StateOk ls i s) : Y.StateOk (ls ++ ls') i s where
  own := h.own
  sound := h.sound
  created := h.created
  starting := h.starting
  table_running j hj := (h.table_running j hj).append
  table_terminated j hj := (h.table_terminated j hj).append
  running hs := ⟨(h.running hs).1.append, fun j hj => ((h.running hs).2 j hj).append⟩
  terminated hs j hj := (h.terminated hs j hj).append

/-- What is said of a state says nothing of the algorithm and of the monitor's event. -/
theorem StateOk.of_eq {s' : NodeState A} (h : Y.StateOk ls i s)
    (hstarted : s'.started = s.started) (hkeys : s'.keys = s.keys)
    (hstatus : s'.status = s.status) (htable : s'.peerStatus = s.peerStatus) :
    Y.StateOk ls i s' where
  own hs := hkeys ▸ h.own (hstarted ▸ hs)
  sound k v hk := h.sound k v (hkeys ▸ hk)
  created hs := hstarted ▸ h.created (hstatus ▸ hs)
  starting hs j hj := hkeys ▸ h.starting (hstatus ▸ hs) j hj
  table_running j hj := h.table_running j (htable ▸ hj)
  table_terminated j hj := h.table_terminated j (htable ▸ hj)
  running hs := h.running (hstatus ▸ hs)
  terminated hs := h.terminated (hstatus ▸ hs)

theorem TaskOk.append {t : Cont K} (h : Y.TaskOk ls i s t) : Y.TaskOk (ls ++ ls') i s t := by
  cases t with
  | start | serve | monitor => trivial
  | delaying | waiting | notStarted _ | keySharing | running _ => exact h
  | starting | stopping => exact ⟨h.1, h.2.append⟩
  | onStart k => exact ⟨h.1, h.2.append⟩
  | handler k => exact Ran.append h

/-- The state matters only as far as `start` has been called. -/
theorem TaskOk.of_started {t : Cont K} {s' : NodeState A} (h : Y.TaskOk ls i s t)
    (hs : s.started = true → s'.started = true) : Y.TaskOk ls i s' t := by
  cases t with
  | start | serve | monitor => trivial
  | delaying | waiting | notStarted _ | keySharing | running _ => exact hs h
  | starting | stopping => exact ⟨hs h.1, h.2⟩
  | onStart k => exact ⟨hs h.1, h.2⟩
  | handler k => exact h

theorem MsgOk.append {src : PeerId} {msg : NodeMessage M} (h : Y.MsgOk ls src msg) :
    Y.MsgOk (ls ++ ls') src msg := by
  cases msg with
  | pubkey key => exact h
  | started | finished => exact Occurs.append h
  | algorithm msg => exact Ran.append h

/-- What is never undone: a call of `start`, and the keys there are. -/
structure Kept (s s' : NodeState A) : Prop where
  started : s.started = true → s'.started = true
  keys : ∀ k, k ∈ s.keys → k ∈ s'.keys

theorem Kept.of_eq {s' : NodeState A} (hs : s'.started = s.started) (hk : s'.keys = s.keys) :
    Kept s s' :=
  ⟨fun h => hs ▸ h, fun _ h => hk ▸ h⟩

/-- What a segment of a node that was in state `s` has to leave behind. -/
structure Good (Y : System A M K) (ls : Trace PeerId (NodeMessage M) (Cont K)) (i : PeerId)
    (s : NodeState A) (o : Outcome PeerId (NodeMessage M) (NodeState A) (Cont K)) : Prop where
  st : Y.StateOk ls i o.st
  kept : Kept s o.st
  rest : ∀ t ∈ o.rest, Y.TaskOk ls i o.st t
  out : ∀ dm ∈ o.out, Y.MsgOk ls i dm.2

/-! ## The writes -/

/-- A status may be written when what it says is true. -/
theorem StateOk.setStatus (h : Y.StateOk ls i s) (st : NodeStatus) (hstarted : s.started = true)
    (hstarting : st = .starting → ∀ j ∈ Y.peers i, j ∈ s.keys)
    (hrunning : st = .running → Occurs Y.step Y.initial ls (Y.Enters i .starting) ∧
      ∀ j ∈ Y.peers i, Y.Seen ls i j .starting .started)
    (hterminated : st = .terminated → ∀ j ∈ Y.peers i, Y.Seen ls i j .stopping .finished) :
    Y.StateOk ls i (s.setStatus st) where
  own := h.own
  sound := h.sound
  created _ := hstarted
  starting := hstarting
  table_running := h.table_running
  table_terminated := h.table_terminated
  running := hrunning
  terminated := hterminated

/-- Keys are only added. -/
theorem StateOk.addKey (h : Y.StateOk ls i s) (src : PeerId) {key : List UInt8}
    (hkey : key = Y.publicKey src) : Y.StateOk ls i (s.addKey src key) where
  own hs := AList.mem_insert _ |>.mpr (.inr (h.own hs))
  sound k v hv := by
    by_cases hk : k = src
    · subst hk
      have hlookup : some key = some v := by simpa [NodeState.addKey] using hv
      rw [← Option.some.inj hlookup, hkey]
    · refine h.sound k v ?_
      simpa [NodeState.addKey, AList.lookup_insert_ne hk] using hv
  created := h.created
  starting hs j hj := AList.mem_insert _ |>.mpr (.inr (h.starting hs j hj))
  table_running := h.table_running
  table_terminated := h.table_terminated
  running := h.running
  terminated := h.terminated

theorem Kept.addKey {src : PeerId} {key : List UInt8} : Kept s (s.addKey src key) :=
  ⟨id, fun _ hk => AList.mem_insert _ |>.mpr (.inr hk)⟩

/-- An entry of the peer table may be written when what it says is true. -/
theorem StateOk.setPeerStatus (h : Y.StateOk ls i s) (src : PeerId) (st : NodeStatus)
    (hrunning : st = .running → Y.Seen ls i src .starting .started)
    (hterminated : st = .terminated → Y.Seen ls i src .stopping .finished) :
    Y.StateOk ls i (s.setPeerStatus src st) where
  own := h.own
  sound := h.sound
  created := h.created
  starting := h.starting
  table_running j hj := by
    by_cases hjs : j = src
    · subst hjs
      rw [NodeState.setPeerStatus, Dict.get_insert_self] at hj
      exact hrunning hj
    · rw [NodeState.setPeerStatus, Dict.get_insert_of_ne hjs] at hj
      exact h.table_running j hj
  table_terminated j hj := by
    by_cases hjs : j = src
    · subst hjs
      rw [NodeState.setPeerStatus, Dict.get_insert_self] at hj
      exact hterminated hj
    · rw [NodeState.setPeerStatus, Dict.get_insert_of_ne hjs] at hj
      exact h.table_terminated j hj
  running := h.running
  terminated := h.terminated

/-- A full table of RUNNING. -/
theorem StateOk.seen_started (h : Y.StateOk ls i s) (hall : Y.allStatuses i s .running = true) :
    ∀ j ∈ Y.peers i, Y.Seen ls i j .starting .started := by
  intro j hj
  rw [allStatuses, List.all_eq_true] at hall
  exact h.table_running j (of_decide_eq_true (hall j hj))

/-- A full table of TERMINATED. -/
theorem StateOk.seen_finished (h : Y.StateOk ls i s)
    (hall : Y.allStatuses i s .terminated = true) :
    ∀ j ∈ Y.peers i, Y.Seen ls i j .stopping .finished := by
  intro j hj
  rw [allStatuses, List.all_eq_true] at hall
  exact h.table_terminated j (of_decide_eq_true (hall j hj))

/-! ## The segments -/

/-- Nothing is sent, and the coroutine is done or suspended at a point that asks
for no more than that `start` has been called. -/
theorem Good.silent {s' : NodeState A} {t : Option (Cont K)} (h : Y.StateOk ls i s')
    (hs : Kept s s') (ht : ∀ k ∈ t, Y.TaskOk ls i s' k) :
    Y.Good ls i s { st := s', rest := t } where
  st := h
  kept := hs
  rest := ht
  out dm hdm := by simp at hdm

/-- A segment of the algorithm, in a system that is running. -/
theorem good_runAlgorithm (h : Y.StateOk ls i s) (hran : Y.Ran ls) (oa : Outcome PeerId M A K)
    {cont : Option K → Option (Cont K)} (hcont : ∀ k, ∀ t ∈ cont k, Y.TaskOk ls i s t) :
    Y.Good ls i s (runAlgorithm s oa cont) where
  st := h.of_eq rfl rfl rfl rfl
  kept := .of_eq rfl rfl
  rest t ht := (hcont oa.rest t ht).of_started id
  out dm hdm := by
    obtain ⟨dm', -, rfl⟩ := List.mem_map.mp hdm
    exact hran

/-- Where the monitor is suspended after `on_start`. -/
theorem taskOk_afterOnStart (hstarted : s.started = true) (hran : Y.Ran ls) (epoch : Nat)
    (k : Option K) : ∀ t ∈ afterOnStart epoch k, Y.TaskOk ls i s t := by
  intro t ht
  cases k with
  | none =>
    obtain rfl := Option.some.inj ht
    exact hstarted
  | some k =>
    obtain rfl := Option.some.inj ht
    exact ⟨hstarted, hran⟩

/-- Where a handler of the algorithm is suspended. -/
theorem taskOk_handler (hran : Y.Ran ls) (k : Option K) :
    ∀ t ∈ k.map Cont.handler, Y.TaskOk ls i s t := by
  intro t ht
  obtain ⟨k', -, rfl⟩ := Option.map_eq_some_iff.mp ht
  exact hran

omit [DecidableEq M] [DecidableEq K] in
/-- The monitor does not write the status. -/
theorem monitor_status : (Y.monitor i s).st.status = s.status := by
  unfold monitor
  split <;> rfl

/-- A pass of the monitor announces the status the node is in. -/
theorem good_monitor (hi : i ∈ Y.parties.nodes) (h : Y.StateOk ls i s)
    (hstarted : s.started = true)
    (hentered : s.status ≠ .notStarted → Occurs Y.step Y.initial ls (Y.Enters i s.status)) :
    Y.Good ls i s (Y.monitor i s) := by
  have hcast (msg : NodeMessage M) (hmsg : Y.MsgOk ls i msg) :
      ∀ dm ∈ Y.broadcast i msg, Y.MsgOk ls i dm.2 := by
    intro dm hdm
    obtain ⟨peer, -, rfl⟩ := List.mem_map.mp hdm
    exact hmsg
  unfold monitor
  split
  next hst =>
    refine Good.silent h (.of_eq rfl rfl) ?_
    rintro t ⟨⟩
    exact hstarted
  next hst =>
    refine ⟨h, (.of_eq rfl rfl), ?_, hcast _ rfl⟩
    rintro t ⟨⟩
    exact hstarted
  next hst =>
    have hocc := hst ▸ hentered (by rw [hst]; decide)
    refine ⟨h, (.of_eq rfl rfl), ?_, hcast _ hocc⟩
    rintro t ⟨⟩
    exact ⟨hstarted, hocc⟩
  next hst =>
    have hran : Y.Ran ls := ⟨i, hi, hst ▸ hentered (by rw [hst]; decide)⟩
    exact good_runAlgorithm h hran _ (taskOk_afterOnStart hstarted hran _)
  next hst =>
    have hocc := hst ▸ hentered (by rw [hst]; decide)
    refine ⟨h, (.of_eq rfl rfl), ?_, hcast _ hocc⟩
    rintro t ⟨⟩
    exact ⟨hstarted, hocc⟩
  next hst =>
    exact Good.silent (h.of_eq rfl rfl rfl rfl) (.of_eq rfl rfl) (by rintro t ⟨⟩)

/-- A handler writes what the message says into the table, and the status if that
makes the table full. -/
theorem good_handle (hc : exec Y.step Y.initial ls = some c) (h : Y.StateOk ls i (c.st i))
    {src : PeerId} {msg : NodeMessage M} (hmsg : Y.MsgOk ls src msg) :
    Y.Good (ls ++ [.recv ⟨src, i, msg⟩]) i (c.st i) (Y.handle i (c.st i) src msg) := by
  have h' : Y.StateOk (ls ++ [.recv ⟨src, i, msg⟩]) i (c.st i) := h.append
  have hsilent {s' : NodeState A} (hs' : Y.StateOk (ls ++ [.recv ⟨src, i, msg⟩]) i s')
      (hkept : Kept (c.st i) s') :
      Y.Good (ls ++ [.recv ⟨src, i, msg⟩]) i (c.st i) { st := s' } :=
    Good.silent hs' hkept (by rintro t ⟨⟩)
  unfold handle
  split
  next => exact hsilent h' (.of_eq rfl rfl)
  next =>
    cases msg with
    | pubkey key =>
      dsimp only
      split
      next => exact hsilent (h'.addKey src hmsg) Kept.addKey
      next => exact hsilent h' (.of_eq rfl rfl)
    | started =>
      -- the sender entered STARTING before this step, which handles its message
      have hseen : Y.Seen (ls ++ [.recv ⟨src, i, .started⟩]) i src .starting .started :=
        Occurs.then_last hmsg hc rfl
      have htable := h'.setPeerStatus src .running (fun _ => hseen) nofun
      dsimp only
      split
      next hfull =>
        -- the table is full: the node becomes RUNNING in the handler
        have hstarting := entered hc hfull.1 (by decide)
        refine hsilent (htable.setStatus .running (h.created ?_) nofun (fun _ => ?_) nofun)
          (.of_eq rfl rfl)
        · rw [show (c.st i).status = .starting from hfull.1]
          decide
        · exact ⟨hstarting.append, htable.seen_started hfull.2⟩
      next => exact hsilent htable (.of_eq rfl rfl)
    | finished =>
      have hseen : Y.Seen (ls ++ [.recv ⟨src, i, .finished⟩]) i src .stopping .finished :=
        Occurs.then_last hmsg hc rfl
      have htable := h'.setPeerStatus src .terminated nofun (fun _ => hseen)
      dsimp only
      split
      next hfull =>
        refine hsilent (htable.setStatus .terminated (h.created ?_) nofun nofun
          (fun _ => htable.seen_finished hfull.2)) (.of_eq rfl rfl)
        rw [show (c.st i).status = .stopping from hfull.1]
        decide
      next => exact hsilent htable (.of_eq rfl rfl)
    | algorithm msg =>
      have hran : Y.Ran (ls ++ [.recv ⟨src, i, .algorithm msg⟩]) := Ran.append hmsg
      exact good_runAlgorithm h' hran _ (taskOk_handler hran)

/-- A resumed coroutine. The status it leaves the node in has been entered. -/
theorem good_resume (hi : i ∈ Y.parties.nodes) (h : Y.StateOk ls i (c.st i)) {t : Cont K}
    (ht : Y.TaskOk ls i (c.st i) t) (ho : Y.resume i (c.st i) t = some o)
    (hentered : o.st.status ≠ .notStarted →
      Occurs Y.step Y.initial (ls ++ [l]) (Y.Enters i o.st.status)) :
    Y.Good (ls ++ [l]) i (c.st i) o := by
  have h' : Y.StateOk (ls ++ [l]) i (c.st i) := h.append
  have ht' : Y.TaskOk (ls ++ [l]) i (c.st i) t := ht.append
  -- a pass of the monitor after a write of the status that does not undo `start`
  have hmonitor {s' : NodeState A} (hs' : Y.StateOk (ls ++ [l]) i s') (hstarted : s'.started = true)
      (hkeys : s'.keys = (c.st i).keys) (heq : Y.monitor i s' = o) :
      Y.Good (ls ++ [l]) i (c.st i) o := by
    subst heq
    rw [monitor_status] at hentered
    have hgood := good_monitor hi hs' hstarted hentered
    refine ⟨hgood.st, ⟨fun _ => hgood.kept.started hstarted, fun k hk => ?_⟩, hgood.rest, hgood.out⟩
    rw [← hkeys] at hk
    exact hgood.kept.keys k hk
  cases t with
  | start =>
    obtain rfl := Option.some.inj ho
    have hadd := h'.addKey i rfl
    refine Good.silent ⟨fun _ => AList.mem_insert _ |>.mpr (.inl rfl), hadd.sound, fun _ => rfl,
      hadd.starting, hadd.table_running, hadd.table_terminated, hadd.running, hadd.terminated⟩
      ⟨fun _ => rfl, Kept.addKey.keys⟩ ?_
    rintro t ⟨⟩
    rfl
  | delaying =>
    obtain rfl := Option.some.inj ho
    refine Good.silent (h'.setStatus .keySharing ht nofun nofun nofun) (.of_eq rfl rfl) ?_
    rintro t ⟨⟩
    exact ht
  | waiting =>
    obtain ⟨-, rfl⟩ := Option.ite_none_right_eq_some.mp ho |>.imp id Option.some.inj
    exact Good.silent (h'.setStatus .stopping ht nofun nofun nofun) (.of_eq rfl rfl)
      (by rintro t ⟨⟩)
  | serve =>
    obtain ⟨-, rfl⟩ := Option.ite_none_right_eq_some.mp ho |>.imp id Option.some.inj
    exact Good.silent (h'.of_eq rfl rfl rfl rfl) (.of_eq rfl rfl) (by rintro t ⟨⟩)
  | monitor =>
    obtain ⟨hstarted, heq⟩ := Option.ite_none_right_eq_some.mp ho |>.imp id Option.some.inj
    exact hmonitor h' hstarted rfl heq
  | notStarted epoch =>
    obtain ⟨-, heq⟩ := Option.ite_none_right_eq_some.mp ho |>.imp id Option.some.inj
    exact hmonitor h' ht rfl heq
  | running epoch =>
    obtain ⟨-, heq⟩ := Option.ite_none_right_eq_some.mp ho |>.imp id Option.some.inj
    exact hmonitor h' ht rfl heq
  -- the three tests of the monitor, after which it passes its head again
  | keySharing =>
    rw [resume] at ho
    split at ho
    next hall =>
      rw [hasAllKeys, List.all_eq_true] at hall
      refine hmonitor (h'.setStatus .starting ht (fun _ j hj => of_decide_eq_true (hall j hj))
        nofun nofun) ht rfl (Option.some.inj ho)
    next =>
      obtain rfl := Option.some.inj ho
      exact Good.silent h' (.of_eq rfl rfl) (by rintro t ⟨⟩; exact ht)
  | starting =>
    rw [resume] at ho
    split at ho
    next hall =>
      refine hmonitor (h'.setStatus .running ht.1 nofun
        (fun _ => ⟨ht'.2, h'.seen_started hall⟩) nofun) ht.1 rfl (Option.some.inj ho)
    next =>
      obtain rfl := Option.some.inj ho
      exact Good.silent h' (.of_eq rfl rfl) (by rintro t ⟨⟩; exact ht')
  | onStart k =>
    obtain ⟨oa, -, rfl⟩ := Option.map_eq_some_iff.mp ho
    exact good_runAlgorithm h' ht'.2 oa (taskOk_afterOnStart ht.1 ht'.2 _)
  | stopping =>
    rw [resume] at ho
    split at ho
    next hall =>
      refine hmonitor (h'.setStatus .terminated ht.1 nofun nofun
        (fun _ => h'.seen_finished hall)) ht.1 rfl (Option.some.inj ho)
    next =>
      obtain rfl := Option.some.inj ho
      exact Good.silent h' (.of_eq rfl rfl) (by rintro t ⟨⟩; exact ht')
  | handler k =>
    obtain ⟨oa, -, rfl⟩ := Option.map_eq_some_iff.mp ho
    exact good_runAlgorithm h' ht' oa (taskOk_handler ht')

/-- The invariant of the network. -/
def ok (Y : System A M K) :
    Assertion PeerId (NodeMessage M) (NodeState A) (Cont K) where
  node ls i s ts := Y.StateOk ls i s ∧ ∀ t ∈ ts, Y.TaskOk ls i s t
  msg ls e := Y.MsgOk ls e.src e.msg

theorem ok_init (Y : System A M K) : Y.ok.Holds Y.parties [] Y.initial where
  node i _ := by
    constructor
    · constructor <;> intros <;> simp_all [initial]
    · intro t ht
      rcases List.mem_cons.mp ht with rfl | ht
      · trivial
      · rcases List.mem_pair.mp ht with rfl | rfl <;> trivial
  msg e he := by simp [initial] at he
  received e he := by simp at he

/-- Every segment leaves behind what it has to. -/
theorem good_segment (hc : exec Y.step Y.initial ls = some c) (hA : Y.ok.Holds Y.parties ls c)
    (hseg : Segment Y.protocol Y.parties c l i o base) : Y.Good (ls ++ [l]) i (c.st i) o := by
  have hi : i ∈ Y.parties.nodes := Cluster.mem_correct.mp hseg.correct
  obtain ⟨hstate, htasks⟩ := hA.node i hseg.correct
  have hc' : exec Y.step Y.initial (ls ++ [l]) = some (base.commit i o) :=
    exec_snoc hc (step_iff.mpr ⟨i, o, base, hseg, rfl⟩)
  have hentered : o.st.status ≠ .notStarted →
      Occurs Y.step Y.initial (ls ++ [l]) (Y.Enters i o.st.status) :=
    entered hc' (by rw [Config.commit_st_self])
  cases hseg with
  | recv hnet _ => exact good_handle hc hstate (hA.msg _ hnet)
  | forge hsrc _ => exact absurd hsrc Cluster.not_mem_byz
  | wake _ htask ho => exact good_resume hi hstate (htasks _ htask) ho hentered

/-- The invariant is inductive. -/
theorem ok_inductive (Y : System A M K) :
    Y.ok.Inductive Y.protocol Y.parties Y.initial fun _ _ _ => True where
  init := ok_init Y
  node_mono _ h := ⟨h.1.append, fun t ht => (h.2 t ht).append⟩
  msg_mono h := MsgOk.append h
  segment := by
    intro ls c l i o base hc hA _ hseg
    have hgood := good_segment hc hA hseg
    have htasks := (hA.node i hseg.correct).2
    refine ⟨⟨hgood.st, fun t ht => ?_⟩, hgood.out⟩
    rcases hseg.mem_rest_or_tasks ht with hnew | hold
    · exact hgood.rest t hnew
    · exact (htasks t hold).append.of_started hgood.kept.started

theorem ok_of_run (hc : exec Y.step Y.initial ls = some c) : Y.ok.Holds Y.parties ls c :=
  Assertion.holds_of_run (ok_inductive Y) hc

/-! ## The barrier -/

/-- **A node that is RUNNING has handled the STARTED of every other node, which had
entered STARTING before.** -/
theorem running_of_run (hc : exec Y.step Y.initial ls = some c) (hi : i ∈ Y.parties.nodes)
    (hst : (c.st i).status = .running) (hj : j ∈ Y.parties.nodes) (hne : j ≠ i) :
    Y.Seen ls i j .starting .started := by
  have hok := ((ok_of_run hc).node i (Cluster.mem_correct.mpr hi)).1
  exact (hok.running hst).2 j ((Y.mem_peers i hi j).mpr ⟨hj, hne⟩)

/-- **A node that is TERMINATED has handled the FINISHED of every other node, which
had entered STOPPING before.** -/
theorem terminated_of_run (hc : exec Y.step Y.initial ls = some c) (hi : i ∈ Y.parties.nodes)
    (hst : (c.st i).status = .terminated) (hj : j ∈ Y.parties.nodes) (hne : j ≠ i) :
    Y.Seen ls i j .stopping .finished := by
  have hok := ((ok_of_run hc).node i (Cluster.mem_correct.mpr hi)).1
  exact hok.terminated hst j ((Y.mem_peers i hi j).mpr ⟨hj, hne⟩)

/-- A node that has entered STARTING has an entry for everybody in its key store,
and keeps it. -/
theorem mem_keys_of_entered (hi : i ∈ Y.parties.nodes) :
    ∀ ls c, exec Y.step Y.initial ls = some c →
      Occurs Y.step Y.initial ls (Y.Enters i .starting) →
        ∀ j ∈ Y.parties.nodes, j ∈ (c.st i).keys := by
  refine run_induction (P := fun (ls : Trace PeerId (NodeMessage M) (Cont K))
    (c : Config PeerId (NodeMessage M) (NodeState A) (Cont K)) =>
    Occurs Y.step Y.initial ls (Y.Enters i .starting) →
      ∀ j ∈ Y.parties.nodes, j ∈ (c.st i).keys) ?_ ?_
  · intro hocc
    exact absurd hocc not_occurs_nil
  · intro ls c l c' hc ih hl hocc j hj
    rcases hocc.last_or hc with hocc | ⟨-, c'', hl', hst⟩
    · obtain ⟨i', o, base, hseg, rfl⟩ := step_iff.mp hl
      have hkept := (good_segment hc (ok_of_run hc) hseg).kept
      by_cases hii : i = i'
      · subst hii
        rw [Config.commit_st_self]
        exact hkept.keys j (ih hocc j hj)
      · rw [Config.commit_st_of_ne hii, hseg.base_st]
        exact ih hocc j hj
    · obtain rfl : c' = c'' := Option.some.inj (hl.symm.trans hl')
      have hok := ((ok_of_run (exec_snoc hc hl)).node i (Cluster.mem_correct.mpr hi)).1
      by_cases hji : j = i
      · subst hji
        exact hok.own (hok.created (by rw [hst]; decide))
      · exact hok.starting hst j ((Y.mem_peers i hi j).mpr ⟨hj, hji⟩)

/-- Once a node has been RUNNING every node has entered STARTING. -/
theorem Ran.entered_starting (hran : Y.Ran ls) (hj : j ∈ Y.parties.nodes) :
    Occurs Y.step Y.initial ls (Y.Enters j .starting) := by
  obtain ⟨i, hi, hocc⟩ := hran
  obtain ⟨ls₁, ls₂, c₁, rfl, hc₁, hst⟩ := hocc.exists_prefix
  by_cases hji : j = i
  · subst hji
    have hok := ((ok_of_run hc₁).node j (Cluster.mem_correct.mpr hi)).1
    exact (hok.running hst).1.append
  · exact (running_of_run hc₁ hi hst hj hji).occurs.append

/-- The key store of node `i` holds the public key of every node. -/
def HasEveryKey (Y : System A M K) (c : Config PeerId (NodeMessage M) (NodeState A) (Cont K))
    (i : PeerId) : Prop :=
  ∀ j ∈ Y.parties.nodes, (c.st i).keys.lookup j = some (Y.publicKey j)

/-- **Once a node has been RUNNING, every node has the public key of every node.** -/
theorem keys_of_ran (hc : exec Y.step Y.initial ls = some c) (hran : Y.Ran ls)
    (hi : i ∈ Y.parties.nodes) : Y.HasEveryKey c i := by
  intro j hj
  have hmem := mem_keys_of_entered hi ls c hc (hran.entered_starting hi) j hj
  obtain ⟨v, hv⟩ := Option.isSome_iff_exists.mp (AList.lookup_isSome.mpr hmem)
  have hok := ((ok_of_run hc).node i (Cluster.mem_correct.mpr hi)).1
  rw [hv, hok.sound j v hv]

/-- An algorithm message is handled only after some node has been RUNNING. -/
theorem ran_of_algorithm {src : PeerId} {msg : M} (hc : exec Y.step Y.initial ls = some c)
    (hl : Y.step c (.recv ⟨src, i, .algorithm msg⟩) = some c') : Y.Ran ls := by
  obtain ⟨i', o, base, hseg, -⟩ := step_iff.mp hl
  exact (ok_of_run hc).msg _ hseg.mem_net

/-- **The barrier.** A node is RUNNING, or TERMINATED, only after every other node
has entered STARTING, or STOPPING, and it has handled the announcement of that;
once a node has been RUNNING every node has every key; and whoever handles an
algorithm message has every key. -/
theorem barrier (Y : System A M K) :
    (∀ ls c, exec Y.step Y.initial ls = some c → ∀ i ∈ Y.parties.nodes,
      (c.st i).status = .running → ∀ j ∈ Y.parties.nodes, j ≠ i →
        Y.Seen ls i j .starting .started) ∧
    (∀ ls c, exec Y.step Y.initial ls = some c → Y.Ran ls → ∀ i ∈ Y.parties.nodes,
      Y.HasEveryKey c i) ∧
    (∀ ls c src i msg c', exec Y.step Y.initial ls = some c →
      Y.step c (.recv ⟨src, i, .algorithm msg⟩) = some c' → Y.HasEveryKey c i) ∧
    (∀ ls c, exec Y.step Y.initial ls = some c → ∀ i ∈ Y.parties.nodes,
      (c.st i).status = .terminated → ∀ j ∈ Y.parties.nodes, j ≠ i →
        Y.Seen ls i j .stopping .finished) := by
  refine ⟨fun ls c hc i hi hst j hj hne => running_of_run hc hi hst hj hne,
    fun ls c hc hran i hi => keys_of_ran hc hran hi, fun ls c src i msg c' hc hl => ?_,
    fun ls c hc i hi hst j hj hne => terminated_of_run hc hi hst hj hne⟩
  obtain ⟨i', o, base, hseg, -⟩ := step_iff.mp hl
  obtain rfl : i = i' := hseg.node_eq
  exact keys_of_ran hc (ran_of_algorithm hc hl) (Cluster.mem_correct.mp hseg.correct)

/-- Two nodes with an algorithm that sends one message to the other node and
terminates. -/
def pair : System Bool Unit Empty where
  toCluster := .pair
  publicKey i := if i = "a" then [1] else [2]
  algorithm :=
    { onStart := fun self _ => { st := true, out := [(if self = "a" then "b" else "a", ())] }
      handle := fun _ a _ _ => { st := a }
      resume := fun _ _ k => nomatch k
      isTerminated := id }
  initialState _ := false

/-- Both nodes start; `b` is RUNNING as soon as it hears of `a`. -/
def pairStart : Trace PeerId (NodeMessage Unit) (Cont Empty) :=
  [.wake "a" .start, .wake "b" .start, .wake "a" .monitor, .wake "b" .monitor,
   .wake "a" .delaying, .wake "b" .delaying, .wake "a" (.notStarted 0), .wake "b" (.notStarted 0),
   .recv ⟨"a", "b", .pubkey [1]⟩, .recv ⟨"b", "a", .pubkey [2]⟩,
   .wake "a" .keySharing, .wake "b" .keySharing, .recv ⟨"a", "b", .started⟩,
   .wake "b" .starting]

/-- `a` handles the message of `b` before it is RUNNING itself; then both end. -/
def pairEnd : Trace PeerId (NodeMessage Unit) (Cont Empty) :=
  [.recv ⟨"b", "a", .algorithm ()⟩, .recv ⟨"b", "a", .started⟩, .wake "a" .starting,
   .wake "a" .waiting, .wake "b" .waiting, .wake "a" (.running 4), .wake "b" (.running 4),
   .recv ⟨"b", "a", .finished⟩]

/-- The run, and what the barrier says of it. -/
theorem barrier_pair :
    (∃ c, exec pair.step pair.initial pairStart = some c ∧ (c.st "b").status = .running ∧
      pair.Seen pairStart "b" "a" .starting .started ∧ pair.HasEveryKey c "a" ∧
      ∃ c', pair.step c (.recv ⟨"b", "a", .algorithm ()⟩) = some c') ∧
    ∃ c, exec pair.step pair.initial (pairStart ++ pairEnd) = some c ∧
      (c.st "a").status = .terminated ∧
      pair.Seen (pairStart ++ pairEnd) "a" "b" .stopping .finished := by
  obtain ⟨hrunning, -, hkeys, hterminated⟩ := barrier pair
  constructor
  · obtain ⟨c, hc, hst⟩ := exists_exec_of_any pair.step pair.initial pairStart
      (fun c => (c.st "b").status = .running ∧
        (pair.step c (.recv ⟨"b", "a", .algorithm ()⟩)).isSome) (by decide)
    obtain ⟨hst, hstep⟩ := of_decide_eq_true hst
    obtain ⟨c', hc'⟩ := Option.isSome_iff_exists.mp hstep
    exact ⟨c, hc, hst, hrunning _ c hc "b" (by decide) hst "a" (by decide) (by decide),
      hkeys _ c "b" "a" () c' hc hc', c', hc'⟩
  · obtain ⟨c, hc, hst⟩ := exists_exec_of_any pair.step pair.initial (pairStart ++ pairEnd)
      (fun c => (c.st "a").status = .terminated) (by decide)
    have hst := of_decide_eq_true hst
    exact ⟨c, hc, hst, hterminated _ c hc "a" (by decide) hst "b" (by decide) (by decide)⟩

end DistBench.Lifecycle.System
