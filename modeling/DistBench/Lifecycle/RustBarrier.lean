import DistBench.Lifecycle.RustNode

/-!
# When the Rust barrier holds

The tests before Running and Terminated look at the entries that have been
recorded. A peer that has not sent anything has no entry, so a node that has heard
of nobody passes both tests: two nodes that are both past the key exchange need
not wait for each other at all (`barrier_broken`).

An entry, where there is one, is right: it is written by the handler of the
message it stands for. So the tests are right exactly as long as there is an entry
for every peer whenever one of them passes (`CheckedInFull`), and then the barrier
holds in every run (`barrier_of_checkedInFull`). `all_peers_iff_handled` says of a
single test that nothing weaker will do.
-/

namespace DistBench.RustLifecycle.System

open DistBench.Async DistBench.Lifecycle

variable {A M K : Type} {Y : System A M K}
  {ls ls' : Trace PeerId (Message M) (Cont K)} {l : Label PeerId (Message M) (Cont K)}
  {c c' base : Config PeerId (Message M) (NodeState A) (Cont K)}
  {o : Outcome PeerId (Message M) (NodeState A) (Cont K)} {i j : PeerId} {s : NodeState A}
  {st : NodeStatus}

/-- Node `i` has handled the message `msg` of each of its peers. -/
def HeardAll (Y : System A M K) (ls : Trace PeerId (Message M) (Cont K)) (i : PeerId)
    (msg : Message M) : Prop :=
  ∀ j ∈ Y.peers i, .recv ⟨j, i, msg⟩ ∈ ls

/-- The barrier: who is Running has handled the `Started` of each of its peers, and
who is Terminated the `Finished` of each. -/
def Barrier (Y : System A M K) (ls : Trace PeerId (Message M) (Cont K))
    (c : Config PeerId (Message M) (NodeState A) (Cont K)) : Prop :=
  ∀ i ∈ Y.parties.nodes,
    ((c.st i).status = .running → Y.HeardAll ls i .started) ∧
    ((c.st i).status = .terminated → Y.HeardAll ls i .finished)

/-- Where the entries of node `i` all say `st`, there is one for every peer. -/
def Full (Y : System A M K) (i : PeerId) (s : NodeState A) (st : NodeStatus) : Prop :=
  s.allRecorded st = true → ∀ j ∈ Y.peers i, j ∈ s.peerStatus

instance : Decidable (Y.Full i s st) :=
  inferInstanceAs (Decidable (s.allRecorded st = true → ∀ j ∈ Y.peers i, j ∈ s.peerStatus))

/-- A test of the table does not pass while a peer has no entry: the condition under
which the barrier holds. -/
def CheckedInFull (Y : System A M K) (_ : Trace PeerId (Message M) (Cont K))
    (c : Config PeerId (Message M) (NodeState A) (Cont K)) :
    Label PeerId (Message M) (Cont K) → Prop
  | .wake i (.announcedStarted _) => Y.Full i (c.st i) .running
  | .wake i .startedStatuses => Y.Full i (c.st i) .running
  | .wake i (.announcedFinished _) => Y.Full i (c.st i) .terminated
  | .wake i .finishedStatuses => Y.Full i (c.st i) .terminated
  | _ => True

instance {l : Label PeerId (Message M) (Cont K)} : Decidable (Y.CheckedInFull ls c l) := by
  unfold CheckedInFull
  split <;> infer_instance

/-! ## The table -/

/-- The entries of a table stand for messages that have been handled, and every
such message of a peer has left an entry. -/
structure TableOk (Y : System A M K) (ls : Trace PeerId (Message M) (Cont K)) (i : PeerId)
    (s : NodeState A) : Prop where
  running : ∀ j, s.peerStatus.lookup j = some .running → .recv ⟨j, i, .started⟩ ∈ ls
  terminated : ∀ j, s.peerStatus.lookup j = some .terminated → .recv ⟨j, i, .finished⟩ ∈ ls
  recorded : ∀ j ∈ Y.peers i, .recv ⟨j, i, .started⟩ ∈ ls ∨ .recv ⟨j, i, .finished⟩ ∈ ls →
    j ∈ s.peerStatus

/-- A step that handles neither announcement for this node leaves its table alone. -/
theorem TableOk.keep (h : Y.TableOk ls i s) {s' : NodeState A} (hs : s'.peerStatus = s.peerStatus)
    (hl : ∀ j ∈ Y.peers i, l ≠ .recv ⟨j, i, .started⟩ ∧ l ≠ .recv ⟨j, i, .finished⟩) :
    Y.TableOk (ls ++ [l]) i s' where
  running j hj := List.mem_append_left _ (h.running j (hs ▸ hj))
  terminated j hj := List.mem_append_left _ (h.terminated j (hs ▸ hj))
  recorded j hj hrecv := by
    rw [hs]
    refine h.recorded j hj (hrecv.imp (fun hr => ?_) (fun hr => ?_))
    · exact (List.mem_append.mp hr).resolve_right fun h =>
        (hl j hj).1 (List.mem_singleton.mp h).symm
    · exact (List.mem_append.mp hr).resolve_right fun h =>
        (hl j hj).2 (List.mem_singleton.mp h).symm

/-- A handler of an announcement writes the entry that stands for it. -/
theorem TableOk.write (h : Y.TableOk ls i s) {src : PeerId} {msg : Message M} {st : NodeStatus}
    (hrunning : st = .running → msg = .started) (hterminated : st = .terminated → msg = .finished) :
    Y.TableOk (ls ++ [.recv ⟨src, i, msg⟩]) i (s.setPeerStatus src st) where
  running j hj := by
    by_cases hjs : j = src
    · subst hjs
      have hst : st = .running := by simpa [NodeState.setPeerStatus] using hj
      rw [hrunning hst]
      exact List.mem_append_right _ (List.mem_singleton.mpr rfl)
    · rw [NodeState.setPeerStatus, AList.lookup_insert_ne hjs] at hj
      exact List.mem_append_left _ (h.running j hj)
  terminated j hj := by
    by_cases hjs : j = src
    · subst hjs
      have hst : st = .terminated := by simpa [NodeState.setPeerStatus] using hj
      rw [hterminated hst]
      exact List.mem_append_right _ (List.mem_singleton.mpr rfl)
    · rw [NodeState.setPeerStatus, AList.lookup_insert_ne hjs] at hj
      exact List.mem_append_left _ (h.terminated j hj)
  recorded j hj hrecv := by
    rw [NodeState.setPeerStatus, AList.mem_insert]
    by_cases hjs : j = src
    · exact .inl hjs
    · refine .inr (h.recorded j hj (hrecv.imp (fun hr => ?_) (fun hr => ?_)))
      all_goals exact (List.mem_append.mp hr).resolve_right fun h => by simp_all

/-- What the handlers do to the table. -/
theorem tableOk_handle (h : Y.TableOk ls i s) (src : PeerId) (msg : Message M) :
    Y.TableOk (ls ++ [.recv ⟨src, i, msg⟩]) i (Y.handle i s src msg).st := by
  unfold handle
  split
  next hsrc =>
    -- no handler runs for a stranger
    refine h.keep rfl fun j hj => ⟨?_, ?_⟩
    all_goals
      intro heq
      simp only [Label.recv.injEq, Envelope.mk.injEq] at heq
      exact hsrc (heq.1 ▸ hj)
  next =>
    cases msg with
    | algorithm msg =>
      dsimp only
      split
      all_goals exact h.keep rfl fun j _ => ⟨by simp, by simp⟩
    | started => exact h.write (fun _ => rfl) nofun
    | finished => exact h.write nofun (fun _ => rfl)
    | announcePubKey key => exact h.keep rfl fun j _ => ⟨by simp, by simp⟩

/-- `monitor` does not write the table … -/
theorem monitor_peerStatus (loop : Loop) :
    (Y.monitor i s loop).st.peerStatus = s.peerStatus := by
  unfold monitor
  dsimp only
  split
  next => rfl
  next => rfl
  next => split <;> rfl
  next => rfl
  next => rfl
  next => rfl

/-- … and neither does any other task but a handler. -/
theorem resume_peerStatus {t : Cont K} (ho : Y.resume i s t = some o) :
    o.st.peerStatus = s.peerStatus := by
  cases t with
  | serve =>
    obtain ⟨-, rfl⟩ := Option.ite_none_right_eq_some.mp ho |>.imp id Option.some.inj
    rfl
  | monitor loop =>
    obtain ⟨-, rfl⟩ := Option.ite_none_right_eq_some.mp ho |>.imp id Option.some.inj
    exact monitor_peerStatus loop
  | onStart k loop =>
    obtain ⟨oa, -, rfl⟩ := Option.map_eq_some_iff.mp ho
    rfl
  | handler k =>
    obtain ⟨oa, -, rfl⟩ := Option.map_eq_some_iff.mp ho
    rfl
  | wait loop =>
    rw [resume, awaitChange] at ho
    split at ho
    next =>
      obtain rfl := Option.some.inj ho
      rfl
    next =>
      obtain ⟨-, rfl⟩ := Option.ite_none_right_eq_some.mp ho |>.imp id Option.some.inj
      rfl
  | _ =>
    obtain rfl := Option.some.inj ho
    rfl

/-- The tables of the nodes. -/
def tables (Y : System A M K) : Assertion PeerId (Message M) (NodeState A) (Cont K) where
  node ls i s _ := Y.TableOk ls i s
  msg _ _ := True

section

variable [DecidableEq M] [DecidableEq K]

/-- One step of the network of the nodes. -/
abbrev step (Y : System A M K) := Async.step Y.protocol Y.parties

theorem tables_inductive (Y : System A M K) :
    Y.tables.Inductive Y.protocol Y.parties Y.initial fun _ _ _ => True where
  init := ⟨fun i _ => ⟨by simp [initial], by simp [initial], by simp⟩, fun _ _ => trivial,
    fun _ _ => trivial⟩
  node_mono hne h := by
    refine h.keep rfl fun j _ => ⟨?_, ?_⟩
    all_goals
      rintro rfl
      exact hne rfl
  msg_mono _ := trivial
  segment := by
    intro ls c l i o base hc hA _ hseg
    have hnode := hA.node i hseg.correct
    refine ⟨?_, fun _ _ => trivial⟩
    cases hseg with
    | recv _ _ => exact tableOk_handle hnode _ _
    | forge hsrc _ => exact absurd hsrc Cluster.not_mem_byz
    | wake _ _ ho => exact hnode.keep (resume_peerStatus ho) fun j _ => ⟨by simp, by simp⟩

theorem table_of_run (hc : exec Y.step Y.initial ls = some c) (hi : i ∈ Y.parties.nodes) :
    Y.TableOk ls i (c.st i) :=
  (Assertion.holds_of_run (tables_inductive Y) hc).node i (Cluster.mem_correct.mpr hi)

end

/-- A table of entries Running, one for every peer. -/
theorem TableOk.heard_started (h : Y.TableOk ls i s) (hall : s.allRecorded .running = true)
    (hfull : ∀ j ∈ Y.peers i, j ∈ s.peerStatus) : Y.HeardAll ls i .started := by
  intro j hj
  obtain ⟨st, hst⟩ := Option.isSome_iff_exists.mp (AList.lookup_isSome.mpr (hfull j hj))
  have hentry := List.all_eq_true.mp hall _ (AList.mem_lookup_iff.mp hst)
  obtain rfl : st = .running := of_decide_eq_true hentry
  exact h.running j hst

/-- A table of entries Terminated, one for every peer. -/
theorem TableOk.heard_finished (h : Y.TableOk ls i s) (hall : s.allRecorded .terminated = true)
    (hfull : ∀ j ∈ Y.peers i, j ∈ s.peerStatus) : Y.HeardAll ls i .finished := by
  intro j hj
  obtain ⟨st, hst⟩ := Option.isSome_iff_exists.mp (AList.lookup_isSome.mpr (hfull j hj))
  have hentry := List.all_eq_true.mp hall _ (AList.mem_lookup_iff.mp hst)
  obtain rfl : st = .terminated := of_decide_eq_true hentry
  exact h.terminated j hst

/-- **A test that passes is right exactly when there is an entry for every peer.** -/
theorem TableOk.full_iff_heard (h : Y.TableOk ls i s) :
    (s.allRecorded .running = true →
      ((∀ j ∈ Y.peers i, j ∈ s.peerStatus) ↔ Y.HeardAll ls i .started)) ∧
    (s.allRecorded .terminated = true →
      ((∀ j ∈ Y.peers i, j ∈ s.peerStatus) ↔ Y.HeardAll ls i .finished)) := by
  refine ⟨fun hall => ⟨h.heard_started hall, fun hheard j hj => ?_⟩,
    fun hall => ⟨h.heard_finished hall, fun hheard j hj => ?_⟩⟩
  · exact h.recorded j hj (.inl (hheard j hj))
  · exact h.recorded j hj (.inr (hheard j hj))

/-! ## The invariant -/

/-- What is true of a node's state: the two statuses that the tests lead to stand
for messages that have been handled. -/
structure StateOk (Y : System A M K) (ls : Trace PeerId (Message M) (Cont K)) (i : PeerId)
    (s : NodeState A) : Prop where
  running : s.status = .running → Y.HeardAll ls i .started
  terminated : s.status = .terminated → Y.HeardAll ls i .finished

/-- What is true of a task: it is about to write a status only if it may. -/
def TaskOk (Y : System A M K) (ls : Trace PeerId (Message M) (Cont K)) (i : PeerId) :
    Cont K → Prop
  | .becomeRunning _ | .sendRunning => Y.HeardAll ls i .started
  | .becomeTerminated _ | .sendTerminated => Y.HeardAll ls i .finished
  | _ => True

theorem HeardAll.append {msg : Message M} (h : Y.HeardAll ls i msg) :
    Y.HeardAll (ls ++ ls') i msg :=
  fun j hj => List.mem_append_left _ (h j hj)

theorem StateOk.append (h : Y.StateOk ls i s) : Y.StateOk (ls ++ ls') i s :=
  ⟨fun hs => (h.running hs).append, fun hs => (h.terminated hs).append⟩

theorem TaskOk.append {t : Cont K} (h : Y.TaskOk ls i t) : Y.TaskOk (ls ++ ls') i t := by
  cases t with
  | becomeRunning _ | sendRunning | becomeTerminated _ | sendTerminated => exact HeardAll.append h
  | _ => trivial

/-- What a segment has to leave behind. -/
structure Good (Y : System A M K) (ls : Trace PeerId (Message M) (Cont K)) (i : PeerId)
    (o : Outcome PeerId (Message M) (NodeState A) (Cont K)) : Prop where
  st : Y.StateOk ls i o.st
  rest : ∀ t ∈ o.rest, Y.TaskOk ls i t

/-- A segment of the algorithm. -/
theorem good_runAlgorithm (h : Y.StateOk ls i s) (oa : Outcome PeerId M A K)
    {cont : Option K → Option (Cont K)} (hcont : ∀ k, ∀ t ∈ cont k, Y.TaskOk ls i t) :
    Y.Good ls i (runAlgorithm s oa cont) :=
  ⟨⟨h.running, h.terminated⟩, hcont oa.rest⟩

theorem taskOk_afterOnStart (loop : Loop) (k : Option K) :
    ∀ t ∈ afterOnStart loop k, Y.TaskOk ls i t := by
  intro t ht
  cases k with
  | none =>
    obtain rfl := Option.some.inj ht
    trivial
  | some k =>
    obtain rfl := Option.some.inj ht
    trivial

theorem taskOk_handler (k : Option K) : ∀ t ∈ k.map Cont.handler, Y.TaskOk ls i t := by
  intro t ht
  obtain ⟨k', -, rfl⟩ := Option.map_eq_some_iff.mp ht
  trivial

/-- `monitor` writes no status and no entry. -/
theorem good_monitor (h : Y.StateOk ls i s) (loop : Loop) : Y.Good ls i (Y.monitor i s loop) := by
  unfold monitor
  dsimp only
  split
  next => exact ⟨h, by rintro t ⟨⟩; trivial⟩
  next => exact ⟨h, by rintro t ⟨⟩; trivial⟩
  next =>
    split
    next => exact ⟨h, by rintro t ⟨⟩; trivial⟩
    next => exact good_runAlgorithm h _ (taskOk_afterOnStart _)
  next => exact ⟨h, by rintro t ⟨⟩; trivial⟩
  next => exact ⟨h, by rintro t ⟨⟩⟩
  next => exact ⟨h, by rintro t ⟨⟩; trivial⟩

/-- A handler writes no status in its first segment. -/
theorem good_handle (h : Y.StateOk ls i s) (src : PeerId) (msg : Message M) :
    Y.Good ls i (Y.handle i s src msg) := by
  unfold handle
  split
  next => exact ⟨h, by rintro t ⟨⟩⟩
  next =>
    cases msg with
    | algorithm msg =>
      dsimp only
      split
      next => exact ⟨h, by rintro t ⟨⟩⟩
      next => exact good_runAlgorithm h _ taskOk_handler
    | started | finished | announcePubKey key =>
      exact ⟨⟨h.running, h.terminated⟩, by rintro t ⟨⟩; trivial⟩

/-- A status may be written when what it says is true. -/
theorem stateOk_send (st : NodeStatus) (hrunning : st = .running → Y.HeardAll ls i .started)
    (hterminated : st = .terminated → Y.HeardAll ls i .finished) : Y.StateOk ls i (s.send st) :=
  ⟨hrunning, hterminated⟩

/-- A test of the table sends its task on to where a status is written. -/
theorem good_test (h : Y.StateOk ls i s) {test : Bool} {yes : Cont K} {no : Option (Cont K)}
    (hyes : test = true → Y.TaskOk ls i yes) (hno : ∀ t ∈ no, Y.TaskOk ls i t) :
    Y.Good ls i { st := s, rest := if test then some yes else no } := by
  refine ⟨h, ?_⟩
  cases test with
  | false => exact hno
  | true =>
    rintro t ⟨⟩
    exact hyes rfl

/-- A resumed task. The tests of the table are made in full. -/
theorem good_resume (htable : Y.TableOk ls i s) (h : Y.StateOk ls i s) {t : Cont K}
    (ht : Y.TaskOk ls i t)
    (hstarted : ((∃ loop, t = .announcedStarted loop) ∨ t = .startedStatuses) →
      Y.Full i s .running)
    (hfinished : ((∃ loop, t = .announcedFinished loop) ∨ t = .finishedStatuses) →
      Y.Full i s .terminated)
    (ho : Y.resume i s t = some o) : Y.Good ls i o := by
  cases t with
  | start =>
    obtain rfl := Option.some.inj ho
    exact ⟨⟨h.running, h.terminated⟩, by rintro t ⟨⟩; trivial⟩
  -- statuses that stand for nothing
  | delaying | keyGrace =>
    obtain rfl := Option.some.inj ho
    exact ⟨stateOk_send _ nofun nofun, by rintro t ⟨⟩⟩
  | grace loop =>
    obtain rfl := Option.some.inj ho
    exact ⟨stateOk_send .starting nofun nofun, by rintro t ⟨⟩; trivial⟩
  | serve =>
    obtain ⟨-, rfl⟩ := Option.ite_none_right_eq_some.mp ho |>.imp id Option.some.inj
    exact ⟨stateOk_send .stopping nofun nofun, by rintro t ⟨⟩; trivial⟩
  | wait loop =>
    rw [resume, awaitChange] at ho
    split at ho
    next =>
      obtain rfl := Option.some.inj ho
      exact ⟨⟨h.running, h.terminated⟩, by rintro t ⟨⟩; trivial⟩
    next =>
      obtain ⟨-, rfl⟩ := Option.ite_none_right_eq_some.mp ho |>.imp id Option.some.inj
      exact ⟨stateOk_send .stopping nofun nofun, by rintro t ⟨⟩; trivial⟩
  -- what a passed test leads to
  | becomeRunning loop =>
    obtain rfl := Option.some.inj ho
    exact ⟨stateOk_send .running (fun _ => ht) nofun, by rintro t ⟨⟩; trivial⟩
  | sendRunning =>
    obtain rfl := Option.some.inj ho
    exact ⟨stateOk_send .running (fun _ => ht) nofun, by rintro t ⟨⟩⟩
  | becomeTerminated loop =>
    obtain rfl := Option.some.inj ho
    exact ⟨stateOk_send .terminated nofun (fun _ => ht), by rintro t ⟨⟩; trivial⟩
  | sendTerminated =>
    obtain rfl := Option.some.inj ho
    exact ⟨stateOk_send .terminated nofun (fun _ => ht), by rintro t ⟨⟩⟩
  -- the tests of the table
  | announcedStarted loop =>
    obtain rfl := Option.some.inj ho
    rw [apply_ite some]
    exact good_test h (fun hall => htable.heard_started hall (hstarted (.inl ⟨loop, rfl⟩) hall))
      (by rintro t ⟨⟩; trivial)
  | startedStatuses =>
    obtain rfl := Option.some.inj ho
    exact good_test h (fun hall => htable.heard_started hall (hstarted (.inr rfl) hall)) nofun
  | announcedFinished loop =>
    obtain rfl := Option.some.inj ho
    rw [apply_ite some]
    exact good_test h (fun hall => htable.heard_finished hall (hfinished (.inl ⟨loop, rfl⟩) hall))
      (by rintro t ⟨⟩; trivial)
  | finishedStatuses =>
    obtain rfl := Option.some.inj ho
    exact good_test h (fun hall => htable.heard_finished hall (hfinished (.inr rfl) hall)) nofun
  -- tests of the status and the key store, after which nothing is written yet
  | announcedKey loop =>
    obtain rfl := Option.some.inj ho
    refine ⟨h, ?_⟩
    split <;> rintro t ⟨⟩ <;> trivial
  | startedCheck | finishedCheck | keyCheck =>
    obtain rfl := Option.some.inj ho
    refine ⟨h, ?_⟩
    split <;> rintro t ⟨⟩
    trivial
  | monitor loop =>
    obtain ⟨-, rfl⟩ := Option.ite_none_right_eq_some.mp ho |>.imp id Option.some.inj
    exact good_monitor h loop
  -- the algorithm
  | onStart k loop =>
    obtain ⟨oa, -, rfl⟩ := Option.map_eq_some_iff.mp ho
    exact good_runAlgorithm h oa (taskOk_afterOnStart loop)
  | handler k =>
    obtain ⟨oa, -, rfl⟩ := Option.map_eq_some_iff.mp ho
    exact good_runAlgorithm h oa taskOk_handler

/-- The invariant of the network; of messages nothing is said. -/
def ok (Y : System A M K) : Assertion PeerId (Message M) (NodeState A) (Cont K) where
  node ls i s ts := Y.StateOk ls i s ∧ ∀ t ∈ ts, Y.TaskOk ls i t
  msg _ _ := True

theorem ok_init (Y : System A M K) : Y.ok.Holds Y.parties [] Y.initial where
  node i _ := by
    constructor
    · constructor <;> intros <;> simp_all [initial]
    · intro t ht
      rcases List.mem_cons.mp ht with rfl | ht
      · trivial
      · rcases List.mem_pair.mp ht with rfl | rfl <;> trivial
  msg _ _ := trivial
  received _ _ := trivial

/-! ## Runs -/

section Runs

variable [DecidableEq M] [DecidableEq K]

/-- The invariant is inductive, as long as the tests are made in full. -/
theorem ok_inductive (Y : System A M K) :
    Y.ok.Inductive Y.protocol Y.parties Y.initial Y.CheckedInFull where
  init := ok_init Y
  node_mono _ h := ⟨h.1.append, fun t ht => (h.2 t ht).append⟩
  msg_mono _ := trivial
  segment := by
    intro ls c l i o base hc hA hcond hseg
    obtain ⟨hstate, htasks⟩ := hA.node i hseg.correct
    have htable := table_of_run hc (Cluster.mem_correct.mp hseg.correct)
    have hgood : Y.Good (ls ++ [l]) i o := by
      cases hseg with
      | recv _ _ => exact good_handle hstate.append _ _
      | forge hsrc _ => exact absurd hsrc Cluster.not_mem_byz
      | @wake _ t _ _ htask ho =>
        have hkept : Y.TableOk (ls ++ [.wake i t]) i (c.st i) :=
          htable.keep rfl fun j _ => ⟨by simp, by simp⟩
        refine good_resume hkept hstate.append (htasks t htask).append ?_ ?_ ho
        · rintro (⟨loop, rfl⟩ | rfl)
          · exact hcond
          · exact hcond
        · rintro (⟨loop, rfl⟩ | rfl)
          · exact hcond
          · exact hcond
    refine ⟨⟨hgood.st, fun t ht => ?_⟩, fun _ _ => trivial⟩
    rcases hseg.mem_rest_or_tasks ht with hnew | hold
    · exact hgood.rest t hnew
    · exact (htasks t hold).append

/-- **The barrier holds in every run whose tests are made in full**: whenever a test
of the table passes, there is an entry for every peer. -/
theorem barrier_of_checkedInFull (hc : exec Y.step Y.initial ls = some c)
    (hmeets : Meets Y.step Y.initial Y.CheckedInFull ls) : Y.Barrier ls c := by
  intro i hi
  have hholds := Assertion.holds_of_meets (ok_inductive Y) ls c hc hmeets
  have hok := (hholds.node i (Cluster.mem_correct.mpr hi)).1
  exact ⟨hok.running, hok.terminated⟩

end Runs

/-! ## Two nodes -/

/-- Two nodes with an algorithm that does nothing. -/
def pair : System Unit Unit Empty where
  toCluster := .pair
  pubkey i := if i = "a" then [1] else [2]
  algorithm :=
    { onStart := fun _ _ => { st := () }
      handle := fun _ _ _ _ => { st := () }
      resume := fun _ _ k => nomatch k
      isTerminated := fun _ => false }
  initialState _ := ()
  coin _ _ := true

/-- Both nodes exchange their keys, and `a` goes on to announce itself. -/
def pairKeys : Trace PeerId (Message Unit) (Cont Empty) :=
  [.wake "a" .start, .wake "a" .delaying, .wake "a" (.monitor {}),
   .wake "b" .start, .wake "b" .delaying, .wake "b" (.monitor {}),
   .recv ⟨"b", "a", .announcePubKey [2]⟩, .recv ⟨"a", "b", .announcePubKey [1]⟩,
   .wake "a" (.announcedKey ⟨1, false, false⟩), .wake "a" (.grace ⟨1, false, false⟩),
   .wake "a" (.wait ⟨1, false, false⟩), .wake "a" (.monitor ⟨1, false, false⟩)]

/-- `b` does the same, and tests its table after it has heard of `a`. -/
def pairStart : Trace PeerId (Message Unit) (Cont Empty) :=
  [.wake "b" (.announcedKey ⟨1, false, false⟩), .wake "b" (.grace ⟨1, false, false⟩),
   .wake "b" (.wait ⟨1, false, false⟩), .wake "b" (.monitor ⟨1, false, false⟩),
   .recv ⟨"a", "b", .started⟩,
   .wake "b" (.announcedStarted ⟨2, false, false⟩), .wake "b" (.becomeRunning ⟨2, false, false⟩)]

/-- A run whose tests are made in full. -/
theorem barrier_of_checkedInFull_pair :
    ∃ c, exec pair.step pair.initial (pairKeys ++ pairStart) = some c ∧
      (c.st "b").status = .running ∧ pair.Barrier (pairKeys ++ pairStart) c := by
  obtain ⟨c, hc, hst⟩ := exists_exec_of_any pair.step pair.initial (pairKeys ++ pairStart)
    (fun c => (c.st "b").status = .running) (by decide)
  have hmeets : Meets pair.step pair.initial pair.CheckedInFull (pairKeys ++ pairStart) :=
    meets_of_meetsFrom (by decide)
  exact ⟨c, hc, of_decide_eq_true hst, barrier_of_checkedInFull hc hmeets⟩

/-- **The barrier can be broken**: with an empty table `a` passes the test, and is
Running while `b` is still exchanging keys. -/
theorem barrier_broken :
    ¬ ∀ ls c, exec pair.step pair.initial ls = some c → pair.Barrier ls c := by
  intro hall
  let ls : Trace PeerId (Message Unit) (Cont Empty) := pairKeys ++
    [.wake "a" (.announcedStarted ⟨2, false, false⟩), .wake "a" (.becomeRunning ⟨2, false, false⟩)]
  obtain ⟨c, hc, hst⟩ := exists_exec_of_any pair.step pair.initial ls
    (fun c => (c.st "a").status = .running ∧ (c.st "b").status = .keySharing) (by decide)
  have hheard := (hall ls c hc "a" (by decide)).1 (of_decide_eq_true hst).1 "b" (by decide)
  exact absurd hheard (by decide)

end DistBench.RustLifecycle.System
