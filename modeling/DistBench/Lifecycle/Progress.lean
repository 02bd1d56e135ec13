import DistBench.Lifecycle.Barrier

/-!
# Everybody ends

A node ends when its monitor has gone through all phases, and that takes every
other node's announcement of every phase. The monitor can miss what it waits for:
it looks at the status only between its phases, so a status that `start` writes
in the middle of one is overwritten or waited for in vain; a FINISHED replaces the
entry RUNNING in the peer table, whether the monitor has seen it or not; and a
FINISHED can make a node TERMINATED before it has announced that it stops.

- `Settled`: nothing that can still happen changes anything.
- `Ended`: what is asked of the algorithm.
- `Orderly`: the condition on steps under which nothing is missed.
- `Fits`, `At`, `at_segment`: where `start` and the monitor are, what status that goes
  with, and what the node has announced.
- `Table`, `table_segment`: what the entries of a node say of the messages it has handled.
- `terminated_of_settled`: in a run of orderly steps nobody is left behind.
- `suspending_stuck`: two nodes whose monitors wait for a change of status that has happened.
-/

namespace DistBench.Lifecycle.System

open DistBench.Async

variable {A M K : Type} [DecidableEq M] [DecidableEq K] {Y : System A M K}
  {ls ls' : Trace PeerId (NodeMessage M) (Cont K)} {l : Label PeerId (NodeMessage M) (Cont K)}
  {c c' base : Config PeerId (NodeMessage M) (NodeState A) (Cont K)}
  {o : Outcome PeerId (NodeMessage M) (NodeState A) (Cont K)} {i j : PeerId} {s s' : NodeState A}
  {ts ts' : List (Cont K)} {start monitor : Option (Cont K)}

/-! ## The statement -/

/-- The configurations differ at most in the order of coroutines. -/
structure Same (c c' : Config PeerId (NodeMessage M) (NodeState A) (Cont K)) : Prop where
  st : c'.st = c.st
  tasks : ∀ i, (c'.tasks i).Perm (c.tasks i)
  net : c'.net = c.net

/-- Whatever can happen, but for a server that stops, changes nothing. -/
def Settled (Y : System A M K) (c : Config PeerId (NodeMessage M) (NodeState A) (Cont K)) :
    Prop :=
  ∀ l c', (∀ i, l ≠ .wake i .serve) → Y.step c l = some c' → Same c c'

/-- The points of the monitor after the barrier of STARTING. -/
def afterBarrier : Cont K → Bool
  | .onStart _ | .running _ | .stopping => true
  | _ => false

/-- The monitor is past the barrier of STARTING. -/
def Passed (s : NodeState A) (ts : List (Cont K)) : Prop :=
  s.monitorDone = true ∨ ∃ t ∈ ts, afterBarrier t = true

/-- What is asked of the algorithm: `on_start` has returned wherever it was called, and
when it was called everywhere every algorithm has terminated. -/
structure Ended (Y : System A M K) (c : Config PeerId (NodeMessage M) (NodeState A) (Cont K)) :
    Prop where
  returned : ∀ i ∈ Y.parties.nodes, ∀ k, .onStart k ∉ c.tasks i
  terminated : (∀ i ∈ Y.parties.nodes, Passed (c.st i) (c.tasks i)) →
    ∀ i ∈ Y.parties.nodes, Y.algorithm.isTerminated (c.st i).algorithm = true

/-- The condition on a step. `start` opens the shutdown only when the monitor waits under
RUNNING. A FINISHED is handled only when the monitor is past the barrier, and does not
complete the table of a node that has not announced its own. -/
def Orderly (Y : System A M K) (c : Config PeerId (NodeMessage M) (NodeState A) (Cont K)) :
    Label PeerId (NodeMessage M) (Cont K) → Prop
  | .wake i .waiting => (c.st i).status = .running ∧ .running (c.st i).epoch ∈ c.tasks i
  | .recv ⟨src, i, .finished⟩ => Passed (c.st i) (c.tasks i) ∧
      ((c.st i).status = .stopping → .stopping ∉ c.tasks i →
        Y.allStatuses i ((c.st i).setPeerStatus src .terminated) .terminated = false)
  | _ => True

/-! ## Where the coroutines are -/

/-- The coroutines of `start` and the monitor. -/
def isMain : Cont K → Bool
  | .serve | .handler _ => false
  | _ => true

/-- The point `start` is suspended at, the point the monitor is suspended at, and the
status in between; a coroutine that is through is at none. -/
inductive Fits (s : NodeState A) : Option (Cont K) → Option (Cont K) → Prop
  | created (hs : s.status = .notStarted) (hc : s.started = false) :
      Fits s (some .start) (some .monitor)
  | delaying (hs : s.status = .notStarted) (hc : s.started = true) :
      Fits s (some .delaying) (some .monitor)
  | blocked (hs : s.status = .notStarted) (hc : s.started = true) :
      Fits s (some .delaying) (some (.notStarted s.epoch))
  | opened (hs : s.status = .keySharing) (hc : s.started = true) :
      Fits s (some .waiting) (some .monitor)
  | woken (e : Nat) (hs : s.status = .keySharing) (he : e ≠ s.epoch) :
      Fits s (some .waiting) (some (.notStarted e))
  | keySharing (hs : s.status = .keySharing) : Fits s (some .waiting) (some .keySharing)
  | starting (hs : s.status = .starting ∨ s.status = .running) :
      Fits s (some .waiting) (some .starting)
  | onStart (k : K) (hs : s.status = .running) : Fits s (some .waiting) (some (.onStart k))
  | running (hs : s.status = .running) : Fits s (some .waiting) (some (.running s.epoch))
  | ended (e : Nat) (hs : s.status = .stopping) (he : e ≠ s.epoch) : Fits s none (some (.running e))
  | stopping (hs : s.status = .stopping ∨ s.status = .terminated) : Fits s none (some .stopping)
  | done (hs : s.status = .terminated) (hd : s.monitorDone = true) : Fits s none none

/-- How far the monitor has come. -/
def stage : Option (Cont K) → Nat
  | some .keySharing => 1
  | some .starting => 2
  | some (.onStart _) | some (.running _) => 3
  | some .stopping => 4
  | none => 5
  | _ => 0

/-- The node has announced `msg` to all its peers. -/
def Announced (Y : System A M K) (ls : Trace PeerId (NodeMessage M) (Cont K)) (i : PeerId)
    (msg : NodeMessage M) : Prop :=
  ∀ d ∈ Y.peers i, Occurs Y.step Y.initial ls (Sends Y.protocol Y.parties i d msg)

/-- The two coroutines of a node, and what it has announced. -/
structure At (Y : System A M K) (ls : Trace PeerId (NodeMessage M) (Cont K)) (i : PeerId)
    (s : NodeState A) (ts : List (Cont K)) (start monitor : Option (Cont K)) : Prop where
  mains : (ts.filter isMain).Perm (start.toList ++ monitor.toList)
  fits : Fits s start monitor
  ended : s.monitorDone = true → monitor = none
  key : 1 ≤ stage monitor → Y.Announced ls i (.pubkey (Y.publicKey i))
  started : 2 ≤ stage monitor → Y.Announced ls i .started
  finished : 4 ≤ stage monitor → Y.Announced ls i .finished
  /-- STARTED is announced in the phase STARTING only. -/
  only : ∀ d, Occurs Y.step Y.initial ls (Sends Y.protocol Y.parties i d .started) →
    2 ≤ stage monitor

omit [DecidableEq K] in
/-- What is said of a state says nothing of its tables and of the algorithm. -/
theorem Fits.of_eq (h : Fits s start monitor) (hstatus : s'.status = s.status)
    (hepoch : s'.epoch = s.epoch) (hstarted : s'.started = s.started)
    (hdone : s'.monitorDone = s.monitorDone) : Fits s' start monitor := by
  cases h with
  | created hs hc => exact .created (hstatus ▸ hs) (hstarted ▸ hc)
  | delaying hs hc => exact .delaying (hstatus ▸ hs) (hstarted ▸ hc)
  | blocked hs hc => exact hepoch ▸ .blocked (hstatus ▸ hs) (hstarted ▸ hc)
  | opened hs hc => exact .opened (hstatus ▸ hs) (hstarted ▸ hc)
  | woken e hs he => exact .woken e (hstatus ▸ hs) (hepoch ▸ he)
  | keySharing hs => exact .keySharing (hstatus ▸ hs)
  | starting hs => exact .starting (hstatus ▸ hs)
  | onStart k hs => exact .onStart k (hstatus ▸ hs)
  | running hs => exact hepoch ▸ .running (hstatus ▸ hs)
  | ended e hs he => exact .ended e (hstatus ▸ hs) (hepoch ▸ he)
  | stopping hs => exact .stopping (hstatus ▸ hs)
  | done hs hd => exact .done (hstatus ▸ hs) (hdone ▸ hd)

omit [DecidableEq M] in
theorem filter_erase_main {t : Cont K} (ht : t ∈ ts) (hmain : isMain t = true) :
    (ts.filter isMain).Perm (t :: (ts.erase t).filter isMain) := by
  have hperm := (List.perm_cons_erase ht).filter isMain
  rwa [List.filter_cons_of_pos hmain] at hperm

omit [DecidableEq M] in
theorem filter_erase_other {t : Cont K} (ht : t ∈ ts) (hmain : isMain t = false) :
    (ts.filter isMain).Perm ((ts.erase t).filter isMain) := by
  have hperm := (List.perm_cons_erase ht).filter isMain
  rwa [List.filter_cons_of_neg (by simp [hmain])] at hperm

omit [DecidableEq M] in
/-- `start` goes on. -/
theorem mains_start {t : Cont K} {rest : Option (Cont K)}
    (hmains : (ts.filter isMain).Perm (t :: monitor.toList)) (ht : t ∈ ts)
    (hmain : isMain t = true) (hrest : ∀ r ∈ rest, isMain r = true) :
    ((rest.toList ++ ts.erase t).filter isMain).Perm (rest.toList ++ monitor.toList) := by
  have herase := ((filter_erase_main ht hmain).symm.trans hmains).cons_inv
  have hfilter : rest.toList.filter isMain = rest.toList :=
    List.filter_eq_self.mpr fun r hr => hrest r (Option.mem_toList.mp hr)
  rw [List.filter_append, hfilter]
  exact herase.append_left _

omit [DecidableEq M] in
/-- The monitor goes on. -/
theorem mains_monitor {t : Cont K} {rest : Option (Cont K)}
    (hmains : (ts.filter isMain).Perm (start.toList ++ [t])) (ht : t ∈ ts)
    (hmain : isMain t = true) (hrest : ∀ r ∈ rest, isMain r = true) :
    ((rest.toList ++ ts.erase t).filter isMain).Perm (start.toList ++ rest.toList) := by
  have hmains' : (ts.filter isMain).Perm (t :: start.toList) :=
    hmains.trans (List.perm_append_singleton t _)
  exact (mains_start hmains' ht hmain hrest).trans List.perm_append_comm

omit [DecidableEq M] in
/-- A handler goes on. -/
theorem mains_other {t : Cont K} {rest : Option (Cont K)}
    (hmains : (ts.filter isMain).Perm (start.toList ++ monitor.toList)) (ht : t ∈ ts)
    (hmain : isMain t = false) (hrest : ∀ r ∈ rest, isMain r = false) :
    ((rest.toList ++ ts.erase t).filter isMain).Perm (start.toList ++ monitor.toList) := by
  have hfilter : rest.toList.filter isMain = [] :=
    List.filter_eq_nil_iff.mpr fun r hr => by simp [hrest r (Option.mem_toList.mp hr)]
  rw [List.filter_append, hfilter, List.nil_append]
  exact (filter_erase_other ht hmain).symm.trans hmains

/-- What a segment does for the announcements: a stage that is entered has been announced
in the segment, and STARTED is announced only from the stage before it, once. -/
structure Announces (Y : System A M K) (i : PeerId)
    (o : Outcome PeerId (NodeMessage M) (NodeState A) (Cont K)) (before after : Nat) : Prop where
  le : before ≤ after
  key : before < 1 → 1 ≤ after → ∀ d ∈ Y.peers i, (d, .pubkey (Y.publicKey i)) ∈ o.out
  started : before < 2 → 2 ≤ after → ∀ d ∈ Y.peers i, (d, .started) ∈ o.out
  finished : before < 4 → 4 ≤ after → ∀ d ∈ Y.peers i, (d, .finished) ∈ o.out
  only : ∀ d, (d, .started) ∈ o.out → before < 2 ∧ 2 ≤ after ∧ o.out.count (d, .started) = 1

theorem At.next (h : Y.At ls i (c.st i) ts start monitor) (hc : exec Y.step Y.initial ls = some c)
    (hseg : Segment Y.protocol Y.parties c l i o base) {start' monitor' : Option (Cont K)}
    (hmains : ((o.rest.toList ++ base.tasks i).filter isMain).Perm
      (start'.toList ++ monitor'.toList))
    (hfits : Fits o.st start' monitor') (hended : o.st.monitorDone = true → monitor' = none)
    (hout : Y.Announces i o (stage monitor) (stage monitor')) :
    Y.At (ls ++ [l]) i o.st (o.rest.toList ++ base.tasks i) start' monitor' := by
  have hannounced (n : Nat) (msg : NodeMessage M) (hold : n ≤ stage monitor → Y.Announced ls i msg)
      (hnew : stage monitor < n → n ≤ stage monitor' → ∀ d ∈ Y.peers i, (d, msg) ∈ o.out)
      (hn : n ≤ stage monitor') : Y.Announced (ls ++ [l]) i msg := by
    intro d hd
    by_cases hstage : n ≤ stage monitor
    · exact (hold hstage d hd).append
    · exact occurs_last hc ⟨o, base, hseg, hnew (by omega) hn d hd⟩
  refine ⟨hmains, hfits, hended, hannounced 1 _ h.key hout.key,
    hannounced 2 _ h.started hout.started, hannounced 4 _ h.finished hout.finished, ?_⟩
  intro d hocc
  rcases hocc.last_or hc with hold | ⟨o', base', hseg', hmem⟩
  · exact le_trans (h.only d hold) hout.le
  · obtain ⟨-, rfl, -⟩ := hseg'.unique hseg
    exact (hout.only d hmem).2.1

omit [DecidableEq K] in
/-- Nothing is announced, and no stage is entered. -/
theorem Announces.silent {n : Nat} (hout : ∀ d, (d, NodeMessage.started) ∉ o.out) :
    Y.Announces i o n n where
  le := le_rfl
  key h h' := by omega
  started h h' := by omega
  finished h h' := by omega
  only d hd := absurd hd (hout d)

/-! ## Handlers -/

omit [DecidableEq M] [DecidableEq K] in
/-- A handler announces nothing and is neither `start` nor the monitor. -/
theorem handle_spec (src : PeerId) (msg : NodeMessage M) :
    (∀ r ∈ (Y.handle i s src msg).rest, isMain r = false) ∧
    (∀ d, (d, .started) ∉ (Y.handle i s src msg).out) ∧
    (Y.handle i s src msg).st.monitorDone = s.monitorDone := by
  unfold handle
  split
  · exact ⟨by simp, by simp, rfl⟩
  · cases msg with
    | pubkey key =>
      dsimp only
      split <;> exact ⟨by simp, by simp, rfl⟩
    | started =>
      dsimp only
      split <;> exact ⟨by simp, by simp, rfl⟩
    | finished =>
      dsimp only
      split <;> exact ⟨by simp, by simp, rfl⟩
    | algorithm msg =>
      refine ⟨?_, ?_, rfl⟩
      · intro r hr
        obtain ⟨k, -, rfl⟩ := Option.map_eq_some_iff.mp hr
        rfl
      · intro d hd
        obtain ⟨dm, -, heq⟩ := List.mem_map.mp hd
        cases heq

omit [DecidableEq M] [DecidableEq K] in
/-- A handler that writes the status writes it where the monitor waits for that. -/
theorem fits_handle (hfits : Fits s start monitor) {src : PeerId} {msg : NodeMessage M}
    (hfinished : msg = .finished → s.status = .stopping → monitor ≠ some .stopping →
      Y.allStatuses i (s.setPeerStatus src .terminated) .terminated = false) :
    Fits (Y.handle i s src msg).st start monitor := by
  unfold handle
  split
  · exact hfits
  · cases msg with
    | pubkey key =>
      dsimp only
      split <;> exact hfits.of_eq rfl rfl rfl rfl
    | started =>
      dsimp only
      split
      · next hfull =>
        have hstatus : s.status = .starting := hfull.1
        cases hfits with
        | starting _ => exact .starting (.inr rfl)
        | stopping hs => rcases hs with hs | hs <;> rw [hstatus] at hs <;> cases hs
        | created hs _ | delaying hs _ | blocked hs _ | opened hs _ | woken _ hs _
        | keySharing hs | onStart _ hs | running hs
        | ended _ hs _ | done hs _ =>
          rw [hstatus] at hs
          cases hs
      · exact hfits.of_eq rfl rfl rfl rfl
    | finished =>
      dsimp only
      split
      · next hfull =>
        have hstatus : s.status = .stopping := hfull.1
        cases hfits with
        | stopping _ => exact .stopping (.inr rfl)
        | ended e _ _ =>
          have hall := hfinished rfl hstatus (by simp)
          rw [hall] at hfull
          exact absurd hfull.2 Bool.false_ne_true
        | starting hs => rcases hs with hs | hs <;> rw [hstatus] at hs <;> cases hs
        | created hs _ | delaying hs _ | blocked hs _ | opened hs _ | woken _ hs _
        | keySharing hs | onStart _ hs | running hs
        | done hs _ =>
          rw [hstatus] at hs
          cases hs
      · exact hfits.of_eq rfl rfl rfl rfl
    | algorithm msg => exact hfits.of_eq rfl rfl rfl rfl

/-! ## Coroutines -/

omit [DecidableEq M] [DecidableEq K] in
theorem broadcast_announces {msg : NodeMessage M} {d : PeerId} (hd : d ∈ Y.peers i) :
    (d, msg) ∈ Y.broadcast i msg :=
  List.mem_map_of_mem hd

omit [DecidableEq M] [DecidableEq K] in
theorem eq_of_mem_broadcast {msg msg' : NodeMessage M} {d : PeerId}
    (h : (d, msg') ∈ Y.broadcast i msg) : msg' = msg := by
  obtain ⟨peer, -, heq⟩ := List.mem_map.mp h
  exact (congrArg Prod.snd heq).symm

omit [DecidableEq K] in
/-- Every peer gets one copy. -/
theorem count_broadcast (hi : i ∈ Y.parties.nodes) {msg : NodeMessage M} {d : PeerId}
    (h : (d, msg) ∈ Y.broadcast i msg) : (Y.broadcast i msg).count (d, msg) = 1 := by
  have hinj : Function.Injective fun peer : PeerId => (peer, msg) :=
    fun _ _ h => congrArg Prod.fst h
  have hnodup : (Y.broadcast i msg).Nodup := (Y.nodup_peers i hi).map hinj
  exact List.count_eq_one_of_mem hnodup h

omit [DecidableEq M] [DecidableEq K] in
/-- A segment of the algorithm announces nothing. -/
theorem started_notMem_runAlgorithm {oa : Outcome PeerId M A K}
    {cont : Option K → Option (Cont K)} {d : PeerId} :
    (d, NodeMessage.started) ∉ (runAlgorithm s oa cont).out := by
  intro hd
  obtain ⟨dm, -, heq⟩ := List.mem_map.mp hd
  cases heq

/-- What is to be shown of a coroutine that goes on: the points after it, and what it
announces. Only with a full table does the monitor pass the barrier. -/
def Goes (Y : System A M K) (i : PeerId) (s : NodeState A) (t : Cont K)
    (o : Outcome PeerId (NodeMessage M) (NodeState A) (Cont K))
    (start monitor : Option (Cont K)) : Prop :=
  ∃ start' monitor',
    (isMain t = true ∧ (∀ r ∈ o.rest, isMain r = true) ∧
        (start = some t ∧ start' = o.rest ∧ monitor' = monitor ∨
          monitor = some t ∧ monitor' = o.rest ∧ start' = start) ∨
      isMain t = false ∧ (∀ r ∈ o.rest, isMain r = false) ∧ start' = start ∧ monitor' = monitor) ∧
    Fits o.st start' monitor' ∧ (o.st.monitorDone = true → monitor' = none) ∧
    Y.Announces i o (stage monitor) (stage monitor') ∧
    (stage monitor < 3 → 3 ≤ stage monitor' → Y.allStatuses i s .running = true)

omit [DecidableEq K] in
/-- `start` goes on. -/
theorem Goes.of_start {t : Cont K} {rest : Option (Cont K)}
    (hmain : isMain t = true) (hrest : ∀ r ∈ rest, isMain r = true)
    (hfits : Fits s' rest monitor) (hended : s'.monitorDone = true → monitor = none) :
    Y.Goes i s t { st := s', rest := rest } (some t) monitor :=
  ⟨rest, monitor, .inl ⟨hmain, hrest, .inl ⟨rfl, rfl, rfl⟩⟩, hfits, hended,
    .silent (by simp), fun h h' => by omega⟩

omit [DecidableEq K] in
/-- The monitor goes on. -/
theorem Goes.of_monitor {t : Cont K} (hmain : isMain t = true)
    (hrest : ∀ r ∈ o.rest, isMain r = true) (hfits : Fits o.st start o.rest)
    (hended : o.st.monitorDone = true → o.rest = none)
    (hout : Y.Announces i o (stage (some t)) (stage o.rest))
    (hfull : stage (some t) < 3 → 3 ≤ stage o.rest → Y.allStatuses i s .running = true) :
    Y.Goes i s t o start (some t) :=
  ⟨start, o.rest, .inl ⟨hmain, hrest, .inr ⟨rfl, rfl, rfl⟩⟩, hfits, hended, hout, hfull⟩

omit [DecidableEq K] in
/-- The monitor asks again. -/
theorem Goes.of_poll {t : Cont K} (hmain : isMain t = true) (hfits : Fits s start (some t))
    (hended : s.monitorDone = true → some t = none) :
    Y.Goes i s t { st := s, rest := some t } start (some t) := by
  refine .of_monitor hmain ?_ hfits hended (.silent (by simp)) fun h h' => ?_
  · intro r hr
    obtain rfl := Option.some.inj hr
    exact hmain
  · exact absurd h' (by simpa using h)

omit [DecidableEq M] [DecidableEq K] in
theorem isMain_afterOnStart {epoch : Nat} {k : Option K} :
    ∀ r ∈ afterOnStart epoch k, isMain r = true := by
  intro r hr
  cases k <;> (obtain rfl := Option.some.inj hr; rfl)

omit [DecidableEq M] [DecidableEq K] in
theorem stage_afterOnStart {epoch : Nat} {k : Option K} : stage (afterOnStart epoch k) = 3 := by
  cases k <;> rfl

omit [DecidableEq M] [DecidableEq K] in
theorem fits_afterOnStart {a : A} {k : Option K} (hs : s.status = .running) :
    Fits { s with algorithm := a } (some .waiting) (afterOnStart s.epoch k) := by
  cases k with
  | none => exact .running (s := { s with algorithm := a }) hs
  | some k => exact .onStart k hs

omit [DecidableEq K] in
/-- The monitor starts the key exchange. -/
theorem goes_keySharing {t : Cont K} (hmain : isMain t = true) (hstage : stage (some t) = 0)
    (hs : s.status = .keySharing) (hended : s.monitorDone = true → some t = none) :
    Y.Goes i s t (Y.monitor i s) (some .waiting) (some t) := by
  rw [monitor, hs]
  refine .of_monitor hmain (by simp [isMain]) (.keySharing hs)
    (fun h => absurd (hended h) (by simp)) ?_ (by simp [stage])
  rw [hstage]
  exact
    { le := by simp [stage]
      key := fun _ _ d hd => broadcast_announces hd
      started := by simp [stage]
      finished := by simp [stage]
      only := fun d hd => by cases eq_of_mem_broadcast hd }

omit [DecidableEq K] in
/-- The next segment of `start`, the monitor or a handler. -/
theorem goes_resume (hi : i ∈ Y.parties.nodes) (hfits : Fits s start monitor)
    (hended : s.monitorDone = true → monitor = none) {t : Cont K}
    (hmem : isMain t = true → t ∈ start.toList ++ monitor.toList)
    (hwaiting : t = .waiting → s.status = .running ∧ monitor = some (.running s.epoch))
    (ho : Y.resume i s t = some o) : Y.Goes i s t o start monitor := by
  cases t with
  | start =>
    have hm := hmem rfl
    cases hfits <;> simp at hm
    next hs hc =>
      obtain rfl := Option.some.inj ho
      exact .of_start rfl (by simp [isMain]) (.delaying hs rfl) hended
  | delaying =>
    have hm := hmem rfl
    obtain rfl := Option.some.inj ho
    cases hfits <;> simp at hm
    next hs hc => exact .of_start rfl (by simp [isMain]) (.opened rfl hc) hended
    next hs hc =>
      exact .of_start rfl (by simp [isMain]) (.woken s.epoch rfl (by simp [NodeState.setStatus]))
        hended
  | waiting =>
    have hm := hmem rfl
    obtain ⟨-, rfl⟩ := Option.ite_none_right_eq_some.mp ho |>.imp id Option.some.inj
    obtain ⟨-, rfl⟩ := hwaiting rfl
    cases hfits <;> simp at hm
    next hs =>
      exact .of_start rfl (by simp) (.ended s.epoch rfl (by simp [NodeState.setStatus])) hended
  | serve =>
    obtain ⟨-, rfl⟩ := Option.ite_none_right_eq_some.mp ho |>.imp id Option.some.inj
    exact ⟨start, monitor, .inr ⟨rfl, by simp, rfl, rfl⟩, hfits.of_eq rfl rfl rfl rfl, hended,
      .silent (by simp), fun h h' => by omega⟩
  | monitor =>
    have hm := hmem rfl
    obtain ⟨hstarted, rfl⟩ := Option.ite_none_right_eq_some.mp ho |>.imp id Option.some.inj
    cases hfits <;> simp at hm
    next hs hc => simp [hc] at hstarted
    next hs hc =>
      rw [monitor, hs]
      exact .of_monitor rfl (by simp [isMain]) (.blocked hs hc) (by simpa using hended)
        (.silent (by simp)) (by simp [stage])
    next hs hc =>
      exact goes_keySharing rfl rfl hs hended
  | notStarted e =>
    have hm := hmem rfl
    obtain ⟨hepoch, rfl⟩ := Option.ite_none_right_eq_some.mp ho |>.imp id Option.some.inj
    cases hfits <;> simp at hm
    next hs hc => exact absurd hm.symm hepoch
    next e' hs he =>
      subst hm
      exact goes_keySharing rfl rfl hs (by simpa using hended)
  | keySharing =>
    have hm := hmem rfl
    cases hfits <;> simp at hm
    next hs =>
      rw [resume] at ho
      split at ho
      · obtain rfl := Option.some.inj ho
        refine .of_monitor rfl (by simp [monitor, NodeState.setStatus, isMain])
          (.starting (.inl rfl)) (by simpa [monitor, NodeState.setStatus] using hended) ?_
          (by simp [monitor, NodeState.setStatus, stage])
        exact
          { le := by simp [monitor, NodeState.setStatus, stage]
            key := by simp [stage]
            started := fun _ _ d hd => broadcast_announces hd
            finished := by simp [monitor, NodeState.setStatus, stage]
            only := fun d hd => ⟨by simp [stage], by simp [monitor, NodeState.setStatus, stage],
              count_broadcast hi hd⟩ }
      · obtain rfl := Option.some.inj ho
        exact .of_poll rfl (.keySharing hs) hended
  | starting =>
    have hm := hmem rfl
    cases hfits <;> simp at hm
    next hs =>
      rw [resume] at ho
      split at ho
      · next hall =>
        obtain rfl := Option.some.inj ho
        have hrunning : (s.setStatus .running).status = .running := rfl
        have hstage : stage (afterOnStart (s.setStatus .running).epoch
            (Y.algorithm.onStart i s.algorithm).rest) = 3 := stage_afterOnStart
        refine .of_monitor rfl isMain_afterOnStart (fits_afterOnStart hrunning)
          (fun h => absurd (hended h) (by simp)) ?_ (fun _ _ => hall)
        exact
          { le := by
              rw [show stage (Y.monitor i (s.setStatus .running)).rest = 3 from hstage]
              simp [stage]
            key := by simp [stage]
            started := by simp [stage]
            finished := fun _ h => by
              rw [show stage (Y.monitor i (s.setStatus .running)).rest = 3 from hstage] at h
              omega
            only := fun d hd => absurd hd started_notMem_runAlgorithm }
      · obtain rfl := Option.some.inj ho
        exact .of_poll rfl (.starting hs) hended
  | onStart k =>
    have hm := hmem rfl
    cases hfits <;> simp at hm
    next k' hs =>
      subst hm
      obtain ⟨oa, -, rfl⟩ := Option.map_eq_some_iff.mp ho
      refine .of_monitor rfl isMain_afterOnStart (fits_afterOnStart hs)
        (fun h => absurd (hended h) (by simp)) ?_ (by simp [stage])
      have hstage : stage (runAlgorithm s oa (afterOnStart s.epoch) :
          Outcome PeerId (NodeMessage M) (NodeState A) (Cont K)).rest = 3 := stage_afterOnStart
      rw [hstage]
      exact .silent fun d => started_notMem_runAlgorithm
  | running e =>
    have hm := hmem rfl
    obtain ⟨hepoch, rfl⟩ := Option.ite_none_right_eq_some.mp ho |>.imp id Option.some.inj
    cases hfits <;> simp at hm
    next hs => exact absurd hm.symm hepoch
    next e' hs he =>
      subst hm
      rw [monitor, hs]
      refine .of_monitor rfl (by simp [isMain]) (.stopping (.inl hs)) (by simpa using hended) ?_
        (by simp [stage])
      exact
        { le := by simp [stage]
          key := by simp [stage]
          started := by simp [stage]
          finished := fun _ _ d hd => broadcast_announces hd
          only := fun d hd => by cases eq_of_mem_broadcast hd }
  | stopping =>
    have hm := hmem rfl
    cases hfits <;> simp at hm
    next hs =>
      rw [resume] at ho
      split at ho
      · obtain rfl := Option.some.inj ho
        refine .of_monitor rfl (by simp [monitor, NodeState.setStatus])
          (.done rfl rfl) (fun _ => rfl) ?_ (by simp [stage])
        exact
          { le := by simp [monitor, NodeState.setStatus, stage]
            key := by simp [stage]
            started := by simp [stage]
            finished := by simp [stage]
            only := by simp [monitor, NodeState.setStatus] }
      · obtain rfl := Option.some.inj ho
        exact .of_poll rfl (.stopping hs) hended
  | handler k =>
    obtain ⟨oa, -, rfl⟩ := Option.map_eq_some_iff.mp ho
    refine ⟨start, monitor, .inr ⟨rfl, ?_, rfl, rfl⟩, hfits.of_eq rfl rfl rfl rfl, hended,
      .silent fun d => started_notMem_runAlgorithm, fun h h' => by omega⟩
    intro r hr
    obtain ⟨k', -, rfl⟩ := Option.map_eq_some_iff.mp hr
    rfl

/-- A segment of a node in an orderly step. -/
theorem at_segment (hc : exec Y.step Y.initial ls = some c)
    (h : Y.At ls i (c.st i) (c.tasks i) start monitor)
    (hseg : Segment Y.protocol Y.parties c l i o base) (hord : Y.Orderly c l) :
    ∃ start' monitor', Y.At (ls ++ [l]) i o.st (o.rest.toList ++ base.tasks i) start' monitor' ∧
      Y.Announces i o (stage monitor) (stage monitor') ∧
      (stage monitor < 3 → 3 ≤ stage monitor' → Y.allStatuses i (c.st i) .running = true) := by
  have hi : i ∈ Y.parties.nodes := Cluster.mem_correct.mp hseg.correct
  have hmem (t : Cont K) (ht : t ∈ c.tasks i) (hmain : isMain t = true) :
      t ∈ start.toList ++ monitor.toList :=
    h.mains.mem_iff.mp (List.mem_filter.mpr ⟨ht, hmain⟩)
  have hseg' := hseg
  cases hseg with
  | forge hsrc _ => exact absurd hsrc Cluster.not_mem_byz
  | @recv e hnet _ =>
    obtain ⟨src, dst, msg⟩ := e
    obtain ⟨hrest, hout, hdone⟩ := handle_spec (Y := Y) (i := dst) (s := c.st dst) src msg
    refine ⟨start, monitor, h.next hc hseg' ?_ (fits_handle h.fits ?_) ?_ (.silent hout),
      .silent hout, fun h h' => by omega⟩
    · have hfilter : (Y.handle dst (c.st dst) src msg).rest.toList.filter isMain = [] :=
        List.filter_eq_nil_iff.mpr fun r hr => by simp [hrest r (Option.mem_toList.mp hr)]
      rw [List.filter_append]
      exact (List.append_left_eq_self.mpr hfilter) ▸ h.mains
    · rintro rfl hstopping hmonitor
      refine hord.2 hstopping fun hmem' => hmonitor ?_
      have hm := hmem _ hmem' rfl
      have hfits := h.fits
      cases hfits <;> simp_all
    · intro hd
      exact h.ended (hdone ▸ hd)
  | @wake _ t _ _ ht ho =>
    have hwaiting : t = .waiting →
        (c.st i).status = .running ∧ monitor = some (.running (c.st i).epoch) := by
      rintro rfl
      refine ⟨hord.1, ?_⟩
      have hm := hmem _ hord.2 rfl
      have hfits := h.fits
      cases hfits <;> simp_all
    obtain ⟨start', monitor', hmoves, hfits, hended, hout, hfull⟩ :=
      goes_resume hi h.fits h.ended (hmem t ht) hwaiting ho
    refine ⟨start', monitor', h.next hc hseg' ?_ hfits hended hout, hout, hfull⟩
    have htasks : (c.unpark i t).tasks i = (c.tasks i).erase t := by simp [Config.unpark]
    rw [htasks]
    rcases hmoves with ⟨hmain, hrest, ⟨rfl, rfl, rfl⟩ | ⟨rfl, rfl, rfl⟩⟩ |
      ⟨hmain, hrest, rfl, rfl⟩
    · exact mains_start h.mains ht hmain hrest
    · exact mains_monitor h.mains ht hmain hrest
    · exact mains_other h.mains ht hmain hrest

/-- The invariant of the coroutines. -/
def course (Y : System A M K) : Assertion PeerId (NodeMessage M) (NodeState A) (Cont K) where
  node ls i s ts := ∃ start monitor, Y.At ls i s ts start monitor
  msg _ _ := True

/-- Another node's step sends nothing of this one's. -/
theorem At.append (h : Y.At ls i s ts start monitor) (hl : l.node ≠ i) :
    Y.At (ls ++ [l]) i s ts start monitor where
  mains := h.mains
  fits := h.fits
  ended := h.ended
  key hn d hd := (h.key hn d hd).append
  started hn d hd := (h.started hn d hd).append
  finished hn d hd := (h.finished hn d hd).append
  only d hocc := by
    rcases hocc.exists_last_or with hold | ⟨c, -, o, base, hseg, -⟩
    · exact h.only d hold
    · exact absurd hseg.node_eq hl

theorem course_inductive (Y : System A M K) :
    Y.course.Inductive Y.protocol Y.parties Y.initial fun _ => Y.Orderly where
  init := by
    refine ⟨fun i _ => ⟨some .start, some .monitor, ?_⟩, fun _ _ => trivial, fun _ _ => trivial⟩
    exact
      { mains := List.Perm.refl _
        fits := .created rfl rfl
        ended := nofun
        key := by simp [stage]
        started := by simp [stage]
        finished := by simp [stage]
        only := fun d hocc => absurd hocc not_occurs_nil }
  node_mono hl h := by
    obtain ⟨start, monitor, h⟩ := h
    exact ⟨start, monitor, h.append hl⟩
  msg_mono _ := trivial
  segment := by
    intro ls c l i o base hc hA hord hseg
    obtain ⟨start, monitor, h⟩ := hA.node i hseg.correct
    obtain ⟨start', monitor', h', -⟩ := at_segment hc h hseg hord
    exact ⟨⟨start', monitor', h'⟩, fun _ _ => trivial⟩

theorem course_of_run (hc : exec Y.step Y.initial ls = some c)
    (h : Meets Y.step Y.initial (fun _ => Y.Orderly) ls) (hi : i ∈ Y.parties.correct) :
    ∃ start monitor, Y.At ls i (c.st i) (c.tasks i) start monitor :=
  (Assertion.holds_of_meets (course_inductive Y) ls c hc h).node i hi

/-- STARTED is sent to a peer in one segment only, once. -/
theorem sends_started_once :
    ∀ ls c l o base, exec Y.step Y.initial ls = some c →
      Meets Y.step Y.initial (fun _ => Y.Orderly) ls → Y.Orderly c l →
      Segment Y.protocol Y.parties c l j o base → (i, .started) ∈ o.out →
        o.out.count (i, .started) = 1 ∧
          ¬ Occurs Y.step Y.initial ls (Sends Y.protocol Y.parties j i .started) := by
  intro ls c l o base hc hmeets hord hseg hout
  obtain ⟨start, monitor, hat⟩ := course_of_run hc hmeets hseg.correct
  obtain ⟨start', monitor', -, hannounces, -⟩ := at_segment hc hat hseg hord
  obtain ⟨hstage, -, hcount⟩ := hannounces.only i hout
  refine ⟨hcount, fun hocc => ?_⟩
  have hlater := hat.only i hocc
  omega

/-- A STARTED is received once. -/
theorem started_received_once (hc : exec Y.step Y.initial ls = some c)
    (h : Meets Y.step Y.initial (fun _ => Y.Orderly) ls)
    (hrecv : .recv ⟨j, i, .started⟩ ∈ ls) :
    (⟨j, i, .started⟩ : Envelope PeerId (NodeMessage M)) ∉ c.net :=
  (received_once rfl sends_started_once ls c hc h).2 hrecv

/-! ## The tables -/

/-- The coroutines are those of `Fits`. -/
theorem At.mem (h : Y.At ls i s ts start monitor) {t : Cont K} (ht : t ∈ ts)
    (hmain : isMain t = true) : t ∈ start.toList ++ monitor.toList :=
  h.mains.mem_iff.mp (List.mem_filter.mpr ⟨ht, hmain⟩)

theorem At.mem_start (h : Y.At ls i s ts start monitor) {t : Cont K} (ht : start = some t) :
    t ∈ ts :=
  List.mem_of_mem_filter (h.mains.mem_iff.mpr (by simp [ht]))

theorem At.mem_monitor (h : Y.At ls i s ts start monitor) {t : Cont K} (ht : monitor = some t) :
    t ∈ ts :=
  List.mem_of_mem_filter (h.mains.mem_iff.mpr (by simp [ht]))

omit [DecidableEq M] [DecidableEq K] in
/-- Only the monitor goes through the barrier. -/
theorem Fits.before_start (h : Fits s start monitor) : ∀ t ∈ start, afterBarrier t = false := by
  intro t ht
  cases h <;> cases ht <;> rfl

omit [DecidableEq M] [DecidableEq K] in
theorem three_le_stage {t : Cont K} (h : afterBarrier t = true) : 3 ≤ stage (some t) := by
  cases t with
  | onStart _ | running _ | stopping => simp [stage]
  | _ => cases h

omit [DecidableEq M] [DecidableEq K] in
theorem isMain_of_afterBarrier {t : Cont K} (h : afterBarrier t = true) : isMain t = true := by
  cases t with
  | onStart _ | running _ | stopping => rfl
  | _ => cases h

theorem At.passed_iff (h : Y.At ls i s ts start monitor) : Passed s ts ↔ 3 ≤ stage monitor := by
  constructor
  · rintro (hd | ⟨t, ht, hafter⟩)
    · rw [h.ended hd]
      simp [stage]
    · rcases List.mem_append.mp (h.mem ht (isMain_of_afterBarrier hafter)) with hm | hm
      · have hbefore := h.fits.before_start t (Option.mem_toList.mp hm)
        rw [hafter] at hbefore
        cases hbefore
      · rw [Option.mem_toList.mp hm]
        exact three_le_stage hafter
  · intro hstage
    have hfits := h.fits
    cases hfits with
    | onStart k _ => exact .inr ⟨_, h.mem_monitor rfl, rfl⟩
    | running _ => exact .inr ⟨_, h.mem_monitor rfl, rfl⟩
    | ended e _ _ => exact .inr ⟨_, h.mem_monitor rfl, rfl⟩
    | stopping _ => exact .inr ⟨_, h.mem_monitor rfl, rfl⟩
    | done _ hd => exact .inl hd
    | created _ _ | delaying _ _ | blocked _ _ | opened _ _ | woken _ _ _ | keySharing _
    | starting _ => simp [stage] at hstage

/-- What the tables of a node say of the messages it has handled. -/
structure Table (Y : System A M K) (ls : Trace PeerId (NodeMessage M) (Cont K)) (i : PeerId)
    (s : NodeState A) (ts : List (Cont K)) : Prop where
  keys : ∀ j ∈ Y.peers i, ∀ key, key ≠ [] → .recv ⟨j, i, .pubkey key⟩ ∈ ls → j ∈ s.keys
  running : ∀ j ∈ Y.peers i, .recv ⟨j, i, .started⟩ ∈ ls → .recv ⟨j, i, .finished⟩ ∉ ls →
    s.peerStatus.get j .notStarted = .running
  terminated : ∀ j ∈ Y.peers i, .recv ⟨j, i, .finished⟩ ∈ ls →
    s.peerStatus.get j .notStarted = .terminated
  source : ∀ j ∈ Y.peers i, s.peerStatus.get j .notStarted = .running →
    .recv ⟨j, i, .started⟩ ∈ ls
  /-- No FINISHED is handled before the barrier … -/
  early : ¬ Passed s ts → ∀ j ∈ Y.peers i, .recv ⟨j, i, .finished⟩ ∉ ls
  /-- … and every STARTED is. -/
  heard : Passed s ts → ∀ j ∈ Y.peers i, .recv ⟨j, i, .started⟩ ∈ ls

omit [DecidableEq M] [DecidableEq K] in
theorem monitor_peerStatus : (Y.monitor i s).st.peerStatus = s.peerStatus := by
  unfold monitor
  split <;> rfl

omit [DecidableEq M] [DecidableEq K] in
/-- The peer table is written by handlers only. -/
theorem resume_peerStatus {t : Cont K} (ho : Y.resume i s t = some o) :
    o.st.peerStatus = s.peerStatus := by
  cases t with
  | start | delaying =>
    obtain rfl := Option.some.inj ho
    rfl
  | waiting | serve =>
    obtain ⟨-, rfl⟩ := Option.ite_none_right_eq_some.mp ho |>.imp id Option.some.inj
    rfl
  | monitor | notStarted _ | running _ =>
    obtain ⟨-, rfl⟩ := Option.ite_none_right_eq_some.mp ho |>.imp id Option.some.inj
    exact monitor_peerStatus
  | keySharing | starting | stopping =>
    rw [resume] at ho
    split at ho
    · obtain rfl := Option.some.inj ho
      exact monitor_peerStatus
    · obtain rfl := Option.some.inj ho
      rfl
  | onStart k | handler k =>
    obtain ⟨oa, -, rfl⟩ := Option.map_eq_some_iff.mp ho
    rfl

omit [DecidableEq M] [DecidableEq K] in
theorem get_of_allStatuses {st : NodeStatus} (h : Y.allStatuses i s st = true)
    (hj : j ∈ Y.peers i) : s.peerStatus.get j .notStarted = st := by
  rw [allStatuses, List.all_eq_true] at h
  exact of_decide_eq_true (h j hj)

omit [DecidableEq M] [DecidableEq K] in
/-- A coroutine that goes on handles no message. -/
theorem Table.wake {t : Cont K} (h : Y.Table ls i s ts) (hkept : Kept s s')
    (htable : s'.peerStatus = s.peerStatus) (hpassed : Passed s ts → Passed s' ts')
    (hfull : ¬ Passed s ts → Passed s' ts' → Y.allStatuses i s .running = true) :
    Y.Table (ls ++ [.wake i t]) i s' ts' := by
  have hold {e : Envelope PeerId (NodeMessage M)} : .recv e ∈ ls ++ [.wake i t] ↔ .recv e ∈ ls := by
    simp
  constructor
  · intro j hj key hkey hrecv
    exact hkept.keys j (h.keys j hj key hkey (hold.mp hrecv))
  · intro j hj hstarted hfinished
    rw [htable]
    exact h.running j hj (hold.mp hstarted) fun hrecv => hfinished (hold.mpr hrecv)
  · intro j hj hfinished
    rw [htable]
    exact h.terminated j hj (hold.mp hfinished)
  · intro j hj hentry
    rw [htable] at hentry
    exact hold.mpr (h.source j hj hentry)
  · intro hnot j hj hrecv
    exact h.early (fun hp => hnot (hpassed hp)) j hj (hold.mp hrecv)
  · intro hp j hj
    refine hold.mpr ?_
    by_cases hbefore : Passed s ts
    · exact h.heard hbefore j hj
    · exact h.source j hj (get_of_allStatuses (hfull hbefore hp) hj)

/-- The entry a message writes. -/
def entry : NodeMessage M → Option NodeStatus
  | .started => some .running
  | .finished => some .terminated
  | .pubkey _ | .algorithm _ => none

omit [DecidableEq M] [DecidableEq K] in
theorem handle_get {src : PeerId} {msg : NodeMessage M} (hj : j ∈ Y.peers i) :
    (Y.handle i s src msg).st.peerStatus.get j .notStarted =
      if j = src then (entry msg).getD (s.peerStatus.get j .notStarted)
      else s.peerStatus.get j .notStarted := by
  have hwritten (st : NodeStatus) : (s.setPeerStatus src st).peerStatus.get j .notStarted =
      if j = src then st else s.peerStatus.get j .notStarted := by
    by_cases hjs : j = src
    · subst hjs
      rw [NodeState.setPeerStatus, Dict.get_insert_self, if_pos rfl]
    · rw [NodeState.setPeerStatus, Dict.get_insert_of_ne hjs, if_neg hjs]
  unfold handle
  split
  · next hsrc => rw [if_neg fun hjs => hsrc (by rwa [← hjs])]
  · cases msg with
    | pubkey key =>
      dsimp only
      split <;> exact (ite_self _).symm
    | started =>
      dsimp only
      split <;> exact hwritten .running
    | finished =>
      dsimp only
      split <;> exact hwritten .terminated
    | algorithm msg => exact (ite_self _).symm

omit [DecidableEq M] [DecidableEq K] in
theorem handle_mem_keys {src : PeerId} {key : List UInt8} (hsrc : src ∈ Y.peers i)
    (hkey : key ≠ []) : src ∈ (Y.handle i s src (.pubkey key)).st.keys := by
  rw [handle, if_neg (not_not_intro hsrc), if_pos hkey]
  exact (AList.mem_insert _).mpr (.inl rfl)

omit [DecidableEq M] [DecidableEq K] in
/-- A handler writes what the message says. -/
theorem Table.handle {src : PeerId} {msg : NodeMessage M} (h : Y.Table ls i s ts)
    (hkept : Kept s (Y.handle i s src msg).st)
    (hpassed : Passed (Y.handle i s src msg).st ts' ↔ Passed s ts)
    (honce : msg = .started → .recv ⟨src, i, .started⟩ ∉ ls)
    (hfinished : msg = .finished → Passed s ts) :
    Y.Table (ls ++ [.recv ⟨src, i, msg⟩]) i (Y.handle i s src msg).st ts' := by
  have hmem {j : PeerId} {m : NodeMessage M} :
      .recv ⟨j, i, m⟩ ∈ ls ++ [.recv ⟨src, i, msg⟩] ↔
        .recv ⟨j, i, m⟩ ∈ ls ∨ j = src ∧ m = msg := by
    simp
  have hstarted {j : PeerId} (hj : j ∈ Y.peers i) (hrecv : .recv ⟨j, i, .finished⟩ ∈ ls) :
      .recv ⟨j, i, .started⟩ ∈ ls :=
    h.heard (by_contra fun hnot => h.early hnot j hj hrecv) j hj
  constructor
  · intro j hj key hkey hrecv
    rcases hmem.mp hrecv with hrecv | ⟨rfl, rfl⟩
    · exact hkept.keys j (h.keys j hj key hkey hrecv)
    · exact handle_mem_keys hj hkey
  · intro j hj hrecv hnot
    rw [hmem, not_or] at hnot
    rw [handle_get hj]
    split
    · next hjs =>
      cases msg with
      | started => rfl
      | finished => exact absurd ⟨hjs, rfl⟩ hnot.2
      | pubkey key => exact h.running j hj ((hmem.mp hrecv).resolve_right (by simp)) hnot.1
      | algorithm msg => exact h.running j hj ((hmem.mp hrecv).resolve_right (by simp)) hnot.1
    · next hjs =>
      exact h.running j hj ((hmem.mp hrecv).resolve_right fun heq => hjs heq.1) hnot.1
  · intro j hj hrecv
    rw [handle_get hj]
    split
    · next hjs =>
      cases msg with
      | started =>
        have hrecv := hstarted hj ((hmem.mp hrecv).resolve_right (by simp))
        exact absurd (hjs ▸ hrecv) (honce rfl)
      | finished => rfl
      | pubkey key => exact h.terminated j hj ((hmem.mp hrecv).resolve_right (by simp))
      | algorithm msg => exact h.terminated j hj ((hmem.mp hrecv).resolve_right (by simp))
    · next hjs =>
      exact h.terminated j hj ((hmem.mp hrecv).resolve_right fun heq => hjs heq.1)
  · intro j hj hentry
    rw [handle_get hj] at hentry
    rw [hmem]
    split at hentry
    · next hjs =>
      cases msg with
      | started => exact .inr ⟨hjs, rfl⟩
      | finished => cases hentry
      | pubkey key => exact .inl (h.source j hj hentry)
      | algorithm msg => exact .inl (h.source j hj hentry)
    · exact .inl (h.source j hj hentry)
  · intro hnot j hj hrecv
    rcases hmem.mp hrecv with hrecv | ⟨-, hmsg⟩
    · exact h.early (fun hp => hnot (hpassed.mpr hp)) j hj hrecv
    · exact hnot (hpassed.mpr (hfinished hmsg.symm))
  · intro hp j hj
    exact hmem.mpr (.inl (h.heard (hpassed.mp hp) j hj))

omit [DecidableEq M] [DecidableEq K] in
/-- Only the monitor passes the barrier. -/
theorem passed_append (hdone : s'.monitorDone = s.monitorDone)
    (hnew : ∀ t ∈ ts', isMain t = false) : Passed s' (ts' ++ ts) ↔ Passed s ts := by
  rw [Passed, Passed, hdone]
  refine or_congr_right ⟨?_, ?_⟩
  · rintro ⟨t, ht, hafter⟩
    refine ⟨t, (List.mem_append.mp ht).resolve_left fun ht => ?_, hafter⟩
    exact absurd (isMain_of_afterBarrier hafter) (by simp [hnew t ht])
  · rintro ⟨t, ht, hafter⟩
    exact ⟨t, List.mem_append_right _ ht, hafter⟩

/-- A segment of a node in an orderly step. -/
theorem table_segment (hc : exec Y.step Y.initial ls = some c)
    (hmeets : Meets Y.step Y.initial (fun _ => Y.Orderly) ls)
    (h : Y.Table ls i (c.st i) (c.tasks i)) (hseg : Segment Y.protocol Y.parties c l i o base)
    (hord : Y.Orderly c l) : Y.Table (ls ++ [l]) i o.st (o.rest.toList ++ base.tasks i) := by
  have hkept := (good_segment hc (ok_of_run hc) hseg).kept
  obtain ⟨start, monitor, hat⟩ := course_of_run hc hmeets hseg.correct
  obtain ⟨start', monitor', hat', hannounces, hfull⟩ := at_segment hc hat hseg hord
  have hle := hannounces.le
  cases hseg with
  | forge hsrc _ => exact absurd hsrc Cluster.not_mem_byz
  | @recv e hnet _ =>
    obtain ⟨src, dst, msg⟩ := e
    obtain ⟨hrest, -, hdone⟩ := handle_spec (Y := Y) (i := dst) (s := c.st dst) src msg
    refine h.handle hkept (passed_append hdone fun t ht => hrest t (Option.mem_toList.mp ht)) ?_ ?_
    · rintro rfl hrecv
      exact started_received_once hc hmeets hrecv hnet
    · rintro rfl
      exact hord.1
  | wake _ _ ho =>
    refine h.wake hkept (resume_peerStatus ho) ?_ ?_
    · rw [hat.passed_iff, hat'.passed_iff]
      omega
    · rw [hat.passed_iff, hat'.passed_iff, not_le]
      exact hfull

/-- The invariant of the tables. -/
def tables (Y : System A M K) : Assertion PeerId (NodeMessage M) (NodeState A) (Cont K) where
  node := Y.Table
  msg _ _ := True

omit [DecidableEq M] [DecidableEq K] in
theorem Table.append (h : Y.Table ls i s ts) (hl : l.node ≠ i) : Y.Table (ls ++ [l]) i s ts := by
  have hold {j : PeerId} {m : NodeMessage M} :
      .recv ⟨j, i, m⟩ ∈ ls ++ [l] ↔ .recv ⟨j, i, m⟩ ∈ ls := by
    rw [List.mem_append, List.mem_singleton, or_iff_left]
    rintro rfl
    exact hl rfl
  constructor
  · simpa only [hold] using h.keys
  · simpa only [hold] using h.running
  · simpa only [hold] using h.terminated
  · simpa only [hold] using h.source
  · simpa only [hold] using h.early
  · simpa only [hold] using h.heard

theorem tables_inductive (Y : System A M K) :
    Y.tables.Inductive Y.protocol Y.parties Y.initial fun ls c l =>
      Meets Y.step Y.initial (fun _ => Y.Orderly) ls ∧ Y.Orderly c l where
  init := by
    refine ⟨fun i _ => ?_, fun _ _ => trivial, fun _ _ => trivial⟩
    refine ⟨by simp, by simp, by simp, ?_, by simp, ?_⟩
    · intro j _ hentry
      rw [initial, Dict.get_empty] at hentry
      cases hentry
    · rintro (hdone | ⟨t, ht, hafter⟩)
      · cases hdone
      · simp [initial] at ht
        rcases ht with rfl | rfl | rfl <;> cases hafter
  node_mono hl h := h.append hl
  msg_mono _ := trivial
  segment hc hA hcond hseg :=
    ⟨table_segment hc hcond.1 (hA.node _ hseg.correct) hseg hcond.2, fun _ _ => trivial⟩

theorem table_of_run (hc : exec Y.step Y.initial ls = some c)
    (h : Meets Y.step Y.initial (fun _ => Y.Orderly) ls) (hi : i ∈ Y.parties.correct) :
    Y.Table ls i (c.st i) (c.tasks i) :=
  (Assertion.holds_of_meets (tables_inductive Y) ls c hc h.with_history).node i hi

/-! ## Progress -/

/-- A coroutine that can go on changes nothing, and asks again at the same point. -/
theorem Settled.rest {t : Cont K} (h : Y.Settled c) (hi : i ∈ Y.parties.correct)
    (ht : t ∈ c.tasks i) (hserve : t ≠ .serve) (ho : Y.resume i (c.st i) t = some o) :
    o.rest = some t := by
  have hstep : Y.step c (.wake i t) = some ((c.unpark i t).commit i o) :=
    step_iff.mpr ⟨i, o, c.unpark i t, .wake hi ht ho, rfl⟩
  have htasks := (h _ _ (fun j heq => hserve (by cases heq; rfl)) hstep).tasks i
  rw [Config.commit_tasks_self] at htasks
  have hperm : (o.rest.toList ++ (c.tasks i).erase t).Perm ([t] ++ (c.tasks i).erase t) := by
    have hbase : (c.unpark i t).tasks i = (c.tasks i).erase t := by simp [Config.unpark]
    rw [hbase] at htasks
    exact htasks.trans (List.perm_cons_erase ht)
  have hrest := List.perm_singleton.mp ((List.perm_append_right_iff _).mp hperm)
  exact Option.toList_eq_singleton_iff.mp hrest

/-- No message of the lifecycle is in flight. -/
theorem Settled.not_in_flight {msg : NodeMessage M} (h : Y.Settled c)
    (hi : i ∈ Y.parties.correct) (hout : (Y.handle i (c.st i) j msg).out = []) :
    (⟨j, i, msg⟩ : Envelope PeerId (NodeMessage M)) ∉ c.net := by
  intro hnet
  have hstep : Y.step c (.recv ⟨j, i, msg⟩) = some ((c.take ⟨j, i, msg⟩).commit i _) :=
    step_iff.mpr ⟨i, _, c.take ⟨j, i, msg⟩, .recv hnet hi, rfl⟩
  have hsame := (h _ _ (fun _ heq => by cases heq) hstep).net
  rw [Config.commit] at hsame
  have hlength := congrArg List.length hsame
  rw [List.length_append, List.length_map] at hlength
  have herase := List.length_erase_of_mem hnet
  have hpos := List.length_pos_of_mem hnet
  have hzero := congrArg List.length hout
  simp only [Config.take, protocol, List.length_nil] at hlength hzero
  omega

section Stages

variable (hset : Y.Settled c) (hi : i ∈ Y.parties.correct)
  (h : Y.At ls i (c.st i) (c.tasks i) start monitor)

include hset hi h

theorem one_le_stage : 1 ≤ stage monitor := by
  have hfits := h.fits
  cases hfits with
  | created _ _ =>
    have hrest := hset.rest hi (h.mem_start rfl) nofun rfl
    cases hrest
  | delaying _ _ | blocked _ _ =>
    have hrest := hset.rest hi (h.mem_start rfl) nofun rfl
    cases hrest
  | opened hs hc =>
    have hrest := hset.rest hi (h.mem_monitor rfl) nofun (if_pos hc)
    rw [monitor, hs] at hrest
    cases hrest
  | woken e hs he =>
    have hrest := hset.rest hi (h.mem_monitor rfl) nofun (if_pos he.symm)
    rw [monitor, hs] at hrest
    cases hrest
  | _ => simp [stage]

theorem two_le_stage (hkeys : Y.hasAllKeys i (c.st i) = true) : 2 ≤ stage monitor := by
  have hone := one_le_stage hset hi h
  have hfits := h.fits
  cases hfits with
  | keySharing hs =>
    have hrest := hset.rest hi (h.mem_monitor rfl) nofun (if_pos hkeys)
    cases hrest
  | created _ _ | delaying _ _ | blocked _ _ | opened _ _ | woken _ _ _ => simp [stage] at hone
  | _ => simp [stage]

theorem three_le_stage_of_all (hstage : 2 ≤ stage monitor)
    (hall : Y.allStatuses i (c.st i) .running = true) : 3 ≤ stage monitor := by
  have hfits := h.fits
  cases hfits with
  | starting hs =>
    have hrest := hset.rest hi (h.mem_monitor rfl) nofun (if_pos hall)
    have hstage := congrArg stage hrest
    rw [show stage (Y.monitor i ((c.st i).setStatus .running)).rest = 3 from stage_afterOnStart]
      at hstage
    cases hstage
  | created _ _ | delaying _ _ | blocked _ _ | opened _ _ | woken _ _ _ | keySharing _ =>
    simp [stage] at hstage
  | _ => simp [stage]

theorem four_le_stage (hstage : 3 ≤ stage monitor) (hreturned : ∀ k, .onStart k ∉ c.tasks i)
    (hterminated : Y.algorithm.isTerminated (c.st i).algorithm = true) : 4 ≤ stage monitor := by
  have hfits := h.fits
  cases hfits with
  | onStart k _ => exact absurd (h.mem_monitor rfl) (hreturned k)
  | running _ =>
    have hrest := hset.rest hi (h.mem_start rfl) nofun (if_pos (.inr (.inr hterminated)))
    cases hrest
  | ended e hs he =>
    have hrest := hset.rest hi (h.mem_monitor rfl) nofun (if_pos he.symm)
    rw [monitor, hs] at hrest
    cases hrest
  | stopping _ | done _ _ => simp [stage]
  | _ => simp [stage] at hstage

theorem done_of_all (hstage : 4 ≤ stage monitor)
    (hall : Y.allStatuses i (c.st i) .terminated = true) :
    (c.st i).status = .terminated ∧ (c.st i).monitorDone = true := by
  have hfits := h.fits
  cases hfits with
  | stopping _ =>
    have hrest := hset.rest hi (h.mem_monitor rfl) nofun (if_pos hall)
    cases hrest
  | done hs hd => exact ⟨hs, hd⟩
  | _ => simp [stage] at hstage

end Stages

omit [DecidableEq M] [DecidableEq K] in
theorem handle_out {src : PeerId} {msg : NodeMessage M} (hmsg : ∀ m, msg ≠ .algorithm m) :
    (Y.handle i s src msg).out = [] := by
  unfold handle
  split
  · rfl
  · cases msg with
    | algorithm m => exact absurd rfl (hmsg m)
    | _ =>
      dsimp only
      split <;> rfl

/-- Announcements have arrived. -/
theorem Announced.received {msg : NodeMessage M} (h : Y.Announced ls j msg)
    (hc : exec Y.step Y.initial ls = some c) (hset : Y.Settled c) (hmsg : ∀ m, msg ≠ .algorithm m)
    (hi : i ∈ Y.parties.nodes) (hj : j ∈ Y.peers i) : .recv ⟨j, i, msg⟩ ∈ ls := by
  obtain ⟨hjn, hne⟩ := (Y.mem_peers i hi j).mp hj
  have hocc := h i ((Y.mem_peers j hjn i).mpr ⟨hi, hne.symm⟩)
  exact (handled_or_in_flight ls c hc hocc).resolve_right
    (hset.not_in_flight (Cluster.mem_correct.mpr hi) (handle_out hmsg))

/-- **Everybody ends.** When nothing can happen any more after a run of orderly steps, every
monitor has announced FINISHED and has reached TERMINATED. -/
theorem terminated_of_settled (Y : System A M K)
    (hkeys : ∀ i ∈ Y.parties.nodes, Y.publicKey i ≠ [])
    (hc : exec Y.step Y.initial ls = some c)
    (horderly : Meets Y.step Y.initial (fun _ => Y.Orderly) ls) (hset : Y.Settled c)
    (hended : Y.Ended c) :
    ∀ i ∈ Y.parties.nodes, (c.st i).status = .terminated ∧ (c.st i).monitorDone = true ∧
      Y.Announced ls i .finished := by
  have hcorrect {i : PeerId} (hi : i ∈ Y.parties.nodes) : i ∈ Y.parties.correct :=
    Cluster.mem_correct.mpr hi
  have hnode {i j : PeerId} (hi : i ∈ Y.parties.nodes) (hj : j ∈ Y.peers i) :
      j ∈ Y.parties.nodes := ((Y.mem_peers i hi j).mp hj).1
  have htable {i : PeerId} (hi : i ∈ Y.parties.nodes) :=
    table_of_run hc horderly (hcorrect hi)
  choose! start monitor hat using fun i hi => course_of_run hc horderly (hcorrect (i := i) hi)
  -- the keys of all peers have come
  have htwo {i : PeerId} (hi : i ∈ Y.parties.nodes) : 2 ≤ stage (monitor i) := by
    refine two_le_stage hset (hcorrect hi) (hat i hi) (List.all_eq_true.mpr fun j hj => ?_)
    have hjn := hnode hi hj
    have hsent := (hat j hjn).key (one_le_stage hset (hcorrect hjn) (hat j hjn))
    have hrecv := hsent.received hc hset nofun hi hj
    exact decide_eq_true ((htable hi).keys j hj _ (hkeys j hjn) hrecv)
  -- nobody is before the barrier, where no FINISHED has been handled
  have hthree {i : PeerId} (hi : i ∈ Y.parties.nodes) : 3 ≤ stage (monitor i) := by
    by_contra hlt
    have hnot : ¬ Passed (c.st i) (c.tasks i) := (hat i hi).passed_iff.not.mpr hlt
    refine hlt (three_le_stage_of_all hset (hcorrect hi) (hat i hi) (htwo hi) ?_)
    refine List.all_eq_true.mpr fun j hj => decide_eq_true ?_
    have hjn := hnode hi hj
    have hrecv := ((hat j hjn).started (htwo hjn)).received hc hset nofun hi hj
    exact (htable hi).running j hj hrecv ((htable hi).early hnot j hj)
  -- so every algorithm has terminated
  have hfour {i : PeerId} (hi : i ∈ Y.parties.nodes) : 4 ≤ stage (monitor i) :=
    four_le_stage hset (hcorrect hi) (hat i hi) (hthree hi) (hended.returned i hi)
      (hended.terminated (fun j hj => (hat j hj).passed_iff.mpr (hthree hj)) i hi)
  intro i hi
  have hdone := done_of_all hset (hcorrect hi) (hat i hi) (hfour hi) <| by
    refine List.all_eq_true.mpr fun j hj => decide_eq_true ?_
    have hjn := hnode hi hj
    have hrecv := ((hat j hjn).finished (hfour hjn)).received hc hset nofun hi hj
    exact (htable hi).terminated j hj hrecv
  exact ⟨hdone.1, hdone.2, (hat i hi).finished (hfour hi)⟩

/-- Nothing is in flight, and only the servers can go on. -/
theorem settled_of_blocked (hnet : c.net = [])
    (hblocked : ∀ i ∈ Y.parties.nodes, ∀ t ∈ c.tasks i, t ≠ .serve →
      (Y.resume i (c.st i) t).isNone = true) : Y.Settled c := by
  intro l c' hl hstep
  obtain ⟨i, o, base, hseg, rfl⟩ := step_iff.mp hstep
  cases hseg with
  | recv he _ => exact absurd he (by simp [hnet])
  | forge hsrc _ => exact absurd hsrc Cluster.not_mem_byz
  | wake hi ht ho =>
    have hnone := hblocked i (Cluster.mem_correct.mp hi) _ ht fun hserve => hl i (by rw [hserve])
    rw [show Y.resume i (c.st i) _ = some o from ho] at hnone
    cases hnone

/-! ## Two nodes -/

omit [DecidableEq M] [DecidableEq K] in
instance decidablePassed : Decidable (Passed s ts) :=
  inferInstanceAs (Decidable (_ ∨ ∃ t ∈ ts, _))

omit [DecidableEq M] in
instance decidableOrderly : ∀ l, Decidable (Y.Orderly c l)
  | .wake _ .waiting => inferInstanceAs (Decidable (_ ∧ _))
  | .recv ⟨_, _, .finished⟩ => inferInstanceAs (Decidable (Passed _ _ ∧ (_ → ¬ _ → _)))
  | .recv ⟨_, _, .pubkey _⟩ | .recv ⟨_, _, .started⟩ | .recv ⟨_, _, .algorithm _⟩ | .forge _
  | .wake _ .start | .wake _ .delaying | .wake _ .serve | .wake _ .monitor | .wake _ (.notStarted _)
  | .wake _ .keySharing | .wake _ .starting | .wake _ (.onStart _) | .wake _ (.running _)
  | .wake _ .stopping | .wake _ (.handler _) => isTrue trivial

/-- The other announcements reach the two nodes, and both end. -/
def pairStop : Trace PeerId (NodeMessage Unit) (Cont Empty) :=
  [.recv ⟨"a", "b", .algorithm ()⟩, .recv ⟨"a", "b", .finished⟩, .wake "a" .stopping,
   .wake "b" .stopping]

/-- A run to the end, and what is said of it. -/
theorem terminated_of_settled_pair :
    ∃ c, exec pair.step pair.initial (pairStart ++ pairEnd ++ pairStop) = some c ∧
      ∀ i ∈ pair.parties.nodes, (c.st i).status = .terminated ∧ (c.st i).monitorDone = true ∧
        pair.Announced (pairStart ++ pairEnd ++ pairStop) i .finished := by
  obtain ⟨c, hc, hend⟩ := exists_exec_of_any pair.step pair.initial
    (pairStart ++ pairEnd ++ pairStop)
    (fun c => c.net = [] ∧ ∀ i ∈ pair.parties.nodes, c.tasks i = [.serve] ∧
      (c.st i).algorithm = true) (by decide)
  obtain ⟨hnet, hnodes⟩ := of_decide_eq_true hend
  refine ⟨c, hc, terminated_of_settled pair (by decide) hc (meets_of_meetsFrom (by decide))
    (settled_of_blocked hnet fun i hi t ht hserve => ?_) ⟨fun i hi k => k.elim, ?_⟩⟩
  · rw [(hnodes i hi).1] at ht
    exact absurd (List.mem_singleton.mp ht) hserve
  · intro _ i hi
    exact (hnodes i hi).2

/-- Two nodes with an algorithm that terminates before the last suspension of `on_start`. -/
def suspending : System Bool Unit Unit where
  toCluster := .pair
  publicKey i := if i = "a" then [1] else [2]
  algorithm :=
    { onStart := fun _ _ => { st := true, rest := some () }
      handle := fun _ a _ _ => { st := a }
      resume := fun _ a _ => some { st := a }
      isTerminated := id }
  initialState _ := false

/-- Both nodes start, and both calls of `start` open the shutdown while `on_start` is
suspended; the monitors then wait for the next change of status. -/
def suspendingRun : Trace PeerId (NodeMessage Unit) (Cont Unit) :=
  [.wake "a" .start, .wake "b" .start, .wake "a" .monitor, .wake "b" .monitor,
   .wake "a" .delaying, .wake "b" .delaying, .wake "a" (.notStarted 0), .wake "b" (.notStarted 0),
   .recv ⟨"a", "b", .pubkey [1]⟩, .recv ⟨"b", "a", .pubkey [2]⟩,
   .wake "a" .keySharing, .wake "b" .keySharing, .recv ⟨"a", "b", .started⟩,
   .recv ⟨"b", "a", .started⟩, .wake "a" .starting, .wake "b" .starting,
   .wake "a" .waiting, .wake "b" .waiting, .wake "a" (.onStart ()), .wake "b" (.onStart ())]

/-- Both nodes stay in STOPPING, and neither announces that. -/
theorem suspending_stuck :
    ∃ c, exec suspending.step suspending.initial suspendingRun = some c ∧
      suspending.Settled c ∧ suspending.Ended c ∧
      ∀ i ∈ suspending.parties.nodes,
        (c.st i).status = .stopping ∧ (c.st i).monitorDone = false := by
  obtain ⟨c, hc, hend⟩ := exists_exec_of_any suspending.step suspending.initial suspendingRun
    (fun c => c.net = [] ∧ ∀ i ∈ suspending.parties.nodes, c.tasks i = [.running 5, .serve] ∧
      (c.st i).epoch = 5 ∧ (c.st i).status = .stopping ∧ (c.st i).monitorDone = false ∧
      (c.st i).algorithm = true) (by decide)
  obtain ⟨hnet, hnodes⟩ := of_decide_eq_true hend
  refine ⟨c, hc, settled_of_blocked hnet fun i hi t ht hserve => ?_, ⟨?_, ?_⟩, ?_⟩
  · obtain ⟨htasks, hepoch, -⟩ := hnodes i hi
    rw [htasks] at ht
    have ht : t = .running 5 := by simpa [hserve] using ht
    rw [ht, resume, if_neg (not_not_intro hepoch)]
    rfl
  · intro i hi k hk
    simp [(hnodes i hi).1] at hk
  · intro _ i hi
    exact (hnodes i hi).2.2.2.2
  · intro i hi
    obtain ⟨-, -, hstatus, hdone, -⟩ := hnodes i hi
    exact ⟨hstatus, hdone⟩

/-- Without the condition nodes stay in STOPPING. -/
theorem not_terminated_of_settled :
    ¬ ∀ (Y : System Bool Unit Unit) ls c, (∀ i ∈ Y.parties.nodes, Y.publicKey i ≠ []) →
      exec Y.step Y.initial ls = some c → (∀ i, .wake i .serve ∉ ls) → Y.Settled c → Y.Ended c →
      ∀ i ∈ Y.parties.nodes, (c.st i).status = .terminated ∧ (c.st i).monitorDone = true := by
  intro h
  obtain ⟨c, hc, hset, hended, hstuck⟩ := suspending_stuck
  have hserve (i : PeerId) : .wake i .serve ∉ suspendingRun := by simp [suspendingRun]
  have hdone := (h suspending suspendingRun c (by decide) hc hserve hset hended "a" (by decide)).2
  rw [(hstuck "a" (by decide)).2] at hdone
  cases hdone

end DistBench.Lifecycle.System
