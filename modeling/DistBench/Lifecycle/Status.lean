import DistBench.Lifecycle.Progress

/-!
# The status of a node only moves forward

Three coroutines write the status of a node. `start` and the handlers look at it when
they write it, or write it only once; the monitor writes STARTING and RUNNING at the end
of a wait without looking. What can happen in between is that `start` opens the
shutdown: when the algorithm terminates in the handler of a message, or the server
stops, while the monitor still waits for the keys or for the other nodes.

- `NodeStatus.rank`: the order of the phases.
- `Timely`: the condition on steps. When the monitor is through with one of these waits,
  the node is not stopping.
- `Phase`, `phase_segment`: where `start` and the monitor are under this condition.
- `nonDecreasing_iff_timely`: the status moves forward just in the runs of timely steps.
-/

namespace DistBench.Lifecycle

open DistBench.Async

/-- The order of the phases. -/
def NodeStatus.rank : NodeStatus → Nat
  | .notStarted => 0
  | .keySharing => 1
  | .starting => 2
  | .running => 3
  | .stopping => 4
  | .terminated => 5

namespace System

variable {A M K : Type} [DecidableEq M] [DecidableEq K] {Y : System A M K} {G : Parties PeerId}
  {ls : Trace PeerId (NodeMessage M) (Cont K)} {l : Label PeerId (NodeMessage M) (Cont K)}
  {c c' base : Config PeerId (NodeMessage M) (NodeState A) (Cont K)}
  {o : Outcome PeerId (NodeMessage M) (NodeState A) (Cont K)} {i j : PeerId} {s s' : NodeState A}
  {ts : List (Cont K)} {start monitor : Option (Cont K)}

/-- `start` has opened the shutdown. -/
def Closing (s : NodeState A) : Prop := s.status = .stopping ∨ s.status = .terminated

instance : Decidable (Closing s) := inferInstanceAs (Decidable (_ ∨ _))

/-- The condition on a step: when the monitor leaves KEY_SHARING or STARTING, `start` has
not opened the shutdown. -/
def Timely (Y : System A M K) (c : Config PeerId (NodeMessage M) (NodeState A) (Cont K)) :
    Label PeerId (NodeMessage M) (Cont K) → Prop
  | .wake i .keySharing => Y.hasAllKeys i (c.st i) = true → ¬ Closing (c.st i)
  | .wake i .starting => Y.allStatuses i (c.st i) .running = true → ¬ Closing (c.st i)
  | _ => True

instance (Y : System A M K) (c : Config PeerId (NodeMessage M) (NodeState A) (Cont K)) :
    ∀ l, Decidable (Y.Timely c l)
  | .wake _ .keySharing | .wake _ .starting => inferInstanceAs (Decidable (_ → _))
  | .recv _ | .forge _ | .wake _ .start | .wake _ .delaying | .wake _ .waiting | .wake _ .serve
  | .wake _ .monitor | .wake _ (.notStarted _) | .wake _ (.onStart _) | .wake _ (.running _)
  | .wake _ .stopping | .wake _ (.handler _) => isTrue trivial

/-- The status of node `i` never moves backwards. -/
def MovesForward (Y : System A M K) (G : Parties PeerId)
    (ls : Trace PeerId (NodeMessage M) (Cont K)) (i : PeerId) : Prop :=
  NonDecreasing (Async.step Y.protocol G) Y.initial (fun c => (c.st i).status.rank) ls

/-- The suspension points of `start`. -/
def ofStart : Cont K → Bool
  | .start | .delaying | .waiting => true
  | _ => false

/-- Where `start` and the monitor are suspended, and the status in between. -/
inductive Phase (s : NodeState A) : Option (Cont K) → Option (Cont K) → Prop
  | created {t r : Cont K} (hs : s.status = .notStarted) (ht : t = .start ∨ t = .delaying)
      (hr : r = .monitor ∨ ∃ e, r = .notStarted e) : Phase s (some t) (some r)
  | opened {r : Cont K} (hs : s.status = .keySharing)
      (hr : r = .monitor ∨ (∃ e, r = .notStarted e) ∨ r = .keySharing) :
      Phase s (some .waiting) (some r)
  | starting (hs : s.status = .starting ∨ s.status = .running) :
      Phase s (some .waiting) (some .starting)
  | running {r : Cont K} (hs : s.status = .running)
      (hr : (∃ k, r = .onStart k) ∨ ∃ e, r = .running e) :
      Phase s (some .waiting) (some r)
  | closing {r : Option (Cont K)} (hs : Closing s) (hr : ∀ t ∈ r, ofStart t = false) :
      Phase s none r

omit [DecidableEq K] in
theorem Phase.of_status (h : Phase s start monitor) (hs : s'.status = s.status) :
    Phase s' start monitor := by
  cases h with
  | created h ht hr => exact .created (hs.trans h) ht hr
  | opened h hr => exact .opened (hs.trans h) hr
  | starting h => exact .starting (by rwa [hs])
  | running h hr => exact .running (hs.trans h) hr
  | closing h hr => exact .closing (by rwa [Closing, hs]) hr

omit [DecidableEq M] [DecidableEq K] in
theorem Phase.not_ofStart (h : Phase s start monitor) : ∀ r ∈ monitor, ofStart r = false := by
  cases h with
  | created _ _ hr => rcases hr with rfl | ⟨e, rfl⟩ <;> simp [ofStart]
  | opened _ hr => rcases hr with rfl | ⟨e, rfl⟩ | rfl <;> simp [ofStart]
  | starting _ => simp [ofStart]
  | running _ hr => rcases hr with ⟨k, rfl⟩ | ⟨e, rfl⟩ <;> simp [ofStart]
  | closing _ hr => exact hr

omit [DecidableEq M] [DecidableEq K] in
theorem Phase.eq_start (h : Phase s start monitor) {t : Cont K}
    (ht : t ∈ start.toList ++ monitor.toList) (hstart : ofStart t = true) : start = some t := by
  rcases List.mem_append.mp ht with ht | ht
  · exact Option.mem_toList.mp ht
  · rw [h.not_ofStart t (Option.mem_toList.mp ht)] at hstart
    cases hstart

omit [DecidableEq M] [DecidableEq K] in
theorem Phase.eq_monitor (h : Phase s start monitor) {t : Cont K}
    (ht : t ∈ start.toList ++ monitor.toList) (hmonitor : ofStart t = false) :
    monitor = some t := by
  have hstart : ∀ r ∈ start, ofStart r = true := by
    clear ht
    cases h with
    | created _ hs _ => rcases hs with rfl | rfl <;> simp [ofStart]
    | opened _ _ | starting _ | running _ _ => simp [ofStart]
    | closing _ _ => simp
  rcases List.mem_append.mp ht with ht | ht
  · rw [hstart t (Option.mem_toList.mp ht)] at hmonitor
    cases hmonitor
  · exact Option.mem_toList.mp ht

/-- The status while the monitor is past its first suspension. -/
def Awaits (s : NodeState A) : Cont K → Prop
  | .keySharing => s.status = .keySharing
  | .starting => s.status = .starting ∨ s.status = .running
  | .onStart _ | .running _ => s.status = .running
  | _ => False

omit [DecidableEq M] [DecidableEq K] in
/-- Once the monitor has passed its first suspension, `start` waits or has begun to close. -/
theorem Phase.awaits_or_closing {t : Cont K} (h : Phase s start (some t)) (hmonitor : t ≠ .monitor)
    (hnot : ∀ e, t ≠ .notStarted e) :
    start = some .waiting ∧ Awaits s t ∨ start = none ∧ Closing s := by
  cases h with
  | created _ _ hr =>
    rcases hr with rfl | ⟨e, rfl⟩
    · exact absurd rfl hmonitor
    · exact absurd rfl (hnot e)
  | opened hs hr =>
    rcases hr with rfl | ⟨e, rfl⟩ | rfl
    · exact absurd rfl hmonitor
    · exact absurd rfl (hnot e)
    · exact .inl ⟨rfl, hs⟩
  | starting hs => exact .inl ⟨rfl, hs⟩
  | running hs hr => rcases hr with ⟨k, rfl⟩ | ⟨e, rfl⟩ <;> exact .inl ⟨rfl, hs⟩
  | closing hs _ => exact .inr ⟨rfl, hs⟩

/-! ## Segments -/

omit [DecidableEq M] [DecidableEq K] in
/-- A handler writes the status only after it has looked at it. -/
theorem phase_handle (h : Phase s start monitor) (src : PeerId) (msg : NodeMessage M) :
    Phase (Y.handle i s src msg).st start monitor ∧
      s.status.rank ≤ (Y.handle i s src msg).st.status.rank := by
  unfold handle
  split
  · exact ⟨h, le_rfl⟩
  · cases msg with
    | pubkey key =>
      dsimp only
      split <;> exact ⟨h.of_status rfl, le_rfl⟩
    | started =>
      dsimp only
      split
      · next hfull =>
        have hstatus : s.status = .starting := hfull.1
        refine ⟨?_, by simp [hstatus, NodeState.setStatus, NodeStatus.rank]⟩
        cases h with
        | starting _ => exact .starting (.inr rfl)
        | created hs _ _ | opened hs _ | running hs _ => rw [hstatus] at hs; cases hs
        | closing hs _ => rcases hs with hs | hs <;> rw [hstatus] at hs <;> cases hs
      · exact ⟨h.of_status rfl, le_rfl⟩
    | finished =>
      dsimp only
      split
      · next hfull =>
        have hstatus : s.status = .stopping := hfull.1
        refine ⟨?_, by simp [hstatus, NodeState.setStatus, NodeStatus.rank]⟩
        cases h with
        | closing _ hr => exact .closing (.inr rfl) hr
        | created hs _ _ | opened hs _ | running hs _ => rw [hstatus] at hs; cases hs
        | starting hs => rcases hs with hs | hs <;> rw [hstatus] at hs <;> cases hs
      · exact ⟨h.of_status rfl, le_rfl⟩
    | algorithm msg => exact ⟨h.of_status rfl, le_rfl⟩

/-- A coroutine goes on from `t`: it is `start`, the monitor, or neither. -/
def Continues (t : Cont K) (rest start monitor start' monitor' : Option (Cont K)) : Prop :=
  isMain t = true ∧ (∀ r ∈ rest, isMain r = true) ∧
      (start = some t ∧ start' = rest ∧ monitor' = monitor ∨
        monitor = some t ∧ monitor' = rest ∧ start' = start) ∨
    isMain t = false ∧ (∀ r ∈ rest, isMain r = false) ∧ start' = start ∧ monitor' = monitor

omit [DecidableEq M] in
theorem Continues.mains {t : Cont K} {rest start' monitor' : Option (Cont K)}
    (h : Continues t rest start monitor start' monitor') (ht : t ∈ ts)
    (hmains : (ts.filter isMain).Perm (start.toList ++ monitor.toList)) :
    ((rest.toList ++ ts.erase t).filter isMain).Perm (start'.toList ++ monitor'.toList) := by
  rcases h with ⟨hmain, hrest, ⟨rfl, rfl, rfl⟩ | ⟨rfl, rfl, rfl⟩⟩ | ⟨hmain, hrest, rfl, rfl⟩
  · exact mains_start hmains ht hmain hrest
  · exact mains_monitor hmains ht hmain hrest
  · exact mains_other hmains ht hmain hrest

/-- What is to be shown of a coroutine that goes on. -/
def Proceeds (s : NodeState A) (t : Cont K)
    (o : Outcome PeerId (NodeMessage M) (NodeState A) (Cont K))
    (start monitor : Option (Cont K)) : Prop :=
  ∃ start' monitor', Continues t o.rest start monitor start' monitor' ∧
    Phase o.st start' monitor' ∧ s.status.rank ≤ o.st.status.rank

omit [DecidableEq M] [DecidableEq K] in
theorem mem_afterOnStart {epoch : Nat} {k : Option K} {r : Cont K} (h : r ∈ afterOnStart epoch k) :
    (∃ k', k = some k' ∧ r = .onStart k') ∨ k = none ∧ r = .running epoch := by
  cases k with
  | none => exact .inr ⟨rfl, (Option.some.inj h).symm⟩
  | some k => exact .inl ⟨k, rfl, (Option.some.inj h).symm⟩

omit [DecidableEq M] [DecidableEq K] in
/-- One pass of the monitor's loop does not touch the status. -/
theorem status_monitor : (Y.monitor i s).st.status = s.status := by
  unfold System.monitor
  split <;> rfl

omit [DecidableEq M] [DecidableEq K] in
theorem rest_monitor : ∀ r ∈ (Y.monitor i s).rest, isMain r = true ∧ ofStart r = false := by
  unfold System.monitor
  split
  case h_4 =>
    intro r hr
    refine ⟨isMain_afterOnStart r hr, ?_⟩
    obtain ⟨k, -, rfl⟩ | ⟨-, rfl⟩ := mem_afterOnStart hr <;> rfl
  all_goals simp [isMain, ofStart]

/-- Where `start` is, by the status alone. -/
inductive StartAt (s : NodeState A) : Option (Cont K) → Prop
  | created {t : Cont K} (hs : s.status = .notStarted) (ht : t = .start ∨ t = .delaying) :
      StartAt s (some t)
  | waiting (hs : s.status = .keySharing ∨ s.status = .starting ∨ s.status = .running) :
      StartAt s (some .waiting)
  | closing (hs : Closing s) : StartAt s none

omit [DecidableEq K] in
theorem Phase.startAt (h : Phase s start monitor) : StartAt s start := by
  cases h with
  | created hs ht _ => exact .created hs ht
  | opened hs _ => exact .waiting (.inl hs)
  | starting hs => exact .waiting (.inr hs)
  | running hs _ => exact .waiting (.inr (.inr hs))
  | closing hs _ => exact .closing hs

omit [DecidableEq M] [DecidableEq K] in
theorem phase_afterOnStart {oa : Outcome PeerId M A K} {epoch : Nat} (hs : s.status = .running) :
    Phase (runAlgorithm s oa (afterOnStart epoch)).st (some .waiting)
      (runAlgorithm s oa (afterOnStart epoch)).rest := by
  show Phase { s with algorithm := oa.st } (some .waiting) (afterOnStart epoch oa.rest)
  cases oa.rest with
  | none => exact .running hs (.inr ⟨epoch, rfl⟩)
  | some k => exact .running hs (.inl ⟨k, rfl⟩)

omit [DecidableEq M] [DecidableEq K] in
/-- A pass of the monitor's loop ends where the status says. -/
theorem phase_monitor (h : StartAt s start) :
    Phase (Y.monitor i s).st start (Y.monitor i s).rest := by
  cases h with
  | created hs ht =>
    rw [System.monitor, hs]
    exact .created hs ht (.inr ⟨_, rfl⟩)
  | waiting hs =>
    rcases hs with hs | hs | hs
    · rw [System.monitor, hs]
      exact .opened hs (.inr (.inr rfl))
    · rw [System.monitor, hs]
      exact .starting (.inl hs)
    · rw [System.monitor, hs]
      exact phase_afterOnStart hs
  | closing hs =>
    refine .closing ?_ fun r hr => (rest_monitor r hr).2
    rwa [Closing, status_monitor]

omit [DecidableEq M] [DecidableEq K] in
/-- The monitor goes on with the next pass of its loop, after it has written a status or
none. -/
theorem Proceeds.of_monitor {t : Cont K} (hmain : isMain t = true)
    (hle : s.status.rank ≤ s'.status.rank) (hstart : StartAt s' start) :
    Proceeds s t (Y.monitor i s') start (some t) :=
  ⟨start, _, .inl ⟨hmain, fun r hr => (rest_monitor r hr).1, .inr ⟨rfl, rfl, rfl⟩⟩,
    phase_monitor hstart, by
      rw [status_monitor]
      exact hle⟩

omit [DecidableEq M] [DecidableEq K] in
/-- The monitor asks again, or goes on with `on_start`. -/
theorem Proceeds.of_status {t : Cont K} (hmain : isMain t = true)
    (hrest : ∀ r ∈ o.rest, isMain r = true) (hstatus : o.st.status = s.status)
    (hphase : Phase s start o.rest) : Proceeds s t o start (some t) :=
  ⟨start, o.rest, .inl ⟨hmain, hrest, .inr ⟨rfl, rfl, rfl⟩⟩, hphase.of_status hstatus,
    hstatus.symm ▸ le_rfl⟩

omit [DecidableEq M] [DecidableEq K] in
/-- `start` goes on. -/
theorem Proceeds.of_start {t : Cont K} (hmain : isMain t = true)
    (hrest : ∀ r ∈ o.rest, isMain r = true) (hphase : Phase o.st o.rest monitor)
    (hle : s.status.rank ≤ o.st.status.rank) : Proceeds s t o (some t) monitor :=
  ⟨o.rest, monitor, .inl ⟨hmain, hrest, .inl ⟨rfl, rfl, rfl⟩⟩, hphase, hle⟩

omit [DecidableEq M] [DecidableEq K] in
/-- A coroutine that is neither of the two leaves the status alone. -/
theorem Proceeds.of_other {t : Cont K} (hmain : isMain t = false)
    (hrest : ∀ r ∈ o.rest, isMain r = false) (hstatus : o.st.status = s.status)
    (hphase : Phase s start monitor) : Proceeds s t o start monitor :=
  ⟨start, monitor, .inr ⟨hmain, hrest, rfl, rfl⟩, hphase.of_status hstatus, hstatus.symm ▸ le_rfl⟩

omit [DecidableEq M] [DecidableEq K] in
/-- **Segments.** A timely segment keeps the coroutines where they should be and does not
move the status backwards. -/
theorem phase_resume (h : Phase s start monitor) {t : Cont K}
    (hmem : isMain t = true → t ∈ start.toList ++ monitor.toList)
    (hkeys : t = .keySharing → Y.hasAllKeys i s = true → ¬ Closing s)
    (hrunning : t = .starting → Y.allStatuses i s .running = true → ¬ Closing s)
    (ho : Y.resume i s t = some o) : Proceeds s t o start monitor := by
  cases t with
  | start =>
    obtain rfl := h.eq_start (hmem rfl) rfl
    obtain rfl := Option.some.inj ho
    cases h with
    | created hs _ hr =>
      exact .of_start rfl (by simp [isMain]) (.created hs (.inr rfl) hr) le_rfl
  | delaying =>
    obtain rfl := h.eq_start (hmem rfl) rfl
    obtain rfl := Option.some.inj ho
    cases h with
    | created hs _ hr =>
      exact .of_start rfl (by simp [isMain])
        (.opened rfl (hr.imp id .inl)) (by simp [hs, NodeStatus.rank])
  | waiting =>
    obtain rfl := h.eq_start (hmem rfl) rfl
    obtain ⟨-, rfl⟩ := Option.ite_none_right_eq_some.mp ho |>.imp id Option.some.inj
    refine .of_start rfl (by simp) (.closing (.inl rfl) h.not_ofStart) ?_
    cases h with
    | created _ ht _ => rcases ht with ht | ht <;> cases ht
    | opened hs _ | running hs _ => simp [hs, NodeState.setStatus, NodeStatus.rank]
    | starting hs => rcases hs with hs | hs <;> simp [hs, NodeState.setStatus, NodeStatus.rank]
  | serve =>
    obtain ⟨-, rfl⟩ := Option.ite_none_right_eq_some.mp ho |>.imp id Option.some.inj
    exact .of_other rfl (by simp) rfl h
  | monitor =>
    obtain rfl := h.eq_monitor (hmem rfl) rfl
    obtain ⟨-, rfl⟩ := Option.ite_none_right_eq_some.mp ho |>.imp id Option.some.inj
    exact .of_monitor rfl le_rfl h.startAt
  | notStarted e =>
    obtain rfl := h.eq_monitor (hmem rfl) rfl
    obtain ⟨-, rfl⟩ := Option.ite_none_right_eq_some.mp ho |>.imp id Option.some.inj
    exact .of_monitor rfl le_rfl h.startAt
  | keySharing =>
    obtain rfl := h.eq_monitor (hmem rfl) rfl
    rw [resume] at ho
    split at ho
    · next hall =>
      obtain rfl := Option.some.inj ho
      rcases h.awaits_or_closing (by simp) (by simp) with ⟨rfl, hs⟩ | ⟨rfl, hs⟩
      · have hs : s.status = .keySharing := hs
        exact .of_monitor rfl (by simp [hs, NodeState.setStatus, NodeStatus.rank])
          (.waiting (.inr (.inl rfl)))
      · exact absurd hs (hkeys rfl hall)
    · obtain rfl := Option.some.inj ho
      exact .of_status rfl (by simp [isMain]) rfl h
  | starting =>
    obtain rfl := h.eq_monitor (hmem rfl) rfl
    rw [resume] at ho
    split at ho
    · next hall =>
      obtain rfl := Option.some.inj ho
      rcases h.awaits_or_closing (by simp) (by simp) with ⟨rfl, hs⟩ | ⟨rfl, hs⟩
      · refine .of_monitor rfl ?_ (.waiting (.inr (.inr rfl)))
        rcases hs with hs | hs <;> simp [hs, NodeState.setStatus, NodeStatus.rank]
      · exact absurd hs (hrunning rfl hall)
    · obtain rfl := Option.some.inj ho
      exact .of_status rfl (by simp [isMain]) rfl h
  | onStart k =>
    obtain rfl := h.eq_monitor (hmem rfl) rfl
    obtain ⟨oa, -, rfl⟩ := Option.map_eq_some_iff.mp ho
    refine .of_status rfl isMain_afterOnStart rfl ?_
    rcases h.awaits_or_closing (by simp) (by simp) with ⟨rfl, hs⟩ | ⟨rfl, hs⟩
    · exact (phase_afterOnStart hs).of_status rfl
    · refine .closing hs fun r hr => ?_
      obtain ⟨_, -, rfl⟩ | ⟨-, rfl⟩ := mem_afterOnStart hr <;> rfl
  | running e =>
    obtain rfl := h.eq_monitor (hmem rfl) rfl
    obtain ⟨-, rfl⟩ := Option.ite_none_right_eq_some.mp ho |>.imp id Option.some.inj
    exact .of_monitor rfl le_rfl h.startAt
  | stopping =>
    obtain rfl := h.eq_monitor (hmem rfl) rfl
    rw [resume] at ho
    split at ho
    · obtain rfl := Option.some.inj ho
      rcases h.awaits_or_closing (by simp) (by simp) with ⟨rfl, hs⟩ | ⟨rfl, hs⟩
      · exact hs.elim
      · refine .of_monitor rfl ?_ (.closing (.inr rfl))
        rcases hs with hs | hs <;> simp [hs, NodeState.setStatus, NodeStatus.rank]
    · obtain rfl := Option.some.inj ho
      exact .of_status rfl (by simp [isMain]) rfl h
  | handler k =>
    obtain ⟨oa, -, rfl⟩ := Option.map_eq_some_iff.mp ho
    refine .of_other rfl (fun r hr => ?_) rfl h
    obtain ⟨k, -, rfl⟩ := Option.map_eq_some_iff.mp hr
    rfl

/-! ## Runs -/

/-- The two coroutines of a node are where they should be. -/
def InPhase (s : NodeState A) (ts : List (Cont K)) : Prop :=
  ∃ start monitor, (ts.filter isMain).Perm (start.toList ++ monitor.toList) ∧ Phase s start monitor

theorem phase_segment (h : InPhase (c.st i) (c.tasks i)) (htimely : Y.Timely c l)
    (hseg : Segment Y.protocol G c l i o base) :
    InPhase o.st (o.rest.toList ++ base.tasks i) ∧
      (c.st i).status.rank ≤ o.st.status.rank := by
  obtain ⟨start, monitor, hmains, hphase⟩ := h
  have hhandle (src : PeerId) (msg : NodeMessage M) :
      InPhase (Y.handle i (c.st i) src msg).st
          ((Y.handle i (c.st i) src msg).rest.toList ++ c.tasks i) ∧
        (c.st i).status.rank ≤ (Y.handle i (c.st i) src msg).st.status.rank := by
    obtain ⟨hphase', hle⟩ := phase_handle (Y := Y) (i := i) hphase src msg
    refine ⟨⟨start, monitor, ?_, hphase'⟩, hle⟩
    have hrest : (Y.handle i (c.st i) src msg).rest.toList.filter isMain = [] :=
      List.filter_eq_nil_iff.mpr fun r hr => by
        simp [(handle_spec src msg).1 r (Option.mem_toList.mp hr)]
    rwa [List.filter_append, hrest]
  cases hseg with
  | @recv e _ _ => exact hhandle e.src e.msg
  | @forge e _ _ => exact hhandle e.src e.msg
  | @wake i t o hi ht ho =>
    have hmem (hmain : isMain t = true) : t ∈ start.toList ++ monitor.toList :=
      hmains.mem_iff.mp (List.mem_filter.mpr ⟨ht, hmain⟩)
    obtain ⟨start', monitor', hcont, hphase', hle⟩ := phase_resume hphase hmem
      (by rintro rfl; exact htimely) (by rintro rfl; exact htimely) ho
    refine ⟨⟨start', monitor', ?_, hphase'⟩, hle⟩
    have htasks : (c.unpark i t).tasks i = (c.tasks i).erase t := by simp [Config.unpark]
    rw [htasks]
    exact hcont.mains ht hmains

/-- The invariant of timely runs. -/
def phases (A M K : Type) : Assertion PeerId (NodeMessage M) (NodeState A) (Cont K) where
  node _ _ s ts := InPhase s ts
  msg _ _ := True

theorem phases_inductive (Y : System A M K) (G : Parties PeerId) :
    (phases A M K).Inductive Y.protocol G Y.initial fun _ => Y.Timely where
  init :=
    { node := fun _ _ => ⟨some .start, some .monitor, List.Perm.refl _,
        .created rfl (.inl rfl) (.inl rfl)⟩
      msg := fun _ _ => trivial
      received := fun _ _ => trivial }
  node_mono _ h := h
  msg_mono _ := trivial
  segment _ hholds htimely hseg :=
    ⟨(phase_segment (hholds.node _ hseg.correct) htimely hseg).1, fun _ _ => trivial⟩

/-- A step that is not timely moves the status backwards. -/
theorem lt_of_not_timely (hl : Async.step Y.protocol G c l = some c') (h : ¬ Y.Timely c l) :
    (c'.st l.node).status.rank < (c.st l.node).status.rank := by
  obtain ⟨i, o, base, hseg, rfl⟩ := step_iff.mp hl
  rw [hseg.node_eq, Config.commit_st_self]
  cases hseg with
  | recv _ _ | forge _ _ => exact absurd trivial h
  | @wake i t o hi ht ho =>
    have hrank (hclosing : Closing (c.st i)) : 4 ≤ (c.st i).status.rank := by
      rcases hclosing with hs | hs <;> simp [hs, NodeStatus.rank]
    cases t with
    | keySharing =>
      obtain ⟨hall, hclosing⟩ := Classical.not_imp.mp h
      rw [show Y.protocol.resume i (c.st i) .keySharing =
        some (Y.monitor i ((c.st i).setStatus .starting)) from if_pos hall] at ho
      obtain rfl := Option.some.inj ho
      rw [status_monitor]
      exact lt_of_lt_of_le (by simp [NodeState.setStatus, NodeStatus.rank])
        (hrank (not_not.mp hclosing))
    | starting =>
      obtain ⟨hall, hclosing⟩ := Classical.not_imp.mp h
      rw [show Y.protocol.resume i (c.st i) .starting =
        some (Y.monitor i ((c.st i).setStatus .running)) from if_pos hall] at ho
      obtain rfl := Option.some.inj ho
      rw [status_monitor]
      exact lt_of_lt_of_le (by simp [NodeState.setStatus, NodeStatus.rank])
        (hrank (not_not.mp hclosing))
    | _ => exact absurd trivial h

/-- **The status moves forward** just in the runs of timely steps. -/
theorem nonDecreasing_iff_timely (hc : exec (Async.step Y.protocol G) Y.initial ls = some c) :
    (∀ i ∈ G.correct, Y.MovesForward G ls i) ↔
      Meets (Async.step Y.protocol G) Y.initial (fun _ => Y.Timely) ls := by
  constructor
  · rintro hforward ls₁ l ls₂ c₁ rfl hc₁
    by_contra hnot
    obtain ⟨c₁', hc₁', hrest⟩ := exec_prefix hc
    obtain rfl := Option.some.inj (hc₁.symm.trans hc₁')
    rw [exec_cons, Option.bind_eq_some_iff] at hrest
    obtain ⟨c₂, hl, -⟩ := hrest
    obtain ⟨i, o, base, hseg, -⟩ := step_iff.mp hl
    have hle := nonDecreasing_iff.mp (hforward i hseg.correct) ls₁ l ls₂ c₁ rfl hc₁ c₂ hl
    have hlt := lt_of_not_timely hl hnot
    rw [hseg.node_eq] at hlt
    exact absurd hle (not_le.mpr hlt)
  · intro hmeets i hi
    refine nonDecreasing_iff.mpr ?_
    rintro ls₁ l ls₂ c₁ rfl hc₁ c₂ hl
    obtain ⟨j, o, base, hseg, rfl⟩ := step_iff.mp hl
    by_cases hij : i = j
    · subst hij
      have hholds := Assertion.holds_of_meets (phases_inductive Y G) ls₁ c₁ hc₁ hmeets.prefix
      rw [Config.commit_st_self]
      exact (phase_segment (hholds.node i hi) (hmeets ls₁ l ls₂ c₁ rfl hc₁) hseg).2
    · rw [Config.commit_st_of_ne hij, hseg.base_st]

/-- A run in which both nodes go through all phases up to the shutdown. -/
theorem nonDecreasing_iff_timely_pair :
    (∃ c, exec (Async.step pair.protocol pair.parties) pair.initial
        (pairStart ++ pairEnd) = some c ∧ (c.st "a").status = .terminated) ∧
    ∀ i ∈ pair.parties.correct, pair.MovesForward pair.parties (pairStart ++ pairEnd) i := by
  obtain ⟨c, hc, hst⟩ := exists_exec_of_any (Async.step pair.protocol pair.parties) pair.initial
    (pairStart ++ pairEnd) (fun c => (c.st "a").status = .terminated) (by decide)
  exact ⟨⟨c, hc, of_decide_eq_true hst⟩,
    (nonDecreasing_iff_timely hc).mpr (meets_of_meetsFrom (by decide))⟩

/-- Two nodes with an algorithm that terminates when it is handed a message. -/
def eager : System Bool Unit Empty where
  toCluster := .pair
  publicKey i := if i = "a" then [1] else [2]
  algorithm :=
    { onStart := fun self _ => { st := true, out := [(if self = "a" then "b" else "a", ())] }
      handle := fun _ _ _ _ => { st := true }
      resume := fun _ _ k => nomatch k
      isTerminated := id }
  initialState _ := false

/-- The handler of the STARTED of `a` makes `b` RUNNING, and the message of `a` terminates
the algorithm of `b`, all before the monitor of `b` looks at its table again. -/
def eagerRun : Trace PeerId (NodeMessage Unit) (Cont Empty) :=
  [.wake "a" .start, .wake "b" .start, .wake "a" .monitor, .wake "b" .monitor,
   .wake "a" .delaying, .wake "b" .delaying, .wake "a" (.notStarted 0), .wake "b" (.notStarted 0),
   .recv ⟨"a", "b", .pubkey [1]⟩, .recv ⟨"b", "a", .pubkey [2]⟩,
   .wake "a" .keySharing, .wake "b" .keySharing, .recv ⟨"b", "a", .started⟩,
   .wake "a" .starting, .recv ⟨"a", "b", .started⟩, .recv ⟨"a", "b", .algorithm ()⟩,
   .wake "b" .waiting]

/-- The monitor of `b` moves its status from STOPPING to RUNNING. -/
theorem not_nonDecreasing_eager :
    ¬ ∀ (Y : System Bool Unit Empty) (G : Parties PeerId) ls c,
      exec (Async.step Y.protocol G) Y.initial ls = some c →
        ∀ i ∈ G.correct, Y.MovesForward G ls i := by
  intro h
  obtain ⟨c, hc, hback⟩ := exists_exec_of_any (Async.step eager.protocol eager.parties)
    eager.initial eagerRun (fun c => (c.st "b").status = .stopping ∧
      (Async.step eager.protocol eager.parties c (.wake "b" .starting)).any
        fun c' => (c'.st "b").status = .running) (by decide)
  obtain ⟨hbefore, hafter⟩ := of_decide_eq_true hback
  rw [Option.any_eq_true] at hafter
  obtain ⟨c', hl, hrunning⟩ := hafter
  have hforward : (c.st "b").status.rank ≤ (c'.st "b").status.rank :=
    h eager eager.parties (eagerRun ++ [.wake "b" .starting]) c' (exec_snoc hc hl) "b" (by decide)
      eagerRun [.wake "b" .starting] [] c c' (by simp) hc (by simp [hl])
  rw [hbefore, of_decide_eq_true hrunning] at hforward
  exact absurd hforward (by decide)

end System

end DistBench.Lifecycle
