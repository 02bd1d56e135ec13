import DistBench.Deployment
import DistBench.Lib.Circulation

/-!
# Chang–Roberts in Rust (chang_roberts.rs)

There is no ring here: a node sends to the first of its peers, whichever that is
(`self.peers().next()`), so messages follow a map from nodes to nodes, which may have
several cycles and paths that lead into them. An election message carries the maximum of
the ids it has come by since its owner; it elects its owner only if it comes back, having
been all around the cycle the owner is on (`Chief`).

- `Overlay`: the nodes, their ids and their first peers.
- `election`, `termination`, `resume`: the code, suspended wherever a lock is given up or
  a message is sent.
- `leader_is_chief`: what a node knows as its leader is the maximum of the cycle it is on,
  and a node that has stopped knows it.
-/

namespace DistBench.RustChangRoberts

open DistBench.Async DistBench.Circulation

/-- A `u32`. -/
abbrev U32 : Type := Fin (2 ^ 32)

/-- The nodes, their configured ids, and the first of the peers of each. -/
structure Overlay where
  parties : Parties PeerId
  all_correct : parties.byz = ∅
  nodeId : PeerId → U32
  nodeId_injOn : Set.InjOn nodeId parties.correct
  firstPeer : PeerId → Option PeerId
  firstPeer_mem : ∀ i ∈ parties.correct, ∀ j ∈ firstPeer i, j ∈ parties.correct

/-- `ElectionMessage` and `TerminationMessage` (chang_roberts.rs:10–18). -/
inductive Message where
  | election (elector : U32)
  | termination (leader : U32)
deriving DecidableEq, Repr

/-- The state of a node; `stopped` is what `terminate()` sends. -/
structure ChangRobertsState where
  leader : Option U32 := none
  stopped : Bool := false
deriving DecidableEq, Repr

/-- The points at which a future is suspended. -/
inductive Cont where
  /-- `on_start`, which sleeps. -/
  | onStart
  /-- `on_start` has found no leader. -/
  | starting
  /-- `election` has set the leader. -/
  | elected
  /-- `termination` has found no leader. -/
  | informed (leader : U32)
  /-- `termination` has set the leader. -/
  | announcing (leader : U32)
  /-- Before `self.terminate()`. -/
  | terminate
deriving DecidableEq, Repr

/-- What a segment leaves behind. -/
abbrev Seg : Type := Outcome PeerId Message ChangRobertsState Cont

namespace Overlay

variable (O : Overlay)

/-- `election` (chang_roberts.rs:71–107). -/
def election (self : PeerId) (s : ChangRobertsState) (elector : U32) : Seg :=
  match O.firstPeer self with
  | none => { st := s }
  | some nextPeer =>
    if elector = O.nodeId self then
      { st := { s with leader := some (O.nodeId self) }, rest := some .elected }
    else { st := s, out := [(nextPeer, .election (max elector (O.nodeId self)))] }

/-- `termination` (chang_roberts.rs:109–125), up to the first lock. -/
def termination (s : ChangRobertsState) (leader : U32) : Seg :=
  if s.leader.isSome then { st := s } else { st := s, rest := some (.informed leader) }

/-- Dispatch on the type of the message. -/
def handle (self : PeerId) (s : ChangRobertsState) (_src : PeerId) : Message → Seg
  | .election elector => O.election self s elector
  | .termination leader => termination s leader

/-- A message to the first peer, if there is one. -/
def toFirstPeer (self : PeerId) (m : Message) : List (PeerId × Message) :=
  (O.firstPeer self).toList.map fun nextPeer => (nextPeer, m)

/-- The next segment of a suspended future. -/
def resume (self : PeerId) (s : ChangRobertsState) : Cont → Seg
  | .onStart => if s.leader.isSome then { st := s } else { st := s, rest := some .starting }
  | .starting => { st := s, out := O.toFirstPeer self (.election (O.nodeId self)) }
  | .elected =>
    { st := s
      out := O.toFirstPeer self (.termination (O.nodeId self))
      rest := some .terminate }
  | .informed leader =>
    if (O.firstPeer self).isSome then
      { st := { s with leader := some leader }, rest := some (.announcing leader) }
    else { st := s, rest := some .terminate }
  | .announcing leader =>
    { st := s, out := O.toFirstPeer self (.termination leader), rest := some .terminate }
  | .terminate => { st := { s with stopped := true } }

/-- The algorithm as code for the network. -/
def protocol : Protocol PeerId Message ChangRobertsState Cont where
  handle := O.handle
  resume self s t := some (O.resume self s t)

/-- Before any `on_start` has gone on. -/
def initial : Config PeerId Message ChangRobertsState Cont where
  st _ := {}
  tasks _ := [.onStart]
  net := []

/-- One step of the network. -/
abbrev next := step O.protocol O.parties

/-! ## The maximum of a cycle -/

/-- Where a message goes; a node without peers keeps it. -/
def hop (i : PeerId) : PeerId := (O.firstPeer i).getD i

variable {O} {i j : PeerId} {v : U32} {ls : Trace PeerId Message Cont}

theorem hop_eq (h : O.firstPeer i = some j) : O.hop i = j := by
  rw [hop, h, Option.getD_some]

theorem hop_mem (hi : i ∈ O.parties.correct) : O.hop i ∈ O.parties.correct := by
  unfold hop
  cases h : O.firstPeer i with
  | none => exact hi
  | some j => exact O.firstPeer_mem i hi j h

variable (O) in
/-- `v` is the largest id on the cycle that `i` is on. -/
structure Chief (i : PeerId) (v : U32) : Prop where
  cycle : ∃ k > 0, O.hop^[k] i = i
  owner : ∃ k, O.nodeId (O.hop^[k] i) = v
  max : ∀ k, O.nodeId (O.hop^[k] i) ≤ v
  linked : ∀ k, (O.firstPeer (O.hop^[k] i)).isSome

/-- The next node is on the same cycle. -/
theorem Chief.next (h : O.Chief i v) : O.Chief (O.hop i) v where
  cycle := by
    obtain ⟨k, hpos, hk⟩ := h.cycle
    refine ⟨k, hpos, ?_⟩
    rw [← Function.iterate_succ_apply, Function.iterate_succ_apply', hk]
  owner := by
    obtain ⟨k, hpos, hk⟩ := h.cycle
    obtain ⟨n, hn⟩ := h.owner
    -- one step less, after another time around
    refine ⟨n + (k - 1), ?_⟩
    have hsum : (n + (k - 1)).succ = n + k := by omega
    rw [← Function.iterate_succ_apply, hsum, Function.iterate_add_apply, hk, hn]
  max k := by
    rw [← Function.iterate_succ_apply]
    exact h.max (k + 1)
  linked k := by
    rw [← Function.iterate_succ_apply]
    exact h.linked (k + 1)

theorem Chief.iterate (h : O.Chief i v) (k : Nat) : O.Chief (O.hop^[k] i) v := by
  induction k with
  | zero => exact h
  | succ k ih =>
    rw [Function.iterate_succ_apply']
    exact ih.next

theorem Chief.eq {w : U32} (h : O.Chief i v) (hw : O.Chief i w) : v = w := by
  obtain ⟨k, rfl⟩ := h.owner
  obtain ⟨n, rfl⟩ := hw.owner
  exact le_antisymm (hw.max k) (h.max n)

/-- What lets a message with the id `v` pass. -/
def Passes (O : Overlay) (v : U32) (i : PeerId) : Prop :=
  O.nodeId i < v ∧ (O.firstPeer i).isSome

/-- An id that is back at its owner is the largest on the cycle. -/
theorem chief_of_back (hi : (O.firstPeer i).isSome)
    (h : Passed O.hop (O.Passes (O.nodeId i)) i i) : O.Chief i (O.nodeId i) where
  cycle := h.reached
  owner := ⟨0, rfl⟩
  max k := by
    rcases h.back (k := k) rfl with heq | hpasses
    · rw [heq]
    · exact hpasses.1.le
  linked k := by
    rcases h.back (k := k) rfl with heq | hpasses
    · rwa [heq]
    · exact hpasses.2

/-! ## What is known -/

/-- What a suspended future of node `i` is about to do is right. -/
def TaskOk (O : Overlay) (i : PeerId) (s : ChangRobertsState) : Cont → Prop
  | .onStart | .starting => True
  | .elected => O.Chief i (O.nodeId i) ∧ s.leader.isSome
  | .informed v => O.Chief i v
  | .announcing v => O.Chief i v ∧ s.leader.isSome
  | .terminate => s.leader.isSome

/-- What is right of a node. -/
structure NodeOk (O : Overlay) (i : PeerId) (s : ChangRobertsState) (ts : List Cont) : Prop where
  leader : ∀ v, s.leader = some v → O.Chief i v
  stopped : s.stopped = true → s.leader.isSome
  tasks : ∀ t ∈ ts, O.TaskOk i s t

/-- What is right of a message. -/
def MessageOk (O : Overlay) (dst : PeerId) : Message → Prop
  | .election v => ∃ owner ∈ O.parties.correct, O.nodeId owner = v ∧
      Passed O.hop (O.Passes v) owner dst
  | .termination v => O.Chief dst v

/-- The messages are tokens, and only the maximum of a cycle is recorded and announced. -/
def chiefs (O : Overlay) : Assertion PeerId Message ChangRobertsState Cont where
  node _ i s ts := O.NodeOk i s ts
  msg _ e := O.MessageOk e.dst e.msg

/-- What a segment of node `i` leaves in order. -/
structure SegOk (O : Overlay) (i : PeerId) (s : ChangRobertsState) (o : Seg) : Prop where
  leader : ∀ v, o.st.leader = some v → O.Chief i v
  keeps : s.leader.isSome → o.st.leader.isSome
  stopped : o.st.stopped = true → o.st.leader.isSome
  rest : ∀ t ∈ o.rest, O.TaskOk i o.st t
  out : ∀ dm ∈ o.out, O.MessageOk dm.1 dm.2

variable {s : ChangRobertsState} {ts : List Cont} {m : Message} {t : Cont}

theorem mem_toFirstPeer {dm : PeerId × Message} (h : dm ∈ O.toFirstPeer i m) :
    dm = (O.hop i, m) := by
  obtain ⟨nextPeer, hpeer, rfl⟩ := List.mem_map.mp h
  rw [hop_eq (Option.mem_toList.mp hpeer)]

theorem segOk_handle (hi : i ∈ O.parties.correct) (h : O.NodeOk i s ts) (hm : O.MessageOk i m) :
    O.SegOk i s (O.handle i s j m) := by
  cases m with
  | election elector =>
    obtain ⟨owner, howner, rfl, hpassed⟩ := hm
    simp only [handle, election]
    split
    · exact ⟨h.leader, id, h.stopped, nofun, nofun⟩
    · next nextPeer hpeer =>
      have hlinked : (O.firstPeer i).isSome := Option.isSome_of_eq_some hpeer
      split_ifs with heq
      · obtain rfl := O.nodeId_injOn howner hi heq
        have hchief := chief_of_back hlinked hpassed
        refine ⟨fun v hv => ?_, fun _ => rfl, fun _ => rfl, fun t ht => ?_, nofun⟩
        · obtain rfl := Option.some.inj hv
          exact hchief
        · obtain rfl := Option.some.inj ht
          exact ⟨hchief, rfl⟩
      · refine ⟨h.leader, id, h.stopped, nofun, fun dm hdm => ?_⟩
        obtain rfl := List.mem_singleton.mp hdm
        rw [← hop_eq hpeer]
        rcases lt_or_gt_of_ne heq with hlt | hgt
        · rw [max_eq_right hlt.le]
          exact ⟨i, hi, rfl, .start⟩
        · rw [max_eq_left hgt.le]
          exact ⟨owner, howner, rfl, hpassed.on ⟨hgt, hlinked⟩⟩
  | termination leader =>
    simp only [handle, termination]
    split_ifs
    · exact ⟨h.leader, id, h.stopped, nofun, nofun⟩
    · refine ⟨h.leader, id, h.stopped, fun t ht => ?_, nofun⟩
      obtain rfl := Option.some.inj ht
      exact hm

theorem segOk_resume (hi : i ∈ O.parties.correct) (h : O.NodeOk i s ts) (ht : t ∈ ts) :
    O.SegOk i s (O.resume i s t) := by
  have hok := h.tasks t ht
  have hrest {s : ChangRobertsState} {t' : Cont} (hok : O.TaskOk i s t') :
      ∀ t ∈ some t', O.TaskOk i s t := by
    intro t ht
    obtain rfl := Option.some.inj ht
    exact hok
  have hout {m : Message} (hm : O.MessageOk (O.hop i) m) :
      ∀ dm ∈ O.toFirstPeer i m, O.MessageOk dm.1 dm.2 := by
    intro dm hdm
    rw [mem_toFirstPeer hdm]
    exact hm
  cases t with
  | onStart =>
    simp only [resume]
    split_ifs
    · exact ⟨h.leader, id, h.stopped, nofun, nofun⟩
    · exact ⟨h.leader, id, h.stopped, hrest trivial, nofun⟩
  | starting => exact ⟨h.leader, id, h.stopped, nofun, hout ⟨i, hi, rfl, .start⟩⟩
  | elected => exact ⟨h.leader, id, h.stopped, hrest hok.2, hout hok.1.next⟩
  | informed leader =>
    have hlinked : (O.firstPeer i).isSome := Chief.linked hok 0
    simp only [resume, if_pos hlinked]
    refine ⟨fun v hv => ?_, fun _ => rfl, fun _ => rfl, hrest ⟨hok, rfl⟩, nofun⟩
    obtain rfl := Option.some.inj hv
    exact hok
  | announcing leader => exact ⟨h.leader, id, h.stopped, hrest hok.2, hout hok.1.next⟩
  | terminate => exact ⟨h.leader, id, fun _ => hok, nofun, nofun⟩

/-- A task that is not resumed stays right. -/
theorem TaskOk.keep {s' : ChangRobertsState} (h : O.TaskOk i s t)
    (hkeeps : s.leader.isSome → s'.leader.isSome) : O.TaskOk i s' t := by
  cases t with
  | onStart | starting => exact trivial
  | informed _ => exact h
  | elected | announcing _ => exact ⟨h.1, hkeeps h.2⟩
  | terminate => exact hkeeps h

theorem chiefs_inductive : O.chiefs.Inductive O.protocol O.parties initial fun _ _ _ => True where
  init := by
    refine ⟨fun i _ => ⟨by simp [initial], by simp [initial], fun t ht => ?_⟩, ?_, by simp⟩
    swap
    · simp [initial]
    obtain rfl := List.mem_singleton.mp ht
    exact trivial
  node_mono _ h := h
  msg_mono h := h
  segment := by
    intro ls c l i o base _ h _ hseg
    have hnode := h.node i hseg.correct
    have hok : O.SegOk i (c.st i) o := by
      cases hseg with
      | @recv e hnet hdst => exact segOk_handle (j := e.src) hdst hnode (h.msg e hnet)
      | forge hsrc _ =>
        rw [O.all_correct] at hsrc
        exact absurd hsrc (Finset.notMem_empty _)
      | wake hi ht ho =>
        obtain rfl := Option.some.inj ho
        exact segOk_resume hi hnode ht
    refine ⟨⟨hok.leader, hok.stopped, fun t ht => ?_⟩, hok.out⟩
    rcases hseg.mem_rest_or_tasks ht with hnew | hold
    · exact hok.rest t hnew
    · exact (hnode.tasks t hold).keep hok.keeps

/-- What a node knows as its leader is the largest id on the cycle of first peers that it is
on, all nodes of the cycle that know a leader know the same, and a node that has stopped
knows it. -/
theorem leader_is_chief {c : Config PeerId Message ChangRobertsState Cont}
    (hc : exec O.next initial ls = some c) (hi : i ∈ O.parties.correct) :
    (∀ v, (c.st i).leader = some v → O.Chief i v) ∧
    (∀ k v w, (c.st i).leader = some v → (c.st (O.hop^[k] i)).leader = some w → v = w) ∧
    ((c.st i).stopped = true → ∃ v, (c.st i).leader = some v) := by
  have hA := Assertion.holds_of_run chiefs_inductive hc
  have hnode := hA.node i hi
  refine ⟨hnode.leader, fun k v w hv hw => ?_, fun hstop => ?_⟩
  · have hj : O.hop^[k] i ∈ O.parties.correct := by
      clear hv hw
      induction k with
      | zero => exact hi
      | succ k ih =>
        rw [Function.iterate_succ_apply']
        exact hop_mem ih
    exact ((hnode.leader v hv).iterate k).eq ((hA.node _ hj).leader w hw)
  · exact Option.isSome_iff_exists.mp (hnode.stopped hstop)

end Overlay

/-! ## A cycle with a node before it -/

/-- The first peers of a and b are one another, that of c is a. -/
def lasso : Overlay where
  parties := { correct := {"a", "b", "c"}, byz := ∅, disjoint := by decide }
  all_correct := rfl
  nodeId i := if i = "a" then 1 else if i = "b" then 2 else 0
  nodeId_injOn := by
    have hall : ∀ i ∈ ({"a", "b", "c"} : Finset PeerId), ∀ j ∈ ({"a", "b", "c"} : Finset PeerId),
        (if i = "a" then 1 else if i = "b" then 2 else 0 : U32) =
          (if j = "a" then 1 else if j = "b" then 2 else 0) → i = j := by decide
    exact fun i hi j hj => hall i hi j hj
  firstPeer i := if i = "a" then some "b" else if i = "b" ∨ i = "c" then some "a" else none
  firstPeer_mem := by decide

/-- c starts, and b is elected. -/
def lassoRun : Trace PeerId Message Cont :=
  [.wake "c" .onStart, .wake "c" .starting, .recv ⟨"c", "a", .election 0⟩,
    .recv ⟨"a", "b", .election 1⟩, .recv ⟨"b", "a", .election 2⟩,
    .recv ⟨"a", "b", .election 2⟩, .wake "b" .elected, .recv ⟨"b", "a", .termination 2⟩,
    .wake "a" (.informed 2)]

theorem Overlay.leader_is_chief_lasso :
    ∃ c, exec lasso.next Overlay.initial lassoRun = some c ∧ lasso.Chief "a" 2 := by
  obtain ⟨c, hc, hleader⟩ : ∃ c, exec lasso.next Overlay.initial lassoRun = some c ∧
      decide ((c.st "a").leader = some 2) = true := exists_exec_of_any _ _ _ _ (by decide)
  exact ⟨c, hc, (leader_is_chief hc (by decide)).1 2 (of_decide_eq_true hleader)⟩

end DistBench.RustChangRoberts
