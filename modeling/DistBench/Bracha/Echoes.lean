import DistBench.Bracha.AtMostOnce
import DistBench.Bracha.OptimizedTotality

/-!
# The ECHOs of an optimised Bracha node

`bracha_optimized.py` broadcasts an ECHO for a message on five paths. The forced ECHO of
single-hop SENDs and the two of Echo Amplification consult `sent_echo` first. The ECHO of
`on_start`, and the one on a SEND where single-hop SENDs are off, do not.

- `echoCalls`: the ECHOs of a segment.
- `Amplifies`, `Unchecked`: when Echo Amplification broadcasts one, and when the paths that
  do not consult `sent_echo` do.
- `Ahead`: how far `on_start` has come. It has not seen the messages it has still to send.
- `echoes_le_one_iff`: when no message gets two.
-/

namespace DistBench.Bracha.Optimized

variable (S : System) (i : PeerId) (m : String)

/-- What a call starts or continues. -/
def callEvent : Call Cont → Event
  | .start => .resume .onStart
  | .call .dolevDeliver src msg => .handle src ⟨.dolev, msg⟩
  | .call .send src msg => .handle src ⟨.send, msg⟩
  | .call .echo src msg => .handle src ⟨.echo, msg⟩
  | .call .ready src msg => .handle src ⟨.ready, msg⟩
  | .wake k => .resume (.suspended k)

/-- A SEND is one that another node broadcasts. -/
def FromPeer (c : Call Cont) : Prop :=
  ∀ src p, callEvent c = .handle src p → p.phase = "send" →
    ∃ j ∈ S.parties.nodes, j ≠ i ∧ ∃ k, p.msg = initialSend S j k

/-- The `bracha("echo", ..)` calls for the message `m` of a segment. What it broadcasts before
`readyDone` is a READY. -/
def echoCalls (acts : List Action) : Option Cont → Nat
  | some (.readyDone _) => 0
  | _ => acts.countP fun
    | .bracha msg => msg.msgId = m ∧ msg.phase = "echo"
    | .sendTo _ _ => false

/-- The ECHOs for the message `m` of a run of node `i`. -/
def echoes (calls : List (Call Cont)) : Nat :=
  tally (handlers S i).step
    (fun x c => echoCalls m ((handlers S i).turn x.st c).acts ((handlers S i).turn x.st c).rest)
    ⟨{}, []⟩ calls

/-- Echo Amplification broadcasts an ECHO: on `f + 1` ECHOs, or on a READY that does not make
the node ready (lines 284–291 and 322–331). -/
def Amplifies (e : Entry) : Event → Prop
  | .handle src p =>
    p.msg.msgId = m ∧ S.enableEchoAmplification = true ∧ e.sentEcho = false ∧
      shouldGenerateEcho S i p.msg.sender = true ∧
      (p.phase = "echo" ∧ S.f + 1 ≤ (insert src e.echos).card ∨
        p.phase = "ready" ∧ (e.sentReady = true ∨ (insert src e.readys).card < S.f + 1 ∨
          shouldGenerateReady S i p.msg.sender = false))
  | .resume _ => False

/-- An ECHO is broadcast without a look at `sent_echo`: on a SEND where single-hop SENDs are off,
or by `on_start` (lines 266–269 and 200–205). -/
def Unchecked (e : Entry) : Event → Prop
  | .handle _ p =>
    p.msg.msgId = m ∧ p.phase = "send" ∧ e.seen = false ∧ S.enableSingleHopSend = false ∧
      (S.enableReducedMessages = false ∨ shouldGenerateEcho S i p.msg.sender = true)
  | .resume t =>
    ∃ k c, t = .suspended c ∧ c.Launching S i k [] ∧ S.uuid i k = m ∧
      shouldGenerateEcho S i i = true

/-- Echo Amplification broadcasts an ECHO for `m` in this step. -/
abbrev Amplifying (x : Local NodeState Cont) (c : Call Cont) : Prop :=
  Amplifies S i m (entry x.st.vars m) (callEvent c)

/-- This step broadcasts an ECHO for `m` without a look at `sent_echo`. -/
abbrev EchoingUnchecked (x : Local NodeState Cont) (c : Call Cont) : Prop :=
  Unchecked S i m (entry x.st.vars m) (callEvent c)

variable {S} {i : PeerId} {m : String} {e e' : Entry} {ev : Event} {acts : List Action}
  {rest : Option Cont} {s : NodeState} {calls : List (Call Cont)} {c : Call Cont}
  {x x' : Local NodeState Cont}

theorem turn_callEvent : (handlers S i).turn s c = turn S i s (callEvent c) := by
  cases c with
  | call h src msg => cases h <;> rfl
  | start | wake k => rfl

/-! ## The ECHOs of a segment -/

/-- What a segment with `n` ECHOs for a message does to its entry. -/
inductive EchoCase (S : System) (i : PeerId) (m : String) (e : Entry) (ev : Event) (e' : Entry) :
    Nat → Prop
  | none (hamp : ¬ Amplifies S i m e ev) (hun : ¬ Unchecked S i m e ev) : EchoCase S i m e ev e' 0
  | amplified (hamp : Amplifies S i m e ev) (hset : e'.sentEcho = true) : EchoCase S i m e ev e' 1
  | forced (hnew : e.sentEcho = false) (hset : e'.sentEcho = true) (hseen : e'.seen = true) :
    EchoCase S i m e ev e' 1
  | unchecked (hun : Unchecked S i m e ev) (hset : e'.sentEcho = true) (hseen : e'.seen = true) :
    EchoCase S i m e ev e' 1

theorem echoCalls_of_quiet (h : QuietAbout S i m acts rest) : echoCalls m acts rest = 0 := by
  unfold echoCalls
  split
  · rfl
  · refine List.countP_eq_zero.mpr fun a ha => ?_
    have hne := h.1 a ha
    cases a with
    | bracha msg => simpa [Action.message] using fun hm => absurd hm hne
    | sendTo p msg => simp

theorem echoCalls_echo (msg : BrachaMessage) {k : Cont} (hk : ∀ msg', k ≠ .readyDone msg') :
    echoCalls m [.bracha { msg with phase := "echo" }] (some k) =
      if msg.msgId = m then 1 else 0 := by
  cases k with
  | readyDone msg' => exact absurd rfl (hk msg')
  | _ => simp [echoCalls, List.countP_singleton]

theorem echoCalls_trigger {msg : BrachaMessage} {b : Bool} (h : Trigger S i msg e b acts rest) :
    echoCalls m acts rest = 0 := by
  cases h with
  | fires _ _ _ => simp [echoCalls]
  | waits _ => simp [echoCalls]

theorem Amplifies.sentEcho (h : Amplifies S i m e ev) : e.sentEcho = false := by
  cases ev with
  | handle src p => exact h.2.2.1
  | resume t => exact h.elim

/-- What broadcasts an ECHO is counted. -/
theorem EchoCase.pos {n : Nat} (h : EchoCase S i m e ev e' n)
    (hecho : Amplifies S i m e ev ∨ Unchecked S i m e ev) : 1 ≤ n := by
  cases h with
  | none hamp hun => exact (hecho.elim hamp hun).elim
  | amplified _ _ | forced _ _ _ | unchecked _ _ _ => exact le_rfl

theorem Cont.Launching.unique {k k' : Nat} {t : Cont} {ps ps' : List PeerId}
    (h : t.Launching S i k ps) (h' : t.Launching S i k' ps') : k = k' ∧ ps = ps' := by
  cases h <;> cases h' <;> exact ⟨rfl, rfl⟩

theorem Amplifies.about (h : Amplifies S i m e ev) : ev.About S i m := by
  cases ev with
  | handle src p =>
    obtain ⟨hm, -, -, -, hp | hp⟩ := h
    · exact ⟨hm, .inr (.inl hp.1)⟩
    · exact ⟨hm, .inr (.inr hp.1)⟩
  | resume t => exact h.elim

theorem Unchecked.about (h : Unchecked S i m e ev) : ev.About S i m := by
  cases ev with
  | handle src p => exact ⟨h.1, .inl h.2.1⟩
  | resume t =>
    obtain ⟨k, c, rfl, hc, hm, -⟩ := h
    exact hm ▸ hc.about

theorem EchoCase.quiet (h : ¬ ev.About S i m) : EchoCase S i m e ev e' 0 :=
  .none (fun hamp => h hamp.about) fun hun => h hun.about

theorem Move.echoCase (h : Move S i m e ev e' acts rest) :
    EchoCase S i m e ev e' (echoCalls m acts rest) := by
  cases h with
  | other hev h =>
    rw [echoCalls_of_quiet h]
    exact .quiet hev
  | sendSeen hp hm hseen => exact .none (by simp [Amplifies, hp]) (by simp [Unchecked, hseen])
  | sendNew hp hm hseen hecho =>
    rw [echoCalls_echo _ (by simp), if_pos hm]
    by_cases hhop : S.enableSingleHopSend = true
    · rw [SendEchoes, if_pos hhop] at hecho
      exact .forced hecho rfl rfl
    · rw [SendEchoes, if_neg hhop] at hecho
      exact .unchecked ⟨hm, hp, hseen, Bool.eq_false_iff.mpr hhop, hecho⟩ rfl rfl
  | sendSkip hp hm hseen hecho =>
    refine .none (by simp [Amplifies, hp]) ?_
    rintro ⟨-, -, -, hhop, hmember⟩
    rw [SendEchoes, if_neg (by simp [hhop])] at hecho
    exact hecho hmember
  | echoAmplify hp hm hamp hnew hcard hmember =>
    rw [echoCalls_echo _ (by simp), if_pos hm]
    exact .amplified ⟨hm, hamp, hnew, hmember, .inl ⟨hp, hcard⟩⟩ rfl
  | echoCount hp hm hno h =>
    rw [echoCalls_trigger h]
    refine .none ?_ (by simp [Unchecked, hp])
    rintro ⟨-, hamp, hnew, hmember, ⟨-, hcard⟩ | ⟨hready, -⟩⟩
    · simp [hamp, hnew, hmember, Nat.not_lt.mpr hcard] at hno
    · simp [hp] at hready
  | readyEcho hp hm hamp hnew hno hmember =>
    rw [echoCalls_echo _ (by simp), if_pos hm]
    exact .amplified ⟨hm, hamp, hnew, hmember, .inr ⟨hp, hno⟩⟩ (Entry.sentEcho_answer _ hamp)
  | readyTip hp hm hnew hcard hmember =>
    refine .none ?_ (by simp [Unchecked, hp])
    rintro ⟨-, -, -, -, ⟨hecho, -⟩ | ⟨-, hno⟩⟩
    · simp [hp] at hecho
    · simp [hnew, hmember, Nat.not_lt.mpr hcard] at hno
  | readyCount hp hm hno hquiet h =>
    refine .none ?_ (by simp [Unchecked, hp])
    rintro ⟨-, hamp, hnew, hmember, -⟩
    simp [hquiet hamp hnew] at hmember
  | amplified hm h =>
    rw [echoCalls_trigger h]
    refine .none id ?_
    rintro ⟨k, _, ⟨⟩, hlaunch, -⟩
    cases hlaunch
  | tested hm hk h =>
    refine .none id ?_
    rintro ⟨k, _, ⟨⟩, hlaunch, -⟩
    rcases hk with rfl | rfl <;> cases hlaunch
  | startHop hev hm hhop => exact .quiet hev
  | @startSend _ k hev hm hhop =>
    have hzero : echoCalls m [.bracha (initialSend S i k)] (some (.sent k)) = 0 := by
      simp [echoCalls, initialSend]
    rw [hzero]
    exact .quiet hev
  | hop hm ht =>
    refine .none id ?_
    rintro ⟨k, _, ⟨⟩, hlaunch, -⟩
    cases (ht.unique hlaunch).2
  | launchedEcho hm ht hmember =>
    have hone : m = (initialSend S i _).msgId := hm.symm
    rw [echoCalls_echo _ (by simp), if_pos hone.symm]
    exact .unchecked ⟨_, _, rfl, ht, hm, hmember⟩ rfl rfl
  | launched hm ht hmember h =>
    rw [echoCalls_of_quiet h]
    refine .none id ?_
    rintro ⟨k, _, ⟨⟩, -, -, hmember'⟩
    simp [hmember] at hmember'

/-- What a call does is a move of every message. -/
theorem move_of_step (hids : UniqueIds S) (hi : i ∈ S.parties.nodes)
    (hx : exec (handlers S i).step ⟨{}, []⟩ calls = some x)
    (hstep : (handlers S i).step x c = some x') (m : String) :
    Move S i m (entry x.st.vars m) (callEvent c) (entry x'.st.vars m)
      ((handlers S i).turn x.st c).acts ((handlers S i).turn x.st c).rest := by
  obtain ⟨hwake, hst, -⟩ := Handlers.step_cases hstep
  have hinv := guarded.inv_of_run rfl rfl calls x hx
  let ts : List Task := .onStart :: x.suspended.map .suspended
  have hkeyed : WellKeyed S i x.st.vars ts := by
    refine ⟨hinv.consistent.sameKeys, fun k hk => ?_⟩
    have hmem : k ∈ x.suspended := by simpa [ts] using hk
    exact hinv.keyed k hmem
  rw [hst, turn_callEvent]
  refine move_turn hids hi hkeyed (fun t ht => ?_) m
  cases c with
  | start =>
    cases ht
    exact List.mem_cons_self
  | call h src msg => cases h <;> cases ht
  | wake k =>
    cases ht
    exact List.mem_cons_of_mem _ (List.mem_map_of_mem (hwake k rfl))

/-! ## How far `on_start` has come -/

/-- The first message `on_start` has still to broadcast an ECHO for when suspended there. -/
def Cont.ahead : Cont → Option Nat
  | .sleeping k | .singleHop k _ | .sent k => some k
  | .echoed k => some (k + 1)
  | .handled | .echoAmplified _ | .echoGenerated _ | .readyDone _ => none

/-- Where `on_start` is, `0` before it was called. -/
def positions (calls : List (Call Cont)) (x : Local NodeState Cont) : List Nat :=
  (if .start ∈ calls then [] else [0]) ++ x.suspended.filterMap Cont.ahead

/-- Where `on_start` is before the call, if that is what is called or goes on. -/
def origin : Call Cont → List Nat
  | .start => [0]
  | .call _ _ _ => []
  | .wake t => t.ahead.toList

/-- `on_start` is at one point at most, and the node has not seen the messages of its own that
are still ahead. -/
structure Ahead (S : System) (i : PeerId) (calls : List (Call Cont)) (x : Local NodeState Cont) :
    Prop where
  alone : (positions calls x).length ≤ 1
  unseen : ∀ k ∈ positions calls x, ∀ j ≥ k, S.uuid i j ∉ x.st.vars.seenMessages

variable {k k' : Nat}

theorem ahead_startMessage (h : k' ∈ (startMessage S i s k).rest.bind Cont.ahead) : k' = k := by
  simp only [startMessage] at h
  split at h
  · split at h
    · exact (Option.some.inj h).symm
    · exact (Option.some.inj h).symm
  · cases h

theorem ahead_singleHop {ps : List PeerId} (h : k' ∈ (singleHop S i s k ps).rest.bind Cont.ahead) :
    k ≤ k' ∧ (ps = [] → k < k') := by
  cases ps with
  | cons p ps =>
    obtain rfl : k = k' := Option.some.inj h
    exact ⟨le_rfl, by simp⟩
  | nil =>
    have hnext : k' = k + 1 := by
      simp only [singleHop, afterSend] at h
      split at h
      · exact (Option.some.inj h).symm
      · exact ahead_startMessage h
    omega

theorem ahead_of_handler {t : Turn NodeState Cont} (h : OfHandler t) :
    t.rest.bind Cont.ahead = none := by
  cases hrest : t.rest with
  | none => rfl
  | some k =>
    have hk := h k hrest
    cases k <;> first | rfl | cases hk

/-- Only `on_start` goes on with `on_start`, and once a message is launched with the next one. -/
theorem ahead_turn (h : k' ∈ ((handlers S i).turn s c).rest.bind Cont.ahead) :
    c = .start ∨ ∃ t k, c = .wake t ∧ t.ahead = some k ∧ k ≤ k' ∧
      (t.Launching S i k [] → k < k') := by
  have hnone {t : Turn NodeState Cont} (ht : OfHandler t) (h : k' ∈ t.rest.bind Cont.ahead) :
      False := by
    rw [ahead_of_handler ht] at h
    cases h
  cases c with
  | start => exact .inl rfl
  | call handler src msg =>
    rw [turn_callEvent] at h
    cases handler <;> exact (hnone ofHandler_receive h).elim
  | wake t =>
    cases t with
    | sleeping k =>
      obtain ⟨hle, hlt⟩ := ahead_singleHop h
      exact .inr ⟨_, k, rfl, rfl, hle, fun hl => hlt (Cont.Launching.sleeping.unique hl).2⟩
    | singleHop k ps =>
      obtain ⟨hle, hlt⟩ := ahead_singleHop h
      exact .inr ⟨_, k, rfl, rfl, hle, fun hl => hlt ((Cont.Launching.singleHop ps).unique hl).2⟩
    | sent k =>
      have hsingle : k' ∈ (singleHop S i s k []).rest.bind Cont.ahead := h
      obtain ⟨hle, hlt⟩ := ahead_singleHop hsingle
      exact .inr ⟨_, k, rfl, rfl, hle, fun _ => hlt rfl⟩
    | echoed k =>
      obtain rfl := ahead_startMessage h
      exact .inr ⟨_, k + 1, rfl, rfl, le_rfl, nofun⟩
    | handled => cases h
    | echoAmplified msg => exact (hnone ofHandler_readyTrigger h).elim
    | echoGenerated msg | readyDone msg => cases h

/-- A node comes to see a message on a SEND, or when it launches the message itself. -/
theorem Move.sees (h : Move S i m e ev e' acts rest) (hseen : e'.seen = true) :
    e.seen = true ∨ (∃ src p, ev = .handle src p ∧ p.phase = "send" ∧ p.msg.msgId = m) ∨
      ∃ k t, ev = .resume (.suspended t) ∧ t.Launching S i k [] ∧ S.uuid i k = m := by
  cases h with
  | sendNew hp hm _ _ | sendSkip hp hm _ _ => exact .inr (.inl ⟨_, _, rfl, hp, hm⟩)
  | readyEcho _ _ _ _ _ _ | readyTip _ _ _ _ _ | readyCount _ _ _ _ _ =>
    exact .inl ((Entry.answer_seen S i _ e).symm.trans hseen)
  | launchedEcho hm ht _ | launched hm ht _ _ => exact .inr (.inr ⟨_, _, rfl, ht, hm⟩)
  | _ => exact .inl hseen

/-- A node comes to see a message of its own when `on_start` launches it. -/
theorem launches_of_step (hids : UniqueIds S) (hi : i ∈ S.parties.nodes)
    (hx : exec (handlers S i).step ⟨{}, []⟩ calls = some x)
    (hstep : (handlers S i).step x c = some x') (hc : FromPeer S i c) {j : Nat}
    (hseen : S.uuid i j ∈ x'.st.vars.seenMessages) :
    S.uuid i j ∈ x.st.vars.seenMessages ∨ ∃ t, c = .wake t ∧ t.Launching S i j [] := by
  have hmove := move_of_step hids hi hx hstep (S.uuid i j)
  rcases hmove.sees (decide_eq_true hseen) with hold | ⟨src, p, hev, hp, hm⟩ | ⟨k, t, hev, ht, hm⟩
  · exact .inl (of_decide_eq_true hold)
  · obtain ⟨j', hj', hne, k, hmsg⟩ := hc src p hev hp
    rw [hmsg] at hm
    exact absurd (hids j' hj' i hi k j hm).1 hne
  · obtain ⟨-, rfl⟩ := hids i hi i hi k j hm
    refine .inr ⟨t, ?_, ht⟩
    cases c with
    | wake t' =>
      cases hev
      rfl
    | start => cases hev
    | call handler src msg => cases handler <;> cases hev

/-- Where `on_start` is after a step. -/
theorem positions_step (hstep : (handlers S i).step x c = some x')
    (honce : c = .start → .start ∉ calls) :
    ∃ old, (positions (calls ++ [c]) x').Perm
        ((((handlers S i).turn x.st c).rest.bind Cont.ahead).toList ++ old) ∧
      (positions calls x).Perm (origin c ++ old) := by
  have hsettle (rest : Option Cont) (ks : List Cont) : (rest.toList ++ ks).filterMap Cont.ahead =
      (rest.bind Cont.ahead).toList ++ ks.filterMap Cont.ahead := by
    cases rest with
    | none => rfl
    | some t => cases h : t.ahead <;> simp [h]
  cases c with
  | start =>
    obtain rfl := Option.some.inj hstep
    refine ⟨x.suspended.filterMap Cont.ahead, ?_, ?_⟩
    · simp only [positions, Turn.settle, hsettle]
      simp [Handlers.turn]
    · simp [positions, origin, honce rfl]
  | call h src msg =>
    obtain rfl := Option.some.inj hstep
    refine ⟨positions calls x, ?_, List.Perm.refl _⟩
    simp only [positions, Turn.settle, hsettle]
    have hsame : .start ∈ calls ++ [Call.call h src msg] ↔ .start ∈ calls := by simp
    rw [if_congr hsame rfl rfl, ← List.append_assoc, ← List.append_assoc]
    exact List.perm_append_comm.append_right _
  | wake t =>
    obtain ⟨ht, hstep⟩ := Option.ite_none_right_eq_some.mp hstep
    obtain rfl := Option.some.inj hstep
    have hsame : .start ∈ calls ++ [Call.wake t] ↔ .start ∈ calls := by simp
    refine ⟨(if .start ∈ calls then [] else [0]) ++ (x.suspended.erase t).filterMap Cont.ahead,
      ?_, ?_⟩
    · simp only [positions, Turn.settle, hsettle]
      rw [if_congr hsame rfl rfl, ← List.append_assoc, ← List.append_assoc]
      exact List.perm_append_comm.append_right _
    · have hperm : (x.suspended.filterMap Cont.ahead).Perm
          (t.ahead.toList ++ (x.suspended.erase t).filterMap Cont.ahead) := by
        refine ((List.perm_cons_erase ht).filterMap _).trans ?_
        cases h : t.ahead <;> simp [h]
      rw [positions, ← List.append_assoc]
      refine (hperm.append_left _).trans ?_
      rw [← List.append_assoc]
      exact List.perm_append_comm.append_right _

theorem Cont.Launching.ahead {t : Cont} {ps : List PeerId} (h : t.Launching S i k ps) :
    t.ahead = some k := by
  cases h <;> rfl

theorem Ahead.init : Ahead S i [] ⟨{}, []⟩ where
  alone := by simp [positions]
  unseen := by simp

theorem Ahead.step (hids : UniqueIds S) (hi : i ∈ S.parties.nodes)
    (hx : exec (handlers S i).step ⟨{}, []⟩ calls = some x)
    (hstep : (handlers S i).step x c = some x') (hc : FromPeer S i c)
    (honce : c = .start → .start ∉ calls) (h : Ahead S i calls x) :
    Ahead S i (calls ++ [c]) x' := by
  obtain ⟨old, hnew, hbefore⟩ := positions_step hstep honce
  have halone : (origin c).length + old.length ≤ 1 := by
    rw [← List.length_append, ← hbefore.length_eq]
    exact h.alone
  have hmem {k : Nat} (hk : k ∈ origin c ++ old) : ∀ j ≥ k, S.uuid i j ∉ x.st.vars.seenMessages :=
    h.unseen k (hbefore.mem_iff.mpr hk)
  refine ⟨?_, fun k' hk' j hj hseen => ?_⟩
  · have hle : (((handlers S i).turn x.st c).rest.bind Cont.ahead).toList.length ≤
        (origin c).length := by
      cases hrest : ((handlers S i).turn x.st c).rest.bind Cont.ahead with
      | none => exact Nat.zero_le _
      | some k' =>
        rcases ahead_turn hrest with rfl | ⟨t, k, rfl, ht, -⟩
        · exact le_rfl
        · simp [origin, ht]
    rw [hnew.length_eq, List.length_append]
    omega
  · have hlaunch := launches_of_step hids hi hx hstep hc hseen
    rcases List.mem_append.mp (hnew.mem_iff.mp hk') with hrest | hold
    · rcases ahead_turn (Option.mem_toList.mp hrest) with rfl | ⟨t, k, rfl, ht, hle, hlt⟩
      · obtain ⟨t, ht, -⟩ := hlaunch.resolve_left (hmem (by simp [origin]) j (Nat.zero_le j))
        cases ht
      · have hk : k ∈ origin (.wake t) ++ old := by simp [origin, ht]
        obtain ⟨_, ⟨⟩, hl⟩ := hlaunch.resolve_left (hmem hk j (hle.trans hj))
        obtain rfl := Option.some.inj (ht.symm.trans hl.ahead)
        have := hlt hl
        omega
    · -- `on_start` is nowhere else when it launches a message
      obtain ⟨t, rfl, hl⟩ := hlaunch.resolve_left (hmem (List.mem_append_right _ hold) j hj)
      have hpos := List.length_pos_of_mem hold
      simp only [origin, hl.ahead, Option.toList_some, List.length_singleton] at halone
      omega

theorem ahead_of_run (hids : UniqueIds S) (hi : i ∈ S.parties.nodes)
    (hcalls : ∀ c ∈ calls, FromPeer S i c) (honce : calls.count .start ≤ 1)
    (hx : exec (handlers S i).step ⟨{}, []⟩ calls = some x) : Ahead S i calls x := by
  refine run_induction (P := fun ls x => (∀ c ∈ ls, FromPeer S i c) → ls.count .start ≤ 1 →
    Ahead S i ls x) (fun _ _ => .init) ?_ calls x hx hcalls honce
  intro ls x c x' hx ih hstep hls hcount
  rw [List.count_append] at hcount
  have hbefore := ih (fun c hc => hls c (List.mem_append_left _ hc)) (by omega)
  refine hbefore.step hids hi hx hstep (hls c (by simp)) fun hc hmem => ?_
  subst hc
  have hone : 0 < ls.count Call.start := List.count_pos_iff.mpr hmem
  rw [List.count_singleton_self] at hcount
  omega

/-! ## Runs -/

/-- Where the paths that do not consult `sent_echo` broadcast an ECHO, the message is new. -/
theorem Ahead.new_of_unchecked (h : Ahead S i calls x)
    (hstep : (handlers S i).step x c = some x')
    (hun : EchoingUnchecked S i m x c) : m ∉ x.st.vars.seenMessages := by
  cases c with
  | call handler src msg =>
    cases handler <;> exact of_decide_eq_false hun.2.2.1
  | start =>
    obtain ⟨k, t, ht, -⟩ := hun
    cases ht
  | wake t =>
    obtain ⟨k, _, ⟨⟩, hl, rfl, -⟩ := hun
    have hmem := (Handlers.step_cases hstep).1 t rfl
    refine h.unseen k (List.mem_append_right _ ?_) k le_rfl
    exact List.mem_filterMap.mpr ⟨t, hmem, hl.ahead⟩

/-- What is known after a run. If there was one ECHO, either Echo Amplification has broadcast it, or
the node has seen the message. -/
inductive Echoed (S : System) (i : PeerId) (m : String) (calls : List (Call Cont))
    (x : Local NodeState Cont) : Prop
  | never (hzero : echoes S i m calls = 0)
  | amplified (hone : echoes S i m calls = 1) (hset : (entry x.st.vars m).sentEcho = true)
      (hamp : Occurs (handlers S i).step ⟨{}, []⟩ calls (Amplifying S i m))
  | seen (hone : echoes S i m calls = 1) (hset : (entry x.st.vars m).sentEcho = true)
      (hseen : (entry x.st.vars m).seen = true)
  | again (h : OccursThen (handlers S i).step ⟨{}, []⟩ calls (Amplifying S i m)
      (EchoingUnchecked S i m))

theorem echoes_snoc (hx : exec (handlers S i).step ⟨{}, []⟩ calls = some x)
    (hstep : (handlers S i).step x c = some x') : echoes S i m (calls ++ [c]) =
      echoes S i m calls +
        echoCalls m ((handlers S i).turn x.st c).acts ((handlers S i).turn x.st c).rest := by
  simp only [echoes, tally_append hx, tally, hstep, Option.elim_some, Nat.add_zero]

theorem Echoed.step (hids : UniqueIds S) (hi : i ∈ S.parties.nodes)
    (hx : exec (handlers S i).step ⟨{}, []⟩ calls = some x)
    (hstep : (handlers S i).step x c = some x') (hahead : Ahead S i calls x)
    (h : Echoed S i m calls x) : Echoed S i m (calls ++ [c]) x' := by
  have hmove := move_of_step hids hi hx hstep m
  have hsum := echoes_snoc (m := m) hx hstep
  have hcase := hmove.echoCase
  generalize echoCalls m _ _ = n at hsum hcase
  cases h with
  | never hzero =>
    rw [hzero] at hsum
    cases hcase with
    | none _ _ => exact .never hsum
    | amplified hamp hset => exact .amplified hsum hset (occurs_last hx hamp)
    | forced _ hset hseen | unchecked _ hset hseen => exact .seen hsum hset hseen
  | amplified hone hset hold =>
    cases hcase with
    | none _ _ => exact .amplified (hsum.trans hone) (hmove.sentEcho_mono hset) hold.append
    | amplified hamp _ => simp [hamp.sentEcho] at hset
    | forced hnew _ _ => simp [hnew] at hset
    | unchecked hun _ _ => exact .again (hold.then_last hx hun)
  | seen hone hset hseen =>
    cases hcase with
    | none _ _ =>
      exact .seen (hsum.trans hone) (hmove.sentEcho_mono hset) (hmove.seen_mono hseen)
    | amplified hamp _ => simp [hamp.sentEcho] at hset
    | forced hnew _ _ => simp [hnew] at hset
    | unchecked hun _ _ =>
      exact absurd (of_decide_eq_true hseen) (hahead.new_of_unchecked hstep hun)
  | again h => exact .again h.append

theorem echoed_of_run (hids : UniqueIds S) (hi : i ∈ S.parties.nodes)
    (hcalls : ∀ c ∈ calls, FromPeer S i c) (honce : calls.count .start ≤ 1)
    (hx : exec (handlers S i).step ⟨{}, []⟩ calls = some x) (m : String) :
    Echoed S i m calls x := by
  refine run_induction (P := fun ls x => (∀ c ∈ ls, FromPeer S i c) → ls.count .start ≤ 1 →
    Echoed S i m ls x) (fun _ _ => .never rfl) ?_ calls x hx hcalls honce
  intro ls x c x' hx ih hstep hls hcount
  have hls' : ∀ c ∈ ls, FromPeer S i c := fun c hc => hls c (List.mem_append_left _ hc)
  have hcount' : ls.count .start ≤ 1 := ((List.sublist_append_left ls [c]).count_le _).trans hcount
  exact (ih hls' hcount').step hids hi hx hstep (ahead_of_run hids hi hls' hcount' hx)

theorem echoes_le_one (hids : UniqueIds S) (hi : i ∈ S.parties.nodes)
    (hcalls : ∀ c ∈ calls, FromPeer S i c) (honce : calls.count .start ≤ 1)
    (hx : exec (handlers S i).step ⟨{}, []⟩ calls = some x)
    (hnot : ¬ OccursThen (handlers S i).step ⟨{}, []⟩ calls (Amplifying S i m)
      (EchoingUnchecked S i m)) : echoes S i m calls ≤ 1 := by
  cases echoed_of_run hids hi hcalls honce hx m with
  | never hzero => omega
  | amplified hone _ _ | seen hone _ _ => omega
  | again h => exact absurd h hnot

/-- Without Echo Amplification no message gets two ECHOs. -/
theorem echoes_le_one_of_amplification_off (hoff : S.enableEchoAmplification = false)
    (hids : UniqueIds S) (hi : i ∈ S.parties.nodes) (hcalls : ∀ c ∈ calls, FromPeer S i c)
    (honce : calls.count .start ≤ 1) (hx : exec (handlers S i).step ⟨{}, []⟩ calls = some x)
    (m : String) : echoes S i m calls ≤ 1 := by
  refine echoes_le_one hids hi hcalls honce hx ?_
  rintro ⟨ls₁, c, ls₂, y, -, -, ⟨ls₃, c', ls₄, y', -, -, hamp⟩, -⟩
  cases hev : callEvent c' with
  | handle src p =>
    rw [Amplifying, hev] at hamp
    simp [hamp.2.1] at hoff
  | resume t =>
    rw [Amplifying, hev] at hamp
    exact hamp

/-- **One ECHO per message**: a node broadcasts two ECHOs for a message exactly when Echo
Amplification has broadcast one before the node gets to the one of `on_start` or of a SEND. -/
theorem echoes_le_one_iff (hids : UniqueIds S) (hi : i ∈ S.parties.nodes)
    (hcalls : ∀ c ∈ calls, FromPeer S i c) (honce : calls.count .start ≤ 1)
    (hx : exec (handlers S i).step ⟨{}, []⟩ calls = some x) (m : String) :
    echoes S i m calls ≤ 1 ↔ ¬ OccursThen (handlers S i).step ⟨{}, []⟩ calls (Amplifying S i m)
      (EchoingUnchecked S i m) := by
  refine ⟨fun hle hthen => ?_, echoes_le_one hids hi hcalls honce hx⟩
  have hcounted : Meets (handlers S i).step ⟨{}, []⟩ (fun _ x c =>
      Amplifying S i m x c ∨ EchoingUnchecked S i m x c →
        1 ≤ echoCalls m ((handlers S i).turn x.st c).acts ((handlers S i).turn x.st c).rest)
      calls := by
    rintro ls₁ c ls₂ y rfl hy
    obtain ⟨_, hy', hrest⟩ := exec_prefix hx
    obtain rfl := Option.some.inj (hy.symm.trans hy')
    obtain ⟨y', hstep, -⟩ := Option.bind_eq_some_iff.mp hrest
    exact (move_of_step hids hi hy hstep m).echoCase.pos
  have htwo : 2 ≤ echoes S i m calls := two_le_tally hthen
    (fun ls₁ c ls₂ y hls hy h => hcounted ls₁ c ls₂ y hls hy (.inl h))
    fun ls₁ c ls₂ y hls hy h => hcounted ls₁ c ls₂ y hls hy (.inr h)
  omega

/-- Four nodes with Echo Amplification only, of which `a` sends. -/
def amplifyingNodes : System where
  toDeployment := .ofLists ["a", "b", "c", "d"] [] Cluster.nodup_four
  f := 1
  isSender i := i = "a"
  enableEchoAmplification := true
  enableSingleHopSend := false
  enableReducedMessages := false
  admissible _ := rfl
  numMessages := 1
  uuid i k := i ++ String.ofList (List.replicate k '+')
  neighbours _ := ∅

/-- `b` gets the ECHOs of `c` and `d` before `a`'s SEND. -/
def echoesFirst : List (Call Cont) :=
  let sent := initialSend amplifyingNodes "a" 0
  [.call .dolevDeliver "c" { sent with phase := "echo" },
    .call .dolevDeliver "d" { sent with phase := "echo" }, .call .dolevDeliver "a" sent]

theorem uniqueIds_amplifyingNodes : UniqueIds amplifyingNodes := by
  have h : UniqueIds (hopSystem ["a", "b", "c", "d"] [] [] Cluster.nodup_four) :=
    uniqueIds_hopSystem (by decide)
  exact h

theorem fromPeer_echoesFirst : ∀ c ∈ echoesFirst, FromPeer amplifyingNodes "b" c := by
  simp only [echoesFirst, List.forall_mem_cons, List.not_mem_nil, false_implies, implies_true,
    and_true]
  refine ⟨?_, ?_, ?_⟩
  · rintro src p ⟨⟩ hp
    simp [Packet.phase] at hp
  · rintro src p ⟨⟩ hp
    simp [Packet.phase] at hp
  · rintro src p ⟨⟩ -
    exact ⟨"a", by decide, by decide, 0, rfl⟩

/-- It ECHOs twice. -/
theorem echoes_echoesFirst : echoes amplifyingNodes "b" "a" echoesFirst = 2 := by decide

theorem echoes_le_one_iff_amplifyingNodes :
    OccursThen (handlers amplifyingNodes "b").step ⟨{}, []⟩ echoesFirst
      (Amplifying amplifyingNodes "b" "a") (EchoingUnchecked amplifyingNodes "b" "a") := by
  obtain ⟨x, hx, -⟩ := exists_exec_of_any (handlers amplifyingNodes "b").step ⟨{}, []⟩ echoesFirst
    (fun _ => true) (by decide)
  by_contra hnot
  have hle := (echoes_le_one_iff uniqueIds_amplifyingNodes (by decide) fromPeer_echoesFirst
    (by decide) hx "a").mpr hnot
  rw [echoes_echoesFirst] at hle
  omega

theorem echoed_twice : ¬ ∀ (S : System) (i : PeerId) (calls : List (Call Cont))
    (x : Local NodeState Cont), UniqueIds S → i ∈ S.parties.nodes →
    (∀ c ∈ calls, FromPeer S i c) → calls.count .start ≤ 1 →
    exec (handlers S i).step ⟨{}, []⟩ calls = some x → ∀ m, echoes S i m calls ≤ 1 := by
  intro h
  obtain ⟨x, hx, -⟩ := exists_exec_of_any (handlers amplifyingNodes "b").step ⟨{}, []⟩ echoesFirst
    (fun _ => true) (by decide)
  have hle := h amplifyingNodes "b" echoesFirst x uniqueIds_amplifyingNodes (by decide)
    fromPeer_echoesFirst (by decide) hx "a"
  rw [echoes_echoesFirst] at hle
  omega

end DistBench.Bracha.Optimized
