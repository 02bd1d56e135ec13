import DistBench.Bracha.Handlers
import DistBench.Bracha.OptimizedMoves
import DistBench.Bracha.OptimizedRefinement

/-!
# What a Bracha node keeps, and what it does at most once

`bracha_optimized.py` and `bracha.py` as nodes in any environment: every segment of their
coroutines has an `Effect`, so the dictionaries are consistent in every state the node can
reach, and it broadcasts one READY and makes one delivery per message.
-/

namespace DistBench.Bracha

open DistBench.Bracha.Reading

/-! ## bracha_optimized.py -/

namespace Optimized

variable (S : System) (i : PeerId)

/-- Node `i`, with the handlers that peers may call themselves. -/
def handlers : Handlers NodeState Cont where
  onStart := onStart S i
  call h s src msg :=
    match h with
    | .dolevDeliver => dolevDeliver S i s src msg
    | .send => send S i s src msg
    | .echo => echo S i s src msg
    | .ready => ready S i s src msg
  resume := resume S i

abbrev reading : Reading NodeState Cont where
  vars := NodeState.vars
  deliveries := NodeState.deliveries
  inReady
    | .readyDone _ => true
    | _ => false
  Indexes k m := k.About S i m
  message
    | .echoAmplified msg | .echoGenerated msg | .readyDone msg => some msg
    | _ => none

/-- Node `i` may broadcast READYs for the messages of this sender. -/
def Eligible (sender : PeerId) : Prop := shouldGenerateReady S i sender = true

variable {S i} {s s' : NodeState} {src : PeerId} {msg : BrachaMessage}
  {msgs : Option BrachaMessage} {k : Nat}

/-- A segment of node `i` that started in `s`. -/
abbrev Does (S : System) (i : PeerId) (msgs : Option BrachaMessage) (s : NodeState)
    (t : Turn NodeState Cont) : Prop :=
  (reading S i).Does (S.N i) S.f i (Eligible S i) msgs s t

theorem counted {v : BrachaState} {expected : Finset String} (h : Counts i s.vars v) :
    (reading S i).Counted i s { s with vars := v, expectedMessages := expected } :=
  ⟨h, rfl⟩

theorem does_send (src : PeerId) : Does S i (some msg) s (send S i s src msg) := by
  have hsee : Counts i s.vars ((s.vars.initState msg.msgId).see msg.msgId) :=
    .see _ (.initState _ .refl)
  have hown : Counts i s.vars
      (countOwnEcho i ((s.vars.initState msg.msgId).see msg.msgId) msg.msgId) :=
    .countOwnEcho hsee BrachaState.mem_initState
  have hecho {s' : NodeState} (h : (reading S i).Counted i s s') : Does S i (some msg) s
      { st := s', acts := [.bracha { msg with phase := "echo" }], rest := some .handled } :=
    h.vote (by simp [Action.message]) rfl (fun m hm => hm.elim) (by simp)
  simp only [send]
  split
  · split
    · split
      · exact hecho ⟨hown, rfl⟩
      · exact Counted.silent ⟨hsee, rfl⟩
    · split
      · exact hecho ⟨hown, rfl⟩
      · exact Counted.silent ⟨hsee, rfl⟩
  · exact Counted.silent ⟨.initState _ .refl, rfl⟩

theorem does_readyTrigger (h : (reading S i).Counted i s s') (hmsg : msg ∈ msgs)
    (hkey : msg.msgId ∈ s'.vars.echos) : Does S i msgs s (readyTrigger S i s' msg) := by
  unfold readyTrigger
  split
  · next hfires =>
    rw [BrachaState.get_sentReady hkey, BrachaState.get_echos hkey] at hfires
    exact h.readied (R := reading S i) hmsg hkey hfires.2.2 hfires.1 (.inl hfires.2.1) rfl rfl rfl
      (.inl rfl) (fun m hm => hm.elim) (by simp)
  · exact h.silent

theorem does_echo : Does S i (some msg) s (echo S i s src msg) := by
  have hadd : Counts i s.vars ((s.vars.initState msg.msgId).addEcho msg.msgId src) :=
    .addEcho _ (.initState _ .refl) BrachaState.mem_initState
  have hkey : msg.msgId ∈ ((s.vars.initState msg.msgId).addEcho msg.msgId src).echos :=
    BrachaState.mem_initState_addEcho
  simp only [echo, registerMessage]
  split
  · refine Counted.vote (counted (.countOwnEcho hadd hkey)) ?_ ?_ ?_ ?_
    · simp [Action.message]
    · rfl
    · rintro m rfl
      exact mem_countOwnEcho hkey
    · simp
  · exact does_readyTrigger ⟨hadd, rfl⟩ rfl hkey

theorem does_deliverIfReady (h : (reading S i).Counted i s s') (hkey : msg.msgId ∈ s'.vars.echos) :
    Does S i msgs s { st := deliverIfReady S s' msg } := by
  unfold deliverIfReady
  split
  · next hdelivers =>
    rw [BrachaState.get_delivered hkey, BrachaState.get_readys hkey] at hdelivers
    refine h.delivered (R := reading S i) hkey hdelivers.1 hdelivers.2 (vars_checkCompletion _) ?_
    unfold checkCompletion
    split <;> rfl
  · exact h.silent

theorem does_readyAmplify (h : (reading S i).Counted i s s') (hmsg : msg ∈ msgs)
    (hkey : msg.msgId ∈ s'.vars.echos) {will : Bool}
    (hwill : will = true → (s'.vars.slot msg.msgId).sentReady = false ∧
      S.f + 1 ≤ (s'.vars.slot msg.msgId).readys.card ∧ Eligible S i msg.sender) :
    Does S i msgs s (readyAmplify S s' msg will) := by
  unfold readyAmplify
  split
  · next htrue =>
    obtain ⟨hnew, hcard, hmember⟩ := hwill htrue
    refine h.readied (R := reading S i) hmsg hkey hmember hnew (.inr hcard) rfl rfl rfl (.inr rfl)
      (fun m hm => ?_) ?_
    · exact Eq.symm hm
    · rintro _ ⟨⟩
      exact hmsg
  · exact does_deliverIfReady h hkey

theorem does_ready : Does S i (some msg) s (ready S i s src msg) := by
  let v := (s.vars.initState msg.msgId).addReady msg.msgId src
  have hadd : Counts i s.vars v := .addReady _ (.initState _ .refl) BrachaState.mem_initState
  have hkey : msg.msgId ∈ v.echos := BrachaState.mem_initState
  have hown : Counts i s.vars (countOwnEcho i v msg.msgId) := .countOwnEcho hadd hkey
  have hwill (h : willSendReadyNow S i v msg = true) : (v.slot msg.msgId).sentReady = false ∧
      S.f + 1 ≤ (v.slot msg.msgId).readys.card ∧ Eligible S i msg.sender := by
    have h := of_decide_eq_true h
    rwa [BrachaState.get_sentReady hkey, BrachaState.get_readys hkey] at h
  simp only [ready, registerMessage]
  split
  · split
    · refine Counted.vote (counted hown) ?_ ?_ ?_ ?_
      · simp [Action.message]
      · rfl
      · rintro m rfl
        exact mem_countOwnEcho hkey
      · simp
    · -- The own vote leaves the READYs as they are.
      refine does_readyAmplify (counted hown) rfl (mem_countOwnEcho hkey) fun h => ?_
      have hgrows := (Counts.countOwnEcho (i := i) .refl hkey).grows msg.msgId
      obtain ⟨hnew, hcard, hmember⟩ := hwill h
      exact ⟨hgrows.sentReady.trans hnew, hcard.trans (Finset.card_le_card hgrows.readys), hmember⟩
  · exact does_readyAmplify (counted hadd) rfl hkey hwill

theorem does_dolevDeliver : Does S i (some msg) s (dolevDeliver S i s src msg) := by
  unfold dolevDeliver
  split
  · exact does_send src
  split
  · exact does_echo
  split
  · exact does_ready
  · exact Counted.silent ⟨.refl, rfl⟩

theorem does_startMessage (h : (reading S i).Counted i s s') (k : Nat) :
    Does S i msgs s (startMessage S i s' k) := by
  have hinit : (reading S i).Counted i s
      (registerMessage { s' with vars := s'.vars.initState (S.uuid i k) } (S.uuid i k)) :=
    ⟨.initState _ h.vars, h.deliveries⟩
  simp only [startMessage]
  split
  · split
    · refine hinit.vote ?_ rfl ?_ ?_
      · simp
      · rintro m rfl
        exact BrachaState.mem_initState
      · simp
    · refine hinit.vote ?_ rfl ?_ ?_
      · simp [Action.message, initialSend]
      · rintro m rfl
        exact BrachaState.mem_initState
      · simp
  · exact h.silent

theorem does_afterSend (k : Nat) (hkey : S.uuid i k ∈ s.vars.echos) :
    Does S i msgs s (afterSend S i s k) := by
  have hsee : Counts i s.vars (s.vars.see (S.uuid i k)) := .see _ .refl
  simp only [afterSend]
  split
  · refine Counted.vote (counted (.countOwnEcho hsee hkey)) ?_ ?_ ?_ ?_
    · simp [Action.message]
    · rfl
    · exact fun m hm => hm.elim
    · simp
  · exact does_startMessage (counted hsee) (k + 1)

theorem does_onStart : Does S i msgs s (onStart S i s) := by
  unfold onStart
  split
  · exact does_startMessage ⟨.refl, rfl⟩ 0
  · exact Counted.silent ⟨.refl, rfl⟩

theorem does_singleHop (k : Nat) (hkey : S.uuid i k ∈ s.vars.echos) :
    ∀ ps, Does S i msgs s (singleHop S i s k ps)
  | [] => does_afterSend k hkey
  | p :: ps => by
    refine Counted.vote (R := reading S i) ⟨.refl, rfl⟩ ?_ rfl ?_ ?_
    · simp [Action.message, initialSend]
    · rintro m rfl
      exact hkey
    · simp

theorem does_resume (k : Cont) (hkeyed : ∀ m, k.About S i m → m ∈ s.vars.echos) :
    Does S i ((reading S i).message k) s (resume S i s k) := by
  have hsame : (reading S i).Counted i s s := ⟨.refl, rfl⟩
  cases k with
  | sleeping k => exact does_singleHop k (hkeyed _ rfl) _
  | singleHop k ps => exact does_singleHop k (hkeyed _ rfl) ps
  | sent k => exact does_afterSend k (hkeyed _ rfl)
  | echoed k => exact does_startMessage hsame (k + 1)
  | handled => exact hsame.silent
  | echoAmplified msg => exact does_readyTrigger hsame rfl (hkeyed _ rfl)
  | echoGenerated msg => exact does_deliverIfReady hsame (hkeyed _ rfl)
  | readyDone msg => exact does_deliverIfReady hsame (hkeyed _ rfl)

theorem guarded : (reading S i).Guarded (handlers S i) (S.N i) S.f i (Eligible S i) := by
  intro s c _ hkeyed
  cases c with
  | start => exact does_onStart
  | wake k => exact does_resume k (hkeyed k rfl)
  | call h src msg =>
    cases h with
    | dolevDeliver => exact does_dolevDeliver
    | send => exact does_send src
    | echo => exact does_echo
    | ready => exact does_ready

end Optimized

/-! ## bracha.py -/

namespace Plain

variable (S : System) (i : PeerId)

/-- Node `i`, with the handlers that peers may call themselves. -/
def handlers : Handlers NodeState Cont where
  onStart := onStart S i
  call h s src msg :=
    match h with
    | .dolevDeliver => dolevDeliver S i s src msg
    | .send => send i s src msg
    | .echo => echo S i s src msg
    | .ready => ready S s src msg
  resume := resume S i

abbrev reading : Reading NodeState Cont where
  vars := NodeState.vars
  deliveries := NodeState.deliveries
  inReady
    | .readyDone _ => true
    | _ => false
  Indexes k m :=
    match k with
    | .sendDone msg | .readyDone msg => msg.msgId = m
    | .echoDone | .handled => False
  message
    | .readyDone msg => some msg
    | _ => none

variable {S i} {s s' : NodeState} {src : PeerId} {msg : BrachaMessage}
  {msgs : Option BrachaMessage} {v : BrachaState} {senders : Finset PeerId}

/-- A segment of node `i` that started in `s`. Every node broadcasts READYs. -/
abbrev Does (S : System) (i : PeerId) (msgs : Option BrachaMessage) (s : NodeState)
    (t : Turn NodeState Cont) : Prop :=
  reading.Does (S.N i) S.f i (fun _ => True) msgs s t

theorem counted (h : Counts i s.vars v) :
    reading.Counted i s { s with vars := v, expectedSenders := senders } :=
  ⟨h, rfl⟩

theorem does_onStart : Does S i msgs s (onStart S i s) := by
  unfold onStart
  split
  · refine Counted.vote (counted (.initState _ .refl)) ?_ ?_ ?_ ?_
    · simp [Action.message, initialSend]
    · rfl
    · rintro m rfl
      exact BrachaState.mem_initState
    · simp
  · exact Counted.silent ⟨.refl, rfl⟩

theorem does_send (src : PeerId) :
    Does S i (some msg) s (send i { s with expectedSenders := senders } src msg) := by
  simp only [send]
  split
  · refine Counted.vote
      (counted (.countOwnEcho (.see _ (.initState _ .refl)) BrachaState.mem_initState)) ?_ ?_ ?_ ?_
    · simp [Action.message]
    · rfl
    · exact fun m hm => hm.elim
    · simp
  · exact Counted.silent (counted (.initState _ .refl))

theorem does_echo : Does S i (some msg) s (echo S i s src msg) := by
  have hkey : msg.msgId ∈ ((s.vars.initState msg.msgId).addEcho msg.msgId src).echos :=
    BrachaState.mem_initState_addEcho
  have hadd : reading.Counted i s
      { s with vars := (s.vars.initState msg.msgId).addEcho msg.msgId src } :=
    counted (.addEcho _ (.initState _ .refl) BrachaState.mem_initState)
  simp only [echo]
  split
  · next hfires =>
    rw [BrachaState.get_sentReady hkey, BrachaState.get_echos hkey] at hfires
    exact hadd.readied rfl hkey trivial hfires.1 (.inl hfires.2) rfl rfl rfl (.inl rfl)
      (fun m hm => hm.elim) (by simp)
  · exact hadd.silent

theorem does_deliverIfReady (h : reading.Counted i s s') (hkey : msg.msgId ∈ s'.vars.echos) :
    Does S i msgs s { st := deliverIfReady S s' msg } := by
  unfold deliverIfReady
  split
  · next hdelivers =>
    rw [BrachaState.get_delivered hkey, BrachaState.get_readys hkey] at hdelivers
    refine h.delivered hkey hdelivers.1 hdelivers.2 (vars_checkCompletion _) ?_
    unfold checkCompletion
    split <;> rfl
  · exact h.silent

theorem does_ready : Does S i (some msg) s (ready S s src msg) := by
  have hkey : msg.msgId ∈ ((s.vars.initState msg.msgId).addReady msg.msgId src).echos :=
    BrachaState.mem_initState_addReady
  have hadd : reading.Counted i s
      { s with vars := (s.vars.initState msg.msgId).addReady msg.msgId src } :=
    counted (.addReady _ (.initState _ .refl) BrachaState.mem_initState)
  simp only [ready]
  split
  · next hfires =>
    rw [BrachaState.get_sentReady hkey, BrachaState.get_readys hkey] at hfires
    refine hadd.readied rfl hkey trivial hfires.1 (.inr hfires.2) rfl rfl rfl (.inr rfl) ?_ ?_
    · exact fun m hm => Eq.symm hm
    · rintro _ ⟨⟩
      rfl
  · exact does_deliverIfReady hadd hkey

theorem does_dolevDeliver : Does S i (some msg) s (dolevDeliver S i s src msg) := by
  unfold dolevDeliver
  split
  · exact does_send src
  split
  · exact does_echo
  split
  · exact does_ready
  · exact Counted.silent ⟨.refl, rfl⟩

theorem does_resume (k : Cont) (hkeyed : ∀ m, reading.Indexes k m → m ∈ s.vars.echos) :
    Does S i (reading.message k) s (resume S i s k) := by
  have hsame : reading.Counted i s s := ⟨.refl, rfl⟩
  cases k with
  | sendDone msg =>
    refine Counted.vote (counted (.countOwnEcho (.see _ .refl) (hkeyed _ rfl))) ?_ ?_ ?_ ?_
    · simp [Action.message]
    · rfl
    · exact fun m hm => hm.elim
    · simp
  | echoDone => exact Counted.silent ⟨.refl, rfl⟩
  | handled => exact hsame.silent
  | readyDone msg => exact does_deliverIfReady hsame (hkeyed _ rfl)

theorem guarded : reading.Guarded (handlers S i) (S.N i) S.f i fun _ => True := by
  intro s c _ hkeyed
  cases c with
  | start => exact does_onStart
  | wake k => exact does_resume k (hkeyed k rfl)
  | call h src msg =>
    cases h with
    | dolevDeliver => exact does_dolevDeliver
    | send => exact does_send src
    | echo => exact does_echo
    | ready => exact does_ready

end Plain

/-! ## Runs -/

/-- **One READY and one delivery per message**, for a node of either algorithm that is called
in any way, and consistent dictionaries in the optimised one. -/
theorem consistent_atMostOnce {S : Optimized.System} {P : Plain.System} {i : PeerId}
    {calls : List (Call Optimized.Cont)} {plainCalls : List (Call Plain.Cont)}
    {x : Local Optimized.NodeState Optimized.Cont} {y : Local Plain.NodeState Plain.Cont}
    (hx : exec (Optimized.handlers S i).step ⟨{}, []⟩ calls = some x)
    (hy : exec (Plain.handlers P i).step ⟨{}, []⟩ plainCalls = some y) :
    x.st.vars.SameKeys ∧
    (∀ m,
      (x.st.vars.sentEcho.get m false = true → i ∈ x.st.vars.echos.get m ∅) ∧
      (x.st.vars.sentReady.get m false = true →
        (∃ msg, Received calls msg ∧ msg.msgId = m ∧
          Optimized.shouldGenerateReady S i msg.sender = true) ∧
        (readyThreshold (S.N i) S.f ≤ (x.st.vars.echos.get m ∅).card ∨
          S.f + 1 ≤ (x.st.vars.readys.get m ∅).card)) ∧
      (x.st.vars.delivered.get m false = true →
        2 * S.f + 1 ≤ (x.st.vars.readys.get m ∅).card) ∧
      (Optimized.handlers S i).readies (Optimized.reading S i).inReady {} calls m ≤ 1 ∧
      (x.st.deliveries.map Prod.fst).count m ≤ 1) ∧
    ∀ m, (Plain.handlers P i).readies Plain.reading.inReady {} plainCalls m ≤ 1 ∧
      (y.st.deliveries.map Prod.fst).count m ≤ 1 := by
  have hinv := Optimized.guarded.inv_of_run rfl rfl calls x hx
  have hplain := Plain.guarded.inv_of_run rfl rfl plainCalls y hy
  obtain ⟨hkeys, hentries, -, hnodup⟩ := hinv.consistent
  refine ⟨hkeys, fun m => ⟨fun h => ?_, fun h => ?_, fun h => ?_, ?_, ?_⟩, fun m => ⟨?_, ?_⟩⟩
  · rw [hkeys.get_sentEcho] at h
    rw [BrachaState.get_echos_eq]
    exact (hentries m).own h
  · rw [hkeys.get_sentReady] at h
    rw [BrachaState.get_echos_eq, hkeys.get_readys]
    exact (hentries m).ready h
  · rw [hkeys.get_delivered] at h
    rw [hkeys.get_readys]
    exact (hentries m).delivered h
  · exact Optimized.guarded.readies_le rfl rfl hx m
  · exact List.nodup_iff_count_le_one.mp hnodup m
  · exact Plain.guarded.readies_le rfl rfl hy m
  · exact List.nodup_iff_count_le_one.mp hplain.consistent.nodup m

/-- Calls that make `b` ready and, before its READY is out, let it deliver. -/
def overlappingCalls {K : Type} (msg : BrachaMessage) (suspended : List K) : List (Call K) :=
  [.call .echo "c" msg, .call .dolevDeliver "a" { msg with phase := "echo" },
    .call .dolevDeliver "d" { msg with phase := "echo" }] ++
  ["a", "c", "d"].map (fun src => .call .ready src { msg with phase := "ready" }) ++
  suspended.map .wake

theorem consistent_atMostOnce_fourNodes :
    let S := Optimized.fourPlainNodes
    let msg := Optimized.initialSend S "a" 0
    let calls := overlappingCalls msg [Optimized.Cont.handled]
    let plainCalls := overlappingCalls msg [Plain.Cont.handled]
    ∃ x y, exec (Optimized.handlers S "b").step ⟨{}, []⟩ calls = some x ∧
      exec (Plain.handlers S.plain "b").step ⟨{}, []⟩ plainCalls = some y ∧
      x.st.deliveries = [(msg.msgId, msg.payload)] ∧
      (x.st.deliveries.map Prod.fst).count msg.msgId ≤ 1 := by
  intro S msg calls plainCalls
  obtain ⟨x, hx, hdel⟩ := exists_exec_of_any (Optimized.handlers S "b").step ⟨{}, []⟩ calls
    (fun x => x.st.deliveries = [(msg.msgId, msg.payload)]) (by decide)
  obtain ⟨y, hy, -⟩ := exists_exec_of_any (Plain.handlers S.plain "b").step ⟨{}, []⟩ plainCalls
    (fun y => y.st.deliveries = [(msg.msgId, msg.payload)]) (by decide)
  exact ⟨x, y, hx, hy, of_decide_eq_true hdel,
    ((consistent_atMostOnce hx hy).2.1 msg.msgId).2.2.2.2⟩

end DistBench.Bracha
