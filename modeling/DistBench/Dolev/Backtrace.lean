import DistBench.Dolev.Flooding
import DistBench.Lib.Relaying

/-!
# Recorded paths can be followed back to the last Byzantine node

A Byzantine node may write any names on the path of a message, those of correct nodes
and of the receiver among them. From the last Byzantine node on, a path that a correct
node has recorded is authentic: each of the nodes has sent the message to the next one,
with the path before it (`Authentic`).

Both programs are `Faithful`. The handlers of dolev_naive.py and of dolev.py append the
sender to the path of the message, record this path, and send it on; whatever else they
send has an empty path, the broadcasts and the announcements of MD2.
-/

namespace DistBench

open DistBench.Async

namespace Dolev

/-- A correct node on the path with only correct nodes after it has sent a message with
the id and the path before it, to the next node on the path or, from its end, to `t`. -/
def Authentic {V S T : Type} [DecidableEq V] [DecidableEq T] (P : Protocol PeerId (DMsg V) S T)
    (G : Parties PeerId) (c₀ : Config PeerId (DMsg V) S T) (ls : Trace PeerId (DMsg V) T)
    (t : PeerId) (m : String) (path : List PeerId) : Prop :=
  ∀ (k : Nat) (hk : k < path.length), (∀ x ∈ path.drop k, x ∈ G.correct) →
    ∃ msg, msg.msgId = m ∧ msg.path = path.take k ∧
      Occurs (step P G) c₀ ls (Sends P G path[k] (path[k + 1]?.getD t) msg)

/-- The recorded paths of a protocol that keeps the paths of `DMsg`s are authentic. -/
theorem authentic_of_faithful {V S T : Type} [DecidableEq V] [DecidableEq T]
    {R : Relaying PeerId (DMsg V) S T String} (hid : R.key = DMsg.msgId)
    (hpath : R.path = DMsg.path) {P : Protocol PeerId (DMsg V) S T} {G : Parties PeerId}
    {c₀ c : Config PeerId (DMsg V) S T}
    (hP : R.Faithful P) (h₀ : R.Fresh c₀) {ls : Trace PeerId (DMsg V) T}
    (hc : exec (step P G) c₀ ls = some c) {t : PeerId} (ht : t ∈ G.correct) {m : String}
    {path : List PeerId} (hrec : path ∈ R.recorded (c.st t) m) : Authentic P G c₀ ls t m path := by
  intro k hk hcorrect
  have hsplit : path.take k ++ path[k] :: path.drop (k + 1) = path := by
    rw [← List.drop_eq_getElem_cons hk, List.take_append_drop]
  rw [List.drop_eq_getElem_cons hk] at hcorrect
  rw [← hsplit] at hrec
  obtain ⟨msg, hkey, hprefix, hsent⟩ := Relaying.sent_of_recorded hP h₀ hc ht hrec hcorrect
  rw [List.head?_drop] at hsent
  exact ⟨msg, hid ▸ hkey, hpath ▸ hprefix, hsent⟩

end Dolev

/-! ## dolev_naive.py -/

namespace DolevNaive

/-- The paths of dolev_naive.py. -/
def relaying : Relaying PeerId DMsg NaiveState Cont String where
  key msg := msg.msgId
  path msg := msg.path
  recorded s m := s.paths.get m []
  carries
    | .broadcast _ _, _, _ => False
    | .broadcasting _ msg, m, p => p ≠ [] ∧ msg.msgId = m ∧ msg.path = p
    | .forwardTo _ _ msg newPath, m, p | .forward _ msg newPath, m, p =>
      msg.msgId = m ∧ newPath = p

namespace Network

variable {N : Network} {i src : PeerId} {s s' : NaiveState} {rest : List PeerId} {msg : DMsg}
  {newPath : List PeerId} {new : String → List PeerId → Prop}

theorem adds_forwardLoop (hs : relaying.Grows new s s') (hnew : new msg.msgId newPath) :
    relaying.Adds new s (N.forwardLoop i s' rest msg newPath) := by
  obtain ⟨hpaths, hout, hrest, -⟩ := forwardLoop_spec (N := N) i s' rest msg newPath ""
  refine ⟨hs.trans (.of_eq fun m => ?_), fun t ht m p hp => ?_, fun dm hdm => ?_⟩
  · simp only [relaying, hpaths]
  · obtain ⟨peer, rest', rfl⟩ := hrest t ht
    obtain ⟨rfl, rfl⟩ := hp
    exact hnew
  · rw [hout] at hdm
    cases hdm

theorem adds_dolev : relaying.Adds (relaying.Extends src msg) s (N.dolev i s src msg) := by
  unfold dolev
  split
  · exact .quiet (.of_eq fun _ => rfl) nofun
  · refine adds_forwardLoop (fun m p hp => ?_) ⟨rfl, rfl⟩
    exact (mem_paths_addPath hp).imp_right fun h => ⟨h.1, h.2.symm⟩

/-- A broadcast carries no more than its own message. -/
theorem adds_broadcastLoop (hnew : msg.path ≠ [] → new msg.msgId msg.path) :
    relaying.Adds new s (N.broadcastLoop i s rest msg) := by
  obtain ⟨hst, hout, hrest⟩ := broadcastLoop_spec (N := N) i s rest msg
  refine ⟨.of_eq fun m => by rw [hst], fun t ht m p hp => ?_, fun dm hdm hp => ?_⟩
  · obtain ⟨rest', rfl⟩ := hrest t ht
    obtain ⟨hne, rfl, rfl⟩ := hp
    exact hnew hne
  · rw [hout dm hdm] at hp ⊢
    exact hnew hp

theorem relaying_faithful : relaying.Faithful N.protocol where
  handle _ _ _ _ := adds_dolev
  resume i s t o ho := by
    obtain rfl := Option.some.inj ho
    cases t with
    | broadcast msgId payload => exact adds_broadcastLoop fun h => absurd rfl h
    | broadcasting rest msg => exact adds_broadcastLoop fun h => ⟨h, rfl, rfl⟩
    | forwardTo peer rest msg newPath =>
      refine ⟨.of_eq fun _ => rfl, fun t ht m p hp => ?_, fun dm hdm _ => ?_⟩
      · obtain rfl := Option.some.inj ht
        exact hp
      · obtain rfl := List.mem_singleton.mp hdm
        exact ⟨rfl, rfl⟩
    | forward rest msg newPath => exact adds_forwardLoop (.of_eq fun _ => rfl) ⟨rfl, rfl⟩

theorem relaying_fresh : relaying.Fresh N.initial where
  recorded _ _ := rfl
  tasks i t ht m p hp := by
    obtain ⟨b, -, rfl⟩ := List.mem_map.mp ht
    exact hp
  net := rfl

end Network

end DolevNaive

/-! ## dolev.py -/

namespace Dolev

variable {V : Type}

/-- The paths of dolev.py. After MD1 the handler goes on to record the path of its
message, whose sender is its source. -/
def relaying : Relaying PeerId (DMsg V) DolevState (Cont V) String where
  key msg := msg.msgId
  path msg := msg.path
  recorded s m := s.paths.get m []
  carries
    | .broadcast _, _, _ | .sendTo _ _ _, _, _ | .broadcasting _ _, _, _
    | .delivered _, _, _ => False
    | .directDelivered msg, m, p => msg.msgId = m ∧ msg.path ++ [msg.source] = p
    | .emptyTo _ _ direct msg, m, p | .empties _ direct msg, m, p =>
      direct = true ∧ msg.msgId = m ∧ msg.path ++ [msg.source] = p
    | .forwardTo _ _ msg newPath _, m, p | .forward _ msg newPath _, m, p =>
      msg.msgId = m ∧ newPath = p

/-- A flow that started in `s` adds no path but those in `new`. -/
def Flow.AddsPaths (new : String → List PeerId → Prop) (s : DolevState) : Flow V → Prop
  | .stop o => relaying.Adds new s o
  | .deliver s' _ => (relaying (V := V)).Grows new s s'

namespace Network

variable {N : Network V} {i src : PeerId} {s s' : DolevState} {rest : List PeerId}
  {msg : DMsg V} {newPath : List PeerId} {k : Nat} {direct live : Bool}
  {x : Seg V ⊕ DolevState} {flow : Flow V} {new : String → List PeerId → Prop} {t : Cont V}

/-- What is recorded on paths does not depend on the rest of the state. -/
theorem grows_of_paths (h : s'.paths = s.paths) : (relaying (V := V)).Grows new s s' :=
  .of_eq fun m => by simp only [relaying, h]

/-- The announcement at the end of a handler adds nothing. -/
theorem adds_finish (hs : (relaying (V := V)).Grows new s s') (h : Announced s' k false msg x) :
    relaying.Adds new s (finish x) := by
  cases h with
  | wait hpaths _ =>
    refine .quiet (hs.trans (grows_of_paths hpaths)) fun t ht m p hp => ?_
    obtain rfl := Option.some.inj ht
    cases hp.1
  | done hpaths => exact .quiet (hs.trans (grows_of_paths hpaths)) nofun

theorem adds_myDeliver (hs : (relaying (V := V)).Grows new s s') :
    relaying.Adds new s (N.myDeliver i s' msg) := by
  have hfinish {s'' : DolevState} (hpaths : s''.paths = s'.paths) :
      relaying.Adds new s (finish (N.announce i s'' false msg)) :=
    adds_finish (hs.trans (grows_of_paths hpaths)) announced_announce
  unfold myDeliver
  split
  · exact .quiet hs nofun
  split
  · split
    · dsimp only
      split
      · refine .quiet (hs.trans (grows_of_paths rfl)) fun t ht m p hp => ?_
        obtain rfl := Option.some.inj ht
        exact hp.elim
      · exact hfinish rfl
    · exact hfinish rfl
  · exact .quiet hs nofun

theorem adds_settle (h : flow.AddsPaths new s) : relaying.Adds new s (N.settle i flow) := by
  cases flow with
  | stop o => exact h
  | deliver s' msg => exact adds_myDeliver h

theorem addsPaths_forwards (hs : (relaying (V := V)).Grows new s s')
    (hnew : new msg.msgId newPath) (h : Forwards N i s' rest msg newPath flow) :
    flow.AddsPaths new s := by
  cases h with
  | wait _ _ _ =>
    refine Relaying.Adds.quiet hs fun t ht m p hp => ?_
    obtain rfl := Option.some.inj ht
    obtain ⟨rfl, rfl⟩ := hp
    exact hnew
  | through _ => exact hs

theorem addsPaths_relay (hs : (relaying (V := V)).Grows new s s')
    (hnew : new msg.msgId (msg.path ++ [src])) : (N.relay i s' src msg).AddsPaths new s := by
  unfold relay
  split
  · exact Relaying.Adds.quiet (hs.trans (grows_of_paths rfl)) nofun
  split
  · exact Relaying.Adds.quiet hs nofun
  · refine addsPaths_forwards (hs.trans fun m p hp => ?_) hnew forwards_forwardLoop
    rcases Dict.mem_get_insert_append hp with hold | ⟨rfl, rfl⟩
    · exact .inl hold
    · exact .inr hnew

theorem addsPaths_afterDirect (hs : (relaying (V := V)).Grows new s s')
    (hnew : new msg.msgId (msg.path ++ [msg.source])) (h : Announced s' k true msg x) :
    (N.afterDirect i msg x).AddsPaths new s := by
  cases h with
  | wait hpaths _ =>
    refine Relaying.Adds.quiet (hs.trans (grows_of_paths hpaths)) fun t ht m p hp => ?_
    obtain rfl := Option.some.inj ht
    obtain ⟨-, rfl, rfl⟩ := hp
    exact hnew
  | done hpaths => exact addsPaths_relay (hs.trans (grows_of_paths hpaths)) hnew

theorem addsPaths_dolev :
    (N.dolev i s src msg).AddsPaths (relaying.Extends src msg) s := by
  have hrefl : (relaying (V := V)).Grows (relaying.Extends src msg) s s := grows_of_paths rfl
  unfold dolev
  split
  · exact Relaying.Adds.quiet hrefl nofun
  split
  · exact Relaying.Adds.quiet hrefl nofun
  split
  · next h =>
    obtain ⟨rfl, -⟩ := h
    have hdeliver : (relaying (V := V)).Grows (relaying.Extends msg.source msg) s
        (s.deliver msg.msgId) := grows_of_paths rfl
    dsimp only
    split
    · refine Relaying.Adds.quiet hdeliver fun t ht m p hp => ?_
      obtain rfl := Option.some.inj ht
      exact hp
    · exact addsPaths_afterDirect hdeliver ⟨rfl, rfl⟩ announced_announce
  · exact addsPaths_relay hrefl ⟨rfl, rfl⟩

theorem adds_broadcastLoop {b : Broadcast V} (hs : (relaying (V := V)).Grows new s s') :
    relaying.Adds new s (N.broadcastLoop i s' rest b) := by
  obtain ⟨out, rest', hout, hrest, heq⟩ := broadcastLoop_eq N i s' rest b
  rw [heq]
  refine ⟨hs, fun t ht m p hp => ?_, fun dm hdm hp => ?_⟩
  · cases hrest t ht <;> exact hp.elim
  · rw [(hout dm hdm).2] at hp
    exact absurd rfl hp

/-- A suspended coroutine adds no path but the one it carries. -/
theorem addsPaths_resume : (N.resume i s t).AddsPaths (relaying.carries t) s := by
  have hrefl : (relaying (V := V)).Grows (relaying.carries t) s s := grows_of_paths rfl
  cases t with
  | broadcast b =>
    refine adds_broadcastLoop (grows_of_paths ?_)
    split <;> rfl
  | broadcasting rest b => exact adds_broadcastLoop hrefl
  | directDelivered msg => exact addsPaths_afterDirect hrefl ⟨rfl, rfl⟩ announced_announce
  | delivered msg => exact adds_finish hrefl announced_announce
  | empties rest direct msg =>
    cases direct with
    | true =>
      exact addsPaths_afterDirect hrefl ⟨rfl, rfl, rfl⟩ (announced_emptiesLoop rfl)
    | false => exact adds_finish hrefl (announced_emptiesLoop rfl)
  | forward rest msg newPath live =>
    exact addsPaths_forwards hrefl ⟨rfl, rfl⟩ forwards_forwardLoop
  | sendTo peer rest b | emptyTo peer rest direct msg =>
    refine ⟨hrefl, fun t ht m p hp => ?_, fun dm hdm hp => ?_⟩
    · obtain rfl := Option.some.inj ht
      exact hp
    · obtain rfl := List.mem_singleton.mp hdm
      exact absurd rfl hp
  | forwardTo peer rest msg newPath live =>
    refine ⟨hrefl, fun t ht m p hp => ?_, fun dm hdm _ => ?_⟩
    · obtain rfl := Option.some.inj ht
      exact hp
    · obtain rfl := List.mem_singleton.mp hdm
      exact ⟨rfl, rfl⟩

theorem relaying_faithful : relaying.Faithful N.protocol where
  handle _ _ _ _ := adds_settle addsPaths_dolev
  resume i s t o ho := by
    obtain rfl := Option.some.inj ho
    exact adds_settle addsPaths_resume

theorem relaying_fresh : relaying.Fresh N.initial where
  recorded _ _ := rfl
  tasks i t ht m p hp := by
    obtain ⟨b, -, rfl⟩ := List.mem_map.mp ht
    exact hp
  net := rfl

end Network

/-- **Authentic paths.** In every run of dolev_naive.py and of dolev.py, whatever the
Byzantine nodes send, the paths a correct node has recorded are authentic from the last
Byzantine node on. -/
theorem recorded_authentic [DecidableEq V] (N : DolevNaive.Network) (M : Network V) :
    (∀ ls c, exec N.next N.initial ls = some c → ∀ t ∈ N.parties.correct, ∀ m,
      ∀ path ∈ (c.st t).paths.get m [],
        Authentic N.protocol N.parties N.initial ls t m path) ∧
    ∀ ls c, exec M.next M.initial ls = some c → ∀ t ∈ M.parties.correct, ∀ m,
      ∀ path ∈ (c.st t).paths.get m [],
        Authentic M.protocol M.parties M.initial ls t m path := by
  refine ⟨fun ls c hc t ht m path hpath => ?_, fun ls c hc t ht m path hpath => ?_⟩
  · exact authentic_of_faithful (R := DolevNaive.relaying) rfl rfl
      DolevNaive.Network.relaying_faithful DolevNaive.Network.relaying_fresh hc ht hpath
  · exact authentic_of_faithful (R := relaying) rfl rfl
      Network.relaying_faithful Network.relaying_fresh hc ht hpath

/-- Correct nodes a, c and t in a row, the Byzantine node b next to a, and s, which has no
neighbours. -/
def behindB : Network String where
  toDeployment := Deployment.ofLists ["s", "a", "c", "t"] ["b"] (by decide)
  f := 1
  neighbours i :=
    if i = "a" then {"b", "c"} else if i = "c" then {"a", "t"} else if i = "t" then {"c"} else ∅
  hasParent := false
  nx := .allPaths
  broadcasts _ := []

/-- The same with dolev_naive.py. -/
def naiveBehindB : DolevNaive.Network where
  toDeployment := behindB.toDeployment
  f := 1
  neighbours := behindB.neighbours
  broadcasts _ := []

/-- b makes up a message and a path from s … -/
def madeUp (path : List PeerId) : DMsg String := ⟨"m", "s", "evil", "s" :: path⟩

/-- … which a and c hand on to t. -/
def naiveBehindBRun : DolevNaive.History :=
  [.forge ⟨"b", "a", madeUp []⟩, .wake "a" (.forwardTo "c" ["t", "b"] (madeUp []) ["s", "b"]),
    .recv ⟨"a", "c", madeUp ["b"]⟩,
    .wake "c" (.forwardTo "t" ["b"] (madeUp ["b"]) ["s", "b", "a"]),
    .recv ⟨"c", "t", madeUp ["b", "a"]⟩]

def behindBRun : History String :=
  [.forge ⟨"b", "a", madeUp []⟩,
    .wake "a" (.forwardTo "c" ["t", "b"] (madeUp []) ["s", "b"] false),
    .recv ⟨"a", "c", madeUp ["b"]⟩,
    .wake "c" (.forwardTo "t" ["b"] (madeUp ["b"]) ["s", "b", "a"] false),
    .recv ⟨"c", "t", madeUp ["b", "a"]⟩]

/-- The path t records begins with a name b has written, and a has sent what it says. -/
theorem recorded_authentic_behindB :
    (∃ c, exec naiveBehindB.next naiveBehindB.initial naiveBehindBRun = some c ∧
      ["s", "b", "a", "c"] ∈ (c.st "t").paths.get "m" [] ∧
      ∃ msg : DMsg String, msg.msgId = "m" ∧ msg.path = ["s", "b"] ∧
        Occurs naiveBehindB.next naiveBehindB.initial naiveBehindBRun
          (Sends naiveBehindB.protocol naiveBehindB.parties "a" "c" msg)) ∧
    ∃ c, exec behindB.next behindB.initial behindBRun = some c ∧
      ["s", "b", "a", "c"] ∈ (c.st "t").paths.get "m" [] ∧
      ∃ msg : DMsg String, msg.msgId = "m" ∧ msg.path = ["s", "b"] ∧
        Occurs behindB.next behindB.initial behindBRun
          (Sends behindB.protocol behindB.parties "a" "c" msg) := by
  obtain ⟨hnaive, hdolev⟩ := recorded_authentic naiveBehindB behindB
  obtain ⟨c, hc, hrec⟩ := exists_exec_of_any naiveBehindB.next naiveBehindB.initial
    naiveBehindBRun (fun c => decide (["s", "b", "a", "c"] ∈ (c.st "t").paths.get "m" []))
    (by decide)
  obtain ⟨c', hc', hrec'⟩ := exists_exec_of_any behindB.next behindB.initial behindBRun
    (fun c => decide (["s", "b", "a", "c"] ∈ (c.st "t").paths.get "m" [])) (by decide)
  rw [decide_eq_true_eq] at hrec hrec'
  exact ⟨⟨c, hc, hrec, hnaive _ c hc "t" (by decide) "m" _ hrec 2 (by decide) (by decide)⟩,
    ⟨c', hc', hrec', hdolev _ c' hc' "t" (by decide) "m" _ hrec' 2 (by decide) (by decide)⟩⟩

end Dolev

end DistBench
