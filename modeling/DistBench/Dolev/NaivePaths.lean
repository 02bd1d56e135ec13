import DistBench.Dolev.Flooding
import DistBench.Lib.Obligations

/-!
# What the unoptimized algorithm records

Nothing is left out here of what a node hands on, so in a network at rest a message has
gone by every simple path of correct nodes, whatever the Byzantine nodes did
(`recorded_of_quiescent`).

- `Onward`, `duties`: whom a handler owes its message.
- `paths_dolev`, `paths_resume`: what a segment does to the recorded paths.
- `handled_of_route`: the message has come by the path, by induction on its length.
- `diamond`: a network with two paths between two nodes.
-/

namespace DistBench.DolevNaive

open DistBench.Async DistBench.Flooding
open DistBench.Dolev (nextPeer nextPeer_some nextPeer_none)

namespace Network

variable (N : Network)

/-! ## What is owed -/

/-- Node `i` sends what it hands on by `newPath` to `d`. -/
structure Onward (i d : PeerId) (newPath : List PeerId) : Prop where
  peer : d ∈ N.peers i
  near : d ∈ N.neighbours i
  fresh : d ∉ newPath

/-- A handler owes its message to all neighbours that are not on the path, a broadcast to
all neighbours. -/
def duties : Duties PeerId DMsg Cont where
  handling i src msg d m :=
    src ∈ N.neighbours i ∧ N.Onward i d (msg.path ++ [src]) ∧
      m = { msg with path := msg.path ++ [src] }
  resting i t d m :=
    match t with
    | .broadcast msgId payload =>
      d ∈ N.peers i ∧ d ∈ N.neighbours i ∧ m = ⟨msgId, i, payload, []⟩
    | .broadcasting rest msg => d ∈ rest ∧ d ∈ N.neighbours i ∧ m = msg
    | .forwardTo peer rest msg newPath =>
      (d = peer ∨ d ∈ rest ∧ d ∈ N.neighbours i ∧ d ∉ newPath) ∧ m = { msg with path := newPath }
    | .forward rest msg newPath =>
      (d ∈ rest ∧ d ∈ N.neighbours i ∧ d ∉ newPath) ∧ m = { msg with path := newPath }

variable {N} {i d src : PeerId} {s : NaiveState} {rest newPath path : List PeerId} {msg : DMsg}
  {m : String}

theorem settles_forwardLoop (hd : d ∈ rest) (hnear : d ∈ N.neighbours i) (hfresh : d ∉ newPath) :
    N.duties.Settles i (N.forwardLoop i s rest msg newPath) d { msg with path := newPath } := by
  unfold forwardLoop
  split
  · next peer rest' h =>
    refine .inr ⟨_, rfl, ?_, rfl⟩
    rcases (nextPeer_some h).2 d hd with hmem | hnot
    · rcases List.mem_cons.mp hmem with rfl | hmem
      · exact .inl rfl
      · exact .inr ⟨hmem, hnear, hfresh⟩
    · exact absurd ⟨hnear, hfresh⟩ (of_decide_eq_false hnot)
  · next h => exact absurd ⟨hnear, hfresh⟩ (of_decide_eq_false (nextPeer_none h d hd))

theorem settles_broadcastLoop (hd : d ∈ rest) (hnear : d ∈ N.neighbours i) :
    N.duties.Settles i (N.broadcastLoop i s rest msg) d msg := by
  unfold broadcastLoop
  split
  · next peer rest' h =>
    rcases (nextPeer_some h).2 d hd with hmem | hnot
    · rcases List.mem_cons.mp hmem with rfl | hmem
      · exact .inl List.mem_cons_self
      · exact .inr ⟨_, rfl, hmem, hnear, rfl⟩
    · exact absurd hnear (of_decide_eq_false hnot)
  · next h => exact absurd hnear (of_decide_eq_false (nextPeer_none h d hd))

theorem duties_honoured : N.duties.Honoured N.protocol where
  handle := by
    rintro i s src msg d _ ⟨hsrc, hon, rfl⟩
    show N.duties.Settles i (N.dolev i s src msg) d _
    unfold dolev
    rw [if_neg (not_not.mpr hsrc)]
    exact settles_forwardLoop hon.peer hon.near hon.fresh
  resume := by
    intro i s t o d m ho hduty
    obtain rfl := Option.some.inj ho
    cases t with
    | broadcast msgId payload =>
      obtain ⟨hpeer, hnear, rfl⟩ := hduty
      exact settles_broadcastLoop hpeer hnear
    | broadcasting rest msg =>
      obtain ⟨hmem, hnear, rfl⟩ := hduty
      exact settles_broadcastLoop hmem hnear
    | forwardTo peer rest msg newPath =>
      obtain ⟨hwhom, rfl⟩ := hduty
      rcases hwhom with rfl | hwhom
      · exact .inl List.mem_cons_self
      · exact .inr ⟨_, rfl, hwhom, rfl⟩
    | forward rest msg newPath =>
      obtain ⟨⟨hmem, hnear, hfresh⟩, rfl⟩ := hduty
      exact settles_forwardLoop hmem hnear hfresh

/-! ## What is recorded -/

theorem mem_addPath : path ∈ (s.addPath m path).paths.get m [] := by
  rw [NaiveState.addPath, Dict.get_insert_self]
  split
  · assumption
  · simp

theorem prefix_addPath {k : String} : s.paths.get k [] <+: (s.addPath m path).paths.get k [] := by
  by_cases hk : k = m
  · subst hk
    rw [NaiveState.addPath, Dict.get_insert_self]
    split
    · exact List.prefix_rfl
    · exact List.prefix_append _ _
  · rw [NaiveState.addPath, Dict.get_insert_of_ne hk]

/-- What a handler does to the recorded paths. -/
theorem paths_dolev : (N.dolev i s src msg).st.paths =
    if src ∈ N.neighbours i then (s.addPath msg.msgId (msg.path ++ [src])).paths else s.paths := by
  unfold dolev
  split
  · rfl
  · next h =>
    rw [if_pos (not_not.mp h)]
    exact (forwardLoop_spec _ _ _ _ _ "").1

/-- A resumed coroutine records nothing. -/
theorem paths_resume {t : Cont} : (N.resume i s t).st.paths = s.paths := by
  cases t with
  | broadcast | broadcasting => rw [resume, (broadcastLoop_spec _ _ _ _).1]
  | forwardTo => rfl
  | forward => exact (forwardLoop_spec _ _ _ _ _ "").1

/-- The list of the paths of an id only grows at its end. -/
theorem prefix_paths_dolev (k : String) :
    s.paths.get k [] <+: (N.dolev i s src msg).st.paths.get k [] := by
  rw [paths_dolev]
  split
  · exact prefix_addPath
  · exact List.prefix_rfl

theorem retained_prefix {ps : List (List PeerId)} :
    Retained N.protocol i fun s => ps <+: s.paths.get m [] where
  handle s src msg h := h.trans (prefix_paths_dolev m)
  resume s t o ho h := by
    obtain rfl := Option.some.inj ho
    rw [paths_resume]
    exact h

theorem retained_recorded : Retained N.protocol i fun s => path ∈ s.paths.get m [] where
  handle s src msg h := (prefix_paths_dolev m).subset h
  resume s t o ho h := by
    obtain rfl := Option.some.inj ho
    rw [paths_resume]
    exact h

variable {ls : History} {c : Config PeerId DMsg NaiveState Cont}

theorem recorded_of_handled (hsrc : src ∈ N.neighbours i)
    (hc : exec N.next N.initial ls = some c) (h : Handled ls i src msg) :
    msg.path ++ [src] ∈ (c.st i).paths.get msg.msgId [] := by
  refine retained_recorded.of_handled (P := N.protocol) (G := N.parties) (fun s => ?_) ls c hc h
  show _ ∈ (N.dolev i s src msg).st.paths.get msg.msgId []
  rw [paths_dolev, if_pos hsrc]
  exact mem_addPath

/-! ## Every path has been taken -/

/-- A correct node on a simple path from a source is a peer of the node before it. -/
theorem Route.onward {q : List PeerId} {u t : PeerId} {source : PeerId}
    (h : N.Route source (q ++ [u] ++ [t])) :
    u ∈ N.parties.correct ∧ t ∈ N.parties.correct ∧ u ∈ N.neighbours t ∧
      N.Onward u t q := by
  have hu : u ∈ N.parties.correct := h.inside u (by simp)
  have ht : t ∈ N.parties.correct := h.inside t (by simp)
  have hfresh : t ∉ q ++ [u] := (h.init (by simp)).2
  have hlink : Mutual N.neighbours u t :=
    (List.isChain_append.mp h.chain).2.2 u (by simp) t (by simp)
  have hne : t ≠ u := fun htu => hfresh (by simp [htu])
  have hpeer : t ∈ N.peers u :=
    (N.mem_peers u (N.mem_nodes_of_correct hu) t).mpr ⟨N.mem_nodes_of_correct ht, hne⟩
  exact ⟨hu, ht, hlink.2, hpeer, hlink.1, fun hq => hfresh (List.mem_append_left _ hq)⟩

/-- The broadcast of a correct node has come to its neighbours by every simple path. -/
theorem handled_of_route {source payload : PeerId} (hb : (m, payload) ∈ N.broadcasts source)
    (hc : exec N.next N.initial ls = some c) (hquiet : c.Quiescent N.parties)
    {q : List PeerId} {u t : PeerId} (h : N.Route source (q ++ [u] ++ [t])) :
    Handled ls t u (⟨m, source, payload, q⟩ : DMsg) := by
  induction q using List.reverseRecOn generalizing u t with
  | nil =>
    obtain ⟨hu, ht, -, hon⟩ := Route.onward h
    obtain rfl : u = source := by simpa using h.head
    have htask : Cont.broadcast m payload ∈ N.initial.tasks u :=
      List.mem_map.mpr ⟨_, hb, rfl⟩
    have hdue := Duties.sent_or_due_initial (G := N.parties) (m := (⟨m, u, payload, []⟩ : DMsg))
      duties_honoured htask ⟨hon.peer, hon.near, rfl⟩ ls c hc
    exact .inl (hdue.received hc hquiet hu ht)
  | append_singleton q w ih =>
    obtain ⟨hu, ht, -, hon⟩ := Route.onward h
    have hbefore := (h.init (by simp)).1
    obtain ⟨-, -, hnear, -⟩ := Route.onward hbefore
    have hdue := Duties.sent_or_due duties_honoured ⟨hnear, hon, rfl⟩ ls c hc (ih hbefore)
    exact .inl (hdue.received hc hquiet hu ht)

end Network

/-! ## A network with two paths -/

theorem nodup_diamond : (["s", "a", "c", "t"] ++ ["b"] : List PeerId).Nodup := by decide

/-- Correct nodes s, a, c and t, of which s and t are not neighbours, and a Byzantine
neighbour of t. -/
def diamond : Network where
  toDeployment := Deployment.ofLists ["s", "a", "c", "t"] ["b"] nodup_diamond
  f := 1
  neighbours i := match i with
    | "s" => {"a", "c"}
    | "a" => {"s", "t"}
    | "c" => {"s", "t"}
    | "t" => {"a", "c", "b"}
    | "b" => {"t"}
    | _ => ∅
  broadcasts i := if i = "s" then [("m", "hello")] else []

/-- The node's coroutines go on, one after the other. -/
def goOn (i : PeerId) (ts : List Cont) : History := ts.map (.wake i)

/-- Node `i` hands the message of s on to t. -/
def handOn (i : PeerId) : History :=
  .recv ⟨"s", i, hello []⟩ ::
    goOn i [.forwardTo "t" ["b"] (hello []) ["s"], .forward ["b"] (hello []) ["s"]]

/-- It comes to t, which hands it on to `next` and b and tests the paths. -/
def comeBy (i next : PeerId) (rest : List PeerId) : History :=
  .recv ⟨i, "t", hello ["s"]⟩ ::
    goOn "t" [.forwardTo next rest (hello ["s"]) ["s", i], .forward rest (hello ["s"]) ["s", i],
      .forwardTo "b" [] (hello ["s"]) ["s", i], .forward [] (hello ["s"]) ["s", i]]

/-- The message of s comes to t on both paths. -/
def diamondRun : History :=
  goOn "s" [.broadcast "m" "hello", .broadcasting ["c", "t", "b"] (hello []),
    .broadcasting ["t", "b"] (hello [])] ++
  handOn "a" ++ handOn "c" ++ comeBy "a" "c" ["b"] ++ comeBy "c" "a" ["c", "b"] ++
  [.recv ⟨"t", "c", hello ["s", "a"]⟩, .recv ⟨"t", "a", hello ["s", "c"]⟩]

/-- The simple paths from s to its neighbours and on to t. -/
theorem diamond_route {i : PeerId} (hi : i = "a" ∨ i = "c") :
    diamond.Route "s" (["s", i] ++ ["t"]) where
  head := rfl
  nodup := by rcases hi with rfl | rfl <;> decide
  chain := by
    rcases hi with rfl | rfl
    · exact .cons_cons ⟨by decide, by decide⟩ (.cons_cons ⟨by decide, by decide⟩ (.singleton _))
    · exact .cons_cons ⟨by decide, by decide⟩ (.cons_cons ⟨by decide, by decide⟩ (.singleton _))
  inside := by rcases hi with rfl | rfl <;> decide

theorem exists_diamondRun : ∃ c, exec diamond.next diamond.initial diamondRun = some c ∧
    decide (c.Quiescent diamond.parties) = true :=
  exists_exec_of_any _ _ _ _ (by decide)

end DistBench.DolevNaive
