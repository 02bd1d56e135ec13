import DistBench.Layering.Tree

/-!
# Routing between layers (decorators.py, algorithm.py)

A message of a child to the same child of another node is sent under the name of a
handler, and the generated `handle` of the receiving root looks for that name, first
among its own handlers and then in its children. What a child hands up is looked up by
the name of its class, in the handlers for all children.

- `sendMessage`, `dispatch`, `deliverTo`: the code. `handle_algo`, `deliver_tuple_eq`:
  it is what `handle` and `deliver` do before they decode.
- `isolated_iff`: the layers are kept apart just where the names do it.
-/

namespace DistBench.Layers

variable {crypto : Crypto} {lib : Codecs Cls} {keystore : Keystore} {fmt : Format}

/-! ## On the way in -/

/-- What `Peer._send_message` sends for a handler of the algorithm at a path: the name
of the handler. The `path` is not sent, and `handle` gets none. -/
def sendMessage (msgType : String) (_path : List String) : String × List String :=
  (msgType, [])

/-- The class has a handler of the name. -/
def Class.Handles (cls : Class) (msgTypeId : String) : Prop :=
  (cls.handlers.lookup msgTypeId).isSome = true

instance (cls : Class) (msgTypeId : String) : Decidable (cls.Handles msgTypeId) :=
  inferInstanceAs (Decidable (_ = true))

namespace Algorithm

/-- `handle` (decorators.py:425–473): the path of the object that handles the message,
and the annotation of its handler. -/
def dispatch : Algorithm crypto → List String → String → Option (List String × Option PyType)
  | self, childName :: remainingPath, msgTypeId =>
    (self.children.lookup childName).bind fun child =>
      (child.dispatch remainingPath msgTypeId).map fun r => (childName :: r.1, r.2)
  | self, [], msgTypeId =>
    match self.cls.handlers.lookup msgTypeId with
    | some type => some ([], type)
    | none =>
      -- implicit routing
      (self.children.find? fun p => decide (p.2.cls.Handles msgTypeId)).bind fun p =>
        (p.2.cls.handlers.lookup msgTypeId).map fun type => ([p.1], type)

/-- What happens at a node, whose algorithm is `root`, to a message that the algorithm
at `path` sends. -/
def received (root : Algorithm crypto) (path : List String) (msgType : String) :
    Option (List String × Option PyType) :=
  root.dispatch (sendMessage msgType path).2 (sendMessage msgType path).1

/-! ## On the way up -/

/-- `deliver` (decorators.py:478–512): the child the handler is declared for, the
handler, and its annotation. -/
def deliverTo {H : Type} (childHandlers : ChildHandlers H) (msgTypeId : String) :
    Option (String × H × Option PyType) :=
  childHandlers.findSome? fun p => (p.2.lookup msgTypeId).map fun handler => (p.1, handler)

/-- One of the handlers for a child is for a class of the name. -/
def Accepts {H : Type} (handlers : List (String × H × Option PyType)) (msgTypeId : String) : Prop :=
  (handlers.lookup msgTypeId).isSome = true

instance {H : Type} (handlers : List (String × H × Option PyType)) (msgTypeId : String) :
    Decidable (Accepts handlers msgTypeId) :=
  inferInstanceAs (Decidable (_ = true))

/-! ## Isolation -/

/-- A message that the child `c` of the algorithm at `parent` sends to a handler of the
name `msgType` is handled by that child of the other node. -/
def HandledByChild (root : Algorithm crypto) (parent : List String) (c msgType : String) : Prop :=
  ∃ type, root.received (parent ++ [c]) msgType = some (parent ++ [c], type)

/-- A message of a class with the name `msgTypeId` that the child `c` hands up only
reaches a handler declared for `c`. -/
def DeliveredFromChild (parent : Algorithm crypto) (c msgTypeId : String) : Prop :=
  ∀ child handler, deliverTo parent.cls.childHandlers msgTypeId = some (child, handler) → child = c

/-- The first entry with the property `P` is that of `c`. -/
def First {α : Type} (P : α → Prop) (c : String) (entries : List (String × α)) : Prop :=
  ∃ before a after, entries = before ++ (c, a) :: after ∧ P a ∧ ∀ p ∈ before, ¬ P p.2

variable {cls : Class} {config : Config} {root parent a : Algorithm crypto}
  {node : NodeContext crypto}
  {c msgType : String} {path : List String}

theorem first_iff_find? {α : Type} {P : α → Prop} [DecidablePred P] {entries : List (String × α)} :
    First P c entries ↔ ∃ x, entries.find? (fun p => decide (P p.2)) = some (c, x) := by
  constructor
  · rintro ⟨before, x, after, rfl, hx, hbefore⟩
    exact ⟨x, List.find?_eq_some_iff_append.mpr
      ⟨by simpa using hx, before, after, rfl, fun p hp => by simpa using hbefore p hp⟩⟩
  · rintro ⟨x, hx⟩
    obtain ⟨hP, before, after, rfl, hbefore⟩ := List.find?_eq_some_iff_append.mp hx
    exact ⟨before, x, after, rfl, by simpa using hP, fun p hp => by simpa using hbefore p hp⟩

/-- The classes of the children of an object are those of the fields it keeps. -/
theorem classes_children {self : Algorithm crypto} (hwf : cls.Wf)
    (h : newInit cls config self = .ok a) :
    a.children.map (fun p => (p.1, p.2.cls)) = cls.kept := by
  have hchildren := children_newInit hwf h
  generalize a.children = children at hchildren
  generalize cls.kept = fields at hchildren
  induction hchildren with
  | nil => rfl
  | cons hp _ ih =>
    obtain ⟨hname, _, hbuilt⟩ := hp
    rw [List.map_cons, ih, ← hname, cls_newInit hbuilt]
    rfl

theorem classes_attach (hwf : cls.Wf) (h : construct cls config = .ok root) :
    (attach node root).children.map (fun p => (p.1, p.2.cls)) = cls.kept := by
  rw [children_attach, List.map_map, ← classes_children hwf h]
  simp [cls_inform]

/-- A message without a path stays with an object or goes to one of its children. -/
theorem dispatch_child_iff : (∃ type, a.dispatch [] msgType = some ([c], type)) ↔
    ¬ a.cls.Handles msgType ∧
      First (fun cls : Class => cls.Handles msgType) c
        (a.children.map fun p => (p.1, p.2.cls)) := by
  rw [first_iff_find?, List.find?_map, dispatch, Class.Handles]
  cases hown : a.cls.handlers.lookup msgType with
  | some type => simp
  | none =>
    simp only [Option.isSome_none, Bool.false_eq_true, not_false_eq_true, true_and]
    cases hfind : a.children.find? fun p => decide (p.2.cls.Handles msgType) with
    | none => simp [hfind]
    | some p =>
      obtain ⟨name, child⟩ := p
      have hchild : child.cls.Handles msgType := by simpa using List.find?_some hfind
      obtain ⟨type, htype⟩ := Option.isSome_iff_exists.mp hchild
      simp [hfind, htype]

/-- Nothing gets further than to a child of the root. -/
theorem dispatch_length {r : List String × Option PyType}
    (h : a.dispatch [] msgType = some r) : r.1.length ≤ 1 := by
  rw [dispatch] at h
  split at h
  · cases h
    simp
  · obtain ⟨p, -, h⟩ := Option.bind_eq_some_iff.mp h
    obtain ⟨type, -, rfl⟩ := Option.map_eq_some_iff.mp h
    simp

/-! ## Routing and decoding -/

mutual

/-- What `handle` knows of an object and its children. -/
def algo : Algorithm crypto → Algo
  | mk cls _ children => .mk cls.handlers (algoAll children)
termination_by structural a => a

def algoAll : List (String × Algorithm crypto) → List (String × Algo)
  | [] => []
  | (name, child) :: children => (name, algo child) :: algoAll children
termination_by structural children => children

end

theorem algoAll_eq_map (children : List (String × Algorithm crypto)) :
    algoAll children = children.map fun p => (p.1, p.2.algo) := by
  induction children with
  | nil => rfl
  | cons p children ih =>
    obtain ⟨name, child⟩ := p
    rw [algoAll, ih, List.map_cons]

theorem handlers_algo : a.algo.handlers = a.cls.handlers := by
  cases a
  rw [algo, Algo.handlers, Algorithm.cls]

theorem children_algo : a.algo.children = a.children.map fun p => (p.1, p.2.algo) := by
  cases a
  rw [algo, Algo.children, algoAll_eq_map, Algorithm.children]

/-- `handle` decodes the message for the handler that `dispatch` finds. -/
theorem handle_algo (msgBytes : Bytes) :
    a.algo.handle lib crypto keystore fmt path msgType msgBytes =
      (a.dispatch path msgType).bind fun r =>
        (Algo.receive lib crypto keystore fmt r.2 msgBytes) := by
  induction path generalizing a with
  | nil =>
    rw [Algo.handle, dispatch, handlers_algo, children_algo, List.find?_map]
    cases a.cls.handlers.lookup msgType with
    | some type => rfl
    | none =>
      have hfind : (fun p : String × Algorithm crypto =>
          (p.2.algo.handlers.lookup msgType).isSome) =
            fun p => decide (p.2.cls.Handles msgType) := by
        funext p
        rw [handlers_algo, Bool.eq_iff_iff, decide_eq_true_iff, Class.Handles]
      simp only [Function.comp_def, hfind]
      cases a.children.find? fun p => decide (p.2.cls.Handles msgType) with
      | none => rfl
      | some p =>
        simp only [Option.map_some, Option.bind_eq_bind, Option.bind_some, handlers_algo]
        cases p.2.cls.handlers.lookup msgType <;> rfl
  | cons name path ih =>
    rw [Algo.handle, dispatch, children_algo, lookup_map_snd]
    cases a.children.lookup name with
    | none => rfl
    | some child =>
      simp only [Option.map_some, Option.bind_eq_bind, Option.bind_some, ih]
      cases child.dispatch path msgType <;> rfl

/-- `deliver` decodes the payload for the handler that `deliverTo` finds. -/
theorem deliver_tuple_eq {H : Type} (hlib : lib.Lawful) {childHandlers : ChildHandlers H}
    {typeId : String} {payload envelope : Bytes}
    (henvelope : fmt.serialize lib (.tuple [.str typeId, .bytes payload]) = some envelope) :
    deliver lib crypto keystore fmt childHandlers envelope =
      (deliverTo childHandlers typeId).bind fun r =>
        (Algo.receive lib crypto keystore fmt r.2.2 payload).map fun call => (r.2.1, call.2) := by
  have hfound : (childHandlers.findSome? fun p => p.2.lookup typeId) =
      (deliverTo childHandlers typeId).map Prod.snd := by
    rw [deliverTo, List.map_findSome?]
    congr 1
    funext p
    rw [Function.comp_apply, Option.map_map]
    exact (Option.map_id' ..).symm
  rw [deliver_tuple hlib henvelope, hfound]
  cases deliverTo childHandlers typeId <;> rfl

/-! ## Who gets the messages of a child -/

theorem handledByChild_iff (hwf : cls.Wf) (h : construct cls config = .ok root) :
    HandledByChild (attach node root) path c msgType ↔
      path = [] ∧ ¬ cls.Handles msgType ∧
        First (fun child : Class => child.Handles msgType) c cls.kept := by
  rw [← classes_attach hwf h, ← show (attach node root).cls = cls from
    (cls_attach node).trans (cls_newInit h), ← dispatch_child_iff]
  constructor
  · rintro ⟨type, htype⟩
    have hlength := dispatch_length htype
    obtain rfl : path = [] := List.eq_nil_of_length_eq_zero (by simpa using hlength)
    exact ⟨rfl, type, htype⟩
  · rintro ⟨rfl, type, htype⟩
    exact ⟨type, htype⟩

theorem deliverTo_eq_none {H : Type} {childHandlers : ChildHandlers H} {msgTypeId : String} :
    deliverTo childHandlers msgTypeId = none ↔ ∀ p ∈ childHandlers, ¬ Accepts p.2 msgTypeId := by
  rw [deliverTo, List.findSome?_eq_none_iff]
  simp only [Option.map_eq_none_iff, Accepts, Option.not_isSome_iff_eq_none]

/-- The handler `deliver` picks is the first one for the name. -/
theorem deliverTo_child_iff {H : Type} {childHandlers : ChildHandlers H} {msgTypeId : String} :
    (∃ handler, deliverTo childHandlers msgTypeId = some (c, handler)) ↔
      First (fun handlers => Accepts handlers msgTypeId) c childHandlers := by
  constructor
  · rintro ⟨handler, hfound⟩
    obtain ⟨before, ⟨name, handlers⟩, after, hsplit, hp, hbefore⟩ :=
      List.findSome?_eq_some_iff.mp hfound
    obtain ⟨_, hlookup, heq⟩ := Option.map_eq_some_iff.mp hp
    cases heq
    exact ⟨before, handlers, after, hsplit, Option.isSome_iff_exists.mpr ⟨_, hlookup⟩, fun p hp =>
      Option.not_isSome_iff_eq_none.mpr (Option.map_eq_none_iff.mp (hbefore p hp))⟩
  · rintro ⟨before, handlers, after, hsplit, hsome, hbefore⟩
    obtain ⟨handler, hlookup⟩ := Option.isSome_iff_exists.mp hsome
    refine ⟨handler, List.findSome?_eq_some_iff.mpr ⟨before, (c, handlers), after, hsplit, ?_, ?_⟩⟩
    · simp [hlookup]
    · intro p hp
      rw [Option.not_isSome_iff_eq_none.mp (hbefore p hp)]
      rfl

theorem deliveredFromChild_iff {msgTypeId : String} : DeliveredFromChild parent c msgTypeId ↔
    (∀ p ∈ parent.cls.childHandlers, ¬ Accepts p.2 msgTypeId) ∨
      First (fun handlers => Accepts handlers msgTypeId) c parent.cls.childHandlers := by
  rw [← deliverTo_child_iff, ← deliverTo_eq_none, DeliveredFromChild]
  cases deliverTo parent.cls.childHandlers msgTypeId with
  | none => simp
  | some r =>
    obtain ⟨child, handler⟩ := r
    constructor
    · intro hchild
      obtain rfl := hchild child handler rfl
      exact .inr ⟨handler, rfl⟩
    · rintro (hnone | ⟨_, heq⟩) child' handler' heq'
      · cases hnone
      · cases heq.symm.trans heq'
        rfl

/-- **Isolation.** A message of the child `c` is handled by the child `c` just where it
is a child of the root, the root itself has no handler of the name, and `c` is the first
registered child that has one. What `c` hands up stays with the handlers declared for
`c` just where there are no others for the name of its class, or those for `c` come
first. -/
theorem isolated_iff (hwf : cls.Wf) (h : construct cls config = .ok root)
    (_hparent : (attach node root).descend path = some parent) (c msgType msgTypeId : String) :
    (HandledByChild (attach node root) path c msgType ↔
      path = [] ∧ ¬ cls.Handles msgType ∧
        First (fun child : Class => child.Handles msgType) c cls.kept) ∧
    (DeliveredFromChild parent c msgTypeId ↔
      (∀ p ∈ parent.cls.childHandlers, ¬ Accepts p.2 msgTypeId) ∨
        First (fun handlers => Accepts handlers msgTypeId) c parent.cls.childHandlers) :=
  ⟨handledByChild_iff hwf h, deliveredFromChild_iff⟩

theorem wf_simpleBroadcast : simpleBroadcast.Wf := .mk (by simp) (by simp) (by simp)

theorem wf_simpleBroadcastUpper : simpleBroadcastUpper.Wf :=
  .mk (by simp) (by simp) (by simp [wf_simpleBroadcast])

/-- `SimpleBroadcastUpper` has one child. -/
theorem isolated_simpleBroadcastUpper :
    ∃ root, construct simpleBroadcastUpper (.mk [] []) = .ok root ∧
      HandledByChild (attach node₁ root) [] "broadcast" "simple_broadcast_message" ∧
      DeliveredFromChild (attach node₁ root) "broadcast" "BroadcastSend" := by
  obtain ⟨root, hroot⟩ : ∃ root : Algorithm plainCrypto,
      construct simpleBroadcastUpper (.mk [] []) = .ok root := ⟨_, rfl⟩
  have hparent : (attach node₁ root).descend [] = some (attach node₁ root) := rfl
  obtain ⟨hin, hup⟩ := isolated_iff wf_simpleBroadcastUpper hroot hparent "broadcast"
    "simple_broadcast_message" "BroadcastSend"
  refine ⟨root, hroot, hin.mpr ⟨rfl, by decide, [], simpleBroadcast, [], rfl, by decide, by simp⟩,
    hup.mpr (.inr ?_)⟩
  rw [cls_attach, cls_newInit hroot]
  exact ⟨[], _, [], rfl, by decide, by simp⟩

/-- A parent with two children of one class. -/
def twoBroadcasts : Class :=
  .mk none .none [] [("first", simpleBroadcast), ("second", simpleBroadcast)] []
    [("first", [("BroadcastSend", "from_first", some SimpleBroadcast.broadcastSend)]),
      ("second", [("BroadcastSend", "from_second", some SimpleBroadcast.broadcastSend)])]

/-- The first child gets the messages of the second, and the handler declared for it what
the second hands up. -/
theorem not_isolated_twoBroadcasts :
    ∃ root : Algorithm plainCrypto, construct twoBroadcasts (.mk [] []) = .ok root ∧
      ("second", simpleBroadcast) ∈ twoBroadcasts.declared ∧
      simpleBroadcast.Handles "simple_broadcast_message" ∧
      ¬ HandledByChild (attach node₁ root) [] "second" "simple_broadcast_message" ∧
      ¬ DeliveredFromChild (attach node₁ root) "second" "BroadcastSend" := by
  obtain ⟨root, hroot⟩ : ∃ root : Algorithm plainCrypto,
      construct twoBroadcasts (.mk [] []) = .ok root := ⟨_, rfl⟩
  have hwf : twoBroadcasts.Wf := .mk (by simp) (by simp) (by simp [wf_simpleBroadcast])
  refine ⟨root, hroot, by simp [twoBroadcasts, Class.declared], by decide, fun hin => ?_,
    fun hup => ?_⟩
  · obtain ⟨-, -, hfirst⟩ := (handledByChild_iff hwf hroot).mp hin
    obtain ⟨_, hfind⟩ := first_iff_find?.mp hfirst
    have hname : (twoBroadcasts.kept.find? fun p =>
        decide (p.2.Handles "simple_broadcast_message")).map Prod.fst = some "first" := by decide
    rw [hfind] at hname
    simp at hname
  · have hfirst := hup "first" ("from_first", some SimpleBroadcast.broadcastSend)
      (by rw [cls_attach, cls_newInit hroot]; rfl)
    exact absurd hfirst (by decide)

end Algorithm

end DistBench.Layers
