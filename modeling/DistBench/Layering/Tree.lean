import DistBench.Deployment
import DistBench.Lib.Dict
import DistBench.Layering.SimpleBroadcast

/-!
# Trees of algorithms (decorators.py, algorithm.py, node.py)

An algorithm with `child_algorithm` fields owns a child object for each of them. The
`__init__` that `@distbench` generates constructs the children and registers them, then
calls the `__init__` the class had before; `Node.__init__` hands the root what the
whole tree is to know.

- `Class`, `Algorithm`: a class with its fields, and an object with what `_children`
  holds.
- `newInit`, `registerChild`, `attach`: the code.
- `newInit_blank`, `newInit_children`: what a constructed object knows, and which
  children it still has.
- `contextReaches_iff`: the context reaches the whole tree only where there is nothing
  below the root, since the community stops there.
- `registered_iff`: the rest of it reaches the children of the classes that do not run
  `Algorithm.__init__` a second time.
-/

namespace DistBench.Layers

/-! ## Classes and objects -/

/-- The `__init__` a class defines. -/
inductive OwnInit where
  /-- It inherits one. -/
  | none
  /-- It takes `config` and `peers`, and calls `super().__init__()`. -/
  | configured
  /-- It calls `super().__init__()`, and cannot be called with `config` and `peers`. -/
  | other
deriving DecidableEq, Repr

/-- A class with `@distbench`: the `@distbench` class it derives from, `none` if that
is `Algorithm` itself, its own `__init__`, the required configuration fields and the
child fields of its `__dict__`, and the handlers collected for it. -/
inductive Class where
  | mk (base : Option Class) (init : OwnInit) (required : List String)
      (childFields : List (String × Class)) (handlers : List (String × Option PyType))
      (childHandlers : ChildHandlers String)

/-- The configuration of an algorithm: the keys of its section of the YAML file, and
the sections of its children. -/
inductive Config where
  | mk (keys : List String) (sections : List (String × Config))

/-- The part of `Community` that algorithms use. -/
structure Community where
  peers : List PeerId
  keystore : Keystore

/-- What `Algorithm.__init__` sets, `_children` apart. -/
structure State (crypto : Crypto) where
  terminated : Bool := false
  nodeId : Option PeerId := none
  totalNodes : Nat := 0
  keypair : Option (KeyPair crypto) := none
  community : Option Community := none
  format : Option Format := none

/-- An object with the children that are registered, in the order of `_children`. The
attribute that holds a child is set together with its entry. -/
inductive Algorithm (crypto : Crypto) where
  | mk (cls : Class) (state : State crypto) (children : List (String × Algorithm crypto))

namespace Class

def handlers : Class → List (String × Option PyType)
  | mk _ _ _ _ handlers _ => handlers

def childHandlers : Class → ChildHandlers String
  | mk _ _ _ _ _ childHandlers => childHandlers

end Class

variable {crypto : Crypto}

namespace Algorithm

def cls : Algorithm crypto → Class
  | mk cls _ _ => cls

def state : Algorithm crypto → State crypto
  | mk _ state _ => state

def children : Algorithm crypto → List (String × Algorithm crypto)
  | mk _ _ children => children

/-! ## The code -/

mutual

/-- A change that goes on to all registered children. -/
def propagate (f : State crypto → State crypto) : Algorithm crypto → Algorithm crypto
  | mk cls state children => mk cls (f state) (propagateAll f children)
termination_by structural a => a

def propagateAll (f : State crypto → State crypto) :
    List (String × Algorithm crypto) → List (String × Algorithm crypto)
  | [] => []
  | (name, child) :: children => (name, propagate f child) :: propagateAll f children
termination_by structural children => children

end

/-- `_set_node_id`. -/
def setNodeId (nodeId : PeerId) : Algorithm crypto → Algorithm crypto :=
  propagate fun s => { s with nodeId := some nodeId }

/-- `_set_total_nodes`. -/
def setTotalNodes (total : Nat) : Algorithm crypto → Algorithm crypto :=
  propagate fun s => { s with totalNodes := total }

/-- `_set_keypair`. -/
def setKeypair (keypair : KeyPair crypto) : Algorithm crypto → Algorithm crypto :=
  propagate fun s => { s with keypair := some keypair }

/-- `_set_format`. -/
def setFormat (format : Format) : Algorithm crypto → Algorithm crypto :=
  propagate fun s => { s with format := some format }

/-- `terminate`. -/
def terminate : Algorithm crypto → Algorithm crypto :=
  propagate fun s => { s with terminated := true }

/-- `self.community = community`. -/
def setCommunity (community : Community) : Algorithm crypto → Algorithm crypto
  | mk cls state children => mk cls { state with community := some community } children

/-- `Algorithm.__init__`. -/
def init (self : Algorithm crypto) : Algorithm crypto := mk self.cls {} []

/-- `register_child`: the child gets what its parent has of the context. -/
def registerChild (self : Algorithm crypto) (name : String) (child : Algorithm crypto) :
    Algorithm crypto :=
  let child := match self.state.nodeId with
    | some nodeId => child.setNodeId nodeId
    | none => child
  let child := if self.state.totalNodes ≠ 0 then child.setTotalNodes self.state.totalNodes
    else child
  let child := match self.state.keypair with
    | some keypair => child.setKeypair keypair
    | none => child
  let child := match self.state.community with
    | some community => child.setCommunity community
    | none => child
  let child := match self.state.format with
    | some format => child.setFormat format
    | none => child
  mk self.cls self.state (setItem self.children name child)

end Algorithm

/-- `config.get(name, {})`. -/
def Config.child : Config → String → Config
  | mk _ sections, name => (sections.lookup name).getD (mk [] [])

/-- The first required field that is missing raises a `ValueError` with its name. -/
def Config.check : Config → List String → Except String Unit
  | mk keys _, required =>
    match required.find? (· ∉ keys) with
    | some name => .error ("Required config field '" ++ name ++ "' missing")
    | none => .ok ()

mutual

/-- `new_init` (decorators.py:273–320), the `__init__` of a class with `@distbench`. -/
def newInit : Class → Config → Algorithm crypto → Except String (Algorithm crypto)
  | .mk base init required childFields _ _, config, self => do
    config.check required
    let self ← initChildren childFields config self.init
    match init with
    | .none => originalInit base config self
    | .configured =>
      match base with
      | none => .ok self.init
      -- `super().__init__()` lacks two arguments, and the `TypeError` is suppressed
      | some _ => .ok self
    | .other => .ok self
termination_by structural cls => cls

/-- An inherited `__init__` is called unless it is that of `Algorithm`. -/
def originalInit : Option Class → Config → Algorithm crypto → Except String (Algorithm crypto)
  | none, _, self => .ok self
  | some base, config, self => newInit base config self
termination_by structural base => base

/-- The loop over the child fields. -/
def initChildren :
    List (String × Class) → Config → Algorithm crypto → Except String (Algorithm crypto)
  | [], _, self => .ok self
  | (name, cls) :: fields, config, self => do
    let child ← newInit cls (config.child name) (.mk cls {} [])
    initChildren fields config (self.registerChild name child)
termination_by structural fields => fields

end

/-- `cls(config, peers)`. -/
def construct (cls : Class) (config : Config) : Except String (Algorithm crypto) :=
  newInit cls config (.mk cls {} [])

/-- What `Node.__init__` has for its algorithm. -/
structure NodeContext (crypto : Crypto) where
  id : PeerId
  community : Community
  keypair : KeyPair crypto
  format : Format

/-- `Node.__init__` (node.py:76–81). -/
def attach (node : NodeContext crypto) (root : Algorithm crypto) : Algorithm crypto :=
  ((((root.setNodeId node.id).setTotalNodes (node.community.peers.length + 1)).setKeypair
    node.keypair).setFormat node.format).setCommunity node.community

/-! ## The tree -/

namespace Class

/-- The child fields of a class, inherited ones included. -/
def declared : Class → List (String × Class)
  | mk none _ _ childFields _ _ => childFields
  | mk (some base) _ _ childFields _ _ => childFields ++ base.declared

/-- The child fields whose children a constructed object has: when `Algorithm.__init__`
runs a second time, the children registered by then are gone. -/
def kept : Class → List (String × Class)
  | mk none .configured _ _ _ _ => []
  | mk (some base) .none _ _ _ _ => base.kept
  | mk _ _ _ childFields _ _ => childFields

/-- A path along some of the child fields of each class. -/
inductive Path (fields : Class → List (String × Class)) : Class → List String → Prop
  | nil {cls : Class} : Path fields cls []
  | cons {cls child : Class} {name : String} {path : List String}
      (h : (name, child) ∈ fields cls) (hp : Path fields child path) :
      Path fields cls (name :: path)

end Class

/-- The names of the child fields in a class's `__dict__` are distinct. -/
inductive Class.Wf : Class → Prop
  | mk {base : Option Class} {init : OwnInit} {required : List String}
      {childFields : List (String × Class)} {handlers : List (String × Option PyType)}
      {childHandlers : ChildHandlers String} (hbase : ∀ b, base = some b → Wf b)
      (nodup : (childFields.map Prod.fst).Nodup) (hfields : ∀ p ∈ childFields, Wf p.2) :
      Wf (.mk base init required childFields handlers childHandlers)

/-- The object has all of the context but the community. -/
structure State.Informed (node : NodeContext crypto) (s : State crypto) : Prop where
  nodeId : s.nodeId = some node.id
  totalNodes : s.totalNodes = node.community.peers.length + 1
  keypair : s.keypair = some node.keypair
  format : s.format = some node.format

namespace Class

variable {cls : Class}

theorem Wf.nodup_kept (h : cls.Wf) : (cls.kept.map Prod.fst).Nodup := by
  induction h with
  | @mk base init _ childFields _ _ hbase hnodup hfields ihbase ihfields =>
    cases base with
    | none =>
      cases init with
      | configured => simp [kept]
      | none | other => exact hnodup
    | some b =>
      cases init with
      | none => exact ihbase b rfl
      | configured | other => exact hnodup

theorem Wf.of_kept (h : cls.Wf) : ∀ p ∈ cls.kept, p.2.Wf := by
  induction h with
  | @mk base init _ childFields _ _ hbase hnodup hfields ihbase ihfields =>
    cases base with
    | none =>
      cases init with
      | configured => simp [kept]
      | none | other => exact hfields
    | some b =>
      cases init with
      | none => exact ihbase b rfl
      | configured | other => exact hfields

end Class

namespace Algorithm

/-- The object that the names of registered children lead to. -/
def descend : Algorithm crypto → List String → Option (Algorithm crypto)
  | self, [] => some self
  | self, name :: path => (self.children.lookup name).bind fun child => child.descend path

/-- Every object that the class declares below the root is registered, has the whole
context and is reached by `terminate`. -/
def ContextReaches (node : NodeContext crypto) (cls : Class) (root : Algorithm crypto) : Prop :=
  ∀ path, cls.Path Class.declared path →
    ∃ d, root.descend path = some d ∧ d.state.Informed node ∧
      d.state.community = some node.community ∧
      ∃ d', root.terminate.descend path = some d' ∧ d'.state.terminated = true

/-! ## Setters -/

variable {f g : State crypto → State crypto} {a : Algorithm crypto}

theorem propagateAll_eq_map (children : List (String × Algorithm crypto)) :
    propagateAll f children = children.map fun p => (p.1, p.2.propagate f) := by
  induction children with
  | nil => rfl
  | cons p children ih =>
    obtain ⟨name, child⟩ := p
    rw [propagateAll, ih, List.map_cons]

@[simp] theorem cls_propagate : (a.propagate f).cls = a.cls := by
  cases a
  rw [propagate, cls, cls]

@[simp] theorem state_propagate : (a.propagate f).state = f a.state := by
  cases a
  rw [propagate, state, state]

@[simp] theorem children_propagate :
    (a.propagate f).children = a.children.map fun p => (p.1, p.2.propagate f) := by
  cases a
  rw [propagate, children, children, propagateAll_eq_map]

theorem descend_propagate (path : List String) :
    (a.propagate f).descend path = (a.descend path).map (propagate f) := by
  induction path generalizing a with
  | nil => rfl
  | cons name path ih =>
    rw [descend, descend, children_propagate, lookup_map_snd]
    cases a.children.lookup name with
    | none => rfl
    | some child => exact ih

/-- What the setters of `attach` do. -/
def inform (node : NodeContext crypto) (a : Algorithm crypto) : Algorithm crypto :=
  (((a.setNodeId node.id).setTotalNodes (node.community.peers.length + 1)).setKeypair
    node.keypair).setFormat node.format

@[simp] theorem state_inform (node : NodeContext crypto) :
    (a.inform node).state =
      { a.state with
        nodeId := some node.id
        totalNodes := node.community.peers.length + 1
        keypair := some node.keypair
        format := some node.format } := by
  simp [inform, setNodeId, setTotalNodes, setKeypair, setFormat]

@[simp] theorem state_setCommunity (community : Community) :
    (a.setCommunity community).state = { a.state with community := some community } := by
  cases a
  rfl

@[simp] theorem children_setCommunity (community : Community) :
    (a.setCommunity community).children = a.children := by
  cases a
  rfl

@[simp] theorem cls_setCommunity (community : Community) :
    (a.setCommunity community).cls = a.cls := by
  cases a
  rfl

theorem cls_inform (node : NodeContext crypto) : (a.inform node).cls = a.cls := by
  simp [inform, setNodeId, setTotalNodes, setKeypair, setFormat]

theorem children_inform (node : NodeContext crypto) :
    (a.inform node).children = a.children.map fun p => (p.1, p.2.inform node) := by
  simp [inform, setNodeId, setTotalNodes, setKeypair, setFormat]

theorem cls_attach (node : NodeContext crypto) : (attach node a).cls = a.cls :=
  cls_setCommunity node.community |>.trans (cls_inform node)

theorem children_attach (node : NodeContext crypto) :
    (attach node a).children = a.children.map fun p => (p.1, p.2.inform node) :=
  children_setCommunity node.community |>.trans (children_inform node)

theorem descend_setCommunity_cons (community : Community) (name : String) (path : List String) :
    (a.setCommunity community).descend (name :: path) = a.descend (name :: path) := by
  rw [descend, children_setCommunity, descend]

theorem descend_inform (node : NodeContext crypto) (path : List String) :
    (a.inform node).descend path = (a.descend path).map (inform node) := by
  simp only [inform, setNodeId, setTotalNodes, setKeypair, setFormat, descend_propagate,
    Option.map_map]
  rfl

/-- Below the root everything arrives but the community. -/
theorem descend_attach_cons (node : NodeContext crypto) (name : String) (path : List String) :
    (attach node a).descend (name :: path) = (a.descend (name :: path)).map (inform node) := by
  rw [← descend_inform]
  exact descend_setCommunity_cons node.community name path

theorem informed_inform (node : NodeContext crypto) : (a.inform node).state.Informed node := by
  constructor <;> simp

end Algorithm

/-! ## What a constructed object knows -/

/-- Induction over the classes a class is built from. -/
@[elab_as_elim]
theorem Class.ind {motive : Class → Prop}
    (mk : ∀ base init required childFields handlers childHandlers,
      (∀ b, base = some b → motive b) → (∀ p ∈ childFields, motive p.2) →
      motive (.mk base init required childFields handlers childHandlers))
    (cls : Class) : motive cls :=
  @Class.rec motive (fun base => ∀ b, base = some b → motive b)
    (fun fields => ∀ p ∈ fields, motive p.2) (fun p => motive p.2)
    mk (by simp) (by rintro b hb _ ⟨⟩; exact hb)
    (by simp) (fun _ _ hp hfields => List.forall_mem_cons.2 ⟨hp, hfields⟩)
    (fun _ _ h => h) cls

namespace Algorithm

variable {a self child : Algorithm crypto} {cls : Class} {config : Config} {name : String}
  {fields : List (String × Class)}

/-- No object of the tree has any context. -/
inductive Blank : Algorithm crypto → Prop
  | mk {cls : Class} {children : List (String × Algorithm crypto)}
      (h : ∀ p ∈ children, Blank p.2) : Blank (mk cls {} children)

theorem Blank.state_eq (h : a.Blank) : a.state = {} := by
  cases h
  rfl

theorem Blank.children (h : a.Blank) : ∀ p ∈ a.children, p.2.Blank := by
  cases h with
  | mk h => exact h

theorem Blank.descend (h : a.Blank) {path : List String} {d : Algorithm crypto}
    (hd : a.descend path = some d) : d.Blank := by
  induction path generalizing a with
  | nil =>
    cases hd
    exact h
  | cons name path ih =>
    obtain ⟨child, hchild, hd⟩ := Option.bind_eq_some_iff.mp hd
    exact ih (h.children _ (mem_of_lookup hchild)) hd

/-- A parent without context passes none on. -/
theorem Blank.registerChild_eq (h : self.Blank) :
    self.registerChild name child = .mk self.cls {} (setItem self.children name child) := by
  simp [registerChild, h.state_eq]

theorem Blank.registerChild (h : self.Blank) (hchild : child.Blank) :
    (self.registerChild name child).Blank := by
  rw [h.registerChild_eq]
  refine .mk fun p hp => ?_
  rcases mem_setItem hp with hp | rfl
  · exact h.children p hp
  · exact hchild

theorem blank_init : self.init.Blank := .mk (by simp)

/-- The loop over the child fields, from what it does to the object at every field. -/
theorem initChildren_cons {p : String × Class}
    (h : initChildren (p :: fields) config self = .ok a) :
    ∃ child, construct p.2 (config.child p.1) = .ok child ∧
      initChildren fields config (self.registerChild p.1 child) = .ok a := by
  obtain ⟨name, cls⟩ := p
  rw [initChildren] at h
  cases hchild : (newInit cls (config.child name) (.mk cls {} []) :
      Except String (Algorithm crypto)) with
  | error e =>
    rw [hchild] at h
    cases h
  | ok child =>
    rw [hchild] at h
    exact ⟨child, hchild, h⟩

/-- What `newInit` returns: the object after the loop, after a second
`Algorithm.__init__`, or what an inherited `__init__` makes of it. -/
theorem newInit_cases {base : Option Class} {init : OwnInit} {required : List String}
    {handlers : List (String × Option PyType)} {childHandlers : ChildHandlers String}
    (h : newInit (.mk base init required fields handlers childHandlers) config self = .ok a) :
    ∃ looped, initChildren fields config self.init = .ok looped ∧
      ((∃ b, base = some b ∧ init = .none ∧ newInit b config looped = .ok a) ∨
        (base = none ∧ init = .configured ∧ a = looped.init) ∨
        ((base = none → init ≠ .configured) ∧ (base ≠ none → init ≠ .none) ∧ a = looped)) := by
  rw [newInit] at h
  cases hcheck : config.check required with
  | error e =>
    rw [hcheck] at h
    cases h
  | ok _ =>
    rw [hcheck] at h
    cases hlooped : initChildren fields config self.init with
    | error e =>
      simp [hlooped, bind, Except.bind] at h
    | ok looped =>
      refine ⟨looped, rfl, ?_⟩
      simp only [hlooped, bind, Except.bind] at h
      cases init <;> cases base <;> simp_all [originalInit]

@[simp] theorem cls_init : self.init.cls = self.cls := rfl

@[simp] theorem cls_registerChild : (self.registerChild name child).cls = self.cls := rfl

theorem cls_initChildren (h : initChildren fields config self = .ok a) : a.cls = self.cls := by
  induction fields generalizing self with
  | nil =>
    rw [initChildren] at h
    cases h
    rfl
  | cons p fields ih =>
    obtain ⟨child, -, h⟩ := initChildren_cons h
    exact (ih h).trans cls_registerChild

theorem cls_newInit (h : newInit cls config self = .ok a) : a.cls = self.cls := by
  induction cls using Class.ind generalizing config self a with
  | mk base init required fields handlers childHandlers ihbase ihfields =>
    obtain ⟨looped, hlooped, ⟨b, hb, -, h⟩ | ⟨-, -, rfl⟩ | ⟨-, -, rfl⟩⟩ := newInit_cases h
    · exact (ihbase b hb h).trans ((cls_initChildren hlooped).trans cls_init)
    · exact cls_init.trans ((cls_initChildren hlooped).trans cls_init)
    · exact (cls_initChildren hlooped).trans cls_init

theorem blank_initChildren (hself : self.Blank)
    (hfields : ∀ p ∈ fields, ∀ config child,
      construct p.2 config = .ok child → (child : Algorithm crypto).Blank)
    (h : initChildren fields config self = .ok a) : a.Blank := by
  induction fields generalizing self with
  | nil =>
    rw [initChildren] at h
    cases h
    exact hself
  | cons p fields ih =>
    obtain ⟨hp, hfields⟩ := List.forall_mem_cons.mp hfields
    obtain ⟨child, hchild, h⟩ := initChildren_cons h
    exact ih (hself.registerChild (hp _ _ hchild)) hfields h

/-- No context has been set anywhere in a tree before it is attached to a node. -/
theorem blank_newInit (h : newInit cls config self = .ok a) : a.Blank := by
  induction cls using Class.ind generalizing config self a with
  | mk base init required fields handlers childHandlers ihbase ihfields =>
    obtain ⟨looped, hlooped, ⟨b, hb, -, h⟩ | ⟨-, -, rfl⟩ | ⟨-, -, rfl⟩⟩ := newInit_cases h
    · exact ihbase b hb h
    · exact blank_init
    · exact blank_initChildren blank_init (fun p hp _ _ => ihfields p hp) hlooped

/-! ## Which children are registered -/

/-- The child a field stands for. -/
def OfField (p : String × Class) (q : String × Algorithm crypto) : Prop :=
  p.1 = q.1 ∧ ∃ config, construct p.2 config = .ok q.2

theorem names_eq {children : List (String × Algorithm crypto)}
    (h : List.Forall₂ OfField fields children) :
    fields.map Prod.fst = children.map Prod.fst := by
  induction h with
  | nil => rfl
  | cons hp _ ih => rw [List.map_cons, List.map_cons, hp.1, ih]

theorem exists_of_mem_right {children : List (String × Algorithm crypto)}
    (h : List.Forall₂ OfField fields children) {q : String × Algorithm crypto} (hq : q ∈ children) :
    ∃ p ∈ fields, OfField p q := by
  induction h with
  | nil => simp at hq
  | cons hp _ ih =>
    rcases List.mem_cons.mp hq with rfl | hq
    · exact ⟨_, List.mem_cons_self, hp⟩
    · obtain ⟨p, hmem, hp⟩ := ih hq
      exact ⟨p, List.mem_cons_of_mem _ hmem, hp⟩

theorem exists_of_mem_left {children : List (String × Algorithm crypto)}
    (h : List.Forall₂ OfField fields children) {p : String × Class} (hp : p ∈ fields) :
    ∃ q ∈ children, OfField p q := by
  induction h with
  | nil => simp at hp
  | cons hq _ ih =>
    rcases List.mem_cons.mp hp with rfl | hp
    · exact ⟨_, List.mem_cons_self, hq⟩
    · obtain ⟨q, hmem, hq⟩ := ih hp
      exact ⟨q, List.mem_cons_of_mem _ hmem, hq⟩

theorem children_initChildren {done : List (String × Class)} (hself : self.Blank)
    (hdone : List.Forall₂ OfField done self.children)
    (hnodup : ((done ++ fields).map Prod.fst).Nodup)
    (h : initChildren fields config self = .ok a) :
    List.Forall₂ OfField (done ++ fields) a.children := by
  induction fields generalizing self done with
  | nil =>
    rw [initChildren] at h
    cases h
    rwa [List.append_nil]
  | cons p fields ih =>
    obtain ⟨child, hchild, h⟩ := initChildren_cons h
    have hnew : p.1 ∉ self.children.map Prod.fst := by
      rw [← names_eq hdone]
      rw [List.map_append, List.map_cons, List.nodup_append] at hnodup
      exact fun hmem => hnodup.2.2 _ hmem _ List.mem_cons_self rfl
    have hchildren : (self.registerChild p.1 child).children = self.children ++ [(p.1, child)] := by
      rw [hself.registerChild_eq, setItem_of_notMem hnew]
      rfl
    rw [List.append_cons]
    refine ih (hself.registerChild (blank_newInit hchild)) ?_ (by simpa using hnodup) h
    rw [hchildren]
    exact List.rel_append hdone (.cons ⟨rfl, _, hchild⟩ .nil)

/-- The registered children of an object, in their order. -/
theorem children_newInit (hwf : cls.Wf) (h : newInit cls config self = .ok a) :
    List.Forall₂ OfField cls.kept a.children := by
  induction cls using Class.ind generalizing config self a with
  | mk base init required fields handlers childHandlers ihbase ihfields =>
    obtain ⟨hbase, hnodup, -⟩ := hwf
    obtain ⟨looped, hlooped, ⟨b, rfl, rfl, hb⟩ | ⟨rfl, rfl, rfl⟩ | ⟨hroot, hderived, rfl⟩⟩ :=
      newInit_cases h
    · exact ihbase b rfl (hbase b rfl) hb
    · exact .nil
    · have hkept : (Class.mk base init required fields handlers childHandlers).kept = fields := by
        cases base <;> cases init <;> simp_all [Class.kept]
      rw [hkept]
      have hdone : List.Forall₂ OfField [] self.init.children := .nil
      exact children_initChildren blank_init hdone hnodup hlooped

/-! ## What reaches the tree -/

variable {node : NodeContext crypto} {root : Algorithm crypto}

/-- The objects that can be reached from a constructed one are those at the paths along
the fields that keep their children. -/
theorem exists_descend_iff (hwf : cls.Wf) (h : newInit cls config self = .ok a)
    (path : List String) : (∃ d, a.descend path = some d) ↔ cls.Path Class.kept path := by
  induction path generalizing cls config self a with
  | nil => exact ⟨fun _ => .nil, fun _ => ⟨a, rfl⟩⟩
  | cons name path ih =>
    have hchildren := children_newInit hwf h
    have hnodup : (a.children.map Prod.fst).Nodup := names_eq hchildren ▸ hwf.nodup_kept
    constructor
    · rintro ⟨d, hd⟩
      obtain ⟨child, hchild, hbelow⟩ := Option.bind_eq_some_iff.mp hd
      obtain ⟨p, hp, rfl, _, hbuilt⟩ := exists_of_mem_right hchildren (mem_of_lookup hchild)
      exact .cons hp ((ih (hwf.of_kept p hp) hbuilt).mp ⟨d, hbelow⟩)
    · rintro (_ | ⟨hmem, hpath⟩)
      obtain ⟨q, hq, rfl, _, hbuilt⟩ := exists_of_mem_left hchildren hmem
      obtain ⟨d, hd⟩ := (ih (hwf.of_kept _ hmem) hbuilt).mpr hpath
      refine ⟨d, ?_⟩
      rw [descend, lookup_of_mem hnodup hq]
      exact hd

theorem informed_attach : (attach node a).state.Informed node := by
  constructor <;> simp [attach, setNodeId, setTotalNodes, setKeypair, setFormat]

theorem not_contextReaches (h : construct cls config = .ok root) (hne : cls.declared ≠ []) :
    ¬ ContextReaches node cls (attach node root) := by
  intro hreaches
  obtain ⟨p, hp⟩ := List.exists_mem_of_ne_nil _ hne
  obtain ⟨d, hd, -, hcommunity, -⟩ := hreaches [p.1] (.cons hp .nil)
  rw [descend_attach_cons, Option.map_eq_some_iff] at hd
  obtain ⟨d, hd, rfl⟩ := hd
  rw [state_inform, ((blank_newInit h).descend hd).state_eq] at hcommunity
  cases hcommunity

/-- **The whole context.** It reaches every object of the tree just where the tree is a
single object: the community is not handed on. -/
theorem contextReaches_iff (h : construct cls config = .ok root) :
    ContextReaches node cls (attach node root) ↔ cls.declared = [] := by
  refine ⟨fun hreaches => ?_, fun hdeclared => ?_⟩
  · by_contra hne
    exact not_contextReaches h hne hreaches
  · rintro path (_ | ⟨hmem, -⟩)
    · refine ⟨_, rfl, informed_attach, by simp [attach], _, rfl, ?_⟩
      simp [terminate]
    · rw [hdeclared] at hmem
      simp at hmem

/-- A node `n1` with one peer. -/
def node₁ : NodeContext plainCrypto := ⟨"n1", ⟨["n2"], fun _ => none⟩, keyPair₁, .json⟩

/-- `SimpleBroadcast`. -/
def simpleBroadcast : Class :=
  .mk none .none [] []
    [("simple_broadcast_message", some SimpleBroadcast.simpleBroadcastMessage)] []

/-- `SimpleBroadcastUpper`. -/
def simpleBroadcastUpper : Class :=
  .mk none .none [] [("broadcast", simpleBroadcast)] []
    [("broadcast", [("BroadcastEcho", "broadcast_echo", some SimpleBroadcast.broadcastEcho),
      ("BroadcastSend", "broadcast_send", some SimpleBroadcast.broadcastSend)])]

/-- An algorithm without children gets everything. -/
theorem contextReaches_iff_simpleBroadcast :
    ∃ root, construct simpleBroadcast (.mk [] []) = .ok root ∧
      ContextReaches node₁ simpleBroadcast (attach node₁ root) := by
  obtain ⟨root, hroot⟩ : ∃ root : Algorithm plainCrypto,
      construct simpleBroadcast (.mk [] []) = .ok root := ⟨_, rfl⟩
  exact ⟨root, hroot, (contextReaches_iff hroot).mpr rfl⟩

/-- The child of `SimpleBroadcastUpper` has no community. -/
theorem not_contextReaches_simpleBroadcastUpper :
    ¬ ∀ (cls : Class) (config : Config) (root : Algorithm plainCrypto),
      construct cls config = .ok root → ContextReaches node₁ cls (attach node₁ root) := by
  intro h
  obtain ⟨root, hroot⟩ : ∃ root : Algorithm plainCrypto,
      construct simpleBroadcastUpper (.mk [] []) = .ok root := ⟨_, rfl⟩
  have hne : simpleBroadcastUpper.declared ≠ [] := by
    simp [simpleBroadcastUpper, Class.declared]
  exact not_contextReaches hroot hne (h simpleBroadcastUpper (.mk [] []) root hroot)

/-- **The rest of it.** The id, the number of nodes, the key pair and the format reach
every object of the tree just where every class keeps all children its fields declare. -/
theorem registered_iff (hwf : cls.Wf) (h : construct cls config = .ok root) :
    (∀ path, cls.Path Class.declared path →
      ∃ d, (attach node root).descend path = some d ∧ d.state.Informed node) ↔
    ∀ path, cls.Path Class.declared path → cls.Path Class.kept path := by
  have hdescend : ∀ path, (∃ d, (attach node root).descend path = some d ∧
      d.state.Informed node) ↔ ∃ d, root.descend path = some d := by
    rintro (_ | ⟨name, path⟩)
    · exact ⟨fun _ => ⟨_, rfl⟩, fun _ => ⟨_, rfl, informed_attach⟩⟩
    · rw [descend_attach_cons]
      constructor
      · rintro ⟨d, hd, -⟩
        obtain ⟨d, hd, -⟩ := Option.map_eq_some_iff.mp hd
        exact ⟨d, hd⟩
      · rintro ⟨d, hd⟩
        exact ⟨_, Option.map_eq_some_iff.mpr ⟨d, hd, rfl⟩, informed_inform node⟩
  simp only [hdescend, exists_descend_iff hwf h]

/-- `DMsg`. -/
def dMsg : PyType :=
  .cls ⟨"DMsg", .message⟩ [⟨"msg_id", .str, none⟩, ⟨"source", .str, none⟩, ⟨"payload", .str, none⟩,
    ⟨"path", .list .str, none⟩] []

/-- `Dolev`. -/
def dolev : Class := .mk none .configured [] [] [("dolev", some dMsg)] []

/-- `Bracha`. -/
def bracha : Class :=
  .mk none .configured ["is_sender"] [("dolev_alg", dolev)] [("dolev", some dMsg)]
    [("dolev_alg", [("DMsg", "dolev_deliver", some dMsg)])]

-- the `__init__` of Bracha runs `Algorithm.__init__` after its child has been registered
example : bracha.declared = [("dolev_alg", dolev)] ∧ bracha.kept = [] := ⟨rfl, rfl⟩

end Algorithm

end DistBench.Layers
