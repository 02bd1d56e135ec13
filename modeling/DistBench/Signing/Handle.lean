import DistBench.Signing.Binding

/-!
# The generated `handle`

What `@distbench` generates for an algorithm: a message is routed to a handler
by its path or its type id, decoded as the handler's annotation, verified and
passed on. `InPlace` says that the positions an annotation types as `Signed`
hold `Signed` objects. The decoder gives up silently: what does not look like
the annotation is returned as it was received, and an untyped tree passes the
verifier. `Shaped` describes the trees for which this does not happen. The verifier
in turn passes over the instances of a class that has a field called `verify`;
`HiddenValid` says that nothing is wrong with what is inside these.
-/

namespace DistBench

open PyValue (Builtin)

/-! ## Routing -/

/-- A class with `@distbench`: the annotations of its handlers, `none` where
the annotation is an unresolved string, and its children. -/
inductive Algo where
  | mk (handlers : List (String × Option PyType)) (children : List (String × Algo))

namespace Algo

def handlers : Algo → List (String × Option PyType)
  | mk handlers _ => handlers

def children : Algo → List (String × Algo)
  | mk _ children => children

variable (lib : Codecs Cls) (crypto : Crypto) (keystore : Keystore) (fmt : Format)

/-- Decoding and verification for a handler; the result is what the handler is
called with. -/
def receive (type : Option PyType) (msgBytes : Bytes) : Option (PyType × Value) := do
  let msgType ← type
  let msgObj ← fmt.deserialize lib msgBytes msgType
  if recursiveVerify crypto keystore msgObj then some (msgType, msgObj) else none

/-- The call that `handle` makes, with the annotation of the handler. -/
def handle (self : Algo) : List String → String → Bytes → Option (PyType × Value)
  | childName :: remainingPath, msgTypeId, msgBytes => do
    let child ← self.children.lookup childName
    child.handle remainingPath msgTypeId msgBytes
  | [], msgTypeId, msgBytes =>
    match self.handlers.lookup msgTypeId with
    | some type => receive lib crypto keystore fmt type msgBytes
    -- implicit routing: the first child that has the handler
    | none => do
      let (_, child) ← self.children.find? fun p => (p.2.handlers.lookup msgTypeId).isSome
      let type ← child.handlers.lookup msgTypeId
      receive lib crypto keystore fmt type msgBytes

end Algo

/-! ## Annotations -/

/-- The annotations of handlers: scalars, byte strings, `@message` classes,
`list`, `Optional`, `dict[str, T]` and `Signed`. -/
inductive Annotated : PyType → Prop
  | str : Annotated .str
  | int : Annotated .int
  | float : Annotated .float
  | bool : Annotated .bool
  | bytes : Annotated .bytes
  | list {t : PyType} (h : Annotated t) : Annotated (.list t)
  | optional {t : PyType} (h : Annotated t) : Annotated (.optional t)
  | dict {t : PyType} (h : Annotated t) : Annotated (.dict t)
  | signed {t : PyType} (h : Annotated t) : Annotated (.signed t)
  | message {name : String} {fields : List (Field PyType)}
      (nodup : (fields.map Field.name).Nodup) (h : ∀ f ∈ fields, Annotated f.type) :
      Annotated (.cls ⟨name, .message⟩ fields [])

/-- The annotation has a position typed as `Signed`. -/
inductive HasSigned : PyType → Prop
  | list {t : PyType} (h : HasSigned t) : HasSigned (.list t)
  | optional {t : PyType} (h : HasSigned t) : HasSigned (.optional t)
  | dict {t : PyType} (h : HasSigned t) : HasSigned (.dict t)
  | signed {t : PyType} : HasSigned (.signed t)
  | message {c : Cls} {fields : List (Field PyType)} {f : Field PyType} (hf : f ∈ fields)
      (h : HasSigned f.type) : HasSigned (.cls c fields [])

/-- Every position that the annotation types as `Signed` holds a `Signed` object
whose value, signature and signer satisfy `S`; an absent `Optional` is `None`. -/
inductive InPlace (S : Value → Value → Value → Prop) : PyType → Value → Prop
  | free {t : PyType} {v : Value} (h : ¬ HasSigned t) : InPlace S t v
  | list {t : PyType} {xs : List Value} (h : ∀ x ∈ xs, InPlace S t x) :
      InPlace S (.list t) (.list xs)
  | absent {t : PyType} : InPlace S (.optional t) .none
  | present {t : PyType} {v : Value} (h : InPlace S t v) : InPlace S (.optional t) v
  | dict {t : PyType} {items : List (Key × Value)} (h : ∀ p ∈ items, InPlace S t p.2) :
      InPlace S (.dict t) (.dict items)
  | signed {t : PyType} {value signature signer : Value} (hS : S value signature signer)
      (h : InPlace S t value) : InPlace S (.signed t) (signed value signature signer)
  | message {c : Cls} {fields : List (Field PyType)} {attrs : List (String × Value)}
      (names : attrs.map Prod.fst = fields.map Field.name)
      (h : ∀ f ∈ fields, InPlace S f.type (attrOf attrs f.name)) :
      InPlace S (.cls c fields []) (.obj c attrs)

theorem InPlace.mono {S S' : Value → Value → Value → Prop}
    (hS : ∀ value signature signer, S value signature signer → S' value signature signer)
    {t : PyType} {v : Value} (h : InPlace S t v) : InPlace S' t v := by
  induction h with
  | free h => exact .free h
  | list _ ih => exact .list ih
  | absent => exact .absent
  | present _ ih => exact .present ih
  | dict _ ih => exact .dict ih
  | signed h _ ih => exact .signed (hS _ _ _ h) ih
  | message names _ ih => exact .message names ih

/-- `Signed` objects, verified or not. -/
abbrev SignedInPlace : PyType → Value → Prop :=
  InPlace fun _ _ _ => True

/-- The position of type `t'` inside a value of type `t` where `v'` is. -/
inductive At : PyType → Value → PyType → Value → Prop
  | here {t : PyType} {v : Value} : At t v t v
  | list {t t' : PyType} {xs : List Value} {x v' : Value} (hx : x ∈ xs) (h : At t x t' v') :
      At (.list t) (.list xs) t' v'
  | present {t t' : PyType} {v v' : Value} (hv : v ≠ .none) (h : At t v t' v') :
      At (.optional t) v t' v'
  | dict {t t' : PyType} {items : List (Key × Value)} {p : Key × Value} {v' : Value}
      (hp : p ∈ items) (h : At t p.2 t' v') : At (.dict t) (.dict items) t' v'
  | signed {t t' : PyType} {value signature signer v' : Value} (h : At t value t' v') :
      At (.signed t) (signed value signature signer) t' v'
  | message {c : Cls} {fields : List (Field PyType)} {attrs : List (String × Value)}
      {f : Field PyType} {t' : PyType} {v' : Value} (hf : f ∈ fields)
      (h : At f.type (attrOf attrs f.name) t' v') : At (.cls c fields []) (.obj c attrs) t' v'

/-- What is inside a message with a field called `verify` is in place. -/
def HiddenValid (S : Value → Value → Value → Prop) (t : PyType) (v : Value) : Prop :=
  ∀ c fields v', At t v (.cls c fields []) v' → "verify" ∈ fields.map Field.name →
    InPlace S (.cls c fields []) v'

variable {lib : Codecs Cls} {crypto : Crypto} {keystore : Keystore} {fmt : Format}

/-- What is in place is so at every position. -/
theorem InPlace.at {S : Value → Value → Value → Prop} {t t' : PyType} {v v' : Value}
    (hat : At t v t' v') (h : InPlace S t v) : InPlace S t' v' := by
  induction hat with
  | here => exact h
  | list hx _ ih =>
    cases h with
    | free h => exact ih (.free fun h' => h (.list h'))
    | list h => exact ih (h _ hx)
  | present hv _ ih =>
    cases h with
    | free h => exact ih (.free fun h' => h (.optional h'))
    | absent => exact absurd rfl hv
    | present h => exact ih h
  | dict hp _ ih =>
    cases h with
    | free h => exact ih (.free fun h' => h (.dict h'))
    | dict h => exact ih (h _ hp)
  | signed _ ih =>
    cases h with
    | free h => exact absurd .signed h
    | signed _ h => exact ih h
  | message hf _ ih =>
    cases h with
    | free h => exact ih (.free fun h' => h (.message hf h'))
    | message _ h => exact ih (h _ hf)

theorem InPlace.hiddenValid {S : Value → Value → Value → Prop} {t : PyType} {v : Value}
    (h : InPlace S t v) : HiddenValid S t v :=
  fun _ _ _ hat _ => h.at hat

theorem mem_attrOf {attrs : List (String × Value)} {name : String}
    (h : name ∈ attrs.map Prod.fst) : (name, attrOf attrs name) ∈ attrs := by
  induction attrs with
  | nil => simp at h
  | cons p attrs ih =>
    obtain ⟨k, v⟩ := p
    by_cases hk : name = k
    · subst hk
      simp [attrOf]
    · have hmem : name ∈ attrs.map Prod.fst := by simpa [hk] using h
      have hne : (name == k) = false := by simpa using hk
      simpa [attrOf, List.lookup_cons, hne, hk] using ih hmem

/-- The verifier visits every position where there is a `Signed` object, except inside
messages with a field called `verify`. -/
theorem InPlace.of_recursiveVerify {t : PyType} (ht : Annotated t) {v : Value}
    (h : SignedInPlace t v) (hv : recursiveVerify crypto keystore v = true)
    (hhidden : HiddenValid (fun value signature signer =>
      signatureValid crypto keystore value signature signer = true) t v) :
    InPlace (fun value signature signer =>
      signatureValid crypto keystore value signature signer = true) t v := by
  induction ht generalizing v with
  | str | int | float | bool | bytes => exact .free (by rintro ⟨⟩)
  | list _ ih =>
    cases h with
    | free h => exact .free h
    | list h =>
      refine .list fun x hx => ih (h x hx) (verifyAll_iff.1 hv x hx) ?_
      exact fun c fields v' hat => hhidden c fields v' (.list hx hat)
  | optional _ ih =>
    cases h with
    | free h => exact .free h
    | absent => exact .absent
    | present h =>
      by_cases hnone : v = .none
      · subst hnone
        exact .absent
      · exact .present (ih h hv fun c fields v' hat => hhidden c fields v' (.present hnone hat))
  | dict _ ih =>
    cases h with
    | free h => exact .free h
    | dict h =>
      refine .dict fun p hp => ih (h p hp) (verifyItems_iff.1 hv p hp) ?_
      exact fun c fields v' hat => hhidden c fields v' (.dict hp hat)
  | signed _ ih =>
    cases h with
    | free h => exact .free h
    | signed _ h =>
      rw [recursiveVerify_signed, signedVerify, Bool.and_eq_true] at hv
      exact .signed hv.1 (ih h hv.2 fun c fields v' hat => hhidden c fields v' (.signed hat))
  | @message name fields nodup _ ih =>
    cases h with
    | free h => exact .free h
    | message names h =>
      by_cases hverify : "verify" ∈ fields.map Field.name
      · exact hhidden _ fields _ .here hverify
      · rw [recursiveVerify_message (names ▸ hverify)] at hv
        refine .message names fun f hf => ih f hf (h f hf) ?_ ?_
        · have hname : f.name ∈ List.map Prod.fst _ := names ▸ List.mem_map_of_mem hf
          exact verifyAttrs_iff.1 hv _ (mem_attrOf hname)
        · exact fun c fields v' hat => hhidden c fields v' (.message hf hat)

/-! ## What the decoder leaves behind -/

/-- The received tree has an object wherever a class with a `Signed` inside is
annotated and a list wherever a list is. What is annotated as `Optional` or
`dict` is not decoded, so it may not have any such position itself. -/
inductive Shaped : PyType → Value → Prop
  | free {t : PyType} {data : Value} (h : ¬ HasSigned t) : Shaped t data
  | list {t : PyType} {data : Value} {xs : List Value} (hd : data.items? = some xs)
      (h : ∀ x ∈ xs, Shaped t x) : Shaped (.list t) data
  | optional {t : PyType} {data : Value} (h : SignedInPlace (.optional t) data) :
      Shaped (.optional t) data
  | dict {t : PyType} {data : Value} (h : SignedInPlace (.dict t) data) : Shaped (.dict t) data
  | signed {t : PyType} {obj : List (Key × Value)} {data : Value}
      (hd : obj.lookup (.str "value") = some data) (h : Shaped t data) :
      Shaped (.signed t) (.dict obj)
  | message {c : Cls} {fields : List (Field PyType)} {obj : List (Key × Value)}
      (sent : ∀ f ∈ fields, ∀ data, obj.lookup (.str f.name) = some data → Shaped f.type data)
      (unsent : ∀ f ∈ fields, ∀ value, obj.lookup (.str f.name) = none →
        f.default = some value → SignedInPlace f.type value) :
      Shaped (.cls c fields []) (.dict obj)

/-- The value of one field. -/
def decodeField (arg : Option (Value → Option Value)) (f : Field PyType)
    (obj : List (Key × Value)) : Option Value :=
  match obj.lookup (.str f.name) with
  | some data =>
    match arg with
    | some decode => if f.name = "value" then decode data else deserializeObj f.type data
    | none => deserializeObj f.type data
  | none => f.default

variable {arg : Option (Value → Option Value)}

theorem deserializeFields_cons (f : Field PyType) (fields : List (Field PyType))
    (obj : List (Key × Value)) :
    deserializeFields (f :: fields) arg obj =
      (decodeField arg f obj).bind fun value =>
        (deserializeFields fields arg obj).map fun values => (f.name, value) :: values := by
  obtain ⟨name, type, default⟩ := f
  simp only [deserializeFields, decodeField]
  cases obj.lookup (.str name) <;> cases arg <;> simp [Option.map_eq_bind]
  split <;> rfl

/-- What the constructor is called with. -/
theorem deserializeFields_some {fields : List (Field PyType)} {obj : List (Key × Value)}
    {attrs : List (String × Value)} (h : deserializeFields fields arg obj = some attrs) :
    attrs.map Prod.fst = fields.map Field.name ∧
      ((fields.map Field.name).Nodup → ∀ f ∈ fields,
        decodeField arg f obj = some (attrOf attrs f.name)) := by
  induction fields generalizing attrs with
  | nil =>
    obtain rfl : [] = attrs := by simpa [deserializeFields] using h
    simp
  | cons f fields ih =>
    rw [deserializeFields_cons, Option.bind_eq_some_iff] at h
    obtain ⟨value, hvalue, h⟩ := h
    obtain ⟨values, hvalues, rfl⟩ := Option.map_eq_some_iff.1 h
    obtain ⟨hnames, hfields⟩ := ih hvalues
    refine ⟨by simp [hnames], fun nodup g hg => ?_⟩
    obtain ⟨hf, nodup⟩ := List.nodup_cons.1 nodup
    rcases List.mem_cons.1 hg with rfl | hg
    · simpa [attrOf] using hvalue
    · have hne : (g.name == f.name) = false := by
        simpa using fun e : g.name = f.name => hf (e ▸ List.mem_map_of_mem hg)
      simpa [attrOf, List.lookup_cons, hne] using hfields nodup g hg

/-- A class is made of an object, of nothing else. -/
theorem deserializeObj_cls {c : Cls} {fields : List (Field PyType)} {args : List PyType}
    {data : Value} (hdata : data.Builtin) {c' : Cls} {attrs : List (String × Value)}
    (h : deserializeObj (.cls c fields args) data = some (.obj c' attrs)) :
    ∃ obj, data = .dict obj ∧ deserializeFields fields (deserializeArg args) obj = some attrs := by
  cases hdata with
  | @dict obj _ _ =>
    obtain ⟨attrs', hattrs, he⟩ := Option.map_eq_some_iff.1 h
    cases he
    exact ⟨obj, rfl, hattrs⟩
  | _ => cases h

theorem deserializeFields_signed {t : PyType} {obj : List (Key × Value)}
    {attrs : List (String × Value)}
    (h : deserializeFields PyType.signedFields (deserializeArg [t]) obj = some attrs) :
    ∃ data value signature signer, obj.lookup (.str "value") = some data ∧
      deserializeObj t data = some value ∧
      attrs = [("value", value), ("signature", signature), ("signer", signer)] := by
  obtain ⟨hnames, hfields⟩ := deserializeFields_some h
  have hvalue := hfields (by simp [PyType.signedFields]) ⟨"value", .any, none⟩
    (by simp [PyType.signedFields])
  obtain _ | ⟨⟨_, value⟩, _ | ⟨⟨_, signature⟩, _ | ⟨⟨_, signer⟩, _ | _⟩⟩⟩ := attrs <;>
    simp only [PyType.signedFields, List.map_cons, List.map_nil, List.cons.injEq, and_true,
      reduceCtorEq, and_false] at hnames
  · obtain ⟨rfl, rfl, rfl⟩ := hnames
    simp only [decodeField, deserializeArg, if_true] at hvalue
    cases hdata : obj.lookup (.str "value") with
    | none => simp [hdata] at hvalue
    | some data =>
      exact ⟨data, value, signature, signer, rfl, by simpa [hdata, attrOf] using hvalue, rfl⟩

theorem Builtin.items {data : Value} (h : data.Builtin) {xs : List Value}
    (hxs : data.items? = some xs) : ∀ x ∈ xs, x.Builtin := by
  cases h with
  | list h => cases hxs; exact h
  | tuple h => cases hxs; exact h
  | _ => cases hxs

theorem Builtin.lookup {obj : List (Key × Value)} (h : (PyValue.dict obj).Builtin) {k : Key}
    {data : Value} (hd : obj.lookup k = some data) : data.Builtin := by
  cases h with
  | dict _ h =>
    obtain ⟨l₁, l₂, rfl, _⟩ := List.lookup_eq_some_iff.1 hd
    exact h (k, data) (by simp)

theorem mapM_mem {α β : Type} {g : α → Option β} {xs : List α} {ys : List β}
    (h : xs.mapM g = some ys) :
    (∀ x ∈ xs, ∃ y ∈ ys, g x = some y) ∧ ∀ y ∈ ys, ∃ x ∈ xs, g x = some y := by
  induction xs generalizing ys with
  | nil =>
    obtain rfl : [] = ys := by simpa using h
    simp
  | cons x xs ih =>
    simp only [List.mapM_cons, Option.pure_def, Option.bind_eq_bind,
      Option.bind_eq_some_iff] at h
    obtain ⟨y, hy, ys', hys, he⟩ := h
    obtain rfl : y :: ys' = ys := by simpa using he
    obtain ⟨h₁, h₂⟩ := ih hys
    constructor
    · intro z hz
      rcases List.mem_cons.1 hz with rfl | hz
      · exact ⟨y, by simp, hy⟩
      · obtain ⟨w, hw, hzw⟩ := h₁ z hz
        exact ⟨w, by simp [hw], hzw⟩
    · intro w hw
      rcases List.mem_cons.1 hw with rfl | hw
      · exact ⟨x, by simp, hy⟩
      · obtain ⟨z, hz, hzw⟩ := h₂ w hw
        exact ⟨z, by simp [hz], hzw⟩

theorem Annotated.isAny {t : PyType} (h : Annotated t) : t.isAny = false := by
  cases h <;> rfl

/-- A list is decoded item by item; what is not a list is returned as it is. -/
theorem deserializeObj_list {t : PyType} (ht : Annotated t) {data v : Value}
    (h : deserializeObj (.list t) data = some v) :
    (data.items? = none ∧ v = data) ∨
      ∃ xs ys, data.items? = some xs ∧ xs.mapM (deserializeObj t) = some ys ∧ v = .list ys := by
  rw [deserializeObj, ht.isAny] at h
  cases hitems : data.items? with
  | none => exact .inl ⟨rfl, by simpa [hitems] using h.symm⟩
  | some xs =>
    simp only [hitems, Bool.false_eq_true, if_false] at h
    obtain ⟨ys, hys, rfl⟩ := Option.map_eq_some_iff.1 h
    exact .inr ⟨xs, ys, rfl, hys, rfl⟩

/-- Whatever decodes has its `Signed` objects in place exactly where the tree has
the shape for them. -/
theorem signedInPlace_iff_shaped {t : PyType} (ht : Annotated t) {data : Value}
    (hdata : data.Builtin) {v : Value} (hv : deserializeObj t data = some v) :
    SignedInPlace t v ↔ Shaped t data := by
  induction ht generalizing data v with
  | str | int | float | bool | bytes =>
    exact ⟨fun _ => .free (by rintro ⟨⟩), fun _ => .free (by rintro ⟨⟩)⟩
  | list ht ih =>
    constructor
    · intro h
      cases h with
      | free h => exact .free h
      | list h =>
        obtain ⟨hitems, rfl⟩ | ⟨xs, ys, hitems, hys, he⟩ := deserializeObj_list ht hv
        · cases hitems
        · cases he
          refine .list hitems fun x hx => ?_
          obtain ⟨y, hy, hxy⟩ := (mapM_mem hys).1 x hx
          exact (ih (Builtin.items hdata hitems x hx) hxy).1 (h y hy)
    · intro h
      cases h with
      | free h => exact .free h
      | list hd h =>
        obtain ⟨hitems, _⟩ | ⟨xs, ys, hitems, hys, rfl⟩ := deserializeObj_list ht hv
        · rw [hd] at hitems
          cases hitems
        · obtain rfl := Option.some.inj (hd.symm.trans hitems)
          refine .list fun y hy => ?_
          obtain ⟨x, hx, hxy⟩ := (mapM_mem hys).2 y hy
          exact (ih (Builtin.items hdata hitems x hx) hxy).2 (h x hx)
  | optional _ ih =>
    obtain rfl : data = v := by simpa [deserializeObj] using hv
    refine ⟨.optional, fun h => ?_⟩
    cases h with
    | free h => exact .free h
    | optional h => exact h
  | dict _ ih =>
    obtain rfl : data = v := by simpa [deserializeObj] using hv
    refine ⟨.dict, fun h => ?_⟩
    cases h with
    | free h => exact .free h
    | dict h => exact h
  | signed ht ih =>
    constructor
    · intro h
      cases h with
      | free h => exact absurd .signed h
      | signed _ h =>
        obtain ⟨obj, rfl, hattrs⟩ := deserializeObj_cls hdata hv
        obtain ⟨data, value, _, _, hl, hvalue, he⟩ := deserializeFields_signed hattrs
        simp only [List.cons.injEq, Prod.mk.injEq, true_and] at he
        obtain ⟨rfl, _⟩ := he
        exact .signed hl ((ih (Builtin.lookup hdata hl) hvalue).1 h)
    · intro h
      cases h with
      | free h => exact absurd .signed h
      | signed hl h =>
        obtain ⟨attrs, hattrs, rfl⟩ := Option.map_eq_some_iff.1 hv
        obtain ⟨data', value, _, _, hl', hvalue, rfl⟩ := deserializeFields_signed hattrs
        obtain rfl := Option.some.inj (hl.symm.trans hl')
        exact .signed trivial ((ih (Builtin.lookup hdata hl) hvalue).2 h)
  | message nodup _ ih =>
    constructor
    · intro h
      cases h with
      | free h => exact .free h
      | message names h =>
        obtain ⟨obj, rfl, hattrs⟩ := deserializeObj_cls hdata hv
        have hfields := (deserializeFields_some hattrs).2 nodup
        refine .message (fun f hf data hl => ?_) fun f hf value hl hd => ?_
        · have hf' := hfields f hf
          simp only [decodeField, hl, deserializeArg] at hf'
          exact (ih f hf (Builtin.lookup hdata hl) hf').1 (h f hf)
        · have hf' := hfields f hf
          simp only [decodeField, hl, hd, Option.some.injEq] at hf'
          exact hf' ▸ h f hf
    · intro h
      cases h with
      | free h => exact .free h
      | message sent unsent =>
        obtain ⟨attrs, hattrs, rfl⟩ := Option.map_eq_some_iff.1 hv
        obtain ⟨names, hfields⟩ := deserializeFields_some hattrs
        refine .message names fun f hf => ?_
        have hf' := hfields nodup f hf
        simp only [decodeField, deserializeArg] at hf'
        split at hf'
        · rename_i data hl
          exact (ih f hf (Builtin.lookup hdata hl) hf').2 (sent f hf data hl)
        · rename_i hl
          exact unsent f hf _ hl hf'

/-! ## Calls of handlers -/

/-- What is received is made of built-in values, whatever the bytes. -/
theorem Format.tree_builtin (hlib : lib.Lawful) {b : Bytes} {data : Value}
    (h : fmt.tree lib b = some data) : data.Builtin := by
  cases fmt with
  | json =>
    obtain ⟨text, _, hloads⟩ := Option.bind_eq_some_iff.1 h
    obtain ⟨w, hw, hv⟩ := hlib.loads_tree _ _ _ hloads
    refine PyValue.hookAll_builtin (fun items v hitems hhook => ?_) hw hv
    unfold jsonDecoder at hhook
    split at hhook
    · obtain ⟨b, _, rfl⟩ := Option.map_eq_some_iff.1 hhook
      exact .bytes b
    · cases hhook
      exact .dict trivial hitems
  | msgpack => exact (hlib.unpackb_plain _ _ h).mono fun _ _ => trivial

theorem Algo.receive_some {type : Option PyType} {b : Bytes} {t : PyType} {msg : Value}
    (h : Algo.receive lib crypto keystore fmt type b = some (t, msg)) :
    fmt.deserialize lib b t = some msg ∧ recursiveVerify crypto keystore msg = true := by
  simp only [Algo.receive, Option.bind_eq_bind, Option.bind_eq_some_iff] at h
  obtain ⟨t', _, msg', hmsg, h⟩ := h
  split_ifs at h with hv
  cases h
  exact ⟨hmsg, hv⟩

/-- A handler is called with what its annotation decodes to, once it verifies. -/
theorem Algo.handle_some {self : Algo} {path : List String} {msgTypeId : String} {b : Bytes}
    {t : PyType} {msg : Value}
    (h : self.handle lib crypto keystore fmt path msgTypeId b = some (t, msg)) :
    fmt.deserialize lib b t = some msg ∧ recursiveVerify crypto keystore msg = true := by
  induction path generalizing self with
  | nil =>
    unfold Algo.handle at h
    split at h
    · exact receive_some h
    · simp only [Option.bind_eq_bind, Option.bind_eq_some_iff] at h
      obtain ⟨_, _, _, _, h⟩ := h
      exact receive_some h
  | cons childName path ih =>
    obtain ⟨child, _, h⟩ := Option.bind_eq_some_iff.1 h
    exact ih h

/-- A called handler gets verified `Signed` objects at all positions annotated as
such exactly when the received tree has the shape of the annotation there and nothing
is wrong inside the messages the verifier passes over. -/
theorem Algo.handle_inPlace_iff (hlib : lib.Lawful) {self : Algo} {path : List String}
    {msgTypeId : String} {b : Bytes} {t : PyType} {msg data : Value}
    (hcall : self.handle lib crypto keystore fmt path msgTypeId b = some (t, msg))
    (ht : Annotated t) (hdata : fmt.tree lib b = some data) :
    InPlace (fun value signature signer =>
      signatureValid crypto keystore value signature signer = true) t msg ↔
      Shaped t data ∧ HiddenValid (fun value signature signer =>
        signatureValid crypto keystore value signature signer = true) t msg := by
  obtain ⟨hmsg, hverify⟩ := handle_some hcall
  rw [Format.deserialize, hdata, Option.bind_some] at hmsg
  rw [← signedInPlace_iff_shaped ht (Format.tree_builtin hlib hdata) hmsg]
  constructor
  · exact fun h => ⟨h.mono fun _ _ _ _ => trivial, h.hiddenValid⟩
  · exact fun h => h.1.of_recursiveVerify ht hverify h.2

/-! ## A vote and a string -/

/-- `Vote`, with a field `value: bool`. -/
def voteType : PyType :=
  .cls ⟨"Vote", .message⟩ [⟨"value", .bool, none⟩] []

/-- An algorithm with a handler `receive_vote` for `Signed[Vote]`. -/
def voting : Algo :=
  .mk [("receive_vote", some (.signed voteType))] []

/-- Everybody has the key of `n1`. -/
def keystore₁ : Keystore := fun _ => some []

theorem voteType_annotated : Annotated (.signed voteType) :=
  .signed (.message (by simp) (by simpa using Annotated.bool))

/-- A string, as the two libraries write it. -/
def stringSample : Sample Cls where
  tree := .str "hi"
  text := "\"hi\""
  parsed := .str "hi"
  packed := [162, 104, 105]

/-- A vote signed by `n1`; the signature of `plainCrypto` is the canonical text. -/
def voteSample : Sample Cls where
  tree := .dict [(.str "value", .dict [(.str "value", .bool true)]),
    (.str "signature", .bytes (encodeUtf8 "[('value', True)]")),
    (.str "signer", .dict [(.str "id", .str "n1")])]
  text := "\x7b\"value\":\x7b\"value\":true\x7d,\"signature\":\x7b\"__bytes__\":" ++
    "\"WygndmFsdWUnLCBUcnVlKV0=\"\x7d,\"signer\":\x7b\"id\":\"n1\"\x7d\x7d"
  parsed := .dict [(.str "value", .dict [(.str "value", .bool true)]),
    (.str "signature", .dict [(.str "__bytes__", .str "WygndmFsdWUnLCBUcnVlKV0=")]),
    (.str "signer", .dict [(.str "id", .str "n1")])]
  packed := [131, 165, 118, 97, 108, 117, 101, 129, 165, 118, 97, 108, 117, 101, 195, 169, 115,
    105, 103, 110, 97, 116, 117, 114, 101, 196, 17, 91, 40, 39, 118, 97, 108, 117, 101, 39, 44,
    32, 84, 114, 117, 101, 41, 93, 166, 115, 105, 103, 110, 101, 114, 129, 162, 105, 100, 162,
    110, 49]

theorem stringSample_lawful : (Codecs.ofTable [stringSample]).Lawful :=
  Codecs.ofTable_lawful (by simp) (by simp) (by simp [stringSample])
    (by simp [stringSample, PyValue.untuple])

/-- A string is passed to the handler where a signed vote is expected. -/
theorem Algo.handle_string :
    (Codecs.ofTable [stringSample]).Lawful ∧
    voting.handle (Codecs.ofTable [stringSample]) plainCrypto keystore₁ .json []
      "receive_vote" (encodeUtf8 "\"hi\"") = some (.signed voteType, .str "hi") ∧
    ¬ InPlace (fun value signature signer =>
      signatureValid plainCrypto keystore₁ value signature signer = true)
      (.signed voteType) (.str "hi") := by
  refine ⟨stringSample_lawful, ?_, ?_⟩
  · simp [Algo.handle, voting, Algo.handlers, Algo.receive, Format.deserialize,
      Format.tree, Codecs.ofTable, stringSample, PyValue.hookAll, deserializeObj, PyType.signed,
      recursiveVerify]
  · intro h
    cases h with
    | free h => exact h .signed

theorem voteSample_lawful : (Codecs.ofTable [voteSample]).Lawful :=
  Codecs.ofTable_lawful (by simp) (by simp) (by simp [voteSample])
    (by simp [voteSample, PyValue.untuple])

theorem canonical_vote : canonical plainCrypto vote = encodeUtf8 "[('value', True)]" := by
  simp only [vote, canonical, sortedItems, List.map_cons, List.map_nil,
    List.mergeSort_singleton, PyValue.asdict]
  congr 1

/-- The vote is passed to the handler. -/
theorem Algo.handle_vote :
    voting.handle (Codecs.ofTable [voteSample]) plainCrypto keystore₁ .msgpack []
      "receive_vote" voteSample.packed = some (.signed voteType,
        signed vote (.bytes (encodeUtf8 "[('value', True)]")) (peerId "n1")) := by
  have htree : Format.msgpack.tree (Codecs.ofTable [voteSample]) voteSample.packed =
      some voteSample.tree := by
    simp [Format.tree, Codecs.ofTable, voteSample, PyValue.untuple]
  have hobj : deserializeObj (.signed voteType) voteSample.tree =
      some (signed vote (.bytes (encodeUtf8 "[('value', True)]")) (peerId "n1")) := rfl
  have hverify : recursiveVerify plainCrypto keystore₁
      (signed vote (.bytes (encodeUtf8 "[('value', True)]")) (peerId "n1")) = true := by
    have hvote : signedVerify plainCrypto keystore₁ vote (.bytes (keyPair₁.signature vote))
        (peerId "n1") = true := signedVerify_signature rfl rfl rfl
    have hsign : keyPair₁.signature vote = canonical plainCrypto vote := rfl
    rwa [hsign, canonical_vote] at hvote
  simp [Algo.handle, voting, Algo.handlers, Algo.receive, Format.deserialize, htree, hobj, hverify]

theorem Algo.handle_inPlace_iff_vote :
    InPlace (fun value signature signer =>
      signatureValid plainCrypto keystore₁ value signature signer = true) (.signed voteType)
      (signed vote (.bytes (encodeUtf8 "[('value', True)]")) (peerId "n1")) ↔
      Shaped (.signed voteType) voteSample.tree ∧
        HiddenValid (fun value signature signer =>
          signatureValid plainCrypto keystore₁ value signature signer = true) (.signed voteType)
          (signed vote (.bytes (encodeUtf8 "[('value', True)]")) (peerId "n1")) :=
  Algo.handle_inPlace_iff voteSample_lawful Algo.handle_vote voteType_annotated
    (by simp [Format.tree, Codecs.ofTable, voteSample, PyValue.untuple])

end DistBench
