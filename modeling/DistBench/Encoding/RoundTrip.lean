import DistBench.Encoding.Format

/-!
# Messages survive transport

The encoder forgets the classes and the decoder rebuilds them from the
annotations. `Wire` are the annotations this works for and `HasType` the values
they describe; the proof is one induction over the annotation
(`deserializeObj_untuple_asdict`), which both formats share, and one over the
tree for what `json` does with byte strings (`hookAll_of_dumped`).
-/

namespace DistBench

open PyValue

/-- The annotations messages are made of: scalars, byte strings, dataclasses
with fields of such types and none called `__bytes__`, `list`, `tuple[T, ...]`
and `Signed`. -/
inductive Wire : PyType → Prop
  | str : Wire .str
  | int : Wire .int
  | bool : Wire .bool
  | bytes : Wire .bytes
  | list {t : PyType} (h : Wire t) : Wire (.list t)
  | tuple {t : PyType} (h : Wire t) : Wire (.tuple t)
  | signed {t : PyType} (h : Wire t) : Wire (.signed t)
  | cls {c : Cls} {fields : List (Field PyType)}
      (nodup : (fields.map Field.name).Nodup) (names : ∀ f ∈ fields, f.name ≠ "__bytes__")
      (h : ∀ f ∈ fields, Wire f.type) : Wire (.cls c fields [])

theorem Wire.peerId : Wire .peerId :=
  .cls (by simp) (by simp) (by simpa using Wire.str)

theorem Wire.algorithmMessage : Wire .algorithmMessage :=
  .cls (by simp) (by simp) (by simpa using ⟨Wire.str, Wire.bytes⟩)

/-- The values of a type. An instance of a dataclass is what `getattr` returns
for its fields. -/
inductive HasType : PyType → Value → Prop
  | str (s : String) : HasType .str (.str s)
  | int (i : Int) : HasType .int (.int i)
  /-- `bool` is a subclass of `int`. -/
  | intOfBool (b : Bool) : HasType .int (.bool b)
  | bool (b : Bool) : HasType .bool (.bool b)
  | bytes (b : Bytes) : HasType .bytes (.bytes b)
  | list {t : PyType} {xs : List Value} (h : ∀ x ∈ xs, HasType t x) :
      HasType (.list t) (.list xs)
  | tuple {t : PyType} {xs : List Value} (h : ∀ x ∈ xs, HasType t x) :
      HasType (.tuple t) (.tuple xs)
  | signed {t : PyType} {value : Value} (h : HasType t value) (signature : Bytes)
      (signer : String) : HasType (.signed t) (signed value (.bytes signature) (peerId signer))
  | cls {c : Cls} {fields : List (Field PyType)} (getattr : String → Value)
      (h : ∀ f ∈ fields, HasType f.type (getattr f.name)) :
      HasType (.cls c fields []) (.obj c (fields.map fun f => (f.name, getattr f.name)))

/-- The attribute of an instance. -/
def attrOf (attrs : List (String × Value)) (name : String) : Value :=
  (attrs.lookup name).getD .none

theorem map_attrOf {names : List String} (nodup : names.Nodup) {attrs : List (String × Value)}
    (h : attrs.map Prod.fst = names) :
    names.map (fun name => (name, attrOf attrs name)) = attrs := by
  induction attrs generalizing names with
  | nil => simp_all
  | cons a attrs ih =>
    subst h
    obtain ⟨k, v⟩ := a
    obtain ⟨ha, hattrs⟩ := List.nodup_cons.1 nodup
    have htail : ∀ name ∈ attrs.map Prod.fst,
        (name, attrOf ((k, v) :: attrs) name) = (name, attrOf attrs name) := by
      intro name hname
      have hne : (name == k) = false := by simpa using fun e : name = k => ha (e ▸ hname)
      simp [attrOf, List.lookup_cons, hne]
    rw [List.map_cons, List.map_cons, List.map_congr_left htail, ih hattrs rfl]
    simp [attrOf]

/-- An instance whose attributes are written out. -/
theorem HasType.of_attrs {c : Cls} {fields : List (Field PyType)}
    (nodup : (fields.map Field.name).Nodup) {attrs : List (String × Value)}
    (names : attrs.map Prod.fst = fields.map Field.name)
    (h : ∀ f ∈ fields, HasType f.type (attrOf attrs f.name)) :
    HasType (.cls c fields []) (.obj c attrs) := by
  have := HasType.cls (c := c) (attrOf attrs) h
  have hattrs := map_attrOf nodup names
  rw [List.map_map] at hattrs
  rwa [← hattrs]

/-! ## What `asdict` makes of a message -/

/-- The keys of a dictionary that JSON carries unharmed. -/
def MessageKeys (ks : List Key) : Prop :=
  ks.Nodup ∧ (∀ k ∈ ks, ∃ name, k = .str name) ∧ Key.str "__bytes__" ∉ ks

theorem MessageKeys.of_fields {fields : List (Field PyType)}
    (nodup : (fields.map Field.name).Nodup) (names : ∀ f ∈ fields, f.name ≠ "__bytes__") :
    MessageKeys (fields.map fun f => Key.str f.name) := by
  refine ⟨?_, ?_, ?_⟩
  · have := nodup.map (f := Key.str) fun _ _ h => Key.str.inj h
    simpa [Function.comp_def] using this
  · simp
  · simp only [List.mem_map, not_exists, not_and]
    intro f hf h
    exact names f hf (Key.str.inj h)

theorem HasType.plain_asdict {t : PyType} (ht : Wire t) {x : Value} (hx : HasType t x) :
    x.asdict.Plain MessageKeys := by
  induction ht generalizing x with
  | str => cases hx; exact .str _
  | int =>
    cases hx with
    | int i => exact .int i
    | intOfBool b => exact .bool b
  | bool => cases hx; exact .bool _
  | bytes => cases hx; exact .bytes _
  | list _ ih =>
    cases hx with
    | list h =>
      simp only [asdict, asdictAll_eq]
      refine .list fun y hy => ?_
      obtain ⟨x, hx, rfl⟩ := List.mem_map.1 hy
      exact ih (h x hx)
  | tuple _ ih =>
    cases hx with
    | tuple h =>
      simp only [asdict, asdictAll_eq]
      refine .tuple fun y hy => ?_
      obtain ⟨x, hx, rfl⟩ := List.mem_map.1 hy
      exact ih (h x hx)
  | signed _ ih =>
    cases hx with
    | signed h signature signer =>
      simp only [DistBench.signed, peerId, asdict, asdictAttrs_eq, List.map_cons, List.map_nil]
      refine .dict (by simp [MessageKeys]) ?_
      simp only [List.forall_mem_cons]
      exact ⟨ih h, .bytes signature, .dict (by simp [MessageKeys]) (by simp), by simp⟩
  | cls nodup names _ ih =>
    cases hx with
    | cls getattr h =>
      simp only [asdict, asdictAttrs_eq]
      refine .dict ?_ ?_
      · simpa [Function.comp_def] using MessageKeys.of_fields nodup names
      · simp only [List.mem_map]
        rintro _ ⟨_, ⟨f, hf, rfl⟩, rfl⟩
        exact ih f hf (h f hf)

/-! ## The decoder rebuilds the message -/

/-- Every field is found in the tree of an instance. -/
theorem lookup_fields {fields : List (Field PyType)} {f : Field PyType} (hf : f ∈ fields)
    (data : String → Value) :
    (fields.map fun f => (Key.str f.name, data f.name)).lookup (.str f.name) =
      some (data f.name) := by
  induction fields with
  | nil => simp at hf
  | cons g fields ih =>
    rw [List.map_cons, List.lookup_cons]
    by_cases hg : g.name = f.name
    · simp [hg]
    · have hne : (Key.str f.name == Key.str g.name) = false := by simpa using Ne.symm hg
      rw [hne]
      exact ih ((List.mem_cons.1 hf).resolve_left fun h => hg (h ▸ rfl))

theorem deserializeFields_eq_some {fields : List (Field PyType)} {obj : List (Key × Value)}
    {getattr : String → Value}
    (h : ∀ f ∈ fields, ∃ data, obj.lookup (.str f.name) = some data ∧
      deserializeObj f.type data = some (getattr f.name)) :
    deserializeFields fields none obj = some (fields.map fun f => (f.name, getattr f.name)) := by
  induction fields with
  | nil => rfl
  | cons f fields ih =>
    obtain ⟨data, hl, hd⟩ := h f (by simp)
    obtain ⟨name, type, default⟩ := f
    simp only at hl hd
    simp [deserializeFields, hl, hd, ih fun g hg => h g (by simp [hg])]

theorem mapM_map_eq_some {α β : Type} {xs : List α} {f : α → β} {g : β → Option α}
    (h : ∀ x ∈ xs, g (f x) = some x) : (xs.map f).mapM g = some xs := by
  induction xs with
  | nil => rfl
  | cons x xs ih => simp [h x (by simp), ih fun y hy => h y (by simp [hy])]

theorem Wire.isAny {t : PyType} (h : Wire t) : t.isAny = false := by
  cases h <;> rfl

/-- What reaches the other side of a message is read as the message. -/
theorem deserializeObj_untuple_asdict {t : PyType} (ht : Wire t) {x : Value}
    (hx : HasType t x) : deserializeObj t x.asdict.untuple = some x := by
  induction ht generalizing x with
  | str => cases hx; rfl
  | int => cases hx <;> rfl
  | bool => cases hx; rfl
  | bytes => cases hx; rfl
  | list ht ih =>
    cases hx with
    | @list _ xs h =>
      have := mapM_map_eq_some (f := fun x => x.asdict.untuple) fun x hx => ih (h x hx)
      simp [asdict, untuple, deserializeObj, items?, ht.isAny, Function.comp_def, this]
  | tuple ht ih =>
    cases hx with
    | @tuple _ xs h =>
      have := mapM_map_eq_some (f := fun x => x.asdict.untuple) fun x hx => ih (h x hx)
      simp [asdict, untuple, deserializeObj, items?, ht.isAny, Function.comp_def, this]
  | signed _ ih =>
    cases hx with
    | signed h signature signer =>
      have hvalue := ih h
      simp [DistBench.signed, peerId, asdict, untuple, PyType.signed, PyType.signedFields,
        PyType.peerId, deserializeObj, deserializeArg, deserializeFields, List.lookup, hvalue]
  | @cls c fields nodup names _ ih =>
    cases hx with
    | cls getattr h =>
      have hfields : deserializeFields fields none
          (fields.map fun f => (Key.str f.name, (getattr f.name).asdict.untuple)) =
            some (fields.map fun f => (f.name, getattr f.name)) :=
        deserializeFields_eq_some fun f hf =>
          ⟨_, lookup_fields hf fun name => (getattr name).asdict.untuple, ih f hf (h f hf)⟩
      simp [asdict, untuple, deserializeObj, deserializeArg, Function.comp_def, hfields]

/-! ## `json` with the two hooks -/

variable {lib : Codecs Cls}

theorem hookAll_of_forall₂ {xs ys : List Value}
    (h : List.Forall₂ (Dumped (jsonEncoder lib)) xs ys)
    (ih : ∀ x ∈ xs, ∀ {w : Value}, x.Dumped (jsonEncoder lib) w →
      w.Plain List.Nodup ∧ w.hookAll (jsonDecoder lib) = some x.untuple) :
    (∀ y ∈ ys, y.Plain List.Nodup) ∧
      List.Forall₂ (fun y z => y.hookAll (jsonDecoder lib) = some z) ys (xs.map untuple) := by
  induction h with
  | nil => exact ⟨by simp, .nil⟩
  | cons hxy _ ih' =>
    obtain ⟨hp, hh⟩ := ih _ (by simp) hxy
    obtain ⟨hps, hhs⟩ := ih' fun x hx => ih x (by simp [hx])
    exact ⟨List.forall_mem_cons.2 ⟨hp, hps⟩, .cons hh hhs⟩

/-- Byte strings are written as marked objects and read back; nothing else in a
message looks like one. -/
theorem hookAll_of_dumped (hlib : ∀ b, lib.b64decode (.str (lib.b64encode b)) = some b)
    {v : Value} (hv : v.Plain MessageKeys)
    {w : Value} (hw : v.Dumped (jsonEncoder lib) w) :
    w.Plain List.Nodup ∧ w.hookAll (jsonDecoder lib) = some v.untuple := by
  induction hv generalizing w with
  | none => cases hw; exact ⟨.none, rfl⟩
  | bool b => cases hw; exact ⟨.bool b, rfl⟩
  | int i => cases hw; exact ⟨.int i, rfl⟩
  | float f => cases hw; exact ⟨.float f, rfl⟩
  | str s => cases hw; exact ⟨.str s, rfl⟩
  | bytes b =>
    cases hw with
    | bytes hd h =>
      cases hd
      cases h with
      | @dict _ ws names keys h =>
        have hws : ws = [(.str "__bytes__", .str (lib.b64encode b))] := by
          match ws, keys, h with
          | [(k, w)], keys, .cons hw .nil =>
            simp only [List.map_cons, List.map_nil, List.cons.injEq, and_true] at keys
            cases hw
            rw [keys]
        subst hws
        refine ⟨.dict (by simp) (by simp), ?_⟩
        simp [hookAll, hookItems, jsonDecoder, List.lookup, hlib, untuple]
  | list _ ih =>
    cases hw with
    | list h =>
      obtain ⟨hp, hh⟩ := hookAll_of_forall₂ h ih
      exact ⟨.list hp, by simp [hookAll, hookList_eq_some hh, untuple]⟩
  | tuple _ ih =>
    cases hw with
    | tuple h =>
      obtain ⟨hp, hh⟩ := hookAll_of_forall₂ h ih
      exact ⟨.list hp, by simp [hookAll, hookList_eq_some hh, untuple]⟩
  | @dict items hk _ ih =>
    cases hw with
    | @dict _ ws names keys h =>
      have ih' : ∀ x ∈ items.map Prod.snd, ∀ {w : Value}, x.Dumped (jsonEncoder lib) w →
          w.Plain List.Nodup ∧ w.hookAll (jsonDecoder lib) = some x.untuple := by
        intro x hx w hw
        obtain ⟨p, hp, rfl⟩ := List.mem_map.1 hx
        exact ih p hp hw
      obtain ⟨hp, hh⟩ := hookAll_of_forall₂ h ih'
      refine ⟨.dict (keys ▸ hk.1) fun p hp' => hp _ (List.mem_map_of_mem hp'), ?_⟩
      have hitems : hookItems (jsonDecoder lib) ws = some (untupleItems items) :=
        hookItems_eq_some (by simp [← keys]) (by simpa [Function.comp_def] using hh)
      have hno : (untupleItems items).lookup (Key.str "__bytes__") = .none := by
        rw [List.lookup_eq_none_iff, untupleItems_eq]
        intro p hp
        obtain ⟨q, hq, rfl⟩ := List.mem_map.1 hp
        have hne : Key.str "__bytes__" ≠ q.1 := fun h => hk.2.2 (h ▸ List.mem_map_of_mem hq)
        simpa using hne
      simp only [hookAll, hitems, jsonDecoder, hno, untuple, Option.bind_some]

/-! ## The round trip -/

/-- The tree that is read for a value is the one the library was given, without tuples. -/
theorem Format.tree_serialize (hlib : lib.Lawful) {x : Value}
    (hx : (serializable x).Plain MessageKeys) (fmt : Format) {b : Bytes}
    (hb : fmt.serialize lib x = some b) : fmt.tree lib b = some (serializable x).untuple := by
  cases fmt with
  | json =>
    obtain ⟨text, htext, rfl⟩ := Option.map_eq_some_iff.1 hb
    obtain ⟨w, hw, hloads⟩ := hlib.dumps_tree _ _ _ htext
    obtain ⟨hp, hh⟩ := hookAll_of_dumped hlib.b64decode_b64encode hx hw
    simp only [Format.tree, decodeUtf8_encodeUtf8, Option.bind_some, hloads hp, hh]
  | msgpack => exact hlib.unpackb_packb _ _ (hx.mono fun _ h => h.1) hb

/-- A message that can be sent is received as it was: with the same classes,
containers and scalars at every position, in both formats. -/
theorem deserialize_serialize (hlib : lib.Lawful) {c : Cls} {fields : List (Field PyType)}
    {args : List PyType} (ht : Wire (.cls c fields args)) {x : Value}
    (hx : HasType (.cls c fields args) x) (fmt : Format) {b : Bytes}
    (hb : fmt.serialize lib x = some b) :
    fmt.deserialize lib b (.cls c fields args) = some x := by
  have hobj : ∃ attrs, x = .obj c attrs := by
    cases hx with
    | signed => exact ⟨_, rfl⟩
    | cls getattr _ => exact ⟨_, rfl⟩
  obtain ⟨attrs, rfl⟩ := hobj
  have hplain : (serializable (.obj c attrs)).Plain MessageKeys := hx.plain_asdict ht
  have htree := Format.tree_serialize hlib hplain fmt hb
  rw [Format.deserialize, htree]
  exact deserializeObj_untuple_asdict ht hx

/-! ## A signed chain -/

/-- `ChainMessage` of `message_chain.py`. -/
def chainMessage : PyType :=
  .cls ⟨"ChainMessage", .message⟩
    [⟨"hop_count", .int, none⟩, ⟨"original_value", .str, none⟩, ⟨"node_name", .str, none⟩] []

/-- `ChainBundle` of `message_chain.py`. -/
def chainBundle : PyType :=
  .cls ⟨"ChainBundle", .message⟩ [⟨"chain", .list (.signed chainMessage), none⟩] []

/-- A chain of one hop. -/
def oneHop : Value :=
  .obj ⟨"ChainBundle", .message⟩ [("chain", .list [
    signed (.obj ⟨"ChainMessage", .message⟩
        [("hop_count", .int 0), ("original_value", .str "hi"), ("node_name", .str "n0")])
      (.bytes [1, 2, 3]) (peerId "n0")])]

/-- The chain as the two libraries write it. -/
def oneHopSample : Sample Cls where
  tree := oneHop.asdict
  text := "\x7b\"chain\":[\x7b\"value\":\x7b\"hop_count\":0,\"original_value\":\"hi\"," ++
    "\"node_name\":\"n0\"\x7d,\"signature\":\x7b\"__bytes__\":\"AQID\"\x7d," ++
    "\"signer\":\x7b\"id\":\"n0\"\x7d\x7d]\x7d"
  parsed := .dict [(.str "chain", .list [.dict [
    (.str "value", .dict [(.str "hop_count", .int 0), (.str "original_value", .str "hi"),
      (.str "node_name", .str "n0")]),
    (.str "signature", .dict [(.str "__bytes__", .str "AQID")]),
    (.str "signer", .dict [(.str "id", .str "n0")])]])]
  packed := [129, 165, 99, 104, 97, 105, 110, 145, 131, 165, 118, 97, 108, 117, 101, 131, 169,
    104, 111, 112, 95, 99, 111, 117, 110, 116, 0, 174, 111, 114, 105, 103, 105, 110, 97, 108,
    95, 118, 97, 108, 117, 101, 162, 104, 105, 169, 110, 111, 100, 101, 95, 110, 97, 109, 101,
    162, 110, 48, 169, 115, 105, 103, 110, 97, 116, 117, 114, 101, 196, 3, 1, 2, 3, 166, 115,
    105, 103, 110, 101, 114, 129, 162, 105, 100, 162, 110, 48]

theorem oneHop_dumped :
    oneHopSample.tree.Dumped (jsonEncoder (Codecs.ofTable [oneHopSample]))
      oneHopSample.parsed := by
  have hbytes : jsonEncoder (Codecs.ofTable [oneHopSample]) (.bytes [1, 2, 3]) =
      some (.dict [(.str "__bytes__", .str "AQID")]) := by
    simp [jsonEncoder, Codecs.ofTable, b64encode, b64char]
  simp only [oneHopSample, oneHop, DistBench.signed, peerId, asdict, asdictAll, asdictAttrs]
  repeat' first
    | exact .bytes hbytes (.dict (by simp) (by simp) (.cons (.str _) .nil))
    | refine .dict (by simp) (by simp) ?_
    | constructor

theorem chainBundle_wire : Wire chainBundle := by
  refine .cls (by simp) (by simp) ?_
  simp only [List.forall_mem_cons, List.not_mem_nil, false_implies, implies_true, and_true]
  refine .list (.signed (.cls (by simp) (by simp) ?_))
  simp [Wire.int, Wire.str]

theorem oneHop_hasType : HasType chainBundle oneHop := by
  refine .of_attrs (by simp) rfl ?_
  simp only [List.forall_mem_cons, List.not_mem_nil, false_implies, implies_true, and_true]
  refine .list ?_
  simp only [List.forall_mem_cons, List.not_mem_nil, false_implies, implies_true, and_true]
  refine .signed (.of_attrs (by simp) rfl ?_) _ _
  simp only [List.forall_mem_cons, List.not_mem_nil, false_implies, implies_true, and_true]
  exact ⟨.int _, .str _, .str _⟩

theorem oneHop_lawful : (Codecs.ofTable [oneHopSample]).Lawful := by
  have hplain := oneHop_hasType.plain_asdict chainBundle_wire
  have hparsed := hookAll_of_dumped (fun b => by simp [Codecs.ofTable, b64decode_b64encode])
    hplain oneHop_dumped
  refine Codecs.ofTable_lawful (by simp) (by simp) ?_ ?_
  · simpa using hparsed.1
  · simp only [List.mem_singleton, forall_eq]
    exact (hplain.mono fun _ h => h.1).untuple

theorem deserialize_serialize_oneHop :
    (Codecs.ofTable [oneHopSample]).Lawful ∧ ∃ js mp,
      Format.json.serialize (Codecs.ofTable [oneHopSample]) oneHop = some js ∧
      Format.json.deserialize (Codecs.ofTable [oneHopSample]) js chainBundle = some oneHop ∧
      Format.msgpack.serialize (Codecs.ofTable [oneHopSample]) oneHop = some mp ∧
      Format.msgpack.deserialize (Codecs.ofTable [oneHopSample]) mp chainBundle = some oneHop := by
  have hjson : Format.json.serialize (Codecs.ofTable [oneHopSample]) oneHop =
      some (encodeUtf8 oneHopSample.text) := by
    have hdumps : (Codecs.ofTable [oneHopSample]).dumps (jsonEncoder _) oneHopSample.tree =
        some oneHopSample.text := Codecs.ofTable_dumps (by simp) (by simp) oneHop_dumped
    exact congrArg (Option.map encodeUtf8) hdumps
  have hmsgpack : Format.msgpack.serialize (Codecs.ofTable [oneHopSample]) oneHop =
      some oneHopSample.packed :=
    Codecs.ofTable_packb (by simp) (List.mem_singleton.2 rfl)
  exact ⟨oneHop_lawful, _, _, hjson,
    deserialize_serialize oneHop_lawful chainBundle_wire oneHop_hasType .json hjson, hmsgpack,
    deserialize_serialize oneHop_lawful chainBundle_wire oneHop_hasType .msgpack hmsgpack⟩

end DistBench
