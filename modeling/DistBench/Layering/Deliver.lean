import DistBench.Signing.Handle

/-!
# Messages across layers (decorators.py, algorithm.py)

A parent hands a message to a method of its child that is marked `@interface`: the
wrapper serializes the message and packs it with the name of its class into an
`AlgorithmMessage`, and the child sees the bytes of that. The child gives such bytes
back with `deliver_message`, which unpacks them and packs them again as a pair, and
the parent's generated `deliver` unpacks the pair and picks the handler for the
name. `deliver_interface` is what all that comes to: the handler for the class of
the message is called with the message.

- `interface`, `deliverMessage`, `deliver`: the code.
- `encodings`: what is serialized between two layers.
- `deliver_interface`: the chain.
-/

namespace DistBench

/-- `type(v).__name__`. -/
def typeName : Value → String
  | .none => "NoneType"
  | .bool _ => "bool"
  | .int _ => "int"
  | .float _ => "float"
  | .str _ => "str"
  | .bytes _ => "bytes"
  | .list _ => "list"
  | .tuple _ => "tuple"
  | .dict _ => "dict"
  | .obj cls _ => cls.name

/-- `AlgorithmMessage(type_id=type_id, bytes=bytes)`. -/
def algorithmMessage (typeId : String) (bytes : Bytes) : Value :=
  .obj ⟨"AlgorithmMessage", .dataclass⟩ [("type_id", .str typeId), ("bytes", .bytes bytes)]

/-- The handlers with `from_child`, by the name of the child and of the class they
are annotated with: the method and its annotation, `none` for an unresolved string. -/
abbrev ChildHandlers (H : Type) : Type := List (String × List (String × H × Option PyType))

section Code

variable {H : Type} (lib : Codecs Cls) (crypto : Crypto) (keystore : Keystore) (fmt : Format)

/-- The routing key of a message. An attribute `type_id` would be called, and the
value of a field cannot be. -/
def typeId : Value → Option String
  | .obj cls attrs => if (attrs.lookup "type_id").isSome then none else some cls.name
  | v => some (typeName v)

/-- `interface`: what the wrapped method is called with. -/
def interface (msg : Value) : Option Bytes := do
  let innerBytes ← fmt.serialize lib msg
  let typeId ← typeId msg
  fmt.serialize lib (algorithmMessage typeId innerBytes)

/-- `Algorithm.deliver_message`: what the parent's `deliver` is called with. -/
def deliverMessage (msgBytes : Bytes) : Option Bytes := do
  let algMsg ← fmt.deserialize lib msgBytes .algorithmMessage
  match algMsg with
  | .obj _ attrs =>
    let typeId ← attrs.lookup "type_id"
    let bytes ← attrs.lookup "bytes"
    fmt.serialize lib (.tuple [typeId, bytes])
  | _ => none

/-- `deliver`: the method that is called and its argument. -/
def deliver (childHandlers : ChildHandlers H) (msgBytes : Bytes) : Option (H × Value) := do
  let envelope ← fmt.deserialize lib msgBytes .bareTuple
  match envelope.items? with
  | some [.str msgTypeId, .bytes payload] =>
    let (method, msgType) ← childHandlers.findSome? fun p => p.2.lookup msgTypeId
    let (_, msgObj) ← Algo.receive lib crypto keystore fmt msgType payload
    return (method, msgObj)
  | _ => none

/-- What is serialized for a message on its way to another layer and back: the message,
its `AlgorithmMessage`, which the child sees, and the pair. -/
def encodings (msg : Value) : Option Bytes := do
  let inner ← fmt.serialize lib msg
  let outer ← fmt.serialize lib (algorithmMessage (typeName msg) inner)
  let _ ← fmt.serialize lib (.tuple [.str (typeName msg), .bytes inner])
  return outer

end Code

variable {H : Type} {lib : Codecs Cls} {crypto : Crypto} {keystore : Keystore} {fmt : Format}
  {c : Cls} {fields : List (Field PyType)} {msg : Value} {outer : Bytes}

/-- An instance of a class that is not generic. -/
theorem HasType.exists_getattr (hmsg : HasType (.cls c fields []) msg) :
    ∃ getattr : String → Value, (∀ f ∈ fields, HasType f.type (getattr f.name)) ∧
      msg = .obj c (fields.map fun f => (f.name, getattr f.name)) := by
  cases hmsg with
  | cls getattr h => exact ⟨getattr, h, rfl⟩

theorem HasType.typeId_eq (hname : ∀ f ∈ fields, f.name ≠ "type_id")
    (hmsg : HasType (.cls c fields []) msg) : typeId msg = some (typeName msg) := by
  obtain ⟨getattr, -, rfl⟩ := hmsg.exists_getattr
  have hnone : (fields.map fun f => (f.name, getattr f.name)).lookup "type_id" = none := by
    rw [List.lookup_eq_none_iff]
    rintro _ hp
    obtain ⟨f, hf, rfl⟩ := List.mem_map.mp hp
    simpa using (hname f hf).symm
  rw [typeId, hnone]
  rfl

theorem interface_of_encodings (hname : ∀ f ∈ fields, f.name ≠ "type_id")
    (hmsg : HasType (.cls c fields []) msg) (h : encodings lib fmt msg = some outer) :
    interface lib fmt msg = some outer := by
  simp only [encodings, Option.bind_eq_bind, Option.bind_eq_some_iff] at h
  obtain ⟨inner, hinner, outer', houter, envelope, -, heq⟩ := h
  obtain rfl := Option.some.inj heq
  simp [interface, hinner, hmsg.typeId_eq hname, houter]

theorem hasType_algorithmMessage (typeId : String) (bytes : Bytes) :
    HasType .algorithmMessage (algorithmMessage typeId bytes) := by
  refine .of_attrs (by simp) rfl ?_
  simp only [List.forall_mem_cons, List.not_mem_nil, false_implies, implies_true, and_true]
  exact ⟨.str typeId, .bytes bytes⟩

/-- `deliver_message` packs the parts of the `AlgorithmMessage` again. -/
theorem deliverMessage_algorithmMessage (hlib : lib.Lawful) {typeId : String} {bytes : Bytes}
    (houter : fmt.serialize lib (algorithmMessage typeId bytes) = some outer) :
    deliverMessage lib fmt outer = fmt.serialize lib (.tuple [.str typeId, .bytes bytes]) := by
  have hmsg : fmt.deserialize lib outer .algorithmMessage = some (algorithmMessage typeId bytes) :=
    deserialize_serialize hlib .algorithmMessage (hasType_algorithmMessage typeId bytes) fmt houter
  rw [deliverMessage, hmsg]
  rfl

/-- `deliver` finds the parts of the pair. -/
theorem deliver_tuple (hlib : lib.Lawful) {childHandlers : ChildHandlers H} {typeId : String}
    {payload envelope : Bytes}
    (henvelope : fmt.serialize lib (.tuple [.str typeId, .bytes payload]) = some envelope) :
    deliver lib crypto keystore fmt childHandlers envelope =
      (childHandlers.findSome? fun p => p.2.lookup typeId).bind fun handler =>
        (Algo.receive lib crypto keystore fmt handler.2 payload).map fun call =>
          (handler.1, call.2) := by
  have hplain : (serializable (.tuple [.str typeId, .bytes payload])).Plain MessageKeys := by
    simp [serializable]
  have htree := Format.tree_serialize hlib hplain fmt henvelope
  have hread : fmt.deserialize lib envelope .bareTuple =
      some (.list [.str typeId, .bytes payload]) := by
    rw [Format.deserialize, htree]
    rfl
  rw [deliver, hread]
  show ((childHandlers.findSome? fun p => p.2.lookup typeId).bind fun handler =>
    (Algo.receive lib crypto keystore fmt handler.2 payload).bind fun call =>
      some (handler.1, call.2)) = _
  simp only [Option.map_eq_bind]
  rfl

/-- **The chain.** A message that a parent hands to an interface and that comes back to
a parent of the same class is passed to the handler for its class, if every encoding
on the way succeeds, and otherwise to none. -/
theorem deliver_interface (hlib : lib.Lawful) {childHandlers : ChildHandlers H} {method : H}
    (hwire : Wire (.cls c fields [])) (hname : ∀ f ∈ fields, f.name ≠ "type_id")
    (hhandler : childHandlers.findSome? (fun p => p.2.lookup c.name) =
      some (method, some (.cls c fields [])))
    (hmsg : HasType (.cls c fields []) msg) (hverify : recursiveVerify crypto keystore msg = true) :
    ((interface lib fmt msg).bind fun outer => (deliverMessage lib fmt outer).bind
        (deliver lib crypto keystore fmt childHandlers)) =
      (encodings lib fmt msg).map fun _ => (method, msg) := by
  have hclass : typeName msg = c.name := by
    obtain ⟨getattr, -, rfl⟩ := hmsg.exists_getattr
    rfl
  have hdeliver (inner envelope : Bytes) (hinner : fmt.serialize lib msg = some inner)
      (henvelope : fmt.serialize lib (.tuple [.str (typeName msg), .bytes inner]) = some envelope) :
      deliver lib crypto keystore fmt childHandlers envelope = some (method, msg) := by
    have hread := deserialize_serialize hlib hwire hmsg fmt hinner
    have hreceive : Algo.receive lib crypto keystore fmt (some (.cls c fields [])) inner =
        some (.cls c fields [], msg) := by
      simp [Algo.receive, hread, hverify]
    rw [deliver_tuple hlib henvelope, hclass, hhandler]
    simp [hreceive]
  rw [interface, encodings, hmsg.typeId_eq hname]
  cases hinner : fmt.serialize lib msg with
  | none => rfl
  | some inner =>
    cases houter : fmt.serialize lib (algorithmMessage (typeName msg) inner) with
    | none => simp [houter]
    | some outer =>
      have hpair := deliverMessage_algorithmMessage hlib houter
      cases henvelope : fmt.serialize lib (.tuple [.str (typeName msg), .bytes inner]) with
      | none => simp [houter, hpair, henvelope]
      | some envelope =>
        simp [houter, hpair, henvelope, hdeliver inner envelope hinner henvelope]

end DistBench
