import DistBench.Lib.Codecs

/-!
# Message encoding

The two formats of `distbench.encoding`. `serialize` flattens a dataclass with
`asdict` and hands the tree to `json` or `msgpack`; `deserialize` rebuilds the
classes from the annotations of the target type. `_deserialize_obj` is the same
code in both formats and is modelled once.
-/

namespace DistBench

/-- How a dataclass was declared. -/
inductive Decorator where
  /-- `@dataclass`: `PeerId`, `AlgorithmMessage`. -/
  | dataclass
  /-- `@message`, which adds `verify`. -/
  | message
  /-- The class `Signed`. -/
  | signed
deriving DecidableEq, Repr

/-- A dataclass, as its instances refer to it. -/
structure Cls where
  name : String
  decorator : Decorator
deriving DecidableEq, Repr

/-- The values the framework sends. -/
abbrev Value : Type := PyValue Cls

/-- A field of a dataclass with annotations of type `τ`. -/
structure Field (τ : Type) where
  name : String
  type : τ
  default : Option Value := none

/-- An annotation. A dataclass stands with its fields and the arguments it is
subscripted with, none for a class that is not generic. -/
inductive PyType where
  | str
  | int
  | float
  | bool
  | bytes
  | any
  | bareTuple
  | list (item : PyType)
  | tuple (item : PyType)
  | dict (value : PyType)
  | optional (item : PyType)
  | cls (c : Cls) (fields : List (Field PyType)) (args : List PyType)

namespace PyType

/-- `item_type is Any`. -/
def isAny : PyType → Bool
  | .any => true
  | _ => false

/-- `PeerId`. -/
def peerId : PyType :=
  .cls ⟨"PeerId", .dataclass⟩ [⟨"id", .str, none⟩] []

/-- The fields of `Signed`; the annotation of `value` is the type variable. -/
def signedFields : List (Field PyType) :=
  [⟨"value", .any, none⟩, ⟨"signature", .bytes, none⟩, ⟨"signer", peerId, none⟩]

/-- `Signed[t]`. -/
def signed (t : PyType) : PyType :=
  .cls ⟨"Signed", .signed⟩ signedFields [t]

/-- `AlgorithmMessage`. -/
def algorithmMessage : PyType :=
  .cls ⟨"AlgorithmMessage", .dataclass⟩ [⟨"type_id", .str, none⟩, ⟨"bytes", .bytes, none⟩] []

end PyType

/-- `PeerId(id)`. -/
def peerId (id : String) : Value :=
  .obj ⟨"PeerId", .dataclass⟩ [("id", .str id)]

/-- `Signed(value=value, signature=signature, signer=signer)`. -/
def signed (value signature signer : Value) : Value :=
  .obj ⟨"Signed", .signed⟩ [("value", value), ("signature", signature), ("signer", signer)]

/-- The items of a list or a tuple. -/
def PyValue.items? {C : Type} : PyValue C → Option (List (PyValue C))
  | .list xs => some xs
  | .tuple xs => some xs
  | _ => .none

/-! ## `_deserialize_obj` -/

mutual

def deserializeObj : PyType → Value → Option Value
  | .list item, data =>
    match data.items? with
    | none => some data
    | some xs => if item.isAny then some data else (xs.mapM (deserializeObj item)).map .list
  | .tuple item, data =>
    match data.items? with
    | none => some data
    | some xs => if item.isAny then some data else (xs.mapM (deserializeObj item)).map .tuple
  | .cls c fields args, data =>
    match data with
    | .dict obj => (deserializeFields fields (deserializeArg args) obj).map (.obj c)
    | _ => some data
  | _, data => some data

/-- How `type_args[0]` decodes the field `value`, where there are arguments. -/
def deserializeArg : List PyType → Option (Value → Option Value)
  | [] => none
  | t :: _ => some (deserializeObj t)

/-- The loop over the fields and the call of the constructor. -/
def deserializeFields : List (Field PyType) → Option (Value → Option Value) →
    List (Key × Value) → Option (List (String × Value))
  | [], _, _ => some []
  | ⟨name, type, default⟩ :: fields, arg, obj => do
    let value ←
      match obj.lookup (.str name) with
      | some data =>
        match arg with
        | some decode => if name = "value" then decode data else deserializeObj type data
        | none => deserializeObj type data
      -- a field that was not sent: the constructor uses its default or raises
      | none => default
    let values ← deserializeFields fields arg obj
    return (name, value) :: values

end

/-! ## `JsonFormat` and `MsgpackFormat` -/

/-- What `serialize` hands to the library: `asdict(obj)` for a dataclass. -/
def serializable : Value → Value
  | .obj c attrs => (PyValue.obj c attrs).asdict
  | v => v

def jsonEncoder (lib : Codecs Cls) : Value → Option Value
  | .bytes b => some (.dict [(.str "__bytes__", .str (lib.b64encode b))])
  | .obj c attrs => some (PyValue.obj c attrs).asdict
  | _ => none

def jsonDecoder (lib : Codecs Cls) (dct : List (Key × Value)) : Option Value :=
  match dct.lookup (.str "__bytes__") with
  | some v => (lib.b64decode v).map .bytes
  | none => some (.dict dct)

/-- The two formats. -/
inductive Format where
  | json
  | msgpack
deriving DecidableEq, Repr

namespace Format

variable (lib : Codecs Cls)

def serialize : Format → Value → Option Bytes
  | .json, v => (lib.dumps (jsonEncoder lib) (serializable v)).map encodeUtf8
  | .msgpack, v => lib.packb (serializable v)

/-- The tree the library reads, before the classes are rebuilt. -/
def tree : Format → Bytes → Option Value
  | .json, b => (decodeUtf8 b).bind (lib.loads (jsonDecoder lib))
  | .msgpack, b => lib.unpackb b

def deserialize (fmt : Format) (b : Bytes) (t : PyType) : Option Value :=
  (fmt.tree lib b).bind (deserializeObj t)

end Format

end DistBench
