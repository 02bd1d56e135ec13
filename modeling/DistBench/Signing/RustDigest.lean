import DistBench.Deployment
import DistBench.Lib.Codecs

/-!
# Digests in the Rust implementation (signing.rs, crypto.rs, message_macro.rs)

Every type that can be signed implements `Digest`. The implementations nest: a container
feeds the digests of what it holds to a hasher, and so does the implementation that
`#[distbench::message]` derives for a struct, field by field.

- `Ty`, `Value`: the types with an implementation of `Digest`, and their values. A struct
  is given by its name, so that it may be recursive. A `BTreeSet` or a `BTreeMap` is the
  list of its elements in the order in which it is iterated; a `HashMap` the list of its
  entries in some order.
- `Decls`, `HasTy`, `Crate`: what a crate declares, the values of a type, and the contract
  of `Ord`, which the declared order keeps.
- `preimage`, `digest`: the code, over an arbitrary hash function.
- `inputs`: all that is hashed on the way to a digest.
-/

namespace DistBench.RustSigning

/-- The integer types of `impl_hashable_primitive!`. -/
inductive IntTy where
  | u8 | u16 | u32 | u64 | u128 | i8 | i16 | i32 | i64 | i128
deriving DecidableEq, Repr

def IntTy.bytes : IntTy → Nat
  | .u8 | .i8 => 1
  | .u16 | .i16 => 2
  | .u32 | .i32 => 4
  | .u64 | .i64 => 8
  | .u128 | .i128 => 16

/-- `[u8; 32]`. -/
abbrev Hash : Type := Vector UInt8 32

/-- An Ed25519 signature. -/
structure Signature where
  bytes : Vector UInt8 64
deriving DecidableEq

/-- The types that implement `Digest`; of `Result<T, E>` only `T` has to. -/
inductive Ty where
  | int (ty : IntTy)
  | bool
  | string
  | vec (item : Ty)
  | btreeSet (item : Ty)
  | btreeMap (key value : Ty)
  | hashMap (key value : Ty)
  | option (value : Ty)
  | result (value error : Ty)
  | signed (value : Ty)
  | struct (name : String)

/-- Their values. -/
inductive Value where
  | int (ty : IntTy) (bits : BitVec (8 * ty.bytes))
  | bool (b : Bool)
  | string (s : String)
  | vec (items : List Value)
  | btreeSet (items : List Value)
  | btreeMap (entries : List (Value × Value))
  | hashMap (entries : List (Value × Value))
  | none
  | some (value : Value)
  | ok (value : Value)
  | err (error : Value)
  | signed (value : Value) (signature : Signature) (peer : PeerId)
  | struct (name : String) (fields : List Value)

/-- Induction on a value, with one hypothesis for every value directly inside. -/
@[elab_as_elim]
theorem Value.ind {motive : Value → Prop}
    (int : ∀ ty bits, motive (.int ty bits)) (bool : ∀ b, motive (.bool b))
    (string : ∀ s, motive (.string s))
    (vec : ∀ items, (∀ v ∈ items, motive v) → motive (.vec items))
    (btreeSet : ∀ items, (∀ v ∈ items, motive v) → motive (.btreeSet items))
    (btreeMap : ∀ entries, (∀ e ∈ entries, motive e.1 ∧ motive e.2) → motive (.btreeMap entries))
    (hashMap : ∀ entries, (∀ e ∈ entries, motive e.1 ∧ motive e.2) → motive (.hashMap entries))
    (none : motive .none) (some : ∀ v, motive v → motive (.some v))
    (ok : ∀ v, motive v → motive (.ok v)) (err : ∀ e, motive e → motive (.err e))
    (signed : ∀ v signature peer, motive v → motive (.signed v signature peer))
    (struct : ∀ name fields, (∀ v ∈ fields, motive v) → motive (.struct name fields))
    (v : Value) : motive v :=
  @Value.rec motive (fun vs => ∀ v ∈ vs, motive v) (fun es => ∀ e ∈ es, motive e.1 ∧ motive e.2)
    (fun e => motive e.1 ∧ motive e.2)
    int bool string vec btreeSet btreeMap hashMap none some ok err
    (fun v signature peer h => signed v signature peer h) struct
    (by simp) (fun _ _ h hs => List.forall_mem_cons.2 ⟨h, hs⟩)
    (by simp) (fun _ _ h hs => List.forall_mem_cons.2 ⟨h, hs⟩)
    (fun _ _ h h' => ⟨h, h'⟩) v

/-- What a crate declares: the types of the fields of its `#[distbench::message]` structs,
the types that implement `Ord`, and their `Ord`. -/
structure Decls where
  fields : String → Option (List Ty)
  IsOrd : Ty → Prop
  le : Value → Value → Bool

/-- Equality of content. The order of the entries of a `HashMap` is no part of it. -/
inductive Equal : Value → Value → Prop
  | int (ty : IntTy) (bits : BitVec (8 * ty.bytes)) : Equal (.int ty bits) (.int ty bits)
  | bool (b : Bool) : Equal (.bool b) (.bool b)
  | string (s : String) : Equal (.string s) (.string s)
  | vec {xs ys : List Value} (hlength : xs.length = ys.length)
      (h : ∀ p ∈ xs.zip ys, Equal p.1 p.2) : Equal (.vec xs) (.vec ys)
  | btreeSet {xs ys : List Value} (hlength : xs.length = ys.length)
      (h : ∀ p ∈ xs.zip ys, Equal p.1 p.2) : Equal (.btreeSet xs) (.btreeSet ys)
  | btreeMap {xs ys : List (Value × Value)} (hlength : xs.length = ys.length)
      (hkeys : ∀ p ∈ xs.zip ys, Equal p.1.1 p.2.1) (hvalues : ∀ p ∈ xs.zip ys, Equal p.1.2 p.2.2) :
      Equal (.btreeMap xs) (.btreeMap ys)
  | hashMap {xs ys zs : List (Value × Value)} (hperm : zs.Perm ys) (hlength : xs.length = zs.length)
      (hkeys : ∀ p ∈ xs.zip zs, Equal p.1.1 p.2.1) (hvalues : ∀ p ∈ xs.zip zs, Equal p.1.2 p.2.2) :
      Equal (.hashMap xs) (.hashMap ys)
  | none : Equal .none .none
  | some {v w : Value} (h : Equal v w) : Equal (.some v) (.some w)
  | ok {v w : Value} (h : Equal v w) : Equal (.ok v) (.ok w)
  | err {v w : Value} (h : Equal v w) : Equal (.err v) (.err w)
  | signed {v w : Value} (signature : Signature) (peer : PeerId) (h : Equal v w) :
      Equal (.signed v signature peer) (.signed w signature peer)
  | struct {xs ys : List Value} (name : String) (hlength : xs.length = ys.length)
      (h : ∀ p ∈ xs.zip ys, Equal p.1 p.2) : Equal (.struct name xs) (.struct name ys)

/-- `v` is a value of the type. The elements of a `BTreeSet` and the keys of a `BTreeMap`
are in increasing order, and no two keys of a `HashMap` are equal. -/
inductive HasTy (D : Decls) : Value → Ty → Prop
  | int (ty : IntTy) (bits : BitVec (8 * ty.bytes)) : HasTy D (.int ty bits) (.int ty)
  | bool (b : Bool) : HasTy D (.bool b) .bool
  | string (s : String) : HasTy D (.string s) .string
  | vec {t : Ty} {items : List Value} (h : ∀ v ∈ items, HasTy D v t) :
      HasTy D (.vec items) (.vec t)
  | btreeSet {t : Ty} {items : List Value} (hord : D.IsOrd t) (h : ∀ v ∈ items, HasTy D v t)
      (hsorted : items.Pairwise fun v w => D.le v w = true ∧ D.le w v = false) :
      HasTy D (.btreeSet items) (.btreeSet t)
  | btreeMap {k t : Ty} {entries : List (Value × Value)} (hord : D.IsOrd k)
      (hkeys : ∀ e ∈ entries, HasTy D e.1 k) (hvalues : ∀ e ∈ entries, HasTy D e.2 t)
      (hsorted : entries.Pairwise fun e f => D.le e.1 f.1 = true ∧ D.le f.1 e.1 = false) :
      HasTy D (.btreeMap entries) (.btreeMap k t)
  | hashMap {k t : Ty} {entries : List (Value × Value)} (hord : D.IsOrd k)
      (hkeys : ∀ e ∈ entries, HasTy D e.1 k) (hvalues : ∀ e ∈ entries, HasTy D e.2 t)
      (hdistinct : entries.Pairwise fun e f => ¬ Equal e.1 f.1) :
      HasTy D (.hashMap entries) (.hashMap k t)
  | none (t : Ty) : HasTy D .none (.option t)
  | some {t : Ty} {v : Value} (h : HasTy D v t) : HasTy D (.some v) (.option t)
  | ok {t e : Ty} {v : Value} (h : HasTy D v t) : HasTy D (.ok v) (.result t e)
  | err {t e : Ty} {v : Value} (h : HasTy D v e) : HasTy D (.err v) (.result t e)
  | signed {t : Ty} {v : Value} (signature : Signature) (peer : PeerId) (h : HasTy D v t) :
      HasTy D (.signed v signature peer) (.signed t)
  | struct {name : String} {ts : List Ty} {fields : List Value} (hname : D.fields name = .some ts)
      (hlength : fields.length = ts.length) (h : ∀ p ∈ fields.zip ts, HasTy D p.1 p.2) :
      HasTy D (.struct name fields) (.struct name)

/-- A crate whose types keep the contract of `Ord`: a total order, in which two values are
the same just if they are equal. -/
structure Crate extends Decls where
  total : ∀ {t v w}, IsOrd t → HasTy toDecls v t → HasTy toDecls w t →
    le v w = true ∨ le w v = true
  trans : ∀ {t u v w}, IsOrd t → HasTy toDecls u t → HasTy toDecls v t → HasTy toDecls w t →
    le u v = true → le v w = true → le u w = true
  antisymm_iff : ∀ {t v w}, IsOrd t → HasTy toDecls v t → HasTy toDecls w t →
    (le v w = true ∧ le w v = true ↔ Equal v w)

/-! ## The code -/

/-- `to_le_bytes`. -/
def toLeBytes (ty : IntTy) (bits : BitVec (8 * ty.bytes)) : Bytes :=
  (List.range ty.bytes).map fun k => UInt8.ofBitVec (bits.extractLsb' (8 * k) 8)

/-- `Digest for Signature` (crypto.rs:92–96). -/
def Signature.digest (signature : Signature) : Hash :=
  Vector.ofFn fun k : Fin 32 => signature.bytes.get (k.castLE (by decide))

/-- Entries sorted by their keys. -/
def sortByKey {β : Type} (D : Decls) (entries : List (Value × β)) : List (Value × β) :=
  entries.mergeSort fun e f => D.le e.1 f.1

section

variable (D : Decls) (blake3 : Bytes → Hash)

mutual

/-- What `digest` feeds to its hasher (signing.rs:72–80, 167–257, 329–363,
message_macro.rs:47–57). -/
def preimage : Value → Bytes
  | .int ty bits => toLeBytes ty bits
  | .bool b => [if b then 1 else 0]
  | .string s => encodeUtf8 s
  | .vec items => updateAll items
  | .btreeSet items => updateAll items
  | .btreeMap entries =>
    (digestEntries entries).flatMap fun e => e.2.1.toList ++ e.2.2.toList
  -- the keys are sorted, and each is hashed with the value `get` finds for it
  | .hashMap entries =>
    (sortByKey D (digestEntries entries)).flatMap fun e => e.2.1.toList ++ e.2.2.toList
  | .none => [0]
  | .some value => 1 :: (blake3 (preimage value)).toList
  | .ok value => 1 :: (blake3 (preimage value)).toList
  | .err _ => [0]
  | .signed value signature peer =>
    (blake3 (preimage value)).toList ++ signature.digest.toList ++ encodeUtf8 peer
  | .struct _ fields => updateAll fields

/-- `hasher.update(&item.digest())` for every item. -/
def updateAll : List Value → Bytes
  | [] => []
  | v :: vs => (blake3 (preimage v)).toList ++ updateAll vs

/-- Every key with its digest and the digest of its value. -/
def digestEntries : List (Value × Value) → List (Value × (Hash × Hash))
  | [] => []
  | (k, v) :: entries =>
    (k, (blake3 (preimage k), blake3 (preimage v))) :: digestEntries entries

end

/-- `Digest::digest`. -/
def digest (v : Value) : Hash := blake3 (preimage D blake3 v)

mutual

/-- Everything that is hashed when the digest of a value is computed. -/
def inputs : Value → List Bytes
  | .vec items => preimage D blake3 (.vec items) :: inputsAll items
  | .btreeSet items => preimage D blake3 (.btreeSet items) :: inputsAll items
  | .btreeMap entries => preimage D blake3 (.btreeMap entries) :: inputsEntries entries
  | .hashMap entries => preimage D blake3 (.hashMap entries) :: inputsEntries entries
  | .some value => preimage D blake3 (.some value) :: inputs value
  | .ok value => preimage D blake3 (.ok value) :: inputs value
  | .signed value signature peer =>
    preimage D blake3 (.signed value signature peer) :: inputs value
  | .struct name fields => preimage D blake3 (.struct name fields) :: inputsAll fields
  | v => [preimage D blake3 v]

def inputsAll : List Value → List Bytes
  | [] => []
  | v :: vs => inputs v ++ inputsAll vs

def inputsEntries : List (Value × Value) → List Bytes
  | [] => []
  | (k, v) :: entries => inputs k ++ inputs v ++ inputsEntries entries

end

end

/-- The hash function is injective on these inputs. -/
def CollisionFree (blake3 : Bytes → Hash) (inputs : List Bytes) : Prop :=
  ∀ x ∈ inputs, ∀ y ∈ inputs, blake3 x = blake3 y → x = y

instance (blake3 : Bytes → Hash) (inputs : List Bytes) : Decidable (CollisionFree blake3 inputs) :=
  inferInstanceAs (Decidable (∀ x ∈ inputs, ∀ y ∈ inputs, blake3 x = blake3 y → x = y))

section

variable {D : Decls} {blake3 : Bytes → Hash}

theorem updateAll_eq (vs : List Value) :
    updateAll D blake3 vs = vs.flatMap fun v => (digest D blake3 v).toList := by
  induction vs with
  | nil => simp [updateAll]
  | cons v vs ih => simp [updateAll, digest, ih]

theorem digestEntries_eq (entries : List (Value × Value)) :
    digestEntries D blake3 entries =
      entries.map fun e => (e.1, (digest D blake3 e.1, digest D blake3 e.2)) := by
  induction entries with
  | nil => simp [digestEntries]
  | cons e entries ih => simp [digestEntries, digest, ih]

end

end DistBench.RustSigning
