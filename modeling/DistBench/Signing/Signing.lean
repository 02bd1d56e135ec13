import DistBench.Encoding.Format
import DistBench.Lib.PyRepr

/-!
# Signatures

`distbench.signing`: a message is flattened to a canonical text, the text is
hashed and the hash is signed. `recursiveVerify` walks a received value and
checks every `Signed` it comes across.
-/

namespace DistBench

open PyValue (repr ReprEnv)

/-- BLAKE2b and Ed25519, and the `repr` of what a program defines. -/
structure Crypto where
  SigningKey : Type
  /-- `hashlib.blake2b(data, digest_size=32).digest()`. -/
  blake2b : Bytes → Bytes
  /-- `bytes(signing_key.verify_key)`. -/
  verifyKey : SigningKey → Bytes
  /-- `signing_key.sign(digest).signature`. -/
  sign : SigningKey → Bytes → Bytes
  /-- `VerifyKey(key).verify(digest, signature)` does not raise. -/
  verify : Bytes → Bytes → Value → Bool
  env : ReprEnv Cls

/-- The idealization: hashes do not collide, a signature is accepted under the
key of its maker, and for no other digest than the signed one. -/
structure Crypto.Ideal (crypto : Crypto) : Prop where
  blake2b_injective : Function.Injective crypto.blake2b
  verify_sign : ∀ sk d, crypto.verify (crypto.verifyKey sk) d (.bytes (crypto.sign sk d)) = true
  unforgeable : ∀ key sk d d', crypto.verify key d' (.bytes (crypto.sign sk d)) = true → d' = d

variable (crypto : Crypto)

/-! ## `KeyPair` -/

/-- `sorted(asdict(obj).items())`; the names of the fields are distinct, so the
values are never compared. -/
def sortedItems (attrs : List (String × Value)) : List (String × Value) :=
  (attrs.map fun p => (p.1, p.2.asdict)).mergeSort fun p q => p.1 ≤ q.1

/-- The bytes that are hashed. -/
def canonical : Value → Bytes
  | .obj _ attrs =>
    encodeUtf8 <| .ofList <| repr crypto.env <|
      .list ((sortedItems attrs).map fun p => .tuple [.str p.1, p.2])
  | .str s => encodeUtf8 s
  | .bytes b => b
  | v => encodeUtf8 (.ofList (repr crypto.env v))

/-- `KeyPair._digest_static`. -/
def digestStatic (v : Value) : Bytes :=
  crypto.blake2b (canonical crypto v)

/-- The key pair of a node. -/
structure KeyPair where
  peerId : String
  signingKey : crypto.SigningKey

/-- The signature `KeyPair.sign` computes. -/
def KeyPair.signature {crypto : Crypto} (kp : KeyPair crypto) (message : Value) : Bytes :=
  crypto.sign kp.signingKey (digestStatic crypto message)

/-- `KeyPair.sign`. -/
def KeyPair.sign {crypto : Crypto} (kp : KeyPair crypto) (message : Value) : Value :=
  signed message (.bytes (kp.signature message)) (DistBench.peerId kp.peerId)

/-! ## Verification -/

/-- `Community.get_key`, for whatever was received as the signer. -/
abbrev Keystore : Type := Value → Option Bytes

/-- The checks of `Signed.verify` on the wrapper itself. -/
def signatureValid (keystore : Keystore) (value signature signer : Value) : Bool :=
  match keystore signer with
  | none => false
  | some key => crypto.verify key (digestStatic crypto value) signature

mutual

def recursiveVerify (keystore : Keystore) : Value → Bool
  | .list xs => verifyAll keystore xs
  | .tuple xs => verifyAll keystore xs
  -- the keys of a dictionary are strings or byte strings
  | .dict items => verifyItems keystore items
  | .obj ⟨_, .signed⟩ [(_, value), (_, signature), (_, signer)] =>
    signatureValid crypto keystore value signature signer && recursiveVerify keystore value
  -- an instance with a field of this name has no callable `verify`
  | .obj ⟨_, .message⟩ attrs =>
    if "verify" ∈ attrs.map Prod.fst then true else verifyAttrs keystore attrs
  | _ => true

def verifyAll (keystore : Keystore) : List Value → Bool
  | [] => true
  | x :: xs => recursiveVerify keystore x && verifyAll keystore xs

def verifyItems (keystore : Keystore) : List (Key × Value) → Bool
  | [] => true
  | (_, x) :: items => recursiveVerify keystore x && verifyItems keystore items

/-- The `verify` that `@message` adds. -/
def verifyAttrs (keystore : Keystore) : List (String × Value) → Bool
  | [] => true
  | (_, x) :: attrs => recursiveVerify keystore x && verifyAttrs keystore attrs

end

/-- `Signed.verify`. -/
def signedVerify (keystore : Keystore) (value signature signer : Value) : Bool :=
  signatureValid crypto keystore value signature signer && recursiveVerify crypto keystore value

variable {crypto} {keystore : Keystore}

@[simp] theorem recursiveVerify_signed (value signature signer : Value) :
    recursiveVerify crypto keystore (signed value signature signer) =
      signedVerify crypto keystore value signature signer := rfl

/-- A message without a field called `verify` is verified field by field. -/
theorem recursiveVerify_message {name : String} {attrs : List (String × Value)}
    (h : "verify" ∉ attrs.map Prod.fst) :
    recursiveVerify crypto keystore (.obj ⟨name, .message⟩ attrs) =
      verifyAttrs crypto keystore attrs := by
  rw [recursiveVerify, if_neg h]

theorem verifyAll_iff {xs : List Value} :
    verifyAll crypto keystore xs = true ↔ ∀ x ∈ xs, recursiveVerify crypto keystore x = true := by
  induction xs with
  | nil => simp [verifyAll]
  | cons x xs ih => simp [verifyAll, ih]

theorem verifyItems_iff {items : List (Key × Value)} :
    verifyItems crypto keystore items = true ↔
      ∀ p ∈ items, recursiveVerify crypto keystore p.2 = true := by
  induction items with
  | nil => simp [verifyItems]
  | cons p items ih => simp [verifyItems, ih]

theorem verifyAttrs_iff {attrs : List (String × Value)} :
    verifyAttrs crypto keystore attrs = true ↔
      ∀ p ∈ attrs, recursiveVerify crypto keystore p.2 = true := by
  induction attrs with
  | nil => simp [verifyAttrs]
  | cons p attrs ih => simp [verifyAttrs, ih]

end DistBench
