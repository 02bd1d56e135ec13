import DistBench.Deployment
import DistBench.Lib.PyValue

/-!
# What the verifier visits

`recursive_verify`, the `verify` that `@message` generates and `Signed.verify` call one
another. Here they are read for all objects a message can be made of, sets and
dictionaries with any keys included, and for key stores and signatures of any kind; the
exceptions they raise and catch are those of the code.

A `Signed` is visited wherever it is, unless it is inside a message whose class has a
field called `verify`: what the attribute `verify` of such a message is, is not callable.

- `Obj`, `Env`: objects, and what a verification calls.
- `recursiveVerify`: the code.
- `Reachable`, `Visible`: what is inside an object, and what of it is visited.
- `recursiveVerify_iff`: all visited `Signed` are valid.
-/

namespace DistBench.Verifier

/-- An object. `σ` and `ι` are what the fields `signature` and `signer` of a `Signed`
hold; the elements of a set and the items of a dictionary are in some order. -/
inductive Obj (σ ι : Type) where
  | none
  | bool (b : Bool)
  | int (i : Int)
  | float (f : PyFloat)
  | str (s : String)
  | bytes (b : Bytes)
  | list (xs : List (Obj σ ι))
  | tuple (xs : List (Obj σ ι))
  | set (xs : List (Obj σ ι))
  | dict (items : List (Obj σ ι × Obj σ ι))
  /-- An instance of a class with `@message`. -/
  | message (cls : String) (fields : List (String × Obj σ ι))
  | signed (value : Obj σ ι) (signature : σ) (signer : ι)

variable {σ ι : Type}

/-- What a verification calls: the key store, the digest and the library for
signatures. Each call may raise an exception. -/
structure Env (σ ι : Type) where
  /-- `VerifyKey`. -/
  Key : Type
  /-- `keystore.get_key(signer)`. -/
  getKey : ι → Except Unit (Option Bytes)
  /-- `VerifyKey(key_bytes)`. -/
  verifyKey : Bytes → Except Unit Key
  /-- `KeyPair._digest_static(value)`. -/
  digestStatic : Obj σ ι → Except Unit Bytes
  /-- `verify_key.verify(digest, signature, encoder=RawEncoder)`. -/
  verify : Key → Bytes → σ → Except Unit Unit

/-- `except Exception: return False`. -/
def caught : Except Unit Bool → Bool
  | .ok b => b
  | .error _ => false

variable (env : Env σ ι)

/-- `Signed.verify` (signing.py:140–176), without its last line. -/
def checkSigned (value : Obj σ ι) (signature : σ) (signer : ι) : Except Unit Bool := do
  match ← env.getKey signer with
  | .none => return false
  | .some keyBytes =>
    match env.verifyKey keyBytes with
    | .error _ => return false
    | .ok verifyKey =>
      match env.digestStatic value >>= fun digest => env.verify verifyKey digest signature with
      | .error _ => return false
      | .ok _ => return true

mutual

/-- `recursive_verify` (signing.py:22–69). -/
def recursiveVerify : Obj σ ι → Bool
  | .list xs => verifyAll xs
  | .tuple xs => verifyAll xs
  | .set xs => verifyAll xs
  | .dict items => verifyItems items
  | .message _ fields =>
    -- `callable(obj.verify)`: the field hides the method, and no value is callable
    if "verify" ∈ fields.map Prod.fst then true else verifyFields fields
  | .signed value signature signer =>
    caught <| do
      if ← checkSigned env value signature signer then return recursiveVerify value
      else return false
  | _ => true

def verifyAll : List (Obj σ ι) → Bool
  | [] => true
  | x :: xs => recursiveVerify x && verifyAll xs

def verifyItems : List (Obj σ ι × Obj σ ι) → Bool
  | [] => true
  | (key, value) :: items => recursiveVerify key && recursiveVerify value && verifyItems items

/-- The `verify` that `@message` generates (decorators.py:46–61). -/
def verifyFields : List (String × Obj σ ι) → Bool
  | [] => true
  | (_, value) :: fields => recursiveVerify value && verifyFields fields

end

/-- `Signed.verify`. -/
def signedVerify (value : Obj σ ι) (signature : σ) (signer : ι) : Except Unit Bool := do
  if ← checkSigned env value signature signer then return recursiveVerify env value
  else return false

variable {env} {obj x y : Obj σ ι}

theorem recursiveVerify_signed {value : Obj σ ι} {signature : σ} {signer : ι} :
    recursiveVerify env (.signed value signature signer) =
      caught (signedVerify env value signature signer) := rfl

theorem verifyAll_iff {xs : List (Obj σ ι)} :
    verifyAll env xs = true ↔ ∀ x ∈ xs, recursiveVerify env x = true := by
  induction xs with
  | nil => simp [verifyAll]
  | cons x xs ih => simp [verifyAll, ih]

theorem verifyItems_iff {items : List (Obj σ ι × Obj σ ι)} :
    verifyItems env items = true ↔
      ∀ p ∈ items, recursiveVerify env p.1 = true ∧ recursiveVerify env p.2 = true := by
  induction items with
  | nil => simp [verifyItems]
  | cons p items ih => simp [verifyItems, ih]

theorem verifyFields_iff {fields : List (String × Obj σ ι)} :
    verifyFields env fields = true ↔ ∀ p ∈ fields, recursiveVerify env p.2 = true := by
  induction fields with
  | nil => simp [verifyFields]
  | cons p fields ih => simp [verifyFields, ih]

/-! ## What is inside an object -/

/-- `y` is directly inside `x`. -/
inductive Inside : Obj σ ι → Obj σ ι → Prop
  | list {xs : List (Obj σ ι)} {x : Obj σ ι} (h : x ∈ xs) : Inside (.list xs) x
  | tuple {xs : List (Obj σ ι)} {x : Obj σ ι} (h : x ∈ xs) : Inside (.tuple xs) x
  | set {xs : List (Obj σ ι)} {x : Obj σ ι} (h : x ∈ xs) : Inside (.set xs) x
  | key {items : List (Obj σ ι × Obj σ ι)} {p : Obj σ ι × Obj σ ι} (h : p ∈ items) :
      Inside (.dict items) p.1
  | value {items : List (Obj σ ι × Obj σ ι)} {p : Obj σ ι × Obj σ ι} (h : p ∈ items) :
      Inside (.dict items) p.2
  | field {cls : String} {fields : List (String × Obj σ ι)} {p : String × Obj σ ι}
      (h : p ∈ fields) : Inside (.message cls fields) p.2
  | signed {value : Obj σ ι} {signature : σ} {signer : ι} :
      Inside (.signed value signature signer) value

/-- Induction on an object, with a hypothesis for everything directly inside. -/
theorem Obj.ind {motive : Obj σ ι → Prop}
    (h : ∀ x, (∀ y, Inside x y → motive y) → motive x) (x : Obj σ ι) : motive x := by
  refine @Obj.rec σ ι motive (fun xs => ∀ x ∈ xs, motive x)
    (fun items => ∀ p ∈ items, motive p.1 ∧ motive p.2) (fun fields => ∀ p ∈ fields, motive p.2)
    (fun p => motive p.1 ∧ motive p.2) (fun p => motive p.2)
    ?none ?bool ?int ?float ?str ?bytes ?list ?tuple ?set ?dict ?message ?signed
    (by simp) (fun _ _ hx hxs => List.forall_mem_cons.2 ⟨hx, hxs⟩)
    (by simp) (fun _ _ hx hxs => List.forall_mem_cons.2 ⟨hx, hxs⟩)
    (by simp) (fun _ _ hx hxs => List.forall_mem_cons.2 ⟨hx, hxs⟩)
    (fun _ _ hk hv => ⟨hk, hv⟩) (fun _ _ hv => hv) x
  case none => exact h _ fun y hy => by cases hy
  case bool => exact fun _ => h _ fun y hy => by cases hy
  case int => exact fun _ => h _ fun y hy => by cases hy
  case float => exact fun _ => h _ fun y hy => by cases hy
  case str => exact fun _ => h _ fun y hy => by cases hy
  case bytes => exact fun _ => h _ fun y hy => by cases hy
  case list =>
    intro xs ih
    refine h _ fun y hy => ?_
    cases hy with
    | list hmem => exact ih y hmem
  case tuple =>
    intro xs ih
    refine h _ fun y hy => ?_
    cases hy with
    | tuple hmem => exact ih y hmem
  case set =>
    intro xs ih
    refine h _ fun y hy => ?_
    cases hy with
    | set hmem => exact ih y hmem
  case dict =>
    intro items ih
    refine h _ fun y hy => ?_
    cases hy with
    | key hmem => exact (ih _ hmem).1
    | value hmem => exact (ih _ hmem).2
  case message =>
    intro cls fields ih
    refine h _ fun y hy => ?_
    cases hy with
    | field hmem => exact ih _ hmem
  case signed =>
    intro value signature signer ih
    refine h _ fun y hy => ?_
    cases hy with
    | signed => exact ih

/-- `y` is `x` or somewhere inside `x`. -/
def Reachable : Obj σ ι → Obj σ ι → Prop := Relation.ReflTransGen Inside

/-- A message with a field called `verify`. -/
def Obj.Shadowed : Obj σ ι → Prop
  | .message _ fields => "verify" ∈ fields.map Prod.fst
  | _ => False

/-- `y` is reachable from `x`, and not inside a message with a field called `verify`. -/
def Visible : Obj σ ι → Obj σ ι → Prop :=
  Relation.ReflTransGen fun x y => Inside x y ∧ ¬ x.Shadowed

theorem Visible.reachable (h : Visible x y) : Reachable x y :=
  Relation.ReflTransGen.mono (fun _ _ h => h.1) _ _ h

theorem visible_of_reachable (hx : ∀ z, Reachable x z → ¬ z.Shadowed) (h : Reachable x y) :
    Visible x y := by
  induction h with
  | refl => exact .refl
  | tail hreach hinside ih => exact ih.tail ⟨hinside, hx _ hreach⟩

/-! ## Exactness -/

/-- The key store has a valid key for the signer, under which the signature verifies over
the digest of the value. -/
def Env.Valid (env : Env σ ι) (value : Obj σ ι) (signature : σ) (signer : ι) : Prop :=
  ∃ keyBytes verifyKey digest, env.getKey signer = .ok (some keyBytes) ∧
    env.verifyKey keyBytes = .ok verifyKey ∧ env.digestStatic value = .ok digest ∧
    env.verify verifyKey digest signature = .ok ()

/-- Every `Signed` that `x` is related to is valid. -/
def Env.AllValid (env : Env σ ι) (R : Obj σ ι → Obj σ ι → Prop) (x : Obj σ ι) : Prop :=
  ∀ value signature signer, R x (.signed value signature signer) →
    env.Valid value signature signer

theorem checkSigned_iff {value : Obj σ ι} {signature : σ} {signer : ι} :
    checkSigned env value signature signer = .ok true ↔ env.Valid value signature signer := by
  unfold checkSigned Env.Valid
  cases hget : env.getKey signer with
  | error _ => simp [bind, Except.bind]
  | ok key =>
    cases key with
    | none => simp [bind, Except.bind, pure, Except.pure]
    | some keyBytes =>
      cases hkey : env.verifyKey keyBytes with
      | error _ => simp [bind, Except.bind, pure, Except.pure, hkey]
      | ok verifyKey =>
        cases hdigest : env.digestStatic value with
        | error _ => simp [bind, Except.bind, pure, Except.pure, hkey]
        | ok digest =>
          cases hverify : env.verify verifyKey digest signature with
          | error _ => simp [bind, Except.bind, pure, Except.pure, hkey, hverify]
          | ok _ => simp [bind, Except.bind, pure, Except.pure, hkey, hverify]

/-- A `Signed` is verified with its value. -/
theorem recursiveVerify_signed_iff {value : Obj σ ι} {signature : σ} {signer : ι} :
    recursiveVerify env (.signed value signature signer) = true ↔
      env.Valid value signature signer ∧ recursiveVerify env value = true := by
  rw [recursiveVerify_signed, signedVerify, ← checkSigned_iff]
  cases checkSigned env value signature signer with
  | error _ => simp [bind, Except.bind, caught]
  | ok b => cases b <;> simp [bind, Except.bind, pure, Except.pure, caught]

/-- One level of a verification. -/
theorem recursiveVerify_step : recursiveVerify env x = true ↔
    (∀ value signature signer, x = .signed value signature signer →
      env.Valid value signature signer) ∧
    ∀ y, Inside x y ∧ ¬ x.Shadowed → recursiveVerify env y = true := by
  cases x with
  | none | bool _ | int _ | float _ | str _ | bytes _ =>
    refine iff_of_true rfl ⟨nofun, fun y hy => ?_⟩
    cases hy.1
  | list xs | tuple xs | set xs =>
    refine verifyAll_iff.trans ⟨fun h => ⟨nofun, fun y hy => ?_⟩,
      fun h y hy => h.2 y ⟨by constructor; exact hy, id⟩⟩
    cases hy.1
    exact h y (by assumption)
  | dict items =>
    refine verifyItems_iff.trans ⟨fun h => ⟨nofun, fun y hy => ?_⟩,
      fun h p hp => ⟨h.2 _ ⟨.key hp, id⟩, h.2 _ ⟨.value hp, id⟩⟩⟩
    cases hy.1 with
    | key hp => exact (h _ hp).1
    | value hp => exact (h _ hp).2
  | message cls fields =>
    by_cases hverify : "verify" ∈ fields.map Prod.fst
    · rw [recursiveVerify, if_pos hverify]
      exact iff_of_true rfl ⟨nofun, fun y hy => absurd hverify hy.2⟩
    · rw [recursiveVerify, if_neg hverify]
      refine verifyFields_iff.trans ⟨fun h => ⟨nofun, fun y hy => ?_⟩,
        fun h p hp => h.2 _ ⟨.field hp, hverify⟩⟩
      cases hy.1 with
      | field hp => exact h _ hp
  | signed value signature signer =>
    refine recursiveVerify_signed_iff.trans ⟨fun h => ⟨?_, fun y hy => ?_⟩,
      fun h => ⟨h.1 _ _ _ rfl, h.2 _ ⟨.signed, id⟩⟩⟩
    · rintro _ _ _ ⟨⟩
      exact h.1
    · cases hy.1
      exact h.2

/-- The verifier accepts an object exactly if all that it visits is valid. -/
theorem recursiveVerify_iff : recursiveVerify env x = true ↔ env.AllValid Visible x := by
  induction x using Obj.ind with
  | h x ih =>
    rw [recursiveVerify_step]
    constructor
    · rintro ⟨hself, hinside⟩ value signature signer hvisible
      rcases Relation.ReflTransGen.cases_head hvisible with rfl | ⟨y, hy, hrest⟩
      · exact hself _ _ _ rfl
      · exact (ih y hy.1).mp (hinside y hy) _ _ _ hrest
    · refine fun h => ⟨fun value signature signer hx => ?_, fun y hy => ?_⟩
      · exact h _ _ _ (hx ▸ .refl)
      · exact (ih y hy.1).mpr fun _ _ _ hrest => h _ _ _ (hrest.head hy)

/-- Nothing is passed over in an object without a field called `verify`. -/
theorem recursiveVerify_iff_of_not_shadowed (hx : ∀ y, Reachable x y → ¬ y.Shadowed) :
    recursiveVerify env x = true ↔ env.AllValid Reachable x :=
  recursiveVerify_iff.trans
    ⟨fun h _ _ _ hreach => h _ _ _ (visible_of_reachable hx hreach),
      fun h _ _ _ hvisible => h _ _ _ hvisible.reachable⟩

/-- **When the verifier is exact**: what is inside messages with a field called `verify`
has to be valid wherever all the rest is. -/
theorem recursiveVerify_exact_iff :
    (recursiveVerify env x = true ↔ env.AllValid Reachable x) ↔
      (env.AllValid Visible x → env.AllValid Reachable x) := by
  rw [recursiveVerify_iff]
  refine ⟨fun h => h.mp, fun h => ⟨h, fun hall value signature signer hvisible => ?_⟩⟩
  exact hall _ _ _ hvisible.reachable

/-- A ballot with a field called `verify` and a vote that nobody has a key for. -/
def ballot : Obj Bytes PeerId :=
  .message "Ballot" [("verify", .bool true), ("vote", .signed (.str "yes") [] "mallory")]

/-- Nobody has a key. -/
def noKeys : Env Bytes PeerId where
  Key := Unit
  getKey _ := .ok none
  verifyKey _ := .ok ()
  digestStatic _ := .ok []
  verify _ _ _ := .error ()

/-- The ballot is accepted. -/
theorem recursiveVerify_ballot : ¬ ∀ (env : Env Bytes PeerId) (obj : Obj Bytes PeerId),
    recursiveVerify env obj = true ↔ env.AllValid Reachable obj := by
  intro h
  have hvote : Inside ballot (.signed (.str "yes") [] "mallory") :=
    Inside.field (p := ("vote", _)) (List.mem_cons_of_mem _ (List.mem_singleton_self _))
  have hvalid := (h noKeys ballot).mp rfl _ _ _ (.single hvote)
  obtain ⟨_, _, _, hkey, -⟩ := hvalid
  cases hkey

end DistBench.Verifier
