import DistBench.Signing.Signing
import DistBench.Encoding.RoundTrip

/-!
# What a signature binds

The hashed text determines the names of the fields and what `asdict` makes of
their values (`flatFields`), and nothing else: the classes are gone before the
text is made. Between two values of one annotated type nothing is lost, since
`deserializeObj` rebuilds either from what is left.
-/

namespace DistBench

open PyValue

/-- `asdict` leaves no instance of a class behind. -/
theorem PyValue.asdict_builtin {C : Type} (v : PyValue C) : v.asdict.Builtin := by
  induction v using PyValue.ind with
  | none => exact .none
  | bool b => exact .bool b
  | int i => exact .int i
  | float f => exact .float f
  | str s => exact .str s
  | bytes b => exact .bytes b
  | list xs ih => exact .list (by simpa using ih)
  | tuple xs ih => exact .tuple (by simpa using ih)
  | dict items ih =>
    refine .dict trivial ?_
    rw [asdictItems_eq, List.forall_mem_map]
    exact ih
  | obj cls attrs ih =>
    refine .dict trivial ?_
    rw [asdictAttrs_eq, List.forall_mem_map]
    exact ih

/-- The fields of a message without the classes of their values. -/
def flatFields (attrs : List (String × Value)) : List (String × Value) :=
  attrs.map fun p => (p.1, p.2.asdict)

theorem sortedItems_perm (attrs : List (String × Value)) :
    (sortedItems attrs).Perm (flatFields attrs) :=
  List.mergeSort_perm _ _

variable {crypto : Crypto}

theorem canonical_obj_inj {c c' : Cls} {attrs attrs' : List (String × Value)}
    (h : canonical crypto (.obj c attrs) = canonical crypto (.obj c' attrs')) :
    sortedItems attrs = sortedItems attrs' := by
  have hbuiltin (attrs : List (String × Value)) :
      (PyValue.list ((sortedItems attrs).map fun p => .tuple [.str p.1, p.2])).Builtin := by
    refine .list (List.forall_mem_map.2 fun p hp => .tuple ?_)
    obtain ⟨q, _, rfl⟩ := List.mem_map.1 ((sortedItems_perm attrs).mem_iff.1 hp)
    simp only [List.forall_mem_cons]
    exact ⟨.str _, asdict_builtin q.2, by simp⟩
  have hinj : Function.Injective fun p : String × Value => PyValue.tuple [.str p.1, p.2] := by
    rintro ⟨k, v⟩ ⟨k', v'⟩ e
    simpa using e
  have htext := String.ofList_injective (encodeUtf8_injective h)
  exact List.map_injective_iff.2 hinj
    (PyValue.list.inj (repr_injective (hbuiltin attrs) (hbuiltin attrs') htext))

theorem flatFields_perm_of_canonical {c c' : Cls} {attrs attrs' : List (String × Value)}
    (h : canonical crypto (.obj c attrs) = canonical crypto (.obj c' attrs')) :
    (flatFields attrs).Perm (flatFields attrs') :=
  (sortedItems_perm attrs).symm.trans (canonical_obj_inj h ▸ sortedItems_perm attrs')

/-- `asdict` is injective on a type: decoding undoes it. -/
theorem HasType.asdict_inj {t : PyType} (ht : Wire t) {x y : Value} (hx : HasType t x)
    (hy : HasType t y) (h : x.asdict = y.asdict) : x = y := by
  have hread := deserializeObj_untuple_asdict ht hx
  rw [h, deserializeObj_untuple_asdict ht hy] at hread
  exact (Option.some.inj hread).symm

theorem eq_of_perm_of_keys {α β : Type} {l l' : List (α × β)}
    (keys : l.map Prod.fst = l'.map Prod.fst) (nodup : (l.map Prod.fst).Nodup) (h : l.Perm l') :
    l = l' := by
  induction l generalizing l' with
  | nil => exact (List.nil_perm.1 h).symm
  | cons p l ih =>
    cases l' with
    | nil => simp at keys
    | cons q l' =>
      obtain ⟨hk, hks⟩ := List.cons.inj keys
      obtain ⟨hp, hl⟩ := List.nodup_cons.1 nodup
      have hpq : p = q := by
        rcases List.mem_cons.1 (h.subset List.mem_cons_self) with e | hmem
        · exact e
        · exact absurd (hks ▸ List.mem_map_of_mem hmem) hp
      subst hpq
      rw [ih hks hl h.cons_inv]

/-- The instances of a dataclass have its attributes, in the same order. -/
theorem HasType.attr_names {t : PyType} (ht : Wire t) {c c' : Cls}
    {attrs attrs' : List (String × Value)} (hx : HasType t (.obj c attrs))
    (hy : HasType t (.obj c' attrs')) :
    attrs.map Prod.fst = attrs'.map Prod.fst ∧ (attrs.map Prod.fst).Nodup := by
  cases ht with
  | signed _ =>
    cases hx with
    | signed => cases hy with
      | signed => simp
  | cls nodup _ _ =>
    cases hx with
    | cls => cases hy with
      | cls => simpa [Function.comp_def] using nodup
  | _ => cases hx

/-- Within one type, the flat fields determine the message. -/
theorem HasType.eq_of_flatFields_perm {t : PyType} (ht : Wire t) {c c' : Cls}
    {attrs attrs' : List (String × Value)} (hx : HasType t (.obj c attrs))
    (hy : HasType t (.obj c' attrs')) (h : (flatFields attrs).Perm (flatFields attrs')) :
    PyValue.obj c attrs = .obj c' attrs' := by
  obtain ⟨hkeys, hnodup⟩ := hx.attr_names ht hy
  have hflat : flatFields attrs = flatFields attrs' :=
    eq_of_perm_of_keys (by simpa [flatFields, Function.comp_def] using hkeys)
      (by simpa [flatFields, Function.comp_def] using hnodup) h
  refine hx.asdict_inj ht hy ?_
  have := congrArg (List.map fun p : String × Value => (Key.str p.1, p.2)) hflat
  simpa [asdict, flatFields, Function.comp_def] using this

/-! ## Accepted signatures -/

theorem canonical_eq_of_signedVerify (h : crypto.Ideal) {kp : KeyPair crypto}
    {keystore : Keystore} {a b signer : Value}
    (hv : signedVerify crypto keystore b (.bytes (kp.signature a)) signer = true) :
    canonical crypto b = canonical crypto a := by
  have hvalid := (Bool.and_eq_true _ _ ▸ hv : _ ∧ _).1
  unfold signatureValid at hvalid
  split at hvalid
  · simp at hvalid
  · exact h.blake2b_injective (h.unforgeable _ _ _ _ hvalid)

/-- A signature made for `a` and accepted for `b` shows that both have the same
field names with the same flat values; of one type, they are equal. -/
theorem signedVerify_binds (h : crypto.Ideal) {kp : KeyPair crypto} {keystore : Keystore}
    {c c' : Cls} {attrs attrs' : List (String × Value)} {signer : Value}
    (hv : signedVerify crypto keystore (.obj c' attrs')
      (.bytes (kp.signature (.obj c attrs))) signer = true) :
    (flatFields attrs).Perm (flatFields attrs') ∧
      ∀ t, Wire t → HasType t (.obj c attrs) → HasType t (.obj c' attrs') →
        PyValue.obj c attrs = .obj c' attrs' := by
  have hperm := flatFields_perm_of_canonical (canonical_eq_of_signedVerify h hv).symm
  exact ⟨hperm, fun t ht hx hy => hx.eq_of_flatFields_perm ht hy hperm⟩

/-! ## Two classes with the same fields -/

/-- An ideal scheme: the hash is the text and the signature is the hash. -/
def plainCrypto : Crypto where
  SigningKey := Unit
  blake2b := id
  verifyKey _ := []
  sign _ d := d
  verify _ d signature :=
    match signature with
    | .bytes b => b == d
    | _ => false
  env := ⟨fun _ => true, fun _ _ => []⟩

theorem plainCrypto_ideal : plainCrypto.Ideal where
  blake2b_injective := Function.injective_id
  verify_sign _ d := by simp [plainCrypto]
  unforgeable _ _ d d' h := (by simpa [plainCrypto] using h : d = d').symm

/-- `Vote(value=True)`. -/
def vote : Value :=
  .obj ⟨"Vote", .message⟩ [("value", .bool true)]

/-- `Veto(value=True)`, of another class with a field of the same name. -/
def veto : Value :=
  .obj ⟨"Veto", .message⟩ [("value", .bool true)]

/-- The key pair of `n1`. -/
def keyPair₁ : KeyPair plainCrypto :=
  ⟨"n1", ()⟩

theorem signedVerify_signature {keystore : Keystore} {signer : Value}
    (hkey : keystore signer = some (plainCrypto.verifyKey ())) {a b : Value}
    (hab : canonical plainCrypto b = canonical plainCrypto a)
    (hb : recursiveVerify plainCrypto keystore b = true) :
    signedVerify plainCrypto keystore b (.bytes (keyPair₁.signature a)) signer = true := by
  have hdigest : digestStatic plainCrypto b = digestStatic plainCrypto a := by
    rw [digestStatic, digestStatic, hab]
  simp only [signedVerify, signatureValid, hkey, hdigest, hb, Bool.and_true]
  exact plainCrypto_ideal.verify_sign () _

/-- The signature of a vote passes for a veto. -/
theorem signedVerify_vote_as_veto :
    plainCrypto.Ideal ∧
    signedVerify plainCrypto (fun _ => some []) veto (.bytes (keyPair₁.signature vote))
      (peerId "n1") = true ∧
    vote ≠ veto :=
  ⟨plainCrypto_ideal, signedVerify_signature rfl rfl rfl, by simp [vote, veto]⟩

/-- The signature of a vote passes for no vote with another value. It passes for a veto, but no
type has both. -/
theorem signedVerify_binds_vote :
    signedVerify plainCrypto (fun _ => some []) (.obj ⟨"Vote", .message⟩ [("value", .bool false)])
      (.bytes (keyPair₁.signature vote)) (peerId "n1") = false ∧
    ∀ t, Wire t → HasType t vote → ¬ HasType t veto := by
  constructor
  · by_contra hv
    have hperm := (signedVerify_binds plainCrypto_ideal (eq_true_of_ne_false hv)).1
    simp [flatFields, PyValue.asdict] at hperm
  · intro t ht hvote hveto
    have hv : signedVerify plainCrypto (fun _ => some []) veto (.bytes (keyPair₁.signature vote))
        (peerId "n1") = true := signedVerify_signature rfl rfl rfl
    have heq : vote = veto := (signedVerify_binds plainCrypto_ideal hv).2 t ht hvote hveto
    simp [vote, veto] at heq

end DistBench
