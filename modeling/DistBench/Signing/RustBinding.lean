import DistBench.Signing.RustDigest
import DistBench.Lib.Framing
import DistBench.Lib.Sorting

/-!
# What a digest of the Rust implementation binds

A digest leaves two things out: what an `Err` holds, which is not hashed at all, and the
second half of the signature of a `Signed`, since a signature's digest is the first 32 of
its 64 bytes. All the rest it binds.

- `Alike`: two values agree in all that is hashed;
- `digest_eq_iff_alike`: their digests are the same just if they are alike, where the hash
  function has no collision;
- `digest_binds_iff`: so a digest binds the content of two values just if they are equal
  as soon as they are alike, and `Alike.equal` gives the values where this is so.
-/

namespace DistBench.RustSigning

/-- The two values agree in all but what an `Err` holds and the second halves of
signatures. The entries of a `HashMap` are taken in the order of their keys. -/
inductive Alike (D : Decls) : Value → Value → Prop
  | int (ty : IntTy) (bits : BitVec (8 * ty.bytes)) : Alike D (.int ty bits) (.int ty bits)
  | bool (b : Bool) : Alike D (.bool b) (.bool b)
  | string (s : String) : Alike D (.string s) (.string s)
  | vec {xs ys : List Value} (hlength : xs.length = ys.length)
      (h : ∀ p ∈ xs.zip ys, Alike D p.1 p.2) : Alike D (.vec xs) (.vec ys)
  | btreeSet {xs ys : List Value} (hlength : xs.length = ys.length)
      (h : ∀ p ∈ xs.zip ys, Alike D p.1 p.2) : Alike D (.btreeSet xs) (.btreeSet ys)
  | btreeMap {xs ys : List (Value × Value)} (hlength : xs.length = ys.length)
      (hkeys : ∀ p ∈ xs.zip ys, Alike D p.1.1 p.2.1)
      (hvalues : ∀ p ∈ xs.zip ys, Alike D p.1.2 p.2.2) : Alike D (.btreeMap xs) (.btreeMap ys)
  | hashMap {xs ys : List (Value × Value)} (hlength : xs.length = ys.length)
      (hkeys : ∀ p ∈ (sortByKey D xs).zip (sortByKey D ys), Alike D p.1.1 p.2.1)
      (hvalues : ∀ p ∈ (sortByKey D xs).zip (sortByKey D ys), Alike D p.1.2 p.2.2) :
      Alike D (.hashMap xs) (.hashMap ys)
  | none : Alike D .none .none
  | some {v w : Value} (h : Alike D v w) : Alike D (.some v) (.some w)
  | ok {v w : Value} (h : Alike D v w) : Alike D (.ok v) (.ok w)
  | err (v w : Value) : Alike D (.err v) (.err w)
  | signed {v w : Value} {signature signature' : Signature} (peer : PeerId) (h : Alike D v w)
      (hsignature : signature.digest = signature'.digest) :
      Alike D (.signed v signature peer) (.signed w signature' peer)
  | struct {xs ys : List Value} (name : String) (hlength : xs.length = ys.length)
      (h : ∀ p ∈ xs.zip ys, Alike D p.1 p.2) : Alike D (.struct name xs) (.struct name ys)

variable {D : Decls} {C : Crate} {blake3 : Bytes → Hash} {a b v w : Value} {t : Ty}
  {items : List Value} {entries xs ys zs : List (Value × Value)}

/-! ## What is hashed -/

/-- The digests of an entry. -/
def block (D : Decls) (blake3 : Bytes → Hash) (e : Value × Value) : Bytes :=
  (digest D blake3 e.1).toList ++ (digest D blake3 e.2).toList

theorem sortByKey_map {β γ : Type} (f : Value × β → γ) (entries : List (Value × β)) :
    sortByKey D (entries.map fun e => (e.1, f e)) =
      (sortByKey D entries).map fun e => (e.1, f e) := by
  rw [sortByKey, sortByKey, List.map_mergeSort]
  intro e _ e' _
  rfl

theorem preimage_btreeMap :
    preimage D blake3 (.btreeMap entries) = entries.flatMap (block D blake3) := by
  rw [preimage, digestEntries_eq, List.flatMap_map]
  rfl

theorem preimage_hashMap :
    preimage D blake3 (.hashMap entries) = (sortByKey D entries).flatMap (block D blake3) := by
  rw [preimage, digestEntries_eq,
    sortByKey_map fun e => (digest D blake3 e.1, digest D blake3 e.2), List.flatMap_map]
  rfl

/-- The digests of items are the same one by one, or the rows of them differ. -/
theorem updateAll_inj {xs ys : List Value} :
    updateAll D blake3 xs = updateAll D blake3 ys ↔
      List.Forall₂ (fun v w => digest D blake3 v = digest D blake3 w) xs ys := by
  rw [updateAll_eq, updateAll_eq]
  constructor
  · intro h
    refine (forall₂_of_flatMap_eq (n := 32) (by decide) ?_ ?_ h).imp fun v w h => ?_
    · exact fun v _ => Vector.length_toList
    · exact fun v _ => Vector.length_toList
    · exact Vector.toList_inj.mp h
  · intro h
    exact flatMap_eq_of_forall₂ (h.imp fun v w h => congrArg Vector.toList h)

theorem block_inj {e f : Value × Value} :
    block D blake3 e = block D blake3 f ↔
      digest D blake3 e.1 = digest D blake3 f.1 ∧ digest D blake3 e.2 = digest D blake3 f.2 := by
  constructor
  · intro h
    obtain ⟨hkey, hvalue⟩ := List.append_inj h (by simp)
    exact ⟨Vector.toList_inj.mp hkey, Vector.toList_inj.mp hvalue⟩
  · rintro ⟨hkey, hvalue⟩
    rw [block, block, hkey, hvalue]

theorem blocks_inj :
    xs.flatMap (block D blake3) = ys.flatMap (block D blake3) ↔
      List.Forall₂ (fun e f => digest D blake3 e.1 = digest D blake3 f.1 ∧
        digest D blake3 e.2 = digest D blake3 f.2) xs ys := by
  constructor
  · intro h
    refine (forall₂_of_flatMap_eq (n := 64) (by decide) ?_ ?_ h).imp fun e f h => block_inj.mp h
    · exact fun e _ => by simp [block]
    · exact fun e _ => by simp [block]
  · intro h
    exact flatMap_eq_of_forall₂ (h.imp fun e f h => block_inj.mpr h)

/-- Values that are alike have the same digest. -/
theorem Alike.digest_eq (h : Alike D a b) : digest D blake3 a = digest D blake3 b := by
  refine congrArg blake3 ?_
  induction h with
  | int _ _ | bool _ | string _ | none => rfl
  | vec hlength _ ih | btreeSet hlength _ ih | struct _ hlength _ ih =>
    simp only [preimage]
    refine updateAll_inj.mpr (List.forall₂_iff_zip.mpr ⟨hlength, fun hp => ?_⟩)
    exact congrArg blake3 (ih _ hp)
  | btreeMap hlength _ _ ihkeys ihvalues =>
    rw [preimage_btreeMap, preimage_btreeMap]
    refine blocks_inj.mpr (List.forall₂_iff_zip.mpr ⟨hlength, fun hp => ?_⟩)
    exact ⟨congrArg blake3 (ihkeys _ hp), congrArg blake3 (ihvalues _ hp)⟩
  | hashMap hlength _ _ ihkeys ihvalues =>
    rw [preimage_hashMap, preimage_hashMap]
    refine blocks_inj.mpr
      (List.forall₂_iff_zip.mpr ⟨by simpa [sortByKey] using hlength, fun hp => ?_⟩)
    exact ⟨congrArg blake3 (ihkeys _ hp), congrArg blake3 (ihvalues _ hp)⟩
  | some _ ih | ok _ ih => simp only [preimage, ih]
  | err _ _ => rfl
  | signed _ _ hsignature ih => simp only [preimage, ih, hsignature]

/-! ## Without collisions -/

theorem CollisionFree.mono {inputs inputs' : List Bytes} (h : CollisionFree blake3 inputs)
    (hsub : inputs' ⊆ inputs) : CollisionFree blake3 inputs' :=
  fun x hx y hy => h x (hsub hx) y (hsub hy)

theorem preimage_mem_inputs (v : Value) : preimage D blake3 v ∈ inputs D blake3 v := by
  cases v <;> simp [inputs]

theorem inputs_subset_inputsAll (h : v ∈ items) : inputs D blake3 v ⊆ inputsAll D blake3 items := by
  induction items with
  | nil => cases h
  | cons w items ih =>
    rw [inputsAll]
    rcases List.mem_cons.mp h with rfl | h
    · exact List.subset_append_left _ _
    · exact List.Subset.trans (ih h) (List.subset_append_right _ _)

theorem inputs_subset_inputsEntries {e : Value × Value} (h : e ∈ entries) :
    inputs D blake3 e.1 ++ inputs D blake3 e.2 ⊆ inputsEntries D blake3 entries := by
  induction entries with
  | nil => cases h
  | cons f entries ih =>
    rw [inputsEntries]
    rcases List.mem_cons.mp h with rfl | h
    · exact List.subset_append_left _ _
    · exact List.Subset.trans (ih h) (List.subset_append_right _ _)

theorem inputsEntries_subset (h : xs ⊆ ys) :
    inputsEntries D blake3 xs ⊆ inputsEntries D blake3 ys := by
  induction xs with
  | nil => exact List.nil_subset _
  | cons e xs ih =>
    obtain ⟨he, hxs⟩ := List.cons_subset.mp h
    rw [inputsEntries]
    exact List.append_subset.mpr ⟨inputs_subset_inputsEntries he, ih hxs⟩

/-- A first field that is hashed in the same way. -/
theorem inputs_struct_subset {name : String} (h : preimage D blake3 v = preimage D blake3 w)
    (hsub : inputs D blake3 v ⊆ inputs D blake3 w) :
    inputs D blake3 (.struct name (v :: items)) ⊆ inputs D blake3 (.struct name (w :: items)) := by
  simp only [inputs, inputsAll, preimage, updateAll, h]
  exact List.cons_subset_cons _ (List.append_subset.mpr
    ⟨List.Subset.trans hsub (List.subset_append_left _ _), List.subset_append_right _ _⟩)

/-- What is hashed for a value and for another one, inside of `a` and of `b`. -/
theorem CollisionFree.inside (h : CollisionFree blake3 (inputs D blake3 a ++ inputs D blake3 b))
    (hv : inputs D blake3 v ⊆ inputs D blake3 a) (hw : inputs D blake3 w ⊆ inputs D blake3 b) :
    CollisionFree blake3 (inputs D blake3 v ++ inputs D blake3 w) :=
  h.mono (List.append_subset.mpr
    ⟨List.Subset.trans hv (List.subset_append_left _ _),
      List.Subset.trans hw (List.subset_append_right _ _)⟩)

theorem preimage_eq (hfree : CollisionFree blake3 (inputs D blake3 a ++ inputs D blake3 b))
    (h : digest D blake3 a = digest D blake3 b) : preimage D blake3 a = preimage D blake3 b :=
  hfree _ (List.mem_append_left _ (preimage_mem_inputs a)) _
    (List.mem_append_right _ (preimage_mem_inputs b)) h

/-- The little-endian bytes of an integer determine it. -/
theorem toLeBytes_inj {ty : IntTy} {bits bits' : BitVec (8 * ty.bytes)}
    (h : toLeBytes ty bits = toLeBytes ty bits') : bits = bits' := by
  refine BitVec.eq_of_getLsbD_eq fun i hi => ?_
  have hbyte := List.map_inj_left.mp h (i / 8) (List.mem_range.mpr (by omega))
  have hbit := congrArg (fun b : UInt8 => b.toBitVec.getLsbD (i % 8)) hbyte
  have hindex : 8 * (i / 8) + i % 8 = i := Nat.div_add_mod i 8
  simpa [BitVec.getLsbD_extractLsb', Nat.mod_lt, hindex] using hbit

/-- What is to be shown of a value, by induction: its digest binds all that is hashed. -/
def Binds (D : Decls) (blake3 : Bytes → Hash) (v : Value) : Prop :=
  ∀ w t, HasTy D v t → HasTy D w t →
    CollisionFree blake3 (inputs D blake3 v ++ inputs D blake3 w) →
      digest D blake3 v = digest D blake3 w → Alike D v w

/-- Two rows of items. -/
theorem alike_of_updateAll {xs ys : List Value} (ih : ∀ v ∈ xs, Binds D blake3 v)
    (hfree : CollisionFree blake3 (inputs D blake3 a ++ inputs D blake3 b))
    (hxs : inputsAll D blake3 xs ⊆ inputs D blake3 a)
    (hys : inputsAll D blake3 ys ⊆ inputs D blake3 b)
    (hty : ∀ p ∈ xs.zip ys, ∃ t, HasTy D p.1 t ∧ HasTy D p.2 t)
    (h : updateAll D blake3 xs = updateAll D blake3 ys) :
    xs.length = ys.length ∧ ∀ p ∈ xs.zip ys, Alike D p.1 p.2 := by
  obtain ⟨hlength, hdigest⟩ := List.forall₂_iff_zip.mp (updateAll_inj.mp h)
  refine ⟨hlength, fun p hp => ?_⟩
  obtain ⟨t, hx, hy⟩ := hty p hp
  obtain ⟨hmemx, hmemy⟩ := List.of_mem_zip hp
  have hinside := hfree.inside (List.Subset.trans (inputs_subset_inputsAll hmemx) hxs)
    (List.Subset.trans (inputs_subset_inputsAll hmemy) hys)
  exact ih p.1 hmemx p.2 t hx hy hinside (hdigest hp)

/-- Two rows of entries. -/
theorem alike_of_blocks {k t : Ty} (ih : ∀ e ∈ xs, Binds D blake3 e.1 ∧ Binds D blake3 e.2)
    (hfree : CollisionFree blake3 (inputs D blake3 a ++ inputs D blake3 b))
    (hxs : ∀ e ∈ xs, inputs D blake3 e.1 ++ inputs D blake3 e.2 ⊆ inputs D blake3 a)
    (hys : ∀ e ∈ ys, inputs D blake3 e.1 ++ inputs D blake3 e.2 ⊆ inputs D blake3 b)
    (htyx : ∀ e ∈ xs, HasTy D e.1 k ∧ HasTy D e.2 t)
    (htyy : ∀ e ∈ ys, HasTy D e.1 k ∧ HasTy D e.2 t)
    (h : xs.flatMap (block D blake3) = ys.flatMap (block D blake3)) :
    xs.length = ys.length ∧ (∀ p ∈ xs.zip ys, Alike D p.1.1 p.2.1) ∧
      ∀ p ∈ xs.zip ys, Alike D p.1.2 p.2.2 := by
  obtain ⟨hlength, hdigest⟩ := List.forall₂_iff_zip.mp (blocks_inj.mp h)
  refine ⟨hlength, fun p hp => ?_, fun p hp => ?_⟩
  all_goals obtain ⟨hx, hy⟩ := List.of_mem_zip hp
  all_goals obtain ⟨hxkey, hxvalue⟩ := List.append_subset.mp (hxs _ hx)
  all_goals obtain ⟨hykey, hyvalue⟩ := List.append_subset.mp (hys _ hy)
  · exact (ih _ hx).1 _ k (htyx _ hx).1 (htyy _ hy).1 (hfree.inside hxkey hykey) (hdigest hp).1
  · exact (ih _ hx).2 _ t (htyx _ hx).2 (htyy _ hy).2 (hfree.inside hxvalue hyvalue) (hdigest hp).2

theorem exists_common {α β γ : Type*} {R : α → γ → Prop} {S : β → γ → Prop} {xs : List α}
    {ys : List β} {ts : List γ} (h : List.Forall₂ R xs ts) (h' : List.Forall₂ S ys ts) :
    List.Forall₂ (fun x y => ∃ t, R x t ∧ S y t) xs ys := by
  induction h generalizing ys with
  | nil =>
    cases h'
    exact .nil
  | cons hx _ ih =>
    cases h' with
    | cons hy h' => exact .cons ⟨_, hx, hy⟩ (ih h')

/-- The digest of a value binds all that is hashed of it. -/
theorem binds (v : Value) : Binds D blake3 v := by
  induction v using Value.ind with
  | int ty bits =>
    intro w t hv hw hfree h
    have hpre := preimage_eq hfree h
    cases hv
    cases hw
    obtain rfl := toLeBytes_inj (by simpa only [preimage] using hpre)
    exact .int _ _
  | bool b =>
    intro w t hv hw hfree h
    have hpre := preimage_eq hfree h
    cases hv
    cases hw with
    | bool b' =>
      obtain rfl : b = b' := by cases b <;> cases b' <;> simp [preimage] at hpre ⊢
      exact .bool _
  | string s =>
    intro w t hv hw hfree h
    have hpre := preimage_eq hfree h
    cases hv
    cases hw
    obtain rfl := encodeUtf8_injective (by simpa only [preimage] using hpre)
    exact .string _
  | vec items ih =>
    intro w t hv hw hfree h
    have hpre := preimage_eq hfree h
    cases hv with
    | vec hxs =>
    cases hw with
    | vec hys =>
      simp only [preimage] at hpre
      obtain ⟨hlength, halike⟩ := alike_of_updateAll ih hfree (by simp [inputs]) (by simp [inputs])
        (fun p hp => ⟨_, hxs _ (List.of_mem_zip hp).1, hys _ (List.of_mem_zip hp).2⟩) hpre
      exact .vec hlength halike
  | btreeSet items ih =>
    intro w t hv hw hfree h
    have hpre := preimage_eq hfree h
    cases hv with
    | btreeSet _ hxs _ =>
    cases hw with
    | btreeSet _ hys _ =>
      simp only [preimage] at hpre
      obtain ⟨hlength, halike⟩ := alike_of_updateAll ih hfree (by simp [inputs]) (by simp [inputs])
        (fun p hp => ⟨_, hxs _ (List.of_mem_zip hp).1, hys _ (List.of_mem_zip hp).2⟩) hpre
      exact .btreeSet hlength halike
  | btreeMap entries ih =>
    intro w t hv hw hfree h
    have hpre := preimage_eq hfree h
    cases hv with
    | btreeMap _ hkeys hvalues _ =>
    cases hw with
    | btreeMap _ hkeys' hvalues' _ =>
      rw [preimage_btreeMap, preimage_btreeMap] at hpre
      have hinputs {entries : List (Value × Value)} {e : Value × Value} (he : e ∈ entries) :
          inputs D blake3 e.1 ++ inputs D blake3 e.2 ⊆ inputs D blake3 (.btreeMap entries) :=
        List.subset_cons_of_subset _ (inputs_subset_inputsEntries he)
      obtain ⟨hlength, halike⟩ := alike_of_blocks ih hfree (fun e => hinputs) (fun e => hinputs)
        (fun e he => ⟨hkeys e he, hvalues e he⟩) (fun e he => ⟨hkeys' e he, hvalues' e he⟩) hpre
      exact .btreeMap hlength halike.1 halike.2
  | hashMap entries ih =>
    intro w t hv hw hfree h
    have hpre := preimage_eq hfree h
    cases hv with
    | hashMap _ hkeys hvalues _ =>
    cases hw with
    | hashMap _ hkeys' hvalues' _ =>
      rw [preimage_hashMap, preimage_hashMap] at hpre
      have hmem {entries : List (Value × Value)} {e : Value × Value}
          (he : e ∈ sortByKey D entries) : e ∈ entries := List.mem_mergeSort.mp he
      have hinputs {entries : List (Value × Value)} {e : Value × Value}
          (he : e ∈ sortByKey D entries) :
          inputs D blake3 e.1 ++ inputs D blake3 e.2 ⊆ inputs D blake3 (.hashMap entries) :=
        List.subset_cons_of_subset _ (inputs_subset_inputsEntries (hmem he))
      obtain ⟨hlength, halike⟩ := alike_of_blocks (fun e he => ih e (hmem he)) hfree
        (fun e => hinputs) (fun e => hinputs)
        (fun e he => ⟨hkeys e (hmem he), hvalues e (hmem he)⟩)
        (fun e he => ⟨hkeys' e (hmem he), hvalues' e (hmem he)⟩) hpre
      exact .hashMap (by simpa [sortByKey] using hlength) halike.1 halike.2
  | none =>
    intro w t hv hw hfree h
    have hpre := preimage_eq hfree h
    cases hv
    cases hw with
    | none => exact .none
    | some _ => simp [preimage] at hpre
  | some v ih =>
    intro w t hv hw hfree h
    have hpre := preimage_eq hfree h
    cases hv with
    | some hv =>
    cases hw with
    | none => simp [preimage] at hpre
    | some hw =>
      simp only [preimage, List.cons.injEq, true_and] at hpre
      exact .some (ih _ _ hv hw (hfree.inside (by simp [inputs]) (by simp [inputs]))
        (Vector.toList_inj.mp hpre))
  | ok v ih =>
    intro w t hv hw hfree h
    have hpre := preimage_eq hfree h
    cases hv with
    | ok hv =>
    cases hw with
    | err _ => simp [preimage] at hpre
    | ok hw =>
      simp only [preimage, List.cons.injEq, true_and] at hpre
      exact .ok (ih _ _ hv hw (hfree.inside (by simp [inputs]) (by simp [inputs]))
        (Vector.toList_inj.mp hpre))
  | err e _ =>
    intro w t hv hw hfree h
    have hpre := preimage_eq hfree h
    cases hv
    cases hw with
    | err _ => exact .err _ _
    | ok _ => simp [preimage] at hpre
  | signed v signature peer ih =>
    intro w t hv hw hfree h
    have hpre := preimage_eq hfree h
    cases hv with
    | signed _ _ hv =>
    cases hw with
    | signed signature' peer' hw =>
      simp only [preimage, List.append_assoc] at hpre
      obtain ⟨hvalue, hpre⟩ := List.append_inj hpre (by simp)
      obtain ⟨hsignature, hpeer⟩ := List.append_inj hpre (by simp)
      obtain rfl := encodeUtf8_injective hpeer
      exact .signed _ (ih _ _ hv hw (hfree.inside (by simp [inputs]) (by simp [inputs]))
        (Vector.toList_inj.mp hvalue)) (Vector.toList_inj.mp hsignature)
  | struct name fields ih =>
    intro w t hv hw hfree h
    have hpre := preimage_eq hfree h
    cases hv with
    | struct hname hlength hxs =>
    cases hw with
    | struct hname' hlength' hys =>
      obtain rfl := Option.some.inj (hname.symm.trans hname')
      simp only [preimage] at hpre
      have hty := exists_common (List.forall₂_iff_zip.mpr ⟨hlength, fun hp => hxs _ hp⟩)
        (List.forall₂_iff_zip.mpr ⟨hlength', fun hp => hys _ hp⟩)
      obtain ⟨hlength, halike⟩ := alike_of_updateAll ih hfree (by simp [inputs]) (by simp [inputs])
        (fun p hp => (List.forall₂_iff_zip.mp hty).2 hp) hpre
      exact .struct name hlength halike

/-- Where the hash function has no collision, the digests of two values of a type are the
same just if the values are alike. -/
theorem digest_eq_iff_alike (ha : HasTy D a t) (hb : HasTy D b t)
    (hfree : CollisionFree blake3 (inputs D blake3 a ++ inputs D blake3 b)) :
    digest D blake3 a = digest D blake3 b ↔ Alike D a b :=
  ⟨binds a b t ha hb hfree, Alike.digest_eq⟩

/-! ## Equal values are alike -/

/-- `Ord` does not tell equal values apart. -/
theorem Crate.le_congr {v' w' : Value} (hord : C.IsOrd t) (hv : HasTy C.toDecls v t)
    (hv' : HasTy C.toDecls v' t) (hw : HasTy C.toDecls w t) (hw' : HasTy C.toDecls w' t)
    (hequal : Equal v v') (hequal' : Equal w w') : C.le v w = C.le v' w' := by
  obtain ⟨hvv', hv'v⟩ := (C.antisymm_iff hord hv hv').mpr hequal
  obtain ⟨hww', hw'w⟩ := (C.antisymm_iff hord hw hw').mpr hequal'
  rw [Bool.eq_iff_iff]
  constructor
  · intro h
    exact C.trans hord hv' hv hw' hv'v (C.trans hord hv hw hw' h hww')
  · intro h
    exact C.trans hord hv hv' hw hvv' (C.trans hord hv' hw' hw h hw'w)

/-- The entries of a map are sorted in one way, in whatever order they come. -/
theorem Crate.sortByKey_perm {k : Ty} (hord : C.IsOrd k)
    (hkeys : ∀ e ∈ ys, HasTy C.toDecls e.1 k)
    (hdistinct : ys.Pairwise fun e f => ¬ Equal e.1 f.1) (hperm : zs.Perm ys) :
    sortByKey C.toDecls zs = sortByKey C.toDecls ys := by
  let Apart (e f : Value × Value) : Prop := ¬ (C.le e.1 f.1 = true ∧ C.le f.1 e.1 = true)
  have : Std.Symm Apart := ⟨fun e f h h' => h ⟨h'.2, h'.1⟩⟩
  have hapart : ys.Pairwise Apart := hdistinct.imp_of_mem fun he hf hne h =>
    hne ((C.antisymm_iff hord (hkeys _ he) (hkeys _ hf)).mp h)
  refine mergeSort_eq_of_perm hperm ?_ ?_ ?_
  · intro e he f hf g hg
    exact C.trans hord (hkeys e he) (hkeys f hf) (hkeys g hg)
  · intro e he f hf
    exact C.total hord (hkeys e he) (hkeys f hf)
  · intro e he f hf hef hfe
    by_contra hne
    exact hapart.forall he hf hne ⟨hef, hfe⟩

theorem Equal.alike (h : Equal a b) (ha : HasTy C.toDecls a t) (hb : HasTy C.toDecls b t) :
    Alike C.toDecls a b := by
  induction h generalizing t with
  | int ty bits => exact .int ty bits
  | bool b => exact .bool b
  | string s => exact .string s
  | none => exact .none
  | vec hlength _ ih =>
    cases ha with
    | vec hxs =>
    cases hb with
    | vec hys =>
      exact .vec hlength fun p hp =>
        ih p hp (hxs _ (List.of_mem_zip hp).1) (hys _ (List.of_mem_zip hp).2)
  | btreeSet hlength _ ih =>
    cases ha with
    | btreeSet _ hxs _ =>
    cases hb with
    | btreeSet _ hys _ =>
      exact .btreeSet hlength fun p hp =>
        ih p hp (hxs _ (List.of_mem_zip hp).1) (hys _ (List.of_mem_zip hp).2)
  | btreeMap hlength _ _ ihkeys ihvalues =>
    cases ha with
    | btreeMap _ hkeys hvalues _ =>
    cases hb with
    | btreeMap _ hkeys' hvalues' _ =>
      exact .btreeMap hlength
        (fun p hp => ihkeys p hp (hkeys _ (List.of_mem_zip hp).1) (hkeys' _ (List.of_mem_zip hp).2))
        (fun p hp =>
          ihvalues p hp (hvalues _ (List.of_mem_zip hp).1) (hvalues' _ (List.of_mem_zip hp).2))
  | @hashMap xs ys zs hperm hlength hequal _ ihkeys ihvalues =>
    cases ha with
    | hashMap hord hkeys hvalues _ =>
    cases hb with
    | hashMap _ hkeys' hvalues' hdistinct =>
      -- entry by entry in the order of `xs`, and then in the order of the keys
      have hmatch : List.Forall₂ (fun e f => Equal e.1 f.1 ∧ Alike C.toDecls e.1 f.1 ∧
          Alike C.toDecls e.2 f.2) xs zs := by
        refine List.forall₂_iff_zip.mpr ⟨hlength, fun hp => ⟨hequal _ hp, ?_, ?_⟩⟩
        all_goals obtain ⟨he, hf⟩ := List.of_mem_zip hp
        · exact ihkeys _ hp (hkeys _ he) (hkeys' _ (hperm.subset hf))
        · exact ihvalues _ hp (hvalues _ he) (hvalues' _ (hperm.subset hf))
      have hsorted := forall₂_mergeSort (fun e f => C.le e.1 f.1) (fun e f => C.le e.1 f.1) hmatch
        fun e he f hf e' he' f' hf' h h' =>
          C.le_congr hord (hkeys e he) (hkeys' e' (hperm.subset he')) (hkeys f hf)
            (hkeys' f' (hperm.subset hf')) h.1 h'.1
      change List.Forall₂ _ (sortByKey C.toDecls xs) (sortByKey C.toDecls zs) at hsorted
      rw [C.sortByKey_perm hord hkeys' hdistinct hperm] at hsorted
      obtain ⟨-, hzip⟩ := List.forall₂_iff_zip.mp hsorted
      exact .hashMap (hlength.trans hperm.length_eq) (fun p hp => (hzip hp).2.1)
        (fun p hp => (hzip hp).2.2)
  | some _ ih =>
    cases ha with
    | some ha =>
    cases hb with
    | some hb => exact .some (ih ha hb)
  | ok _ ih =>
    cases ha with
    | ok ha =>
    cases hb with
    | ok hb => exact .ok (ih ha hb)
  | err _ _ => exact .err _ _
  | signed signature peer _ ih =>
    cases ha with
    | signed _ _ ha =>
    cases hb with
    | signed _ _ hb => exact .signed peer (ih ha hb) rfl
  | struct name hlength _ ih =>
    cases ha with
    | struct hname hlengthx hxs =>
    cases hb with
    | struct hname' hlengthy hys =>
      obtain rfl := Option.some.inj (hname.symm.trans hname')
      have hty := exists_common (List.forall₂_iff_zip.mpr ⟨hlengthx, fun hp => hxs _ hp⟩)
        (List.forall₂_iff_zip.mpr ⟨hlengthy, fun hp => hys _ hp⟩)
      refine .struct name hlength fun p hp => ?_
      obtain ⟨t, hx, hy⟩ := (List.forall₂_iff_zip.mp hty).2 hp
      exact ih p hp hx hy

/-! ## Values that are hashed in full -/

/-- The values directly inside. -/
def Value.parts : Value → List Value
  | .vec items | .btreeSet items | .struct _ items => items
  | .btreeMap entries | .hashMap entries => entries.map Prod.fst ++ entries.map Prod.snd
  | .some v | .ok v | .err v | .signed v _ _ => [v]
  | .int _ _ | .bool _ | .string _ | .none => []

/-- The value holds no `Err` and no signature. -/
inductive HashedInFull : Value → Prop
  | mk {v : Value} (herr : ∀ e, v ≠ .err e)
      (hsigned : ∀ w signature peer, v ≠ .signed w signature peer)
      (h : ∀ w ∈ v.parts, HashedInFull w) : HashedInFull v

theorem HashedInFull.part (h : HashedInFull v) (hw : w ∈ v.parts) : HashedInFull w := by
  cases h with
  | mk _ _ h => exact h w hw

/-- What is hashed in full is equal to all that is alike. -/
theorem Alike.equal (h : Alike D a b) (ha : HashedInFull a) : Equal a b := by
  induction h with
  | int ty bits => exact .int ty bits
  | bool b => exact .bool b
  | string s => exact .string s
  | none => exact .none
  | vec hlength _ ih =>
    exact .vec hlength fun p hp => ih p hp (ha.part (List.of_mem_zip hp).1)
  | btreeSet hlength _ ih =>
    exact .btreeSet hlength fun p hp => ih p hp (ha.part (List.of_mem_zip hp).1)
  | struct name hlength _ ih =>
    exact .struct name hlength fun p hp => ih p hp (ha.part (List.of_mem_zip hp).1)
  | btreeMap hlength _ _ ihkeys ihvalues =>
    have hpart {e : Value × Value} := And.intro
      (fun he => ha.part (List.mem_append_left _ (List.mem_map_of_mem (a := e) he)))
      (fun he => ha.part (List.mem_append_right _ (List.mem_map_of_mem (a := e) he)))
    exact .btreeMap hlength (fun p hp => ihkeys p hp (hpart.1 (List.of_mem_zip hp).1))
      (fun p hp => ihvalues p hp (hpart.2 (List.of_mem_zip hp).1))
  | @hashMap xs ys hlength _ _ ihkeys ihvalues =>
    have hsorted : List.Forall₂ (fun e f => Equal e.1 f.1 ∧ Equal e.2 f.2)
        (sortByKey D xs) (sortByKey D ys) := by
      refine List.forall₂_iff_zip.mpr ⟨by simpa [sortByKey] using hlength, fun {e f} hp => ?_⟩
      have he : e ∈ xs := List.mem_mergeSort.mp (List.of_mem_zip hp).1
      exact ⟨ihkeys _ hp (ha.part (List.mem_append_left _ (List.mem_map_of_mem he))),
        ihvalues _ hp (ha.part (List.mem_append_right _ (List.mem_map_of_mem he)))⟩
    -- back to the order in which the entries of `xs` come
    obtain ⟨zs, hmatch, hperm⟩ := List.perm_comp_forall₂ (List.mergeSort_perm xs _).symm hsorted
    obtain ⟨hlength, hzip⟩ := List.forall₂_iff_zip.mp hmatch
    exact .hashMap (hperm.trans (List.mergeSort_perm ys _)) hlength (fun p hp => (hzip hp).1)
      (fun p hp => (hzip hp).2)
  | some _ ih => exact .some (ih (ha.part (List.mem_singleton.mpr rfl)))
  | ok _ ih => exact .ok (ih (ha.part (List.mem_singleton.mpr rfl)))
  | err v w =>
    cases ha with
    | mk herr _ _ => exact absurd rfl (herr v)
  | @signed v w signature _ peer _ _ _ =>
    cases ha with
    | mk _ hsigned _ => exact absurd rfl (hsigned v signature peer)

/-- The digests of values that hold no `Err` and no signature bind their content. -/
theorem digest_binds (ha : HasTy C.toDecls a t) (hb : HasTy C.toDecls b t)
    (hfree : CollisionFree blake3 (inputs C.toDecls blake3 a ++ inputs C.toDecls blake3 b))
    (hfull : HashedInFull a) :
    digest C.toDecls blake3 a = digest C.toDecls blake3 b ↔ Equal a b :=
  (digest_eq_iff_alike ha hb hfree).trans ⟨fun h => h.equal hfull, fun h => h.alike ha hb⟩

/-- **A digest binds the content of two values** just if they are equal as soon as they
agree in all but what an `Err` holds and the second halves of signatures. -/
theorem digest_binds_iff (ha : HasTy C.toDecls a t) (hb : HasTy C.toDecls b t)
    (hfree : CollisionFree blake3 (inputs C.toDecls blake3 a ++ inputs C.toDecls blake3 b)) :
    (digest C.toDecls blake3 a = digest C.toDecls blake3 b ↔ Equal a b) ↔
      (Alike C.toDecls a b → Equal a b) := by
  rw [digest_eq_iff_alike ha hb hfree]
  exact ⟨fun h => h.mp, fun h => ⟨h, fun hequal => hequal.alike ha hb⟩⟩

/-! ## A crate -/

/-- A crate with one struct, of a map, a signed flag and an optional number; `u8` is ordered. -/
def smallCrate : Crate where
  fields name :=
    if name = "Ballot" then
      some [.hashMap (.int .u8) .bool, .signed .bool, .option (.int .u8)]
    else none
  IsOrd t := t = .int .u8
  le v w :=
    match v, w with
    | .int _ bits, .int _ bits' => bits.toNat ≤ bits'.toNat
    | _, _ => false
  total := by
    rintro t v w rfl hv hw
    cases hv
    cases hw
    simpa using Nat.le_total _ _
  trans := by
    rintro t u v w rfl hu hv hw
    cases hu
    cases hv
    cases hw
    simpa using Nat.le_trans
  antisymm_iff := by
    rintro t v w rfl hv hw
    cases hv with
    | int _ bits =>
    cases hw with
    | int _ bits' =>
      constructor
      · rintro ⟨hle, hge⟩
        obtain rfl : bits = bits' :=
          BitVec.eq_of_toNat_eq (Nat.le_antisymm (of_decide_eq_true hle) (of_decide_eq_true hge))
        exact .int _ _
      · rintro ⟨⟩
        simp

/-- Sums of the bytes that are 32 apart, with odd weights; enough for the inputs below. -/
def foldHash (x : Bytes) : Hash :=
  Vector.ofFn fun k : Fin 32 => UInt8.ofNat <| x.length +
    (x.zipIdx.map fun e => if e.2 % 32 = k.val then (2 * (e.2 / 32) + 1) * e.1.toNat else 0).sum

/-- A ballot with a signed flag. -/
def ballot (entries : List (Value × Value)) (flag : Bool) : Value :=
  .struct "Ballot" [.hashMap entries,
    .signed (.bool flag) ⟨Vector.replicate 64 7⟩ "a", .some (.int .u8 5#8)]

def yes : Value × Value := (.int .u8 3#8, .bool true)

def no : Value × Value := (.int .u8 5#8, .bool false)

theorem sorted_entries : ([yes, no] : List (Value × Value)).Pairwise
    fun e f => smallCrate.le e.1 f.1 = true := by decide

theorem distinct_entries {entries : List (Value × Value)} (hperm : entries.Perm [yes, no]) :
    entries.Pairwise fun e f => ¬ Equal e.1 f.1 := by
  have hboth : entries.Pairwise fun e f => ¬ Equal e.1 f.1 ∧ ¬ Equal f.1 e.1 :=
    hperm.symm.pairwise (List.pairwise_pair.mpr ⟨nofun, nofun⟩) And.symm
  exact hboth.imp And.left

theorem hasTy_entries {e : Value × Value} (he : e ∈ [yes, no]) :
    HasTy smallCrate.toDecls e.1 (.int .u8) ∧ HasTy smallCrate.toDecls e.2 .bool := by
  rcases List.mem_pair.mp he with rfl | rfl <;> exact ⟨.int _ _, .bool _⟩

theorem hasTy_ballot {entries : List (Value × Value)} (hperm : entries.Perm [yes, no])
    (flag : Bool) : HasTy smallCrate.toDecls (ballot entries flag) (.struct "Ballot") := by
  have hname : smallCrate.fields "Ballot" =
      some [.hashMap (.int .u8) .bool, .signed .bool, .option (.int .u8)] := by
    simp [smallCrate]
  refine .struct hname rfl ?_
  simp only [List.zip_cons_cons, List.zip_nil_right, List.forall_mem_cons]
  exact ⟨.hashMap rfl (fun e he => (hasTy_entries (hperm.subset he)).1)
    (fun e he => (hasTy_entries (hperm.subset he)).2) (distinct_entries hperm),
    .signed _ _ (.bool _), .some (.int _ _), by simp⟩

/-- The entries are hashed in the order of their keys, as those of a `BTreeMap`. -/
theorem preimage_entries {entries : List (Value × Value)} (hperm : entries.Perm [yes, no]) :
    preimage smallCrate.toDecls foldHash (.hashMap entries) =
      preimage smallCrate.toDecls foldHash (.btreeMap [yes, no]) := by
  rw [preimage_hashMap, preimage_btreeMap, smallCrate.sortByKey_perm rfl
    (fun e he => (hasTy_entries he).1) (distinct_entries (.refl _)) hperm, sortByKey,
    List.mergeSort_of_pairwise sorted_entries]

/-- A ballot as it is hashed. -/
def hashedBallot (flag : Bool) : Value :=
  .struct "Ballot" [.btreeMap [yes, no],
    .signed (.bool flag) ⟨Vector.replicate 64 7⟩ "a", .some (.int .u8 5#8)]

theorem inputs_ballot_subset {entries : List (Value × Value)} (hperm : entries.Perm [yes, no])
    (flag : Bool) : inputs smallCrate.toDecls foldHash (ballot entries flag) ⊆
      inputs smallCrate.toDecls foldHash (hashedBallot flag) := by
  refine inputs_struct_subset (preimage_entries hperm) ?_
  rw [inputs, inputs, preimage_entries hperm]
  exact List.cons_subset_cons _ (inputsEntries_subset hperm.subset)

theorem collisionFree_ballot : ∀ flag flag' : Bool, CollisionFree foldHash
    (inputs smallCrate.toDecls foldHash (hashedBallot flag) ++
      inputs smallCrate.toDecls foldHash (hashedBallot flag')) := by
  decide +kernel

theorem equal_ballot : Equal (ballot [yes, no] true) (ballot [no, yes] true) := by
  have hentries : ∀ p ∈ [yes, no].zip [yes, no], Equal p.1.1 p.2.1 ∧ Equal p.1.2 p.2.2 := by
    simp only [List.zip_cons_cons, List.zip_nil_right, List.forall_mem_cons]
    exact ⟨⟨.int _ _, .bool _⟩, ⟨.int _ _, .bool _⟩, by simp⟩
  refine .struct _ rfl ?_
  simp only [List.zip_cons_cons, List.zip_nil_right, List.forall_mem_cons]
  refine ⟨?_, .signed _ _ (.bool _), .some (.int _ _), by simp⟩
  exact .hashMap (.swap no yes []) rfl (fun p hp => (hentries p hp).1)
    fun p hp => (hentries p hp).2

theorem not_alike_ballot :
    ¬ Alike smallCrate.toDecls (ballot [yes, no] true) (ballot [no, yes] false) := by
  intro h
  cases h with
  | struct _ _ h =>
    cases h (.signed (.bool true) ⟨Vector.replicate 64 7⟩ "a",
      .signed (.bool false) ⟨Vector.replicate 64 7⟩ "a") (by simp) with
    | signed _ h _ => cases h

/-- The order in which the map is iterated makes no difference to the digest of a ballot, and the
signed flag does. -/
theorem digest_binds_iff_ballot :
    digest smallCrate.toDecls foldHash (ballot [yes, no] true) =
      digest smallCrate.toDecls foldHash (ballot [no, yes] true) ∧
    digest smallCrate.toDecls foldHash (ballot [yes, no] true) ≠
      digest smallCrate.toDecls foldHash (ballot [no, yes] false) := by
  have hyes : ([yes, no] : List (Value × Value)).Perm [yes, no] := .refl _
  have hno : ([no, yes] : List (Value × Value)).Perm [yes, no] := .swap yes no []
  have hfree (flag : Bool) := (collisionFree_ballot true flag).inside
    (inputs_ballot_subset hyes true) (inputs_ballot_subset hno flag)
  constructor
  · have hbinds := (digest_binds_iff (hasTy_ballot hyes true) (hasTy_ballot hno true)
      (hfree true)).mpr fun _ => equal_ballot
    exact hbinds.mpr equal_ballot
  · intro heq
    have hbinds := (digest_binds_iff (hasTy_ballot hyes true) (hasTy_ballot hno false)
      (hfree false)).mpr fun h => absurd h not_alike_ballot
    exact not_alike_ballot
      ((hbinds.mp heq).alike (hasTy_ballot hyes true) (hasTy_ballot hno false))

/-- **What an `Err` holds is not bound**: two errors have one digest. -/
theorem digest_not_binding :
    ¬ ∀ (C : Crate) (blake3 : Bytes → Hash) (t : Ty) (a b : Value),
      HasTy C.toDecls a t → HasTy C.toDecls b t →
        CollisionFree blake3 (inputs C.toDecls blake3 a ++ inputs C.toDecls blake3 b) →
          (digest C.toDecls blake3 a = digest C.toDecls blake3 b ↔ Equal a b) := by
  intro h
  have hty (bits : BitVec 8) : HasTy smallCrate.toDecls (.err (.int .u8 bits))
      (.result .bool (.int .u8)) := .err (.int _ _)
  have hequal := (h smallCrate foldHash _ _ _ (hty 0#8) (hty 1#8) (by decide)).mp rfl
  cases hequal with
  | err hequal => cases hequal

end DistBench.RustSigning
