import DistBench.Lib.PyValue

/-!
# Serialization libraries

`json`, `base64` and `msgpack` as the interface a program sees: `Codecs` are
the functions, `Codecs.Lawful` what their documentation promises. `ofTable` is
a library that knows a fixed list of texts, which is how a run of a program is
written out without a parser for either format.
-/

namespace DistBench

/-! ## UTF-8 -/

/-- `s.encode("utf-8")`. -/
def encodeUtf8 (s : String) : Bytes :=
  s.toUTF8.data.toList

/-- `b.decode("utf-8")`. -/
def decodeUtf8 (b : Bytes) : Option String :=
  String.fromUTF8? ⟨b.toArray⟩

@[simp] theorem decodeUtf8_encodeUtf8 (s : String) : decodeUtf8 (encodeUtf8 s) = some s := by
  simp [decodeUtf8, encodeUtf8, String.fromUTF8?, s.isValidUTF8]
  rfl

theorem encodeUtf8_injective : Function.Injective encodeUtf8 := by
  intro s t h
  have := congrArg decodeUtf8 h
  simpa using this

/-! ## The serialization libraries -/

/-- The functions of `json`, `base64` and `msgpack`; `none` is an exception. -/
structure Codecs (C : Type) where
  /-- `json.dumps(v, default=default)`. -/
  dumps : (PyValue C → Option (PyValue C)) → PyValue C → Option String
  /-- `json.loads(text, object_hook=hook)`. -/
  loads : (List (Key × PyValue C) → Option (PyValue C)) → String → Option (PyValue C)
  /-- `base64.b64encode(b).decode("ascii")`. -/
  b64encode : Bytes → String
  /-- `base64.b64decode(v)`. -/
  b64decode : PyValue C → Option Bytes
  /-- `msgpack.packb(v, use_bin_type=True)`. -/
  packb : PyValue C → Option Bytes
  /-- `msgpack.unpackb(b, raw=False)`. -/
  unpackb : Bytes → Option (PyValue C)

/-- What the libraries document: what they accept they read back, and what they
read is made of built-in values only. -/
structure Codecs.Lawful {C : Type} (lib : Codecs C) : Prop where
  dumps_tree : ∀ default v text, lib.dumps default v = some text →
    ∃ w, v.Dumped default w ∧
      (w.Plain List.Nodup → ∀ hook, lib.loads hook text = w.hookAll hook)
  loads_tree : ∀ hook text v, lib.loads hook text = some v →
    ∃ w : PyValue C, w.Plain List.Nodup ∧ w.hookAll hook = some v
  b64decode_b64encode : ∀ b, lib.b64decode (.str (lib.b64encode b)) = some b
  unpackb_packb : ∀ v b, v.Plain List.Nodup → lib.packb v = some b →
    lib.unpackb b = some v.untuple
  unpackb_plain : ∀ b v, lib.unpackb b = some v → v.Plain List.Nodup

/-! ## Base64 -/

/-- The digit for a number below 64. -/
def b64char (n : Nat) : Char :=
  "ABCDEFGHIJKLMNOPQRSTUVWXYZabcdefghijklmnopqrstuvwxyz0123456789+/".toList.getD n '='

/-- The number a digit stands for. -/
def b64val (c : Char) : Nat :=
  "ABCDEFGHIJKLMNOPQRSTUVWXYZabcdefghijklmnopqrstuvwxyz0123456789+/".toList.idxOf c

theorem b64val_b64char : ∀ n < 64, b64val (b64char n) = n := by
  decide +kernel

theorem b64char_ne_pad : ∀ n < 64, b64char n ≠ '=' := by
  decide +kernel

/-- Base64, three bytes at a time. -/
def b64encode : Bytes → List Char
  | [] => []
  | [a] => [b64char (a.toNat / 4), b64char (a.toNat % 4 * 16), '=', '=']
  | [a, b] =>
    [b64char (a.toNat / 4), b64char (a.toNat % 4 * 16 + b.toNat / 16),
      b64char (b.toNat % 16 * 4), '=']
  | a :: b :: c :: rest =>
    b64char (a.toNat / 4) :: b64char (a.toNat % 4 * 16 + b.toNat / 16) ::
      b64char (b.toNat % 16 * 4 + c.toNat / 64) :: b64char (c.toNat % 64) :: b64encode rest

/-- The bytes of a Base64 text, four digits at a time. -/
def b64decode : List Char → Bytes
  | w :: x :: y :: z :: rest =>
    let a := UInt8.ofNat (b64val w * 4 + b64val x / 16)
    let b := UInt8.ofNat (b64val x % 16 * 16 + b64val y / 4)
    let c := UInt8.ofNat (b64val y % 4 * 64 + b64val z)
    (if y = '=' then [a] else if z = '=' then [a, b] else [a, b, c]) ++ b64decode rest
  | _ => []

theorem b64decode_b64encode (bs : Bytes) : b64decode (b64encode bs) = bs := by
  have hlt (a : UInt8) : a.toNat < 256 := a.toNat_lt
  have hbyte (a : UInt8) {n : Nat} (h : n = a.toNat) : UInt8.ofNat n = a := by
    rw [h, UInt8.ofNat_toNat]
  induction bs using b64encode.induct with
  | case1 => rfl
  | case2 a =>
    have ha := hlt a
    simp only [b64encode, b64decode, if_true, List.append_nil]
    rw [b64val_b64char _ (by omega), b64val_b64char _ (by omega), hbyte a (by omega)]
  | case3 a b =>
    have ha := hlt a
    have hb := hlt b
    simp only [b64encode, b64decode, if_true, List.append_nil]
    rw [if_neg (b64char_ne_pad _ (by omega)), b64val_b64char _ (by omega),
      b64val_b64char _ (by omega), b64val_b64char _ (by omega), hbyte a (by omega),
      hbyte b (by omega)]
  | case4 a b c rest ih =>
    have ha := hlt a
    have hb := hlt b
    have hc := hlt c
    simp only [b64encode, b64decode, ih]
    rw [if_neg (b64char_ne_pad _ (by omega)), if_neg (b64char_ne_pad _ (by omega)),
      b64val_b64char _ (by omega), b64val_b64char _ (by omega), b64val_b64char _ (by omega),
      b64val_b64char _ (by omega), hbyte a (by omega), hbyte b (by omega), hbyte c (by omega)]
    rfl

/-! ## A library that knows some texts -/

/-- One tree a program sends, as the libraries write it. -/
structure Sample (C : Type) where
  tree : PyValue C
  /-- What `json` writes for the tree. -/
  text : String
  /-- What `json` reads back, before the hook. -/
  parsed : PyValue C
  /-- What `msgpack` writes for it. -/
  packed : Bytes

open Classical in
/-- The libraries on the trees of a table; they accept nothing else. -/
noncomputable def Codecs.ofTable {C : Type} (table : List (Sample C)) : Codecs C where
  dumps default v :=
    (table.find? fun s => s.tree = v ∧ v.Dumped default s.parsed).map Sample.text
  loads hook text := (table.find? fun s => s.text = text).bind fun s => s.parsed.hookAll hook
  b64encode b := String.ofList (DistBench.b64encode b)
  b64decode
    | .str s => some (DistBench.b64decode s.toList)
    | _ => none
  packb v := (table.find? fun s => s.tree = v).map Sample.packed
  unpackb b := (table.find? fun s => s.packed = b).map fun s => s.tree.untuple

/-- The entry with a given key is the one that is found. -/
theorem find?_eq_of_nodup {α β : Type} {f : α → β} {p : α → Bool} {xs : List α} {a : α}
    (h : (xs.map f).Nodup) (ha : a ∈ xs) (hpa : p a) (hp : ∀ x, p x → f x = f a) :
    xs.find? p = some a := by
  induction xs with
  | nil => simp at ha
  | cons x xs ih =>
    obtain ⟨hx, hxs⟩ := List.nodup_cons.1 h
    rcases List.mem_cons.1 ha with rfl | ha
    · rw [List.find?_cons_of_pos hpa]
    · have hne : ¬ p x := fun e => hx (hp x e ▸ List.mem_map_of_mem ha)
      rw [List.find?_cons_of_neg hne]
      exact ih hxs ha

section

variable {C : Type} {table : List (Sample C)}

theorem Codecs.ofTable_dumps (trees : (table.map Sample.tree).Nodup) {s : Sample C}
    (hs : s ∈ table) {default : PyValue C → Option (PyValue C)}
    (hd : s.tree.Dumped default s.parsed) :
    (Codecs.ofTable table).dumps default s.tree = some s.text := by
  simp only [Codecs.ofTable]
  rw [find?_eq_of_nodup trees hs (by simpa using hd) (by simp +contextual), Option.map_some]

theorem Codecs.ofTable_packb (trees : (table.map Sample.tree).Nodup) {s : Sample C}
    (hs : s ∈ table) : (Codecs.ofTable table).packb s.tree = some s.packed := by
  simp only [Codecs.ofTable]
  rw [find?_eq_of_nodup trees hs (by simp) (by simp), Option.map_some]

theorem Codecs.ofTable_lawful (texts : (table.map Sample.text).Nodup)
    (packed : (table.map Sample.packed).Nodup)
    (parsed : ∀ s ∈ table, s.parsed.Plain List.Nodup)
    (trees : ∀ s ∈ table, s.tree.untuple.Plain List.Nodup) : (Codecs.ofTable table).Lawful where
  dumps_tree default v text h := by
    obtain ⟨s, hs, rfl⟩ := Option.map_eq_some_iff.1 h
    obtain ⟨rfl, hd⟩ : s.tree = v ∧ v.Dumped default s.parsed := by
      simpa using List.find?_some hs
    refine ⟨s.parsed, hd, fun _ hook => ?_⟩
    simp only [Codecs.ofTable]
    rw [find?_eq_of_nodup texts (List.mem_of_find?_eq_some hs) (by simp) (by simp),
      Option.bind_some]
  loads_tree hook text v h := by
    obtain ⟨s, hs, hv⟩ := Option.bind_eq_some_iff.1 h
    exact ⟨s.parsed, parsed s (List.mem_of_find?_eq_some hs), hv⟩
  b64decode_b64encode b := by simp [Codecs.ofTable, DistBench.b64decode_b64encode]
  unpackb_packb v b _ h := by
    obtain ⟨s, hs, rfl⟩ := Option.map_eq_some_iff.1 h
    obtain rfl : s.tree = v := by simpa using List.find?_some hs
    simp only [Codecs.ofTable]
    rw [find?_eq_of_nodup packed (List.mem_of_find?_eq_some hs) (by simp) (by simp),
      Option.map_some]
  unpackb_plain b v h := by
    obtain ⟨s, hs, rfl⟩ := Option.map_eq_some_iff.1 h
    exact trees s (List.mem_of_find?_eq_some hs)

end

end DistBench
