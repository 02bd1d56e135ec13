import Mathlib

/-!
# Python values

The values a Python program passes to a serialization library: the built-in
scalars and containers, and instances of dataclasses over an arbitrary type `C`
of classes. A dictionary is the list of its items in insertion order; a
dictionary that exists at run time has distinct keys, which `Plain` can say.

- `beq` decides equality;
- `asdict` is `dataclasses.asdict`, which forgets the classes;
- `untuple` is what a format without tuples makes of a value;
- `Dumped` and `hookAll` are what `json` does with its `default` and
  `object_hook` arguments.
-/

namespace DistBench

/-- A byte string. -/
abbrev Bytes : Type := List UInt8

/-- The characters of numbers. -/
def isNumeral (c : Char) : Bool :=
  c.isDigit || "+-.einfa".toList.contains c

/-- A float, by its `repr`, the shortest text that reads back as it. -/
structure PyFloat where
  repr : List Char
  numeral : ∀ c ∈ repr, isNumeral c = true
  /-- The text is not an integer's. -/
  notInt : ∃ c ∈ repr, c ∈ ".en".toList
deriving DecidableEq

/-- A key of a dictionary. -/
inductive Key where
  | str (s : String)
  | bytes (b : Bytes)
deriving DecidableEq, Repr

@[simp] theorem Key.str_beq_str (a b : String) : (Key.str a == Key.str b) = (a == b) := by
  rw [Bool.eq_iff_iff]
  simp

/-- A Python value; `C` is the type of dataclasses. -/
inductive PyValue (C : Type) where
  | none
  | bool (b : Bool)
  | int (i : Int)
  | float (f : PyFloat)
  | str (s : String)
  | bytes (b : Bytes)
  | list (xs : List (PyValue C))
  | tuple (xs : List (PyValue C))
  | dict (items : List (Key × PyValue C))
  | obj (cls : C) (attrs : List (String × PyValue C))

namespace PyValue

variable {C : Type}

/-- Induction on a value, with one hypothesis for every value directly inside. -/
@[elab_as_elim]
theorem ind {motive : PyValue C → Prop}
    (none : motive .none) (bool : ∀ b, motive (.bool b)) (int : ∀ i, motive (.int i))
    (float : ∀ f, motive (.float f)) (str : ∀ s, motive (.str s))
    (bytes : ∀ b, motive (.bytes b))
    (list : ∀ xs, (∀ x ∈ xs, motive x) → motive (.list xs))
    (tuple : ∀ xs, (∀ x ∈ xs, motive x) → motive (.tuple xs))
    (dict : ∀ items, (∀ p ∈ items, motive p.2) → motive (.dict items))
    (obj : ∀ cls attrs, (∀ p ∈ attrs, motive p.2) → motive (.obj cls attrs))
    (v : PyValue C) : motive v :=
  @PyValue.rec C motive (fun xs => ∀ x ∈ xs, motive x)
    (fun items => ∀ p ∈ items, motive p.2) (fun attrs => ∀ p ∈ attrs, motive p.2)
    (fun p => motive p.2) (fun p => motive p.2)
    none bool int float str bytes list tuple dict obj
    (by simp) (fun _ _ hx hxs => List.forall_mem_cons.2 ⟨hx, hxs⟩)
    (by simp) (fun _ _ hx hxs => List.forall_mem_cons.2 ⟨hx, hxs⟩)
    (by simp) (fun _ _ hx hxs => List.forall_mem_cons.2 ⟨hx, hxs⟩)
    (fun _ _ h => h) (fun _ _ h => h) v

/-! ## Equality -/

section Equality

variable [DecidableEq C]

mutual

/-- Equality of values, without the coercions of Python's `==`. -/
def beq : PyValue C → PyValue C → Bool
  | .none, .none => true
  | .bool a, .bool b => a == b
  | .int a, .int b => a == b
  | .float a, .float b => a == b
  | .str a, .str b => a == b
  | .bytes a, .bytes b => a == b
  | .list xs, .list ys => beqAll xs ys
  | .tuple xs, .tuple ys => beqAll xs ys
  | .dict xs, .dict ys => beqItems xs ys
  | .obj a xs, .obj b ys => a == b && beqAttrs xs ys
  | _, _ => false
termination_by structural v => v

def beqAll : List (PyValue C) → List (PyValue C) → Bool
  | [], [] => true
  | x :: xs, y :: ys => beq x y && beqAll xs ys
  | _, _ => false
termination_by structural v => v

def beqItems : List (Key × PyValue C) → List (Key × PyValue C) → Bool
  | [], [] => true
  | (k, x) :: xs, (k', y) :: ys => k == k' && beq x y && beqItems xs ys
  | _, _ => false
termination_by structural v => v

def beqAttrs : List (String × PyValue C) → List (String × PyValue C) → Bool
  | [], [] => true
  | (k, x) :: xs, (k', y) :: ys => k == k' && beq x y && beqAttrs xs ys
  | _, _ => false
termination_by structural v => v

end

theorem beqAll_iff {xs : List (PyValue C)} (h : ∀ x ∈ xs, ∀ y, beq x y = true ↔ x = y) :
    ∀ ys, beqAll xs ys = true ↔ xs = ys := by
  induction xs with
  | nil => intro ys; cases ys <;> simp [beqAll]
  | cons x xs ih =>
    obtain ⟨hx, hxs⟩ := List.forall_mem_cons.mp h
    intro ys
    cases ys <;> simp [beqAll, hx, ih hxs]

theorem beqItems_iff {xs : List (Key × PyValue C)}
    (h : ∀ p ∈ xs, ∀ y, beq p.2 y = true ↔ p.2 = y) :
    ∀ ys, beqItems xs ys = true ↔ xs = ys := by
  induction xs with
  | nil => intro ys; cases ys <;> simp [beqItems]
  | cons p xs ih =>
    obtain ⟨k, x⟩ := p
    obtain ⟨hx, hxs⟩ := List.forall_mem_cons.mp h
    rintro (_ | ⟨⟨k', y⟩, ys⟩)
    · simp [beqItems]
    · simp [beqItems, hx, ih hxs]

theorem beqAttrs_iff {xs : List (String × PyValue C)}
    (h : ∀ p ∈ xs, ∀ y, beq p.2 y = true ↔ p.2 = y) :
    ∀ ys, beqAttrs xs ys = true ↔ xs = ys := by
  induction xs with
  | nil => intro ys; cases ys <;> simp [beqAttrs]
  | cons p xs ih =>
    obtain ⟨k, x⟩ := p
    obtain ⟨hx, hxs⟩ := List.forall_mem_cons.mp h
    rintro (_ | ⟨⟨k', y⟩, ys⟩)
    · simp [beqAttrs]
    · simp [beqAttrs, hx, ih hxs]

theorem beq_iff (v : PyValue C) : ∀ w, beq v w = true ↔ v = w := by
  induction v using ind with
  | none => intro w; cases w <;> simp [beq]
  | bool b => intro w; cases w <;> simp [beq]
  | int i => intro w; cases w <;> simp [beq]
  | float f => intro w; cases w <;> simp [beq]
  | str s => intro w; cases w <;> simp [beq]
  | bytes b => intro w; cases w <;> simp [beq]
  | list xs ih => intro w; cases w <;> simp [beq, beqAll_iff ih]
  | tuple xs ih => intro w; cases w <;> simp [beq, beqAll_iff ih]
  | dict items ih => intro w; cases w <;> simp [beq, beqItems_iff ih]
  | obj cls attrs ih => intro w; cases w <;> simp [beq, beqAttrs_iff ih]

instance : DecidableEq (PyValue C) := fun v w => decidable_of_iff _ (beq_iff v w)

end Equality

/-! ## `dataclasses.asdict` -/

mutual

/-- `dataclasses.asdict`: every dataclass instance inside becomes the
dictionary of its fields; tuples stay tuples. -/
def asdict : PyValue C → PyValue C
  | .list xs => .list (asdictAll xs)
  | .tuple xs => .tuple (asdictAll xs)
  | .dict items => .dict (asdictItems items)
  | .obj _ attrs => .dict (asdictAttrs attrs)
  | v => v

def asdictAll : List (PyValue C) → List (PyValue C)
  | [] => []
  | x :: xs => asdict x :: asdictAll xs

def asdictItems : List (Key × PyValue C) → List (Key × PyValue C)
  | [] => []
  | (k, v) :: items => (k, asdict v) :: asdictItems items

def asdictAttrs : List (String × PyValue C) → List (Key × PyValue C)
  | [] => []
  | (k, v) :: attrs => (.str k, asdict v) :: asdictAttrs attrs

end

@[simp] theorem asdictAll_eq (xs : List (PyValue C)) : asdictAll xs = xs.map asdict := by
  induction xs with
  | nil => rfl
  | cons x xs ih => simp [asdictAll, ih]

@[simp] theorem asdictItems_eq (items : List (Key × PyValue C)) :
    asdictItems items = items.map fun p => (p.1, asdict p.2) := by
  induction items with
  | nil => rfl
  | cons p items ih => simp [asdictItems, ih]

@[simp] theorem asdictAttrs_eq (attrs : List (String × PyValue C)) :
    asdictAttrs attrs = attrs.map fun p => (.str p.1, asdict p.2) := by
  induction attrs with
  | nil => rfl
  | cons p attrs ih => simp [asdictAttrs, ih]

/-! ## Plain values -/

/-- No dataclass instance is inside the value, and the keys of every dictionary
inside satisfy `K`. -/
inductive Plain (K : List Key → Prop) : PyValue C → Prop
  | none : Plain K .none
  | bool (b : Bool) : Plain K (.bool b)
  | int (i : Int) : Plain K (.int i)
  | float (f : PyFloat) : Plain K (.float f)
  | str (s : String) : Plain K (.str s)
  | bytes (b : Bytes) : Plain K (.bytes b)
  | list {xs : List (PyValue C)} (h : ∀ x ∈ xs, Plain K x) : Plain K (.list xs)
  | tuple {xs : List (PyValue C)} (h : ∀ x ∈ xs, Plain K x) : Plain K (.tuple xs)
  | dict {items : List (Key × PyValue C)} (hK : K (items.map Prod.fst))
      (h : ∀ p ∈ items, Plain K p.2) : Plain K (.dict items)

section

variable {K : List Key → Prop}

@[simp] theorem plain_none : Plain K (.none : PyValue C) := .none

@[simp] theorem plain_bool (b : Bool) : Plain K (.bool b : PyValue C) := .bool b

@[simp] theorem plain_int (i : Int) : Plain K (.int i : PyValue C) := .int i

@[simp] theorem plain_str (s : String) : Plain K (.str s : PyValue C) := .str s

@[simp] theorem plain_bytes (b : Bytes) : Plain K (.bytes b : PyValue C) := .bytes b

@[simp] theorem plain_list {xs : List (PyValue C)} :
    Plain K (.list xs) ↔ ∀ x ∈ xs, Plain K x :=
  ⟨fun h => by cases h; assumption, .list⟩

@[simp] theorem plain_tuple {xs : List (PyValue C)} :
    Plain K (.tuple xs) ↔ ∀ x ∈ xs, Plain K x :=
  ⟨fun h => by cases h; assumption, .tuple⟩

@[simp] theorem plain_dict {items : List (Key × PyValue C)} :
    Plain K (.dict items) ↔ K (items.map Prod.fst) ∧ ∀ p ∈ items, Plain K p.2 :=
  ⟨fun h => by cases h; constructor <;> assumption, fun h => .dict h.1 h.2⟩

end

theorem Plain.mono {K K' : List Key → Prop} (hK : ∀ ks, K ks → K' ks) {v : PyValue C}
    (h : Plain K v) : Plain K' v := by
  induction h with
  | none => exact .none
  | bool b => exact .bool b
  | int i => exact .int i
  | float f => exact .float f
  | str s => exact .str s
  | bytes b => exact .bytes b
  | list _ ih => exact .list ih
  | tuple _ ih => exact .tuple ih
  | dict hk _ ih => exact .dict (hK _ hk) ih

/-! ## Formats without tuples -/

mutual

/-- The value with every tuple inside turned into a list. -/
def untuple : PyValue C → PyValue C
  | .list xs => .list (untupleAll xs)
  | .tuple xs => .list (untupleAll xs)
  | .dict items => .dict (untupleItems items)
  | v => v

def untupleAll : List (PyValue C) → List (PyValue C)
  | [] => []
  | x :: xs => untuple x :: untupleAll xs

def untupleItems : List (Key × PyValue C) → List (Key × PyValue C)
  | [] => []
  | (k, v) :: items => (k, untuple v) :: untupleItems items

end

@[simp] theorem untupleAll_eq (xs : List (PyValue C)) : untupleAll xs = xs.map untuple := by
  induction xs with
  | nil => rfl
  | cons x xs ih => simp [untupleAll, ih]

@[simp] theorem untupleItems_eq (items : List (Key × PyValue C)) :
    untupleItems items = items.map fun p => (p.1, untuple p.2) := by
  induction items with
  | nil => rfl
  | cons p items ih => simp [untupleItems, ih]

theorem Plain.untuple {K : List Key → Prop} {v : PyValue C} (h : Plain K v) :
    Plain K v.untuple := by
  have hmem {xs : List (PyValue C)} (ih : ∀ x ∈ xs, Plain K x.untuple) :
      ∀ y ∈ untupleAll xs, Plain K y := by
    rw [untupleAll_eq, List.forall_mem_map]
    exact ih
  induction h with
  | none => exact .none
  | bool b => exact .bool b
  | int i => exact .int i
  | float f => exact .float f
  | str s => exact .str s
  | bytes b => exact .bytes b
  | list _ ih => exact .list (hmem ih)
  | tuple _ ih => exact .list (hmem ih)
  | dict hk _ ih =>
    refine .dict (by simpa [Function.comp_def] using hk) ?_
    rw [untupleItems_eq, List.forall_mem_map]
    exact ih

/-! ## `json` -/

/-- `json.dumps(v, default=default)` writes the tree `w`: what JSON has no
notation for is replaced by what `default` makes of it, and a tuple is written
as a list. -/
inductive Dumped (default : PyValue C → Option (PyValue C)) : PyValue C → PyValue C → Prop
  | none : Dumped default .none .none
  | bool (b : Bool) : Dumped default (.bool b) (.bool b)
  | int (i : Int) : Dumped default (.int i) (.int i)
  | float (f : PyFloat) : Dumped default (.float f) (.float f)
  | str (s : String) : Dumped default (.str s) (.str s)
  | list {xs ys : List (PyValue C)} (h : List.Forall₂ (Dumped default) xs ys) :
      Dumped default (.list xs) (.list ys)
  | tuple {xs ys : List (PyValue C)} (h : List.Forall₂ (Dumped default) xs ys) :
      Dumped default (.tuple xs) (.list ys)
  | dict {items ws : List (Key × PyValue C)}
      (names : ∀ p ∈ items, ∃ name, p.1 = Key.str name)
      (keys : items.map Prod.fst = ws.map Prod.fst)
      (h : List.Forall₂ (Dumped default) (items.map Prod.snd) (ws.map Prod.snd)) :
      Dumped default (.dict items) (.dict ws)
  | bytes {b : Bytes} {v w : PyValue C} (hd : default (.bytes b) = some v)
      (h : Dumped default v w) : Dumped default (.bytes b) w
  | obj {cls : C} {attrs : List (String × PyValue C)} {v w : PyValue C}
      (hd : default (.obj cls attrs) = some v) (h : Dumped default v w) :
      Dumped default (.obj cls attrs) w

mutual

/-- What `json.loads` returns for the tree `w` with `object_hook=hook`: every
object is replaced by what the hook makes of it, innermost first. -/
def hookAll (hook : List (Key × PyValue C) → Option (PyValue C)) :
    PyValue C → Option (PyValue C)
  | .list xs => (hookList hook xs).map .list
  | .tuple xs => (hookList hook xs).map .tuple
  | .dict items => (hookItems hook items).bind hook
  | v => some v

def hookList (hook : List (Key × PyValue C) → Option (PyValue C)) :
    List (PyValue C) → Option (List (PyValue C))
  | [] => some []
  | x :: xs => do
    let y ← hookAll hook x
    let ys ← hookList hook xs
    return y :: ys

def hookItems (hook : List (Key × PyValue C) → Option (PyValue C)) :
    List (Key × PyValue C) → Option (List (Key × PyValue C))
  | [] => some []
  | (k, x) :: items => do
    let y ← hookAll hook x
    let rest ← hookItems hook items
    return (k, y) :: rest

end

variable {hook : List (Key × PyValue C) → Option (PyValue C)}

theorem hookList_eq_some {xs ys : List (PyValue C)}
    (h : List.Forall₂ (fun x y => hookAll hook x = some y) xs ys) :
    hookList hook xs = some ys := by
  induction h with
  | nil => rfl
  | cons hx _ ih => simp [hookList, hx, ih]

theorem hookItems_eq_some {items rest : List (Key × PyValue C)}
    (keys : items.map Prod.fst = rest.map Prod.fst)
    (h : List.Forall₂ (fun x y => hookAll hook x = some y) (items.map Prod.snd)
      (rest.map Prod.snd)) :
    hookItems hook items = some rest := by
  induction items generalizing rest with
  | nil =>
    cases rest with
    | nil => rfl
    | cons => simp at keys
  | cons p items ih =>
    cases rest with
    | nil => simp at keys
    | cons q rest =>
      obtain ⟨hk, hks⟩ := List.cons.inj keys
      obtain ⟨hx, hxs⟩ := List.forall₂_cons.1 h
      have hq : (p.1, q.2) = q := Prod.ext hk rfl
      simp [hookItems, hx, ih hks hxs, hq]

theorem mem_of_hookList {xs ys : List (PyValue C)} (h : hookList hook xs = some ys) :
    ∀ y ∈ ys, ∃ x ∈ xs, hookAll hook x = some y := by
  induction xs generalizing ys with
  | nil =>
    obtain rfl : [] = ys := by simpa [hookList] using h
    simp
  | cons x xs ih =>
    simp only [hookList, Option.pure_def, Option.bind_eq_bind, Option.bind_eq_some_iff] at h
    obtain ⟨y, hy, ys', hys, he⟩ := h
    obtain rfl : y :: ys' = ys := by simpa using he
    intro z hz
    rcases List.mem_cons.1 hz with rfl | hz
    · exact ⟨x, by simp, hy⟩
    · obtain ⟨w, hw, hwz⟩ := ih hys z hz
      exact ⟨w, by simp [hw], hwz⟩

theorem mem_of_hookItems {items rest : List (Key × PyValue C)}
    (h : hookItems hook items = some rest) :
    ∀ q ∈ rest, ∃ p ∈ items, hookAll hook p.2 = some q.2 := by
  induction items generalizing rest with
  | nil =>
    obtain rfl : [] = rest := by simpa [hookItems] using h
    simp
  | cons p items ih =>
    simp only [hookItems, Option.pure_def, Option.bind_eq_bind, Option.bind_eq_some_iff] at h
    obtain ⟨y, hy, rest', hrest, he⟩ := h
    obtain rfl : (p.1, y) :: rest' = rest := by simpa using he
    intro q hq
    rcases List.mem_cons.1 hq with rfl | hq
    · exact ⟨p, by simp, hy⟩
    · obtain ⟨r, hr, hrq⟩ := ih hrest q hq
      exact ⟨r, by simp [hr], hrq⟩

/-- No value starts being an instance of a class by being read. -/
theorem hookAll_builtin
    (hhook : ∀ items v, (∀ p ∈ items, p.2.Plain fun _ => True) → hook items = some v →
      v.Plain fun _ => True)
    {K : List Key → Prop} {w : PyValue C} (hw : w.Plain K) {v : PyValue C}
    (h : hookAll hook w = some v) : v.Plain fun _ => True := by
  induction hw generalizing v with
  | none => cases h; exact .none
  | bool b => cases h; exact .bool b
  | int i => cases h; exact .int i
  | float f => cases h; exact .float f
  | str s => cases h; exact .str s
  | bytes b => cases h; exact .bytes b
  | list _ ih =>
    obtain ⟨ys, hys, rfl⟩ := Option.map_eq_some_iff.1 h
    refine .list fun y hy => ?_
    obtain ⟨x, hx, hxy⟩ := mem_of_hookList hys y hy
    exact ih x hx hxy
  | tuple _ ih =>
    obtain ⟨ys, hys, rfl⟩ := Option.map_eq_some_iff.1 h
    refine .tuple fun y hy => ?_
    obtain ⟨x, hx, hxy⟩ := mem_of_hookList hys y hy
    exact ih x hx hxy
  | dict _ _ ih =>
    obtain ⟨rest, hrest, hv⟩ := Option.bind_eq_some_iff.1 h
    refine hhook rest v (fun q hq => ?_) hv
    obtain ⟨p, hp, hpq⟩ := mem_of_hookItems hrest q hq
    exact ih p hp hpq

end PyValue

end DistBench
