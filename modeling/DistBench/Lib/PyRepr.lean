import DistBench.Lib.PyValue

/-!
# `repr` of Python values

The text `repr` gives for the built-in values, and that it determines the value
(`repr_injective`). A text is read from the left: where one value ends is
decided by its first character and, for a number, by the character after it, so
the statement that is proved by induction compares two texts with anything
behind them (`Reads`).
-/

namespace DistBench

namespace PyValue

/-- What `repr` depends on beyond the built-in types: which characters outside
ASCII are printable, and the `__repr__` of the classes. -/
structure ReprEnv (C : Type) where
  isprintable : Char → Bool
  reprObj : C → List (String × PyValue C) → List Char

/-! ## The text -/

/-- A hexadecimal digit. -/
def hexDigit (n : Nat) : Char :=
  "0123456789abcdef".toList.getD n '0'

/-- `n` in `width` hexadecimal digits. -/
def hex : Nat → Nat → List Char
  | 0, _ => []
  | width + 1, n => hexDigit (n / 16 ^ width % 16) :: hex width n

/-- One character inside quotes `q`. -/
def escapeChar (isprintable : Char → Bool) (q c : Char) : List Char :=
  if c = q ∨ c = '\\' then ['\\', c]
  else if c = '\t' then ['\\', 't']
  else if c = '\n' then ['\\', 'n']
  else if c = '\r' then ['\\', 'r']
  else if (32 ≤ c.toNat ∧ c.toNat < 127) ∨ (127 < c.toNat ∧ isprintable c) then [c]
  else if c.toNat < 16 ^ 2 then '\\' :: 'x' :: hex 2 c.toNat
  else if c.toNat < 16 ^ 4 then '\\' :: 'u' :: hex 4 c.toNat
  else '\\' :: 'U' :: hex 8 c.toNat

/-- The quotes: single ones, unless the text has single and no double ones. -/
def quoteFor (cs : List Char) : Char :=
  if '\'' ∈ cs ∧ '"' ∉ cs then '"' else '\''

def reprStr (isprintable : Char → Bool) (cs : List Char) : List Char :=
  quoteFor cs :: (cs.flatMap (escapeChar isprintable (quoteFor cs)) ++ [quoteFor cs])

def reprBytes (b : Bytes) : List Char :=
  'b' :: reprStr (fun _ => false) (b.map fun x => Char.ofNat x.toNat)

def reprInt (i : Int) : List Char :=
  if i < 0 then '-' :: Nat.toDigits 10 i.natAbs else Nat.toDigits 10 i.natAbs

def reprKey (isprintable : Char → Bool) : Key → List Char
  | .str s => reprStr isprintable s.toList
  | .bytes b => reprBytes b

/-- The texts after the first one of a list, each behind a comma. -/
def commaBefore : List (List Char) → List Char
  | [] => []
  | t :: ts => ',' :: ' ' :: (t ++ commaBefore ts)

/-- The texts with commas between them. -/
def commaSep : List (List Char) → List Char
  | [] => []
  | t :: ts => t ++ commaBefore ts

/-- What follows the first item of a tuple; a single item has a comma of its own. -/
def tupleEnd : List (List Char) → List Char
  | [] => [',', ')']
  | ts => commaBefore ts ++ [')']

def reprTuple : List (List Char) → List Char
  | [] => ['(', ')']
  | t :: ts => '(' :: (t ++ tupleEnd ts)

variable {C : Type}

mutual

def repr (env : ReprEnv C) : PyValue C → List Char
  | .none => ['N', 'o', 'n', 'e']
  | .bool b => if b then ['T', 'r', 'u', 'e'] else ['F', 'a', 'l', 's', 'e']
  | .int i => reprInt i
  | .float f => f.repr
  | .str s => reprStr env.isprintable s.toList
  | .bytes b => reprBytes b
  | .list xs => '[' :: (commaSep (reprAll env xs) ++ [']'])
  | .tuple xs => reprTuple (reprAll env xs)
  | .dict items => '\x7b' :: (commaSep (reprItems env items) ++ ['\x7d'])
  | .obj cls attrs => env.reprObj cls attrs

def reprAll (env : ReprEnv C) : List (PyValue C) → List (List Char)
  | [] => []
  | x :: xs => repr env x :: reprAll env xs

def reprItems (env : ReprEnv C) : List (Key × PyValue C) → List (List Char)
  | [] => []
  | (k, x) :: items =>
    (reprKey env.isprintable k ++ ':' :: ' ' :: repr env x) :: reprItems env items

end

variable {env : ReprEnv C}

@[simp] theorem reprAll_eq (xs : List (PyValue C)) : reprAll env xs = xs.map (repr env) := by
  induction xs with
  | nil => rfl
  | cons x xs ih => simp [reprAll, ih]

/-- One item of a dictionary. -/
def reprItem (env : ReprEnv C) (p : Key × PyValue C) : List Char :=
  reprKey env.isprintable p.1 ++ ':' :: ' ' :: repr env p.2

@[simp] theorem reprItems_eq (items : List (Key × PyValue C)) :
    reprItems env items = items.map (reprItem env) := by
  induction items with
  | nil => rfl
  | cons p items ih => simp [reprItems, reprItem, ih]

/-! ## Quoted text

`unescape` reads one character back, so that two quoted texts can be compared
character by character. -/

/-- The number in `width` hexadecimal digits. -/
def unhex : Nat → List Char → Nat
  | width + 1, d :: ds => "0123456789abcdef".toList.idxOf d * 16 ^ width + unhex width ds
  | _, _ => 0

theorem idxOf_hexDigit : ∀ n < 16, "0123456789abcdef".toList.idxOf (hexDigit n) = n := by
  decide

theorem unhex_hex (width n : Nat) (r : List Char) :
    unhex width (hex width n ++ r) = n % 16 ^ width := by
  induction width with
  | zero => simp [unhex, Nat.mod_one]
  | succ width ih =>
    rw [hex, List.cons_append, unhex, ih, idxOf_hexDigit _ (Nat.mod_lt _ (by decide)),
      Nat.pow_succ, Nat.mod_mul, Nat.mul_comm, Nat.add_comm]

@[simp] theorem length_hex (width n : Nat) : (hex width n).length = width := by
  induction width with
  | zero => rfl
  | succ width ih => simp [hex, ih]

/-- The first character of a quoted text, and what follows it. -/
def unescape : List Char → Option (Char × List Char)
  | '\\' :: d :: r =>
    if d = 't' then some ('\t', r)
    else if d = 'n' then some ('\n', r)
    else if d = 'r' then some ('\r', r)
    else if d = 'x' then some (Char.ofNat (unhex 2 r), r.drop 2)
    else if d = 'u' then some (Char.ofNat (unhex 4 r), r.drop 4)
    else if d = 'U' then some (Char.ofNat (unhex 8 r), r.drop 8)
    else some (d, r)
  | c :: r => some (c, r)
  | [] => .none

theorem unescape_hex {c : Char} {width : Nat} (h : c.toNat < 16 ^ width) (r : List Char) :
    (Char.ofNat (unhex width (hex width c.toNat ++ r)), (hex width c.toNat ++ r).drop width) =
      (c, r) := by
  rw [unhex_hex, Nat.mod_eq_of_lt h, Char.ofNat_toNat]
  have : (hex width c.toNat ++ r).drop width = r := by
    simp
  rw [this]

theorem unescape_escapeChar (isprintable : Char → Bool) {q : Char} (hq : q = '\'' ∨ q = '"')
    (c : Char) (r : List Char) :
    unescape (escapeChar isprintable q c ++ r) = some (c, r) := by
  unfold escapeChar
  split_ifs with h1 h2 h3 h4 h5 h6 h7
  · rcases h1 with rfl | rfl
    · rcases hq with rfl | rfl <;> rfl
    · rfl
  · subst h2; rfl
  · subst h3; rfl
  · subst h4; rfl
  · have hc : c ≠ '\\' := fun h => h1 (.inr h)
    simp [unescape, hc]
  · exact congrArg some (unescape_hex h6 r)
  · exact congrArg some (unescape_hex h7 r)
  · have : c.toNat < 16 ^ 8 := c.val.toNat_lt
    exact congrArg some (unescape_hex this r)

/-- The closing quote is not taken for a character of the text. -/
theorem escapeChar_ne_quote (isprintable : Char → Bool) {q : Char} (hq : q ≠ '\\') (c : Char)
    (r r' : List Char) : escapeChar isprintable q c ++ r ≠ q :: r' := by
  unfold escapeChar
  split_ifs with h1 h2 h3 h4 h5 h6 h7 <;> simp_all [Ne.symm hq]

theorem flatMap_escapeChar_inj {isprintable : Char → Bool} {q : Char} (hq : q = '\'' ∨ q = '"')
    {cs ds r r' : List Char}
    (h : cs.flatMap (escapeChar isprintable q) ++ q :: r =
      ds.flatMap (escapeChar isprintable q) ++ q :: r') : cs = ds ∧ r = r' := by
  have hq' : q ≠ '\\' := by rcases hq with rfl | rfl <;> decide
  induction cs generalizing ds with
  | nil =>
    cases ds with
    | nil => simpa using h
    | cons d ds =>
      rw [List.flatMap_cons, List.append_assoc] at h
      exact absurd h.symm (escapeChar_ne_quote _ hq' _ _ _)
  | cons c cs ih =>
    cases ds with
    | nil =>
      rw [List.flatMap_cons, List.append_assoc] at h
      exact absurd h (escapeChar_ne_quote _ hq' _ _ _)
    | cons d ds =>
      rw [List.flatMap_cons, List.flatMap_cons, List.append_assoc, List.append_assoc] at h
      have hread := congrArg unescape h
      rw [unescape_escapeChar _ hq, unescape_escapeChar _ hq, Option.some.injEq,
        Prod.mk.injEq] at hread
      obtain ⟨rfl, hrest⟩ := hread
      obtain ⟨rfl, hr⟩ := ih hrest
      exact ⟨rfl, hr⟩

theorem quoteFor_eq (cs : List Char) : quoteFor cs = '\'' ∨ quoteFor cs = '"' := by
  unfold quoteFor
  split_ifs <;> simp

theorem reprStr_inj {isprintable : Char → Bool} {cs ds r r' : List Char}
    (h : reprStr isprintable cs ++ r = reprStr isprintable ds ++ r') : cs = ds ∧ r = r' := by
  simp only [reprStr, List.cons_append, List.append_assoc, List.nil_append] at h
  obtain ⟨hq, hbody⟩ := List.cons.inj h
  rw [hq] at hbody
  exact flatMap_escapeChar_inj (quoteFor_eq ds) hbody

theorem reprBytes_inj {b b' : Bytes} {r r' : List Char}
    (h : reprBytes b ++ r = reprBytes b' ++ r') : b = b' ∧ r = r' := by
  obtain ⟨hb, hr⟩ := reprStr_inj (List.cons.inj h).2
  have hinj : Function.Injective fun x : UInt8 => Char.ofNat x.toNat := by
    intro x y hxy
    have hval (z : UInt8) : (Char.ofNat z.toNat).toNat = z.toNat := by
      have hz : z.toNat.isValidChar := .inl (by have := z.toNat_lt; omega)
      rw [Char.ofNat, dif_pos hz]
      rfl
    have hnat := congrArg Char.toNat hxy
    simp only [hval] at hnat
    exact UInt8.toNat_inj.1 hnat
  exact ⟨List.map_injective_iff.2 hinj hb, hr⟩

/-! ## Numbers -/

/-- The text does not go on with a character of a number. -/
def Delim (r : List Char) : Prop :=
  ∀ c ∈ r.head?, isNumeral c = false

theorem Delim.nil : Delim [] := by
  simp [Delim]

theorem Delim.cons {c : Char} (h : isNumeral c = false) (r : List Char) : Delim (c :: r) := by
  simpa [Delim] using h

theorem numeral_prefix {a b r s : List Char} (ha : ∀ c ∈ a, isNumeral c = true)
    (hb : ∀ c ∈ b, isNumeral c = true) (hr : Delim r) (hs : Delim s)
    (h : a ++ r = b ++ s) : a = b ∧ r = s := by
  induction a generalizing b with
  | nil =>
    cases b with
    | nil => exact ⟨rfl, h⟩
    | cons c b =>
      have := hr c (by simp [show r = c :: (b ++ s) from h])
      simp [hb c (by simp)] at this
  | cons c a ih =>
    cases b with
    | nil =>
      have := hs c (by simp [show s = c :: (a ++ r) from h.symm])
      simp [ha c (by simp)] at this
    | cons d b =>
      obtain ⟨rfl, ht⟩ := List.cons.inj h
      obtain ⟨rfl, hrs⟩ := ih (fun c hc => ha c (by simp [hc])) (fun c hc => hb c (by simp [hc])) ht
      exact ⟨rfl, hrs⟩

theorem isDigit_of_mem_toDigits {n : Nat} {c : Char} (h : c ∈ Nat.toDigits 10 n) :
    c.isDigit = true :=
  Nat.isDigit_of_mem_toDigits (by decide) (by decide) h

theorem mem_reprInt {i : Int} {c : Char} (h : c ∈ reprInt i) : c.isDigit = true ∨ c = '-' := by
  unfold reprInt at h
  split_ifs at h
  · rcases List.mem_cons.1 h with rfl | h
    · exact .inr rfl
    · exact .inl (isDigit_of_mem_toDigits h)
  · exact .inl (isDigit_of_mem_toDigits h)

theorem reprInt_numeral (i : Int) : ∀ c ∈ reprInt i, isNumeral c = true := by
  intro c hc
  rcases mem_reprInt hc with h | rfl
  · simp [isNumeral, h]
  · decide

theorem reprInt_ne_nil (i : Int) : reprInt i ≠ [] := by
  unfold reprInt
  split_ifs
  · simp
  · exact Nat.toDigits_ne_nil

theorem reprInt_inj {i j : Int} (h : reprInt i = reprInt j) : i = j := by
  have hdash (n : Nat) (ds : List Char) : Nat.toDigits 10 n ≠ '-' :: ds := by
    intro e
    have := isDigit_of_mem_toDigits (n := n) (c := '-') (by simp [e])
    simp at this
  have hnat {n m : Nat} (e : Nat.toDigits 10 n = Nat.toDigits 10 m) : n = m := by
    have := congrArg (fun ds => Nat.ofDigitChars 10 ds 0) e
    simpa using this
  unfold reprInt at h
  split_ifs at h
  · have := hnat (List.cons.inj h).2
    omega
  · exact absurd h.symm (hdash _ _)
  · exact absurd h (hdash _ _)
  · have := hnat h
    omega

theorem PyFloat.repr_ne_reprInt (f : PyFloat) (i : Int) : f.repr ≠ reprInt i := by
  intro h
  obtain ⟨c, hc, hmem⟩ := f.notInt
  rcases mem_reprInt (h ▸ hc) with hd | rfl
  · have : c = '.' ∨ c = 'e' ∨ c = 'n' := by simpa using hmem
    rcases this with rfl | rfl | rfl <;> simp at hd
  · simp at hmem

/-! ## Lists of texts -/

/-- `f x` can be read off the front of a text, whatever value `y` satisfying `P`
the text was made from. -/
def Reads {α : Type} (f : α → List Char) (P : α → Prop) (x : α) : Prop :=
  ∀ y, P y → ∀ r s, Delim r → Delim s → f x ++ r = f y ++ s → x = y ∧ r = s

section

variable {α : Type} {f : α → List Char} {P : α → Prop} {close : Char}

theorem Delim.commaBefore (ts : List (List Char)) (hclose : isNumeral close = false)
    (r : List Char) : Delim (commaBefore ts ++ close :: r) := by
  cases ts with
  | nil => exact .cons hclose r
  | cons t ts => exact .cons (by decide) _

theorem commaBefore_inj (hclose : isNumeral close = false) (hcomma : close ≠ ',') {xs ys : List α}
    (hxs : ∀ x ∈ xs, Reads f P x) (hys : ∀ y ∈ ys, P y) {r s : List Char}
    (h : commaBefore (xs.map f) ++ close :: r = commaBefore (ys.map f) ++ close :: s) :
    xs = ys ∧ r = s := by
  induction xs generalizing ys with
  | nil =>
    cases ys with
    | nil => exact ⟨rfl, (List.cons.inj h).2⟩
    | cons y ys => exact absurd (List.cons.inj h).1 hcomma
  | cons x xs ih =>
    cases ys with
    | nil => exact absurd (List.cons.inj h).1.symm hcomma
    | cons y ys =>
      simp only [List.map_cons, PyValue.commaBefore, List.cons_append, List.append_assoc,
        List.cons.injEq, true_and] at h
      obtain ⟨rfl, ht⟩ := hxs x (by simp) y (hys y (by simp)) _ _
        (.commaBefore _ hclose r) (.commaBefore _ hclose s) h
      obtain ⟨rfl, hrs⟩ := ih (fun x hx => hxs x (by simp [hx]))
        (fun y hy => hys y (by simp [hy])) ht
      exact ⟨rfl, hrs⟩

/-- A text that `f` makes is not taken for the end of the list. -/
theorem append_ne_close (hhead : ∀ y, P y → ∃ c t, f y = c :: t ∧ c ≠ close) {y : α} (hy : P y)
    (u v : List Char) : f y ++ u ≠ close :: v := by
  obtain ⟨c, t, hc, hcc⟩ := hhead y hy
  rw [hc]
  exact fun e => hcc (List.cons.inj e).1

theorem commaSep_inj (hclose : isNumeral close = false) (hcomma : close ≠ ',')
    (hhead : ∀ y, P y → ∃ c t, f y = c :: t ∧ c ≠ close) {xs ys : List α}
    (hxs : ∀ x ∈ xs, P x ∧ Reads f P x) (hys : ∀ y ∈ ys, P y) {r s : List Char}
    (h : commaSep (xs.map f) ++ close :: r = commaSep (ys.map f) ++ close :: s) :
    xs = ys ∧ r = s := by
  cases xs with
  | nil =>
    cases ys with
    | nil => exact ⟨rfl, (List.cons.inj h).2⟩
    | cons y ys =>
      simp only [List.map_cons, commaSep, List.append_assoc] at h
      exact absurd h.symm (append_ne_close hhead (hys y (by simp)) _ _)
  | cons x xs =>
    cases ys with
    | nil =>
      simp only [List.map_cons, commaSep, List.append_assoc] at h
      exact absurd h (append_ne_close hhead (hxs x (by simp)).1 _ _)
    | cons y ys =>
      simp only [List.map_cons, commaSep, List.append_assoc] at h
      obtain ⟨rfl, ht⟩ := (hxs x (by simp)).2 y (hys y (by simp)) _ _
        (.commaBefore _ hclose r) (.commaBefore _ hclose s) h
      obtain ⟨rfl, hrs⟩ := commaBefore_inj hclose hcomma (fun x hx => (hxs x (by simp [hx])).2)
        (fun y hy => hys y (by simp [hy])) ht
      exact ⟨rfl, hrs⟩

theorem Delim.tupleEnd (ts : List (List Char)) (r : List Char) : Delim (tupleEnd ts ++ r) := by
  cases ts <;> exact .cons (by decide) _

theorem tupleEnd_inj {xs ys : List α} (hxs : ∀ x ∈ xs, Reads f P x) (hys : ∀ y ∈ ys, P y)
    {r s : List Char} (h : tupleEnd (xs.map f) ++ r = tupleEnd (ys.map f) ++ s) :
    xs = ys ∧ r = s := by
  cases xs with
  | nil =>
    cases ys with
    | nil => simpa [PyValue.tupleEnd] using h
    | cons y ys => simp [PyValue.tupleEnd, PyValue.commaBefore] at h
  | cons x xs =>
    cases ys with
    | nil => simp [PyValue.tupleEnd, PyValue.commaBefore] at h
    | cons y ys =>
      simp only [List.map_cons, PyValue.tupleEnd, List.append_assoc, List.singleton_append] at h
      have h' : commaBefore ((x :: xs).map f) ++ ')' :: r =
          commaBefore ((y :: ys).map f) ++ ')' :: s := by simpa using h
      exact commaBefore_inj (by decide) (by decide) hxs hys h'

theorem reprTuple_inj (hhead : ∀ y, P y → ∃ c t, f y = c :: t ∧ c ≠ ')') {xs ys : List α}
    (hxs : ∀ x ∈ xs, P x ∧ Reads f P x) (hys : ∀ y ∈ ys, P y) {r s : List Char}
    (h : reprTuple (xs.map f) ++ r = reprTuple (ys.map f) ++ s) : xs = ys ∧ r = s := by
  cases xs with
  | nil =>
    cases ys with
    | nil => simpa [reprTuple] using h
    | cons y ys =>
      simp only [List.map_cons, List.map_nil, reprTuple, List.cons_append, List.append_assoc] at h
      exact absurd (List.cons.inj h).2.symm (append_ne_close hhead (hys y (by simp)) _ _)
  | cons x xs =>
    cases ys with
    | nil =>
      simp only [List.map_cons, List.map_nil, reprTuple, List.cons_append, List.append_assoc] at h
      exact absurd (List.cons.inj h).2 (append_ne_close hhead (hxs x (by simp)).1 _ _)
    | cons y ys =>
      simp only [List.map_cons, reprTuple, List.cons_append, List.append_assoc] at h
      obtain ⟨rfl, ht⟩ := (hxs x (by simp)).2 y (hys y (by simp)) _ _ (.tupleEnd _ r)
        (.tupleEnd _ s) (List.cons.inj h).2
      obtain ⟨rfl, hrs⟩ := tupleEnd_inj (fun x hx => (hxs x (by simp [hx])).2)
        (fun y hy => hys y (by simp [hy])) ht
      exact ⟨rfl, hrs⟩

end

/-! ## Reading a value -/

/-- Which kind of value starts with a character. -/
def kindOf (c : Char) : Nat :=
  if isNumeral c then 8
  else match c with
    | '[' => 0
    | '(' => 1
    | '\x7b' => 2
    | '\'' => 3
    | '"' => 3
    | 'b' => 4
    | 'N' => 5
    | 'T' => 6
    | 'F' => 7
    | _ => 9

/-- The kind of a value; an instance of a class has none of its own. -/
def kind : PyValue C → Nat
  | .list _ => 0
  | .tuple _ => 1
  | .dict _ => 2
  | .str _ => 3
  | .bytes _ => 4
  | .none => 5
  | .bool b => if b then 6 else 7
  | .int _ => 8
  | .float _ => 8
  | .obj _ _ => 9

/-- The built-in values, without instances of classes inside. -/
abbrev Builtin (v : PyValue C) : Prop :=
  v.Plain fun _ => True

theorem kindOf_numeral {cs : List Char} (hne : cs ≠ []) (h : ∀ c ∈ cs, isNumeral c = true) :
    ∃ c t, cs = c :: t ∧ kindOf c = 8 := by
  obtain ⟨c, t, rfl⟩ := List.exists_cons_of_ne_nil hne
  exact ⟨c, t, rfl, by simp [kindOf, h c (by simp)]⟩

/-- The first character tells the kind. -/
theorem repr_head {v : PyValue C} (hv : v.Builtin) :
    ∃ c t, repr env v = c :: t ∧ kindOf c = v.kind := by
  cases hv with
  | none => exact ⟨_, _, rfl, rfl⟩
  | bool b => cases b <;> exact ⟨_, _, rfl, rfl⟩
  | int i => exact kindOf_numeral (reprInt_ne_nil i) (reprInt_numeral i)
  | float f =>
    refine kindOf_numeral ?_ f.numeral
    obtain ⟨c, hc, _⟩ := f.notInt
    exact List.ne_nil_of_mem hc
  | str s =>
    refine ⟨_, _, rfl, ?_⟩
    rcases quoteFor_eq s.toList with h | h <;> rw [h] <;> rfl
  | bytes b => exact ⟨_, _, rfl, rfl⟩
  | list h => exact ⟨_, _, rfl, rfl⟩
  | @tuple xs h => cases xs <;> exact ⟨_, _, rfl, rfl⟩
  | dict _ h => exact ⟨_, _, rfl, rfl⟩

theorem Builtin.kind_ne {v : PyValue C} (hv : v.Builtin) : v.kind ≠ 9 := by
  cases hv with
  | bool b => cases b <;> simp [kind]
  | _ => simp [kind]

/-- No value starts with a closing bracket. -/
theorem repr_head_ne {close : Char} (hclose : kindOf close = 9) {v : PyValue C}
    (hv : v.Builtin) : ∃ c t, repr env v = c :: t ∧ c ≠ close := by
  obtain ⟨c, t, hc, hk⟩ : ∃ c t, repr env v = c :: t ∧ kindOf c = v.kind := repr_head hv
  exact ⟨c, t, hc, fun h => Builtin.kind_ne hv (by rw [← hk, h, hclose])⟩

theorem kind_eq_of_repr {v w : PyValue C} (hv : v.Builtin) (hw : w.Builtin) {r s : List Char}
    (h : repr env v ++ r = repr env w ++ s) : v.kind = w.kind := by
  obtain ⟨c, t, hc, hk⟩ : ∃ c t, repr env v = c :: t ∧ kindOf c = v.kind := repr_head hv
  obtain ⟨d, u, hd, hk'⟩ : ∃ d u, repr env w = d :: u ∧ kindOf d = w.kind := repr_head hw
  rw [hc, hd] at h
  rw [← hk, ← hk', (List.cons.inj h).1]

theorem reprKey_inj {isprintable : Char → Bool} {k k' : Key} {r s : List Char}
    (h : reprKey isprintable k ++ r = reprKey isprintable k' ++ s) : k = k' ∧ r = s := by
  have hb (cs : List Char) : quoteFor cs ≠ 'b' := by
    rcases quoteFor_eq cs with e | e <;> rw [e] <;> decide
  cases k with
  | str a =>
    cases k' with
    | str a' =>
      obtain ⟨ha, hrs⟩ := reprStr_inj h
      exact ⟨by rw [String.toList_inj.1 ha], hrs⟩
    | bytes b => exact absurd (List.cons.inj h).1 (hb _)
  | bytes b =>
    cases k' with
    | str a => exact absurd (List.cons.inj h).1.symm (hb _)
    | bytes b' =>
      obtain ⟨rfl, hrs⟩ := reprBytes_inj h
      exact ⟨rfl, hrs⟩

theorem reprItem_reads {p : Key × PyValue C} (hp : Reads (repr env) Builtin p.2) :
    Reads (reprItem env) (fun q => q.2.Builtin) p := by
  intro q hq r s hr hs h
  simp only [reprItem, List.append_assoc, List.cons_append] at h
  obtain ⟨hk, ht⟩ := reprKey_inj h
  simp only [List.cons.injEq, true_and] at ht
  obtain ⟨hv, hrs⟩ := hp q.2 hq r s hr hs ht
  exact ⟨Prod.ext hk hv, hrs⟩

theorem reprItem_head_ne (p : Key × PyValue C) :
    ∃ c t, reprItem env p = c :: t ∧ c ≠ '\x7d' := by
  obtain ⟨k, v⟩ := p
  cases k with
  | str a =>
    refine ⟨_, _, rfl, ?_⟩
    rcases quoteFor_eq a.toList with e | e <;> rw [e] <;> decide
  | bytes b => exact ⟨_, _, rfl, by decide⟩

/-- Every built-in value can be read back. The kinds agree because the first
characters do; containers are read item by item. -/
theorem repr_reads {v : PyValue C} (hv : v.Builtin) : Reads (repr env) Builtin v := by
  induction hv with
  | none =>
    intro w hw r s _ _ h
    have hk := kind_eq_of_repr .none hw h
    cases hw with
    | none => exact ⟨rfl, by simpa [repr] using h⟩
    | bool b => cases b <;> simp [kind] at hk
    | _ => simp [kind] at hk
  | bool b =>
    intro w hw r s _ _ h
    have hk := kind_eq_of_repr (.bool b) hw h
    cases hw with
    | bool b' =>
      obtain rfl : b = b' := by cases b <;> cases b' <;> simp_all [kind]
      exact ⟨rfl, by simpa using h⟩
    | _ => cases b <;> simp [kind] at hk
  | int i =>
    intro w hw r s hr hs h
    have hk := kind_eq_of_repr (.int i) hw h
    cases hw with
    | int j =>
      obtain ⟨hij, hrs⟩ := numeral_prefix (reprInt_numeral i) (reprInt_numeral j) hr hs h
      exact ⟨by rw [reprInt_inj hij], hrs⟩
    | float f =>
      obtain ⟨hif, _⟩ := numeral_prefix (reprInt_numeral i) f.numeral hr hs h
      exact absurd hif.symm (PyFloat.repr_ne_reprInt f i)
    | bool b => cases b <;> simp [kind] at hk
    | _ => simp [kind] at hk
  | float f =>
    intro w hw r s hr hs h
    have hk := kind_eq_of_repr (.float f) hw h
    cases hw with
    | int j =>
      obtain ⟨hfj, _⟩ := numeral_prefix f.numeral (reprInt_numeral j) hr hs h
      exact absurd hfj (PyFloat.repr_ne_reprInt f j)
    | float g =>
      obtain ⟨hfg, hrs⟩ := numeral_prefix f.numeral g.numeral hr hs h
      cases f
      cases g
      simp only at hfg
      subst hfg
      exact ⟨rfl, hrs⟩
    | bool b => cases b <;> simp [kind] at hk
    | _ => simp [kind] at hk
  | str a =>
    intro w hw r s _ _ h
    have hk := kind_eq_of_repr (.str a) hw h
    cases hw with
    | str a' =>
      obtain ⟨ha, hrs⟩ := reprStr_inj h
      exact ⟨by rw [String.toList_inj.1 ha], hrs⟩
    | bool b => cases b <;> simp [kind] at hk
    | _ => simp [kind] at hk
  | bytes b =>
    intro w hw r s _ _ h
    have hk := kind_eq_of_repr (.bytes b) hw h
    cases hw with
    | bytes b' =>
      obtain ⟨rfl, hrs⟩ := reprBytes_inj h
      exact ⟨rfl, hrs⟩
    | bool b => cases b <;> simp [kind] at hk
    | _ => simp [kind] at hk
  | @list xs hxs ih =>
    intro w hw r s _ _ h
    have hk := kind_eq_of_repr (.list hxs) hw h
    cases hw with
    | @list ys hys =>
      simp only [repr, reprAll_eq, List.cons_append, List.append_assoc, List.nil_append,
        List.cons.injEq, true_and] at h
      obtain ⟨rfl, hrs⟩ := commaSep_inj (by decide) (by decide) (fun y hy => repr_head_ne rfl hy)
        (fun x hx => ⟨hxs x hx, ih x hx⟩) hys h
      exact ⟨rfl, hrs⟩
    | bool b => cases b <;> simp [kind] at hk
    | _ => simp [kind] at hk
  | @tuple xs hxs ih =>
    intro w hw r s _ _ h
    have hk := kind_eq_of_repr (.tuple hxs) hw h
    cases hw with
    | @tuple ys hys =>
      simp only [repr, reprAll_eq] at h
      obtain ⟨rfl, hrs⟩ := reprTuple_inj (fun y hy => repr_head_ne rfl hy)
        (fun x hx => ⟨hxs x hx, ih x hx⟩) hys h
      exact ⟨rfl, hrs⟩
    | bool b => cases b <;> simp [kind] at hk
    | _ => simp [kind] at hk
  | @dict items hk' hitems ih =>
    intro w hw r s _ _ h
    have hk := kind_eq_of_repr (.dict hk' hitems) hw h
    cases hw with
    | @dict items' _ hitems' =>
      simp only [repr, reprItems_eq, List.cons_append, List.append_assoc, List.nil_append,
        List.cons.injEq, true_and] at h
      obtain ⟨rfl, hrs⟩ := commaSep_inj (by decide) (by decide) (fun p _ => reprItem_head_ne p)
        (fun p hp => ⟨hitems p hp, reprItem_reads (ih p hp)⟩) hitems' h
      exact ⟨rfl, hrs⟩
    | bool b => cases b <;> simp [kind] at hk
    | _ => simp [kind] at hk

/-- The text determines the value. -/
theorem repr_injective {v w : PyValue C} (hv : v.Builtin) (hw : w.Builtin)
    (h : repr env v = repr env w) : v = w :=
  (repr_reads hv w hw [] [] .nil .nil (by simpa using h)).1

end PyValue

end DistBench
