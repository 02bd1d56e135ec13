import DistBench.Lib.PyValue

/-!
# Framed byte streams

A stream of messages over a connection that only carries bytes: a writer puts
the fields of each message one after the other, and the bytes arrive in chunks
of any size. A `Reader` takes a value from the front of the bytes that are
there; `none` says that it waits for more.

- `forall₂_of_flatMap_eq`: rows of blocks of one length;
- `Reads read a bs`: from `bs`, whatever comes after them, `read` takes `a` and
  nothing else;
- `Reader.Stable`: what is read does not depend on the bytes behind it;
- `Reader.Takes`: how many bytes are read at least;
- `Framing`: a writer and a reader of one kind of message that fit, and
  `Framing.read_stream`: reading from a part of a stream gives its first message;
- `Pipe`: one direction of a connection.
-/

namespace DistBench

/-! ## Integers of a fixed width -/

/-- Big-endian, the low `width` bytes. -/
def toBytesBE : Nat → Nat → Bytes
  | 0, _ => []
  | width + 1, n => toBytesBE width (n / 256) ++ [UInt8.ofNat n]

def ofBytesBE (bs : Bytes) : Nat :=
  bs.foldl (fun n b => 256 * n + b.toNat) 0

@[simp] theorem length_toBytesBE (width n : Nat) : (toBytesBE width n).length = width := by
  induction width generalizing n with
  | zero => rfl
  | succ width ih => simp [toBytesBE, ih]

theorem ofBytesBE_toBytesBE {width n : Nat} (h : n < 256 ^ width) :
    ofBytesBE (toBytesBE width n) = n := by
  induction width generalizing n with
  | zero =>
    rw [Nat.pow_zero] at h
    simp only [toBytesBE, ofBytesBE, List.foldl_nil]
    omega
  | succ width ih =>
    have hdiv : n / 256 < 256 ^ width := by
      rw [Nat.div_lt_iff_lt_mul (by decide)]
      simpa [Nat.pow_succ] using h
    have hrest := ih hdiv
    simp only [ofBytesBE] at hrest
    simp only [toBytesBE, ofBytesBE, List.foldl_append, hrest, List.foldl_cons, List.foldl_nil,
      UInt8.toNat_ofNat']
    omega

/-! ## Blocks of one length -/

section

variable {α β γ : Type*} {f : α → List γ} {g : β → List γ} {xs : List α} {ys : List β}

/-- Two rows of blocks of one length are the same only block by block … -/
theorem forall₂_of_flatMap_eq {n : Nat} (hn : 0 < n) (hf : ∀ x ∈ xs, (f x).length = n)
    (hg : ∀ y ∈ ys, (g y).length = n) (h : xs.flatMap f = ys.flatMap g) :
    List.Forall₂ (fun x y => f x = g y) xs ys := by
  induction xs generalizing ys with
  | nil =>
    cases ys with
    | nil => exact .nil
    | cons y ys =>
      have hlength := congrArg List.length h
      rw [List.flatMap_cons, List.length_append, hg y List.mem_cons_self] at hlength
      simp only [List.flatMap_nil, List.length_nil] at hlength
      omega
  | cons x xs ih =>
    obtain ⟨hx, hxs⟩ := List.forall_mem_cons.mp hf
    cases ys with
    | nil =>
      have hlength := congrArg List.length h
      rw [List.flatMap_cons, List.length_append, hx] at hlength
      simp only [List.flatMap_nil, List.length_nil] at hlength
      omega
    | cons y ys =>
      obtain ⟨hy, hys⟩ := List.forall_mem_cons.mp hg
      rw [List.flatMap_cons, List.flatMap_cons] at h
      obtain ⟨hxy, hrest⟩ := List.append_inj h (hx.trans hy.symm)
      exact .cons hxy (ih hxs hys hrest)

/-- … and block by block they are. -/
theorem flatMap_eq_of_forall₂ (h : List.Forall₂ (fun x y => f x = g y) xs ys) :
    xs.flatMap f = ys.flatMap g := by
  induction h with
  | nil => rfl
  | cons hxy _ ih => rw [List.flatMap_cons, List.flatMap_cons, hxy, ih]

end

/-! ## Readers -/

section

/-- Takes a value from the front of the bytes that have arrived, or waits. -/
abbrev Reader (α : Type) : Type := StateT Bytes Option α

/-- The next `n` bytes. -/
def readExact (n : Nat) : Reader Bytes := fun bytes =>
  if n ≤ bytes.length then some (bytes.take n, bytes.drop n) else none

/-- An unsigned integer of `width` bytes, big-endian. -/
def readBE (width : Nat) : Reader Nat :=
  ofBytesBE <$> readExact width

variable {α β : Type} {read : Reader α} {next : α → Reader β} {f : α → β} {a : α} {b : β}
  {bytes bytes' rest : Bytes}

theorem Reader.bind_apply : (read >>= next) bytes = (read bytes).bind fun p => next p.1 p.2 :=
  rfl

theorem Reader.map_apply :
    (f <$> read : Reader β) bytes = (read bytes).map fun p => (f p.1, p.2) := by
  show (read bytes).bind _ = _
  cases read bytes <;> rfl

theorem Reader.pure_apply : (pure a : Reader α) bytes = some (a, bytes) := rfl

/-- What is read does not change when more bytes arrive behind it. -/
def Reader.Stable (read : Reader α) : Prop :=
  ∀ ⦃bytes a rest⦄, read bytes = some (a, rest) →
    ∀ more, read (bytes ++ more) = some (a, rest ++ more)

theorem Reader.Stable.pure (a : α) : (pure a : Reader α).Stable := by
  intro bytes b rest h more
  rw [Reader.pure_apply] at h ⊢
  cases h
  rfl

theorem Reader.Stable.bind (hread : read.Stable) (hnext : ∀ a, (next a).Stable) :
    (read >>= next).Stable := by
  intro bytes b rest h more
  rw [Reader.bind_apply] at h ⊢
  obtain ⟨⟨a, mid⟩, ha, hb⟩ := Option.bind_eq_some_iff.1 h
  rw [hread ha more]
  exact hnext a hb more

theorem Reader.Stable.map (hread : read.Stable) : (f <$> read : Reader β).Stable := by
  intro bytes b rest h more
  rw [Reader.map_apply] at h ⊢
  obtain ⟨⟨a, mid⟩, ha, hb⟩ := Option.map_eq_some_iff.1 h
  cases hb
  rw [hread ha more]
  rfl

theorem Reader.Stable.ite {c : Prop} [Decidable c] {read' : Reader α} (hread : read.Stable)
    (hread' : read'.Stable) : (if c then read else read').Stable := by
  split
  · exact hread
  · exact hread'

theorem Reader.Stable.readExact (n : Nat) : (readExact n).Stable := by
  intro bytes a rest h more
  simp only [DistBench.readExact] at h ⊢
  split at h
  · next hn =>
    cases h
    rw [if_pos (by rw [List.length_append]; omega), List.take_append_of_le_length hn,
      List.drop_append_of_le_length hn]
  · cases h

theorem Reader.Stable.readBE (width : Nat) : (readBE width).Stable :=
  (Reader.Stable.readExact width).map

/-- What is read is at least `n` bytes long. -/
def Reader.Takes (read : Reader α) (n : Nat) : Prop :=
  ∀ ⦃bytes a rest⦄, read bytes = some (a, rest) → rest.length + n ≤ bytes.length

theorem Reader.Takes.pure (a : α) : (pure a : Reader α).Takes 0 := by
  intro bytes b rest h
  rw [Reader.pure_apply] at h
  cases h
  exact le_rfl

theorem Reader.Takes.bind {m n : Nat} (hread : read.Takes m) (hnext : ∀ a, (next a).Takes n) :
    (read >>= next).Takes (m + n) := by
  intro bytes b rest h
  rw [Reader.bind_apply] at h
  obtain ⟨⟨a, mid⟩, ha, hb⟩ := Option.bind_eq_some_iff.1 h
  have hmid := hread ha
  have hrest := hnext a hb
  dsimp only at hrest
  omega

theorem Reader.Takes.map {n : Nat} (hread : read.Takes n) : (f <$> read : Reader β).Takes n := by
  intro bytes b rest h
  rw [Reader.map_apply] at h
  obtain ⟨⟨a, mid⟩, ha, hb⟩ := Option.map_eq_some_iff.1 h
  cases hb
  exact hread ha

theorem Reader.Takes.ite {c : Prop} [Decidable c] {read' : Reader α} {n : Nat}
    (hread : read.Takes n) (hread' : read'.Takes n) : (if c then read else read').Takes n := by
  split
  · exact hread
  · exact hread'

theorem Reader.Takes.readExact (n : Nat) : (readExact n).Takes n := by
  intro bytes a rest h
  simp only [DistBench.readExact] at h
  split at h
  · next hn =>
    cases h
    rw [List.length_drop]
    omega
  · cases h

theorem Reader.Takes.readBE (width : Nat) : (readBE width).Takes width :=
  (Reader.Takes.readExact width).map

theorem Reader.Takes.zero {n : Nat} (hread : read.Takes n) : read.Takes 0 := by
  intro bytes a rest h
  have hle := hread h
  omega

/-! ## Reading back what was written -/

/-- From `bytes`, whatever follows them, `read` takes `a` and stops behind them. -/
def Reads (read : Reader α) (a : α) (bytes : Bytes) : Prop :=
  ∀ rest, read (bytes ++ rest) = some (a, rest)

theorem Reads.pure (a : α) : Reads (pure a) a [] := fun _ => rfl

theorem Reads.bind (ha : Reads read a bytes) (hb : Reads (next a) b bytes') :
    Reads (read >>= next) b (bytes ++ bytes') := by
  intro rest
  rw [Reader.bind_apply, List.append_assoc, ha]
  exact hb rest

theorem Reads.map (ha : Reads read a bytes) : Reads (f <$> read) (f a) bytes := by
  intro rest
  rw [Reader.map_apply, ha]
  rfl

/-- The last field of a message. -/
theorem Reads.last (ha : Reads read a bytes) :
    Reads (read >>= fun a => Pure.pure (f a)) (f a) bytes := by
  have h : Reads (read >>= fun a => Pure.pure (f a)) (f a) (bytes ++ []) :=
    Reads.bind ha (Reads.pure (f a))
  rwa [List.append_nil] at h

theorem Reads.readExact (bytes : Bytes) : Reads (readExact bytes.length) bytes bytes := by
  intro rest
  simp [DistBench.readExact]

theorem Reads.readBE {width n : Nat} (h : n < 256 ^ width) :
    Reads (readBE width) n (toBytesBE width n) := by
  have hbytes := Reads.readExact (toBytesBE width n)
  rw [length_toBytesBE] at hbytes
  have hmap : Reads (DistBench.readBE width) (ofBytesBE (toBytesBE width n)) (toBytesBE width n) :=
    hbytes.map
  rwa [ofBytesBE_toBytesBE h] at hmap

/-! ## Streams of messages -/

/-- A way to put messages on a stream of bytes; `Valid` are those that survive it. -/
structure Framing (α : Type) where
  write : α → Bytes
  read : Reader α
  Valid : α → Prop
  reads_write : ∀ a, Valid a → Reads read a (write a)
  stable : read.Stable
  /-- A message has at least one byte. -/
  read_nil : read [] = none

namespace Framing

variable (F : Framing α) {xs ys : List α} {more : Bytes}

/-- The messages one after the other. -/
def stream (xs : List α) : Bytes :=
  xs.flatMap F.write

@[simp] theorem stream_nil : F.stream [] = [] := rfl

@[simp] theorem stream_cons : F.stream (a :: xs) = F.write a ++ F.stream xs := rfl

@[simp] theorem stream_append : F.stream (xs ++ ys) = F.stream xs ++ F.stream ys :=
  List.flatMap_append

variable {F}

/-- What is read from the bytes that have arrived is the first message of the
stream, and the stream of the others is left. -/
theorem read_stream (hvalid : ∀ x ∈ xs, F.Valid x) (hstream : bytes ++ more = F.stream xs)
    (h : F.read bytes = some (a, rest)) :
    ∃ ys, xs = a :: ys ∧ rest ++ more = F.stream ys := by
  cases xs with
  | nil =>
    obtain ⟨rfl, -⟩ := List.append_eq_nil_iff.1 hstream
    rw [F.read_nil] at h
    cases h
  | cons x xs =>
    have hall := F.stable h more
    rw [hstream, stream_cons, F.reads_write x (hvalid x (by simp))] at hall
    obtain ⟨rfl, hrest⟩ := Prod.mk.inj (Option.some.inj hall)
    exact ⟨xs, rfl, hrest.symm⟩

end Framing

end

/-! ## One direction of a connection -/

/-- Bytes that have been written: those still on their way, and those that have
arrived and have not been read. -/
structure Pipe where
  arrived : Bytes := []
  flight : Bytes := []
deriving DecidableEq, Repr

namespace Pipe

variable (p : Pipe)

/-- All bytes in the order in which they were written. -/
def bytes : Bytes :=
  p.arrived ++ p.flight

/-- More bytes are written. -/
def write (bs : Bytes) : Pipe :=
  { p with flight := p.flight ++ bs }

/-- A chunk of `n` bytes arrives. -/
def arrive (n : Nat) : Pipe :=
  { arrived := p.arrived ++ p.flight.take n, flight := p.flight.drop n }

@[simp] theorem bytes_write (bs : Bytes) : (p.write bs).bytes = p.bytes ++ bs := by
  simp [bytes, write]

@[simp] theorem bytes_arrive (n : Nat) : (p.arrive n).bytes = p.bytes := by
  simp [bytes, arrive]

end Pipe

end DistBench
