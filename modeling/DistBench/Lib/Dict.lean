import Mathlib

/-!
# Dictionaries

Python's `dict` as an association list without duplicate keys. `d[k]` is
`d.get k dflt`: the default stands for the `KeyError` the code rules out by
creating every entry before it reads it. Where the order of the entries matters, a
dictionary is a list of pairs: `setItem`, `foldl_setItem`, and what `lookup` finds.
-/

namespace DistBench

variable {κ ν : Type} [DecidableEq κ]

/-- A dictionary from `κ` to `ν`. -/
abbrev Dict (κ ν : Type) : Type := AList fun _ : κ => ν

/-- The value at a key, `dflt` where there is none. -/
def Dict.get (d : Dict κ ν) (k : κ) (dflt : ν) : ν :=
  (d.lookup k).getD dflt

variable {d : Dict κ ν} {k k' : κ} {v dflt : ν}

@[simp] theorem Dict.get_empty : (∅ : Dict κ ν).get k dflt = dflt := by
  simp [Dict.get]

@[simp] theorem Dict.get_insert_self : Dict.get (AList.insert k v d) k dflt = v := by
  simp [Dict.get]

theorem Dict.get_insert_of_ne (h : k' ≠ k) :
    Dict.get (AList.insert k v d) k' dflt = d.get k' dflt := by
  simp [Dict.get, AList.lookup_insert_ne h]

/-- Writing to an existing key creates none. -/
theorem Dict.mem_insert_of_mem (h : k ∈ d) : k' ∈ AList.insert k v d ↔ k' ∈ d := by
  rw [AList.mem_insert]
  refine ⟨?_, .inr⟩
  rintro (rfl | h')
  · exact h
  · exact h'

/-- `d.setdefault(k, [])`, and `append` unless it is there. -/
theorem Dict.mem_get_insert_append {α : Type} {d : Dict κ (List α)} {a b : α}
    [Decidable (a ∈ d.get k [])] (h : b ∈ Dict.get (AList.insert k
      (if a ∈ d.get k [] then d.get k [] else d.get k [] ++ [a]) d) k' []) :
    b ∈ d.get k' [] ∨ k = k' ∧ b = a := by
  by_cases hk : k' = k
  · subst hk
    rw [Dict.get_insert_self] at h
    split at h
    · exact .inl h
    · exact (List.mem_append.mp h).imp_right fun h => ⟨rfl, List.mem_singleton.mp h⟩
  · rw [Dict.get_insert_of_ne hk] at h
    exact .inl h

/-- Entries that are written under keys of their own. -/
theorem Dict.get_foldl_insert {ι : Type*} [DecidableEq ι] {key : ι → κ} (value : ι → ν)
    (hkey : Function.Injective key) (is : List ι) (i : ι) :
    Dict.get (is.foldl (fun d i => AList.insert (key i) (value i) d) ∅) (key i) dflt =
      if i ∈ is then value i else dflt := by
  induction is using List.reverseRecOn with
  | nil => simp
  | append_singleton is j ih =>
    rw [List.foldl_append, List.foldl_cons, List.foldl_nil]
    by_cases hij : i = j
    · subst hij
      simp
    · rw [Dict.get_insert_of_ne (hkey.ne hij), ih]
      simp [hij]

/-! ## Dictionaries with an order -/

variable {α β : Type*} {items : List (κ × α)} {key : κ} {value : α}

/-- `d[key] = value`: a key that is there keeps its place. -/
def setItem (items : List (κ × α)) (key : κ) (value : α) : List (κ × α) :=
  if key ∈ items.map Prod.fst then
    items.map fun p => if p.1 = key then (key, value) else p
  else items ++ [(key, value)]

theorem setItem_of_notMem (h : key ∉ items.map Prod.fst) :
    setItem items key value = items ++ [(key, value)] :=
  if_neg h

theorem mem_setItem {p : κ × α} (h : p ∈ setItem items key value) :
    p ∈ items ∨ p = (key, value) := by
  unfold setItem at h
  split at h
  · obtain ⟨q, hq, rfl⟩ := List.mem_map.mp h
    split
    · exact .inr rfl
    · exact .inl hq
  · simpa using h

theorem mem_of_lookup (h : items.lookup key = some value) : (key, value) ∈ items := by
  obtain ⟨l₁, l₂, rfl, -⟩ := List.lookup_eq_some_iff.mp h
  simp

theorem lookup_of_mem (hnodup : (items.map Prod.fst).Nodup) (h : (key, value) ∈ items) :
    items.lookup key = some value := by
  obtain ⟨l₁, l₂, rfl⟩ := List.append_of_mem h
  refine List.lookup_eq_some_iff.mpr ⟨l₁, l₂, rfl, fun p hp => ?_⟩
  rw [List.map_append, List.map_cons, List.nodup_append] at hnodup
  simpa using (hnodup.2.2 _ (List.mem_map_of_mem hp) key List.mem_cons_self).symm

/-- What is found in a dictionary that is built from distinct keys … -/
theorem lookup_map_eq_some_iff {ι : Type*} {key : ι → κ} {value : ι → α} {is : List ι}
    (hnodup : (is.map key).Nodup) {k : κ} {v : α} :
    (is.map fun i => (key i, value i)).lookup k = some v ↔ ∃ i ∈ is, key i = k ∧ value i = v := by
  have hkeys : ((is.map fun i => (key i, value i)).map Prod.fst).Nodup := by
    rw [List.map_map]
    exact hnodup
  constructor
  · intro h
    obtain ⟨i, hi, heq⟩ := List.mem_map.mp (mem_of_lookup h)
    exact ⟨i, hi, Prod.mk.inj heq⟩
  · rintro ⟨i, hi, rfl, rfl⟩
    exact lookup_of_mem hkeys (List.mem_map.mpr ⟨i, hi, rfl⟩)

/-- … which has its entries in their order. -/
theorem foldl_setItem {ι : Type*} (key : ι → κ) (value : ι → α) (is : List ι)
    (hnodup : (is.map key).Nodup) :
    is.foldl (fun items i => setItem items (key i) (value i)) [] =
      is.map fun i => (key i, value i) := by
  induction is using List.reverseRecOn with
  | nil => rfl
  | append_singleton is i ih =>
    rw [List.map_append, List.nodup_append] at hnodup
    obtain ⟨hbefore, -, hne⟩ := hnodup
    rw [List.foldl_append, ih hbefore, List.foldl_cons, List.foldl_nil, setItem_of_notMem,
      List.map_append, List.map_cons, List.map_nil]
    rw [List.map_map]
    exact fun hmem => hne (key i) hmem (key i) (List.mem_singleton.mpr rfl) rfl

theorem lookup_map_snd (f : α → β) (items : List (κ × α)) (key : κ) :
    (items.map fun p => (p.1, f p.2)).lookup key = (items.lookup key).map f := by
  induction items with
  | nil => rfl
  | cons p items ih =>
    obtain ⟨k, value⟩ := p
    cases hk : key == k <;> simp [List.lookup_cons, hk, ih]

end DistBench
