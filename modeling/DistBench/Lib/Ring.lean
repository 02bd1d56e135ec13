import Mathlib

/-!
# Rings

A list without repetitions as a ring: every element has a successor, and going
from successor to successor leads from any element to any other. What a token
that goes around the ring has passed is then a matter of iterates of the
successor function, and where it still has to go of the number of `steps`.

- `successor`, `exists_iterate_successor`: the ring of a list.
- `exists_iterate_of_return`: between leaving an element and returning to it
  everything is passed.
- `steps`: how far it is from one element to another.
- `window`: the elements that follow a position.
- `insertionSort_eq_sort`: every listing of a set sorts to the same ring.
- `Reaches`: the places of a ring of `n` numbers that a set of offsets leads to;
  `reaches_symm_iff` says when every step can be taken back.
-/

namespace DistBench

variable {α : Type} [DecidableEq α] {l : List α} {x y : α}

/-- The element after `x`, the first one after the last. -/
def successor (l : List α) (x : α) : α := l.getD ((l.idxOf x + 1) % l.length) x

theorem successor_mem (hx : x ∈ l) : successor l x ∈ l := by
  have hpos : 0 < l.length := List.length_pos_of_mem hx
  have hlt : (l.idxOf x + 1) % l.length < l.length := Nat.mod_lt _ hpos
  rw [successor, List.getD_eq_getElem _ _ hlt]
  exact List.getElem_mem hlt

theorem iterate_successor_mem (hx : x ∈ l) (k : Nat) : (successor l)^[k] x ∈ l := by
  induction k with
  | zero => exact hx
  | succ k ih =>
    rw [Function.iterate_succ_apply']
    exact successor_mem ih

/-- The element `k` places on from position `i`. -/
theorem iterate_successor_getElem (hl : l.Nodup) {i : Nat} (hi : i < l.length) (k : Nat) :
    (successor l)^[k] l[i] = l.get ⟨(i + k) % l.length, Nat.mod_lt _ (Nat.zero_lt_of_lt hi)⟩ := by
  have hpos : 0 < l.length := Nat.zero_lt_of_lt hi
  induction k with
  | zero =>
    show l[i] = l.get _
    rw [List.get_eq_getElem]
    congr 1
    exact (Nat.mod_eq_of_lt hi).symm
  | succ k ih =>
    have hlt : (i + k) % l.length < l.length := Nat.mod_lt _ hpos
    have hlt' : ((i + k) % l.length + 1) % l.length < l.length := Nat.mod_lt _ hpos
    rw [Function.iterate_succ_apply', ih, List.get_eq_getElem, successor, hl.idxOf_getElem,
      List.getD_eq_getElem _ _ hlt', List.get_eq_getElem]
    congr 1
    rw [Nat.mod_add_mod, Nat.add_assoc]

/-- From every element of a ring one comes to every other. -/
theorem exists_iterate_successor (hl : l.Nodup) (hx : x ∈ l) (hy : y ∈ l) :
    ∃ k < l.length, (successor l)^[k] x = y := by
  obtain ⟨i, hi, rfl⟩ := List.mem_iff_getElem.mp hx
  obtain ⟨j, hj, rfl⟩ := List.mem_iff_getElem.mp hy
  refine ⟨(j + l.length - i) % l.length, Nat.mod_lt _ (by omega), ?_⟩
  rw [iterate_successor_getElem hl hi, List.get_eq_getElem]
  congr 1
  show (i + (j + l.length - i) % l.length) % l.length = j
  rw [Nat.add_mod_mod]
  have hsum : i + (j + l.length - i) = j + l.length := by omega
  rw [hsum, Nat.add_mod_right, Nat.mod_eq_of_lt hj]

/-- On a ring of two or more nobody is its own successor. -/
theorem successor_ne (hl : l.Nodup) (hx : x ∈ l) (htwo : 2 ≤ l.length) : successor l x ≠ x := by
  obtain ⟨i, hi, rfl⟩ := List.mem_iff_getElem.mp hx
  have hnext := iterate_successor_getElem hl hi 1
  rw [Function.iterate_one, List.get_eq_getElem] at hnext
  rw [hnext]
  intro heq
  have hmod : (i + 1) % l.length = i := (hl.getElem_inj_iff).mp heq
  rcases Nat.lt_or_ge (i + 1) l.length with hlt | hge
  · rw [Nat.mod_eq_of_lt hlt] at hmod
    omega
  · have hlast : i + 1 = l.length := by omega
    rw [hlast, Nat.mod_self] at hmod
    omega

/-! ## Going around -/

section Orbit

variable {f : α → α}

omit [DecidableEq α] in
/-- On the way from an element back to it everything else that can be reached is
passed. -/
theorem exists_iterate_of_return {d : Nat} (hd : 0 < d) (hret : f^[d] x = x)
    (hreach : ∃ k, f^[k] x = y) (hne : y ≠ x) : ∃ e, 0 < e ∧ e < d ∧ f^[e] x = y := by
  obtain ⟨k, hk⟩ := hreach
  have hper : Function.IsPeriodicPt f d x := hret
  have hmod : f^[k % d] x = y := by rw [hper.iterate_mod_apply, hk]
  refine ⟨k % d, Nat.pos_of_ne_zero fun h0 => hne ?_, Nat.mod_lt _ hd, hmod⟩
  rw [h0] at hmod
  exact hmod.symm

/-- The number of steps from `x` to `y`. -/
noncomputable def steps (f : α → α) (x y : α) : Nat := sInf {k | f^[k] x = y}

omit [DecidableEq α] in
theorem iterate_steps (h : ∃ k, f^[k] x = y) : f^[steps f x y] x = y :=
  Nat.sInf_mem (s := {k | f^[k] x = y}) h

omit [DecidableEq α] in
theorem steps_le {k : Nat} (h : f^[k] x = y) : steps f x y ≤ k :=
  Nat.sInf_le (s := {k | f^[k] x = y}) h

omit [DecidableEq α] in
/-- A step brings one closer. -/
theorem steps_apply_lt (h : ∃ k, f^[k] x = y) (hne : x ≠ y) :
    steps f (f x) y < steps f x y := by
  have hit := iterate_steps h
  cases hs : steps f x y with
  | zero =>
    rw [hs] at hit
    exact absurd hit hne
  | succ k =>
    rw [hs, Function.iterate_succ_apply] at hit
    exact Nat.lt_succ_of_le (steps_le hit)

end Orbit

theorem steps_successor_lt (hl : l.Nodup) (hx : x ∈ l) (hy : y ∈ l) :
    steps (successor l) x y < l.length := by
  obtain ⟨k, hk, hit⟩ := exists_iterate_successor hl hx hy
  exact (steps_le hit).trans_lt hk

/-! ## Windows -/

/-- The `count` elements after position `i`. -/
def window (l : List α) (i count : Nat) : Finset α :=
  ((List.range' 1 count).filterMap fun k => l[(i + k) % l.length]?).toFinset

theorem mem_window {i count : Nat} :
    x ∈ window l i count ↔ ∃ k, 1 ≤ k ∧ k ≤ count ∧ l[(i + k) % l.length]? = some x := by
  rw [window, List.mem_toFinset, List.mem_filterMap]
  refine exists_congr fun k => ?_
  rw [List.mem_range'_1, and_assoc]
  refine and_congr_right fun _ => and_congr_left fun _ => ?_
  omega

theorem window_mono {i count count' : Nat} (h : count ≤ count') :
    window l i count ⊆ window l i count' := by
  intro x hx
  obtain ⟨k, hpos, hle, hk⟩ := mem_window.mp hx
  exact mem_window.mpr ⟨k, hpos, hle.trans h, hk⟩

theorem mem_of_mem_window {i count : Nat} (hx : x ∈ window l i count) : x ∈ l := by
  obtain ⟨k, -, -, hk⟩ := mem_window.mp hx
  exact List.mem_of_getElem? hk

/-- No element is met twice in a window that is not longer than the ring. -/
theorem card_window (hl : l.Nodup) {i count : Nat} (hle : count ≤ l.length) :
    (window l i count).card = count := by
  rcases Nat.eq_zero_or_pos l.length with hzero | hpos
  · obtain rfl : count = 0 := by omega
    rfl
  have hlt (k : Nat) : (i + k) % l.length < l.length := Nat.mod_lt _ hpos
  have himage : window l i count =
      (Finset.Icc 1 count).image fun k => l.get ⟨(i + k) % l.length, hlt k⟩ := by
    ext x
    rw [mem_window, Finset.mem_image]
    refine exists_congr fun k => ?_
    rw [Finset.mem_Icc, and_assoc, List.getElem?_eq_getElem (hlt k), Option.some.injEq,
      List.get_eq_getElem]
  rw [himage, Finset.card_image_of_injOn, Nat.card_Icc, Nat.add_sub_cancel]
  intro k hk k' hk' heq
  have hmod : (i + k) % l.length = (i + k') % l.length := by
    have := (hl.get_inj_iff).mp heq
    simpa using this
  have hk := Finset.mem_Icc.mp hk
  have hk' := Finset.mem_Icc.mp hk'
  have hcongr : k ≡ k' [MOD l.length] := Nat.ModEq.add_left_cancel' i hmod
  -- two numbers between 1 and the length of the ring
  have hpred : k - 1 ≡ k' - 1 [MOD l.length] := by
    refine Nat.ModEq.add_right_cancel' 1 ?_
    rwa [Nat.sub_add_cancel hk.1, Nat.sub_add_cancel hk'.1]
  have := Nat.ModEq.eq_of_lt_of_lt hpred (by omega) (by omega)
  omega

/-- A window that comes back to where it begins is the whole ring. -/
theorem length_le_of_mem_window_self (hl : l.Nodup) {count : Nat}
    (h : x ∈ window l (l.idxOf x) count) : l.length ≤ count := by
  have hi : l.idxOf x < l.length := List.idxOf_lt_length_iff.mpr (mem_of_mem_window h)
  obtain ⟨k, hpos, hle, hk⟩ := mem_window.mp h
  obtain ⟨hlt, hget⟩ := List.getElem?_eq_some_iff.mp hk
  have hmod : (l.idxOf x + k) % l.length = l.idxOf x :=
    (hl.getElem_inj_iff).mp (hget.trans (List.getElem_idxOf hi).symm)
  have hzero : l.idxOf x + k ≡ l.idxOf x + 0 [MOD l.length] := by
    rw [Nat.ModEq, hmod, Nat.add_zero, Nat.mod_eq_of_lt hi]
  have hdvd : l.length ∣ k := (Nat.modEq_zero_iff_dvd).mp (Nat.ModEq.add_left_cancel' _ hzero)
  exact (Nat.le_of_dvd hpos hdvd).trans hle

theorem idxOf?_of_mem (hx : x ∈ l) : l.idxOf? x = some (l.idxOf x) := by
  induction l with
  | nil => cases hx
  | cons y l ih =>
    rw [List.idxOf?_cons, List.idxOf_cons]
    by_cases hyx : y = x
    · simp [hyx]
    · have hxl : x ∈ l := (List.mem_cons.mp hx).resolve_left (Ne.symm hyx)
      simp [ih hxl, beq_false_of_ne hyx]

/-- Sorting any listing of a set lists it in order. -/
theorem insertionSort_eq_sort {β : Type} [LinearOrder β] {l : List β} {s : Finset β}
    (hl : l.Nodup) (hs : ∀ x, x ∈ l ↔ x ∈ s) : l.insertionSort (· ≤ ·) = s.sort (· ≤ ·) := by
  have hperm : List.Perm (l.insertionSort (· ≤ ·)) (s.sort (· ≤ ·)) := by
    refine (List.perm_insertionSort _ _).trans ?_
    refine (List.perm_ext_iff_of_nodup hl (Finset.sort_nodup _ _)).mpr fun x => ?_
    rw [Finset.mem_sort, hs]
  exact hperm.eq_of_pairwise' (List.pairwise_insertionSort _ _) (Finset.pairwise_sort _ _)

/-! ## Offsets -/

section Offsets

variable {n a b i j : Int} {offsets : Finset Int}

/-- Fewer than `n` consecutive offsets lead to different places. -/
theorem injOn_add_emod (h : b - a < n) (i : Int) :
    Set.InjOn (fun d => (i + d) % n) (Set.Icc a b) := by
  intro d hd d' hd' heq
  have hdvd : n ∣ d - d' := by
    have hsub := Int.emod_eq_emod_iff_emod_sub_eq_zero.mp heq
    rw [add_sub_add_left_eq_sub] at hsub
    exact Int.dvd_of_emod_eq_zero hsub
  have hlt : |d - d'| < n := by
    obtain ⟨had, hdb⟩ := hd
    obtain ⟨had', hdb'⟩ := hd'
    rw [abs_lt]
    omega
  exact sub_eq_zero.mp (Int.eq_zero_of_abs_lt_dvd hdvd hlt)

/-- One of the offsets leads from place `i` to place `j`. -/
def Reaches (n : Int) (offsets : Finset Int) (i j : Int) : Prop :=
  ∃ d ∈ offsets, (i + d) % n = j

theorem add_emod_eq_iff (hj : 0 ≤ j) (hjn : j < n) (d : Int) :
    (i + d) % n = j ↔ n ∣ i + d - j := by
  rw [Int.dvd_iff_emod_eq_zero, ← Int.emod_eq_emod_iff_emod_sub_eq_zero,
    Int.emod_eq_of_lt hj hjn]

/-- Every step can be taken back when every offset has an opposite one among them. -/
theorem reaches_symm_iff (hn : 0 < n) :
    (∀ i ∈ Set.Ico 0 n, ∀ j ∈ Set.Ico 0 n, Reaches n offsets i j → Reaches n offsets j i) ↔
      ∀ d ∈ offsets, ∃ d' ∈ offsets, n ∣ d + d' := by
  constructor
  · intro h d hd
    have hmod : d % n ∈ Set.Ico 0 n := ⟨Int.emod_nonneg d hn.ne', Int.emod_lt_of_pos d hn⟩
    have hstep : Reaches n offsets 0 (d % n) := ⟨d, hd, by rw [zero_add]⟩
    obtain ⟨d', hd', hback⟩ := h 0 ⟨le_rfl, hn⟩ (d % n) hmod hstep
    refine ⟨d', hd', Int.dvd_of_emod_eq_zero ?_⟩
    rwa [Int.emod_add_emod] at hback
  · rintro h i hi j hj ⟨d, hd, hij⟩
    obtain ⟨d', hd', hdvd⟩ := h d hd
    rw [add_emod_eq_iff hj.1 hj.2] at hij
    refine ⟨d', hd', (add_emod_eq_iff hi.1 hi.2 d').mpr ?_⟩
    have hsum := dvd_sub hdvd hij
    rwa [show d + d' - (i + d - j) = j + d' - i by ring] at hsum

end Offsets

end DistBench
