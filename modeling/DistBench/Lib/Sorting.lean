import Mathlib

/-!
# Sorting under an order that is only known on a list

`List.mergeSort` with a comparison that is a total order on the elements of the list at
hand, and need not be one elsewhere.

- `pairwise_mergeSort_of_mem`: the result is sorted;
- `mergeSort_eq_of_perm`: it does not depend on the order of the list;
- `forall₂_mergeSort`: two lists that correspond still do after both have been sorted.
-/

namespace DistBench

variable {α β : Type*} {le : α → α → Bool} {xs ys : List α}

theorem pairwise_mergeSort_of_mem
    (trans : ∀ a ∈ xs, ∀ b ∈ xs, ∀ c ∈ xs, le a b = true → le b c = true → le a c = true)
    (total : ∀ a ∈ xs, ∀ b ∈ xs, le a b = true ∨ le b a = true) :
    (xs.mergeSort le).Pairwise fun a b => le a b = true := by
  -- the comparison is a total order on the subtype of the elements
  let below : {a // a ∈ xs} → {a // a ∈ xs} → Bool := fun a b => le a b
  have hsorted : (xs.attach.mergeSort below).Pairwise fun a b => below a b = true :=
    List.pairwise_mergeSort (fun ⟨a, ha⟩ ⟨b, hb⟩ ⟨c, hc⟩ => trans a ha b hb c hc)
      (fun ⟨a, ha⟩ ⟨b, hb⟩ => by simpa [below] using total a ha b hb) _
  have hmap : (xs.attach.mergeSort below).map Subtype.val = xs.mergeSort le := by
    rw [List.map_mergeSort (s := le) (fun a _ b _ => rfl), List.attach_map_subtype_val]
  rw [← hmap]
  exact List.pairwise_map.mpr hsorted

/-- Two orders of the same elements are sorted alike, if elements that are both before and
after one another are the same. -/
theorem mergeSort_eq_of_perm (hperm : xs.Perm ys)
    (trans : ∀ a ∈ ys, ∀ b ∈ ys, ∀ c ∈ ys, le a b = true → le b c = true → le a c = true)
    (total : ∀ a ∈ ys, ∀ b ∈ ys, le a b = true ∨ le b a = true)
    (antisymm : ∀ a ∈ ys, ∀ b ∈ ys, le a b = true → le b a = true → a = b) :
    xs.mergeSort le = ys.mergeSort le := by
  have hxs : (xs.mergeSort le).Perm ys := (List.mergeSort_perm xs le).trans hperm
  have hys : (ys.mergeSort le).Perm ys := List.mergeSort_perm ys le
  have hsorted : (xs.mergeSort le).Pairwise fun a b => le a b = true := by
    refine pairwise_mergeSort_of_mem ?_ ?_
    · intro a ha b hb c hc
      exact trans a (hperm.subset ha) b (hperm.subset hb) c (hperm.subset hc)
    · intro a ha b hb
      exact total a (hperm.subset ha) b (hperm.subset hb)
  have hsorted' := pairwise_mergeSort_of_mem trans total
  refine List.Perm.eq_of_pairwise ?_ hsorted hsorted' (hxs.trans hys.symm)
  intro a b ha hb hab hba
  exact antisymm a (hxs.subset ha) b (hys.subset hb) hab hba

/-- Lists that correspond, element by element, correspond when both have been sorted, if
the comparisons do. -/
theorem forall₂_mergeSort {R : α → β → Prop} {ys : List β} (le : α → α → Bool)
    (le' : β → β → Bool) (h : List.Forall₂ R xs ys)
    (hle : ∀ a ∈ xs, ∀ b ∈ xs, ∀ a' ∈ ys, ∀ b' ∈ ys, R a a' → R b b' → le a b = le' a' b') :
    List.Forall₂ R (xs.mergeSort le) (ys.mergeSort le') := by
  obtain ⟨hlength, hzip⟩ := List.forall₂_iff_zip.mp h
  let pairs := (xs.zip ys).mergeSort fun p q => le p.1 q.1
  have hmem {p : α × β} (hp : p ∈ xs.zip ys) : p.1 ∈ xs ∧ p.2 ∈ ys ∧ R p.1 p.2 :=
    ⟨(List.of_mem_zip hp).1, (List.of_mem_zip hp).2, hzip hp⟩
  have hfst : pairs.map Prod.fst = xs.mergeSort le := by
    rw [List.map_mergeSort (s := le) (fun p _ q _ => rfl), List.map_fst_zip hlength.le]
  have hsnd : pairs.map Prod.snd = ys.mergeSort le' := by
    rw [List.map_mergeSort (s := le') ?_, List.map_snd_zip hlength.ge]
    intro p hp q hq
    obtain ⟨hp₁, hp₂, hp⟩ := hmem hp
    obtain ⟨hq₁, hq₂, hq⟩ := hmem hq
    exact hle _ hp₁ _ hq₁ _ hp₂ _ hq₂ hp hq
  rw [← hfst, ← hsnd, List.forall₂_map_left_iff, List.forall₂_map_right_iff, List.forall₂_same]
  intro p hp
  exact (hmem (List.mem_mergeSort.mp hp)).2.2

end DistBench
