import Mathlib

/-!
# Greedy packings

A pass over a list that keeps each item whose set is disjoint from the sets of all it has
kept before. What it keeps depends on the order, and it may keep fewer items than there
are disjoint ones in the list.

- `pick`: the items the pass keeps. `pick_append`: it goes on where it has stopped, so it
  never takes an item back.
- `pick_maximal`: what it leaves out meets something it has kept.
- `card_le_of_disjoint_hits`: disjoint sets that all meet a set are no more than it has
  members.
-/

namespace DistBench.Packing

variable {α β : Type} [DecidableEq α]

/-- Disjoint sets that all meet `B` are at most as many as `B` has members. -/
theorem card_le_of_disjoint_hits {us : List (Finset α)} {B : Finset α}
    (hdisj : us.Pairwise Disjoint) (hhit : ∀ u ∈ us, ∃ x ∈ u, x ∈ B) :
    us.length ≤ B.card := by
  induction us generalizing B with
  | nil => simp
  | cons u us ih =>
    obtain ⟨hu, hus⟩ := List.pairwise_cons.1 hdisj
    obtain ⟨x, hx, hxB⟩ := hhit u (by simp)
    have hrest : us.length ≤ (B.erase x).card := by
      refine ih hus fun v hv => ?_
      obtain ⟨y, hy, hyB⟩ := hhit v (by simp [hv])
      refine ⟨y, hy, Finset.mem_erase.2 ⟨?_, hyB⟩⟩
      rintro rfl
      exact Finset.disjoint_left.1 (hu v hv) hx hy
    have hcard := Finset.card_erase_add_one hxB
    simp only [List.length_cons]
    omega

variable {g : β → Finset α} {kept us vs : List β} {u v : β}

/-- The sets of the items are disjoint. -/
abbrev Apart (g : β → Finset α) (u v : β) : Prop := Disjoint (g u) (g v)

omit [DecidableEq α] in
theorem Apart.symm (h : Apart g u v) : Apart g v u := Disjoint.symm h

/-- The items the pass has kept, `kept` at first. -/
def pick (g : β → Finset α) (kept : List β) : List β → List β
  | [] => kept
  | u :: us => if ∀ v ∈ kept, Apart g u v then pick g (kept ++ [u]) us else pick g kept us

@[simp] theorem pick_nil : pick g kept [] = kept := rfl

theorem pick_cons_of_apart (h : ∀ v ∈ kept, Apart g u v) :
    pick g kept (u :: us) = pick g (kept ++ [u]) us := if_pos h

theorem pick_cons_of_meets (hv : v ∈ kept) (h : ¬ Apart g u v) :
    pick g kept (u :: us) = pick g kept us := if_neg fun hall => h (hall v hv)

/-- The pass goes on where it has stopped. -/
theorem pick_append : pick g kept (us ++ vs) = pick g (pick g kept us) vs := by
  induction us generalizing kept with
  | nil => rfl
  | cons u us ih =>
    rw [List.cons_append, pick, pick]
    split
    · exact ih
    · exact ih

/-- It takes nothing back. -/
theorem prefix_pick : kept <+: pick g kept us := by
  induction us generalizing kept with
  | nil => exact List.prefix_rfl
  | cons u us ih =>
    rw [pick]
    split
    · exact (List.prefix_append kept [u]).trans ih
    · exact ih

theorem length_pick_mono (h : us <+: vs) : (pick g kept us).length ≤ (pick g kept vs).length := by
  obtain ⟨ws, rfl⟩ := h
  rw [pick_append]
  exact prefix_pick.length_le

theorem mem_of_mem_pick (hu : u ∈ pick g kept us) : u ∈ kept ∨ u ∈ us := by
  induction us generalizing kept with
  | nil => exact .inl hu
  | cons w us ih =>
    rw [pick] at hu
    split at hu
    · rcases ih hu with hu | hu
      · rcases List.mem_append.mp hu with hu | hu
        · exact .inl hu
        · obtain rfl := List.mem_singleton.mp hu
          exact .inr List.mem_cons_self
      · exact .inr (List.mem_cons_of_mem w hu)
    · exact (ih hu).imp_right (List.mem_cons_of_mem w)

theorem pairwise_pick (h : kept.Pairwise (Apart g)) : (pick g kept us).Pairwise (Apart g) := by
  induction us generalizing kept with
  | nil => exact h
  | cons u us ih =>
    rw [pick]
    split
    · next hapart =>
      refine ih (List.pairwise_append.mpr ⟨h, List.pairwise_singleton _ _, fun v hv w hw => ?_⟩)
      obtain rfl := List.mem_singleton.mp hw
      exact (hapart v hv).symm
    · exact ih h

/-- What the pass leaves out meets something it has kept. -/
theorem pick_maximal (hu : u ∈ us) : u ∈ pick g kept us ∨ ∃ v ∈ pick g kept us, ¬ Apart g u v := by
  induction us generalizing kept with
  | nil => cases hu
  | cons w us ih =>
    rw [pick]
    rcases List.mem_cons.mp hu with rfl | hu
    · split
      · exact .inl (prefix_pick.subset (by simp))
      · next hapart =>
        push Not at hapart
        obtain ⟨v, hv, hmeets⟩ := hapart
        exact .inr ⟨v, prefix_pick.subset hv, hmeets⟩
    · split
      · exact ih hu
      · exact ih hu

/-- Where everything meets what is kept, nothing is added. -/
theorem pick_eq_self (h : ∀ u ∈ us, ∃ v ∈ kept, ¬ Apart g u v) : pick g kept us = kept := by
  induction us with
  | nil => rfl
  | cons u us ih =>
    obtain ⟨v, hv, hmeets⟩ := h u List.mem_cons_self
    rw [pick_cons_of_meets hv hmeets]
    exact ih fun w hw => h w (List.mem_cons_of_mem u hw)

/-- The members of the sets of all the items. -/
def members (g : β → Finset α) (us : List β) : Finset α :=
  us.foldr (fun u X => g u ∪ X) ∅

theorem mem_members {x : α} : x ∈ members g us ↔ ∃ u ∈ us, x ∈ g u := by
  induction us with
  | nil => simp [members]
  | cons u us ih =>
    rw [members, List.foldr_cons, Finset.mem_union, List.exists_mem_cons_iff]
    exact or_congr_right ih

theorem card_members_le {k : Nat} (h : ∀ u ∈ us, (g u).card ≤ k) :
    (members g us).card ≤ k * us.length := by
  induction us with
  | nil => simp [members]
  | cons u us ih =>
    have hu := h u List.mem_cons_self
    have hus := ih fun v hv => h v (List.mem_cons_of_mem u hv)
    have hcard := Finset.card_union_le (g u) (members g us)
    rw [List.length_cons, Nat.mul_succ]
    exact hcard.trans (by omega)

end DistBench.Packing
