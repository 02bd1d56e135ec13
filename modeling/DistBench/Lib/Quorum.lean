import DistBench.Lib.Async

/-!
# Quorums among parties of which some do not follow the protocol

Counting facts about sets of nodes when at most `f` nodes are outside the
protocol: a set of more than `f` nodes contains a correct one, and two sets
that together exceed the number of nodes by more than `f` share a correct one.
-/

namespace DistBench.Async.Parties

variable {ι : Type} [DecidableEq ι] {G : Parties ι} {A B : Finset ι} {f : Nat}

/-- A set of nodes falls into correct ones and ones outside the protocol. -/
theorem card_inter_add (hA : A ⊆ G.nodes) :
    (A ∩ G.correct).card + (A ∩ G.byz).card = A.card := by
  have hdisj : Disjoint (A ∩ G.correct) (A ∩ G.byz) :=
    G.disjoint.mono Finset.inter_subset_right Finset.inter_subset_right
  rw [← Finset.card_union_of_disjoint hdisj, ← Finset.inter_union_distrib_left]
  exact congrArg Finset.card (Finset.inter_eq_left.mpr hA)

/-- A set of nodes has at most `f` members outside the protocol. -/
theorem card_le_correct_add (hA : A ⊆ G.nodes) (hf : G.byz.card ≤ f) :
    A.card ≤ (A ∩ G.correct).card + f := by
  rw [← card_inter_add hA]
  exact Nat.add_le_add_left ((Finset.card_le_card Finset.inter_subset_right).trans hf) _

/-- More than `f` nodes include a correct one. -/
theorem exists_correct_mem (hA : A ⊆ G.nodes) (hf : G.byz.card ≤ f) (hcard : f < A.card) :
    ∃ i ∈ A, i ∈ G.correct := by
  have hle := card_le_correct_add hA hf
  have hpos : 0 < (A ∩ G.correct).card := by omega
  obtain ⟨i, hi⟩ := Finset.card_pos.mp hpos
  exact ⟨i, (Finset.mem_inter.mp hi).1, (Finset.mem_inter.mp hi).2⟩

/-- **Quorum intersection**: two sets that together exceed the nodes by more
than `f` share a correct node. -/
theorem exists_correct_mem_inter (hA : A ⊆ G.nodes) (hB : B ⊆ G.nodes)
    (hf : G.byz.card ≤ f) (hcard : G.nodes.card + f < A.card + B.card) :
    ∃ i ∈ A, i ∈ B ∧ i ∈ G.correct := by
  have hunion : (A ∪ B).card ≤ G.nodes.card :=
    Finset.card_le_card (Finset.union_subset hA hB)
  have hsum := Finset.card_union_add_card_inter A B
  obtain ⟨i, hi, hcorr⟩ :=
    exists_correct_mem (A := A ∩ B) (f := f) (fun i hi => hA (Finset.mem_inter.mp hi).1) hf
      (by omega)
  exact ⟨i, (Finset.mem_inter.mp hi).1, (Finset.mem_inter.mp hi).2, hcorr⟩

end DistBench.Async.Parties
