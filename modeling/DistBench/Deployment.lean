import DistBench.Lib.Quorum

/-!
# Deployments

What every algorithm is given: the nodes of the system, which of them follow
the protocol, and each node's `peers` dictionary. All configurations the
framework builds have full peer dictionaries, every other node in some order.

- `PeerId`, `Deployment`, `Deployment.N`.
- `Deployment.ofLists`: a concrete deployment.
- `Cluster`: two or more nodes, all of which follow the protocol; `Cluster.pair` is
  the smallest.
-/

namespace DistBench

open DistBench.Async

/-- `PeerId` wraps a string and is compared, hashed and printed as that string
(community.py:43–56). -/
abbrev PeerId : Type := String

-- what sorting the ids of the nodes relies on
instance : IsTrans PeerId (· ≤ ·) := inferInstance

instance : Std.Antisymm (α := PeerId) (· ≤ ·) := inferInstance

/-- The nodes, and each node's `peers` dictionary in its own order. -/
structure Deployment where
  parties : Parties PeerId
  peers : PeerId → List PeerId
  nodup_peers : ∀ i ∈ parties.nodes, (peers i).Nodup
  mem_peers : ∀ i ∈ parties.nodes, ∀ j, j ∈ peers i ↔ j ∈ parties.nodes ∧ j ≠ i

namespace Deployment

variable (D : Deployment)

/-- `len(peers) + 1`. -/
def N (i : PeerId) : Nat := (D.peers i).length + 1

/-- Every node computes the number of nodes of the system. -/
theorem N_eq {i : PeerId} (hi : i ∈ D.parties.nodes) : D.N i = D.parties.nodes.card := by
  have hset : (D.peers i).toFinset = D.parties.nodes.erase i := by
    ext j
    rw [List.mem_toFinset, D.mem_peers i hi, Finset.mem_erase, and_comm]
  have hcard := List.toFinset_card_of_nodup (D.nodup_peers i hi)
  rw [hset, Finset.card_erase_of_mem hi] at hcard
  have hpos : 0 < D.parties.nodes.card := Finset.card_pos.mpr ⟨i, hi⟩
  unfold N
  omega

theorem mem_nodes_of_correct {i : PeerId} (hi : i ∈ D.parties.correct) :
    i ∈ D.parties.nodes := Parties.mem_nodes.mpr (.inl hi)

/-- Where all nodes follow the protocol, all peers do. -/
theorem correct_of_mem_peers (hall : D.parties.byz = ∅) {i j : PeerId} (hi : i ∈ D.parties.correct)
    (hj : j ∈ D.peers i) : j ∈ D.parties.correct ∧ j ≠ i := by
  obtain ⟨hnode, hne⟩ := (D.mem_peers i (D.mem_nodes_of_correct hi) j).mp hj
  refine ⟨(Parties.mem_nodes.mp hnode).resolve_right fun hbyz => ?_, hne⟩
  rw [hall] at hbyz
  exact Finset.notMem_empty j hbyz

/-- A node has fewer peers than there are correct nodes then. -/
theorem length_peers_le (hall : D.parties.byz = ∅) {i : PeerId} (hi : i ∈ D.parties.correct) :
    (D.peers i).length ≤ D.parties.correct.card := by
  have hN := D.N_eq (D.mem_nodes_of_correct hi)
  rw [Parties.nodes, hall, Finset.union_empty, N] at hN
  omega

/-- A deployment in which every node lists the other nodes in one order. -/
def ofLists (correct byz : List PeerId) (h : (correct ++ byz).Nodup) : Deployment where
  parties :=
    { correct := correct.toFinset
      byz := byz.toFinset
      disjoint := by
        rw [Finset.disjoint_left]
        intro i hi hj
        exact (List.nodup_append.mp h).2.2 i (List.mem_toFinset.mp hi) i
          (List.mem_toFinset.mp hj) rfl }
  peers i := (correct ++ byz).filter (· ≠ i)
  nodup_peers i _ := h.filter _
  mem_peers i _ j := by
    rw [List.mem_filter, List.mem_append, Parties.mem_nodes, List.mem_toFinset,
      List.mem_toFinset, decide_eq_true_eq]

end Deployment

/-- Two or more nodes, none of them Byzantine. -/
structure Cluster extends Deployment where
  all_correct : parties.byz = ∅
  two_le_card : 2 ≤ parties.nodes.card

namespace Cluster

variable {C : Cluster} {i : PeerId}

@[simp] theorem mem_correct : i ∈ C.parties.correct ↔ i ∈ C.parties.nodes := by
  rw [Parties.mem_nodes, C.all_correct]
  simp

theorem not_mem_byz : i ∉ C.parties.byz := by
  rw [C.all_correct]
  exact Finset.notMem_empty i

theorem nodup_pair : (["a", "b"] ++ [] : List PeerId).Nodup := by decide

/-- The smallest cluster. -/
def pair : Cluster where
  toDeployment := .ofLists ["a", "b"] [] nodup_pair
  all_correct := rfl
  two_le_card := by decide

/-- Three nodes. -/
theorem nodup_trio : (["a", "b", "c"] ++ [] : List PeerId).Nodup := by decide

/-- Four nodes. -/
theorem nodup_four : (["a", "b", "c", "d"] ++ [] : List PeerId).Nodup := by decide

/-- Four nodes, the last of them Byzantine. -/
theorem nodup_threeAndOne : (["a", "b", "c"] ++ ["d"] : List PeerId).Nodup := by decide

end Cluster

end DistBench
