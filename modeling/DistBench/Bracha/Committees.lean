import DistBench.Bracha.Optimized
import DistBench.Lib.Ring

/-!
# The committees

Every node sorts the same ids, so all nodes agree on who is eligible: the ECHO
committee of a sender is the window of `⌈(N + f + 1) / 2⌉ + f` nodes after it on
the ring of ids, the READY committee the window of `3f + 1`. From `3f + 1` nodes
on neither window is longer than the ring, and one contains the other; a quorum of
either is left when `f` nodes fail (`Serves`).
-/

namespace DistBench.Bracha.Optimized

open DistBench.Async

variable (S : System)

/-- The nodes in the order of their ids. -/
def ring : List PeerId := S.parties.nodes.sort (· ≤ ·)

/-- The nodes that ECHO a message of `sender`. -/
def echoCommittee (sender : PeerId) : Finset PeerId :=
  window (ring S) ((ring S).idxOf sender) (readyThreshold S.parties.nodes.card S.f + S.f)

/-- The nodes that send a READY for a message of `sender`. -/
def readyCommittee (sender : PeerId) : Finset PeerId :=
  window (ring S) ((ring S).idxOf sender) (deliverThreshold S.f + S.f)

variable {S} {i s : PeerId}

theorem mem_ring : i ∈ ring S ↔ i ∈ S.parties.nodes := Finset.mem_sort _

theorem nodup_ring : (ring S).Nodup := Finset.sort_nodup _ _

@[simp] theorem length_ring : (ring S).length = S.parties.nodes.card := Finset.length_sort _

theorem sorted_ids (hi : i ∈ S.parties.nodes) :
    (i :: S.peers i).insertionSort (· ≤ ·) = ring S := by
  have hnodup : (i :: S.peers i).Nodup :=
    List.nodup_cons.mpr ⟨fun h => ((S.mem_peers i hi i).mp h).2 rfl, S.nodup_peers i hi⟩
  refine insertionSort_eq_sort hnodup fun j => ?_
  rw [List.mem_cons, S.mem_peers i hi]
  constructor
  · rintro (rfl | ⟨hj, -⟩)
    · exact hi
    · exact hj
  · intro hj
    by_cases hji : j = i
    · exact .inl hji
    · exact .inr ⟨hj, hji⟩

/-- The nodes agree on who is eligible. -/
theorem calculateEligibleNodes_eq (hi : i ∈ S.parties.nodes) (hs : s ∈ S.parties.nodes)
    (count : Nat) :
    calculateEligibleNodes S i s count = window (ring S) ((ring S).idxOf s) count := by
  simp only [calculateEligibleNodes, sorted_ids hi, idxOf?_of_mem (mem_ring.mpr hs)]
  rfl

theorem shouldGenerateEcho_iff (hi : i ∈ S.parties.nodes) (hs : s ∈ S.parties.nodes) :
    shouldGenerateEcho S i s = true ↔ i ∈ echoCommittee S s := by
  rw [shouldGenerateEcho, decide_eq_true_eq, calculateEligibleNodes_eq hi hs, S.N_eq hi]
  rfl

theorem shouldGenerateReady_iff (hi : i ∈ S.parties.nodes) (hs : s ∈ S.parties.nodes) :
    shouldGenerateReady S i s = true ↔ i ∈ readyCommittee S s := by
  rw [shouldGenerateReady, decide_eq_true_eq, calculateEligibleNodes_eq hi hs]
  rfl

theorem shouldGenerateEcho_false_iff (hi : i ∈ S.parties.nodes) (hs : s ∈ S.parties.nodes) :
    shouldGenerateEcho S i s = false ↔ i ∉ echoCommittee S s := by
  rw [← shouldGenerateEcho_iff hi hs, Bool.not_eq_true]

theorem mem_nodes_of_mem_echoCommittee (h : i ∈ echoCommittee S s) : i ∈ S.parties.nodes :=
  mem_ring.mp (mem_of_mem_window h)

theorem mem_nodes_of_mem_readyCommittee (h : i ∈ readyCommittee S s) : i ∈ S.parties.nodes :=
  mem_ring.mp (mem_of_mem_window h)

section Sizes

variable (hN : 3 * S.f + 1 ≤ S.parties.nodes.card)
include hN

theorem card_echoCommittee : (echoCommittee S s).card =
    readyThreshold S.parties.nodes.card S.f + S.f := by
  refine card_window nodup_ring ?_
  rw [length_ring]
  unfold readyThreshold
  omega

theorem card_readyCommittee : (readyCommittee S s).card = 3 * S.f + 1 := by
  rw [readyCommittee, card_window nodup_ring]
  · unfold deliverThreshold
    omega
  · rw [length_ring]
    unfold deliverThreshold
    omega

theorem readyCommittee_subset : readyCommittee S s ⊆ echoCommittee S s := by
  refine window_mono ?_
  unfold deliverThreshold readyThreshold
  omega

end Sizes

/-! ## What a committee is good for -/

/-- The committee of `quorum + f` nodes after the sender: all nodes compute it, it has that
many members, a quorum of them is left without any `f` nodes, and the sender is one of
them only if everybody is. -/
structure Serves (S : System) (s : PeerId) (quorum : Nat) (committee : Finset PeerId) : Prop where
  agree : ∀ i ∈ S.parties.nodes, calculateEligibleNodes S i s (quorum + S.f) = committee
  card : committee.card = quorum + S.f
  card_le : committee.card ≤ S.parties.nodes.card
  left : ∀ F : Finset PeerId, F.card ≤ S.f → quorum ≤ (committee \ F).card
  sender : s ∈ committee → committee = S.parties.nodes

theorem serves_window (hs : s ∈ S.parties.nodes) {quorum : Nat}
    (hq : quorum + S.f ≤ S.parties.nodes.card) :
    Serves S s quorum (window (ring S) ((ring S).idxOf s) (quorum + S.f)) := by
  have hcard : (window (ring S) ((ring S).idxOf s) (quorum + S.f)).card = quorum + S.f :=
    card_window nodup_ring (length_ring.symm ▸ hq)
  refine ⟨fun i hi => calculateEligibleNodes_eq hi hs _, hcard, hcard.trans_le hq,
    fun F hF => ?_, fun hmem => ?_⟩
  · have hsdiff := Finset.le_card_sdiff F (window (ring S) ((ring S).idxOf s) (quorum + S.f))
    omega
  · have hwhole := length_le_of_mem_window_self nodup_ring hmem
    rw [length_ring] at hwhole
    refine Finset.eq_of_subset_of_card_le (fun i hi => mem_ring.mp (mem_of_mem_window hi)) ?_
    rw [hcard]
    exact hwhole

/-- **The committees of a sender**: `⌈(N + f + 1) / 2⌉ + f` nodes for the ECHOs and
`3f + 1` for the READYs. -/
theorem committees_serve (hN : 3 * S.f + 1 ≤ S.parties.nodes.card) (hs : s ∈ S.parties.nodes) :
    Serves S s (readyThreshold S.parties.nodes.card S.f) (echoCommittee S s) ∧
    Serves S s (deliverThreshold S.f) (readyCommittee S s) ∧
    (echoCommittee S s).card = ⌈((S.parties.nodes.card + S.f + 1 : ℕ) : ℚ) / 2⌉₊ + S.f ∧
    (readyCommittee S s).card = 3 * S.f + 1 ∧
    ∀ i ∈ S.parties.nodes, S.N i = S.parties.nodes.card ∧
      (shouldGenerateEcho S i s = true ↔ i ∈ echoCommittee S s) ∧
      (shouldGenerateReady S i s = true ↔ i ∈ readyCommittee S s) := by
  refine ⟨serves_window hs ?_, serves_window hs ?_, ?_, card_readyCommittee hN, fun i hi =>
    ⟨S.N_eq hi, shouldGenerateEcho_iff hi hs, shouldGenerateReady_iff hi hs⟩⟩
  · unfold readyThreshold
    omega
  · unfold deliverThreshold
    omega
  · rw [card_echoCommittee hN, readyThreshold_eq_ceil]

theorem nodup_six : (["a", "b", "c", "d", "e", "f"] ++ [] : List PeerId).Nodup := by decide

/-- Six nodes, where neither committee is the whole system. -/
def sixInRing : System where
  toDeployment := .ofLists ["a", "b", "c", "d", "e", "f"] [] nodup_six
  f := 1
  isSender i := i = "e"
  enableEchoAmplification := true
  enableSingleHopSend := false
  enableReducedMessages := true
  admissible _ := rfl
  numMessages := 1
  uuid i _ := i
  neighbours i := ({"a", "b", "c", "d", "e", "f"} : Finset PeerId).erase i

/-- The committees of `e` go around the end of the ring. -/
theorem committees_serve_sixInRing : Serves sixInRing "e" 4 {"f", "a", "b", "c", "d"} ∧
    Serves sixInRing "e" 3 {"f", "a", "b", "c"} := by
  obtain ⟨hecho, hready, -⟩ := committees_serve (S := sixInRing) (s := "e") (by decide) (by decide)
  have hechoers : echoCommittee sixInRing "e" = {"f", "a", "b", "c", "d"} :=
    (hecho.agree "a" (by decide)).symm.trans (by decide)
  have hreadiers : readyCommittee sixInRing "e" = {"f", "a", "b", "c"} :=
    (hready.agree "a" (by decide)).symm.trans (by decide)
  rw [hechoers] at hecho
  rw [hreadiers] at hready
  exact ⟨hecho, hready⟩

end DistBench.Bracha.Optimized
