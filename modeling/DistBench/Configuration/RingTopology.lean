import DistBench.Lib.Dict
import DistBench.Lib.Ring

/-!
# Generated ring topologies (scripts/generate_configs.py:86–99)

Every node gets the nodes at the offsets `1, …, k // 2` on both sides of it as neighbours, and
for an odd `k` the one at the offset `k // 2 + 1`, on one side only. `generate_config` asks for
the odd `k = 2 * f + 1`.

- `nodeNeighbours`, `generateRingTopology`: the code. The names go through a `set`, which
  lists them in an order of its own.
- `Usable`: a topology in which every node has `k` neighbours, and all of them have it.
- `usable_iff`: the topology is usable exactly when `k` is even, or all nodes are neighbours.
-/

namespace DistBench.Configuration

/-- `f"n{i}"`. -/
def nodeName (i : Int) : String := "n" ++ toString i

/-- The order in which `list(set(names))` lists the names. -/
structure SetOrder where
  list : List String → List String
  nodup : ∀ names, (list names).Nodup
  mem_list : ∀ names name, name ∈ list names ↔ name ∈ names

/-- The names in the order in which they were put in last. -/
def SetOrder.ofInsertion : SetOrder where
  list names := names.dedup
  nodup := List.nodup_dedup
  mem_list _ _ := List.mem_dedup

/-- `node_neighbours` of node `i` after the inner loop. -/
def nodeNeighbours (n k i : Nat) : List String :=
  (List.range' 1 k).flatMap fun j =>
    if j ≤ k / 2 then [nodeName ((i + j : Int) % n), nodeName ((i - j : Int) % n)]
    else if k % 2 = 1 ∧ j = k / 2 + 1 then [nodeName ((i + j : Int) % n)]
    else []

/-- `generate_ring_topology`. -/
def generateRingTopology (order : SetOrder) (n k : Nat) : Dict String (List String) :=
  (List.range n).foldl (fun neighbours (i : Nat) =>
    AList.insert (nodeName i) ((order.list (nodeNeighbours n k i)).take k) neighbours) ∅

/-- Every node has `k` neighbours other than itself, and is one of their neighbours. -/
structure Usable (topology : Dict String (List String)) (n k : Nat) : Prop where
  length : ∀ i < n, (topology.get (nodeName i) []).length = k
  nodup : ∀ i < n, (topology.get (nodeName i) []).Nodup
  notMem_self : ∀ i < n, nodeName i ∉ topology.get (nodeName i) []
  symm : ∀ i < n, ∀ j < n, nodeName j ∈ topology.get (nodeName i) [] ↔
    nodeName i ∈ topology.get (nodeName j) []

variable {order : SetOrder} {n k i j : Nat} {name : String}

theorem nodeName_injective : Function.Injective nodeName := fun _ _ h =>
  Int.repr_inj.mp ((String.append_right_inj _).mp h)

theorem nodeName_natCast_injective : Function.Injective fun i : Nat => nodeName i :=
  nodeName_injective.comp Int.ofNat_injective

/-! ## Offsets -/

/-- The offsets of the neighbours of a node. -/
noncomputable def offsets (k : Nat) : Finset Int :=
  (Finset.Icc (-((k / 2 : Nat) : Int)) ((k + 1) / 2 : Nat)).erase 0

theorem mem_offsets {d : Int} :
    d ∈ offsets k ↔ d ≠ 0 ∧ -((k / 2 : Nat) : Int) ≤ d ∧ d ≤ ((k + 1) / 2 : Nat) := by
  rw [offsets, Finset.mem_erase, Finset.mem_Icc]

theorem card_offsets : (offsets k).card = k := by
  have hzero : (0 : Int) ∈ Finset.Icc (-((k / 2 : Nat) : Int)) ((k + 1) / 2 : Nat) :=
    Finset.mem_Icc.mpr ⟨by omega, by omega⟩
  rw [offsets, Finset.card_erase_of_mem hzero, Int.card_Icc]
  omega

/-- The offsets are fewer than `n` consecutive numbers. -/
theorem injOn_offsets (hn : k < n) (i : Int) :
    Set.InjOn (fun d => (i + d) % n) (insert 0 (offsets k) : Finset Int) := by
  have hlength : ((k + 1) / 2 : Nat) - -((k / 2 : Nat) : Int) < n := by omega
  refine (injOn_add_emod hlength i).mono ?_
  intro d hd
  rcases Finset.mem_insert.mp hd with rfl | hd
  · exact ⟨by omega, by omega⟩
  · exact (mem_offsets.mp hd).2

theorem mem_nodeNeighbours :
    name ∈ nodeNeighbours n k i ↔ ∃ d ∈ offsets k, nodeName ((i + d) % n) = name := by
  simp only [nodeNeighbours, List.mem_flatMap, List.mem_range'_1]
  constructor
  · rintro ⟨j, hj, hname⟩
    split at hname
    · rcases List.mem_cons.mp hname with rfl | hname
      · exact ⟨j, mem_offsets.mpr (by omega), rfl⟩
      · obtain rfl := List.mem_singleton.mp hname
        exact ⟨-j, mem_offsets.mpr (by omega), rfl⟩
    · split at hname
      · obtain rfl := List.mem_singleton.mp hname
        exact ⟨j, mem_offsets.mpr (by omega), rfl⟩
      · exact absurd hname List.not_mem_nil
  · rintro ⟨d, hd, rfl⟩
    obtain ⟨hne, hlo, hhi⟩ := mem_offsets.mp hd
    refine ⟨d.natAbs, by omega, ?_⟩
    split
    · rcases Int.natAbs_eq d with hd | hd
      · rw [← hd]
        exact List.mem_cons_self
      · refine List.mem_cons_of_mem _ (List.mem_singleton.mpr ?_)
        rw [sub_eq_add_neg, ← hd]
    · rw [if_pos (by omega), Int.natAbs_of_nonneg (by omega)]
      exact List.mem_cons_self

/-! ## The neighbours of a node -/

/-- There are `k` names, so that nothing is cut off. -/
theorem length_list (hn : k < n) : (order.list (nodeNeighbours n k i)).length = k := by
  have hset : (order.list (nodeNeighbours n k i)).toFinset =
      (offsets k).image fun d => nodeName ((i + d) % n) := by
    ext name
    rw [List.mem_toFinset, order.mem_list, mem_nodeNeighbours, Finset.mem_image]
  rw [← List.toFinset_card_of_nodup (order.nodup _), hset, Finset.card_image_of_injOn, card_offsets]
  exact nodeName_injective.comp_injOn ((injOn_offsets hn i).mono (Finset.subset_insert _ _))

theorem get_generateRingTopology (hn : k < n) (hi : i < n) :
    (generateRingTopology order n k).get (nodeName i) [] = order.list (nodeNeighbours n k i) := by
  rw [generateRingTopology, Dict.get_foldl_insert _ nodeName_natCast_injective,
    if_pos (List.mem_range.mpr hi), List.take_of_length_le (length_list hn).le]

theorem mem_generateRingTopology (hn : k < n) (hi : i < n) :
    nodeName j ∈ (generateRingTopology order n k).get (nodeName i) [] ↔
      Reaches n (offsets k) i j := by
  rw [get_generateRingTopology hn hi, order.mem_list, mem_nodeNeighbours]
  exact exists_congr fun d => and_congr_right fun _ => nodeName_injective.eq_iff

theorem not_reaches_self (hn : k < n) (hi : i < n) : ¬ Reaches n (offsets k) i i := by
  rintro ⟨d, hd, heq⟩
  have hsame : (i + d) % (n : Int) = (i + 0) % n := by
    rw [heq, add_zero, Int.emod_eq_of_lt (by omega) (by omega)]
  have hzero := injOn_offsets hn i (Finset.mem_insert_of_mem hd) (Finset.mem_insert_self _ _) hsame
  exact (mem_offsets.mp hd).1 hzero

/-- Every offset has its opposite when there is none on one side only, or when that one leads
to the node on the other side of the ring. -/
theorem opposite_iff (hk : 1 ≤ k) (hn : k < n) :
    (∀ d ∈ offsets k, ∃ d' ∈ offsets k, (n : Int) ∣ d + d') ↔ k % 2 = 0 ∨ n = k + 1 := by
  constructor
  · intro h
    by_contra! hodd
    obtain ⟨d', hd', hdvd⟩ := h ((k + 1) / 2 : Nat) (mem_offsets.mpr (by omega))
    have hd' := mem_offsets.mp hd'
    have hle := Int.le_of_dvd (by omega) hdvd
    omega
  · intro h d hd
    have hd := mem_offsets.mp hd
    by_cases hlast : d ≤ (k / 2 : Nat)
    · exact ⟨-d, mem_offsets.mpr (by omega), by simp⟩
    · refine ⟨d, mem_offsets.mpr hd, ?_⟩
      rw [show d + d = n by omega]

/-- For an even number of neighbours the topology is usable; for an odd one only where every
node is a neighbour of every other. -/
theorem usable_iff (hk : 1 ≤ k) (hn : k < n) :
    Usable (generateRingTopology order n k) n k ↔ k % 2 = 0 ∨ n = k + 1 := by
  rw [← opposite_iff hk hn, ← reaches_symm_iff (by omega)]
  constructor
  · intro h i ⟨hi, hin⟩ j ⟨hj, hjn⟩ hreach
    lift i to Nat using hi
    lift j to Nat using hj
    have hi : i < n := by omega
    have hj : j < n := by omega
    have hmem : nodeName j ∈ (generateRingTopology order n k).get (nodeName i) [] :=
      (mem_generateRingTopology hn hi).mpr hreach
    exact (mem_generateRingTopology hn hj).mp ((h.symm i hi j hj).mp hmem)
  · intro h
    have hback (i : Nat) (hi : i < n) (j : Nat) (hj : j < n) (hreach : Reaches n (offsets k) i j) :
        Reaches n (offsets k) j i :=
      h i ⟨by omega, by omega⟩ j ⟨by omega, by omega⟩ hreach
    refine ⟨fun i hi => ?_, fun i hi => ?_, fun i hi => ?_, fun i hi j hj => ?_⟩
    · rw [get_generateRingTopology hn hi]
      exact length_list hn
    · rw [get_generateRingTopology hn hi]
      exact order.nodup _
    · rw [mem_generateRingTopology hn hi]
      exact not_reaches_self hn hi
    · rw [mem_generateRingTopology hn hi, mem_generateRingTopology hn hj]
      exact ⟨hback i hi j hj, hback j hj i hi⟩

theorem usable_iff_five : Usable (generateRingTopology .ofInsertion 5 2) 5 2 ∧
    ¬ Usable (generateRingTopology .ofInsertion 5 3) 5 3 :=
  ⟨(usable_iff (by decide) (by decide)).mpr (by decide),
    fun h => absurd ((usable_iff (by decide) (by decide)).mp h) (by decide)⟩

/-- Of five nodes with three neighbours each, `n2` is a neighbour of `n0`, but not the other
way around. -/
theorem ring_oneSided : ¬ ∀ order n k, 1 ≤ k → k < n →
    Usable (generateRingTopology order n k) n k := by
  intro h
  have husable := h .ofInsertion 5 3 (by decide) (by decide)
  have hthere : nodeName (2 : Nat) ∈
      (generateRingTopology .ofInsertion 5 3).get (nodeName (0 : Nat)) [] := by decide
  have hback : nodeName (0 : Nat) ∉
      (generateRingTopology .ofInsertion 5 3).get (nodeName (2 : Nat)) [] := by decide
  exact hback ((husable.symm 0 (by decide) 2 (by decide)).mp hthere)

end DistBench.Configuration
