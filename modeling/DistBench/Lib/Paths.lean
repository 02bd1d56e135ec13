import Mathlib

/-!
# Paths in undirected graphs

A graph is the list of its edges. A path from `s` to `t` is the list of the
vertices between them, so that two paths are internally disjoint when the lists
are, and the edge from `s` to `t` is the path `[]`.

- `IsPath`, `IsPacking`: paths, and families of internally disjoint ones.
- `connectivity`: the size of a largest family, computed by going through all
  simple paths (`connectivity_isGreatest`).
- `Uncut`: what a family of received paths has to satisfy so that no `f` vertices
  can have made up all of it.
- `VertexConnected`: what is left of a graph when fewer than `k` vertices go is
  connected.
-/

namespace DistBench.Paths

variable {α : Type} [DecidableEq α]

/-! ## Paths and families of disjoint paths -/

/-- The edge between `u` and `v`, in either direction. -/
def Linked (G : List (α × α)) (u v : α) : Prop := (u, v) ∈ G ∨ (v, u) ∈ G

instance (G : List (α × α)) (u v : α) : Decidable (Linked G u v) :=
  inferInstanceAs (Decidable (_ ∨ _))

/-- `p` lists the inner vertices of a simple path from `s` to `t`. -/
structure IsPath (G : List (α × α)) (s t : α) (p : List α) : Prop where
  chain : (s :: (p ++ [t])).IsChain (Linked G)
  nodup : (s :: (p ++ [t])).Nodup

/-- A family of internally disjoint paths. -/
structure IsPacking (G : List (α × α)) (s t : α) (F : Finset (List α)) : Prop where
  isPath : ∀ p ∈ F, IsPath G s t p
  disjoint : ∀ p ∈ F, ∀ q ∈ F, p ≠ q → List.Disjoint p q

omit [DecidableEq α] in
/-- What is a family of disjoint paths is one in a larger graph. -/
theorem IsPacking.mono {G G' : List (α × α)} {s t : α} {F : Finset (List α)}
    (h : IsPacking G s t F) (hsub : G ⊆ G') : IsPacking G' s t F where
  isPath p hp :=
    { chain := (h.isPath p hp).chain.imp fun _ _ => Or.imp (fun h => hsub h) (fun h => hsub h)
      nodup := (h.isPath p hp).nodup }
  disjoint := h.disjoint

/-- The end points of the edges. -/
def vertices (G : List (α × α)) : List α := (G.flatMap fun e => [e.1, e.2]).dedup

theorem Linked.mem_vertices {G : List (α × α)} {u v : α} (h : Linked G u v) :
    v ∈ vertices G := by
  rw [vertices, List.mem_dedup, List.mem_flatMap]
  rcases h with h | h
  · exact ⟨(u, v), h, by simp⟩
  · exact ⟨(v, u), h, by simp⟩

/-- The inner vertices of the simple paths from `u` to `t` with fewer than `fuel`
inner vertices, none of them in `seen`. -/
def simplePaths (G : List (α × α)) (t : α) : Nat → α → List α → List (List α)
  | 0, _, _ => []
  | fuel + 1, u, seen =>
    (if Linked G u t then [[]] else []) ++
      ((vertices G).filter fun v => Linked G u v ∧ v ≠ t ∧ v ∉ seen).flatMap fun v =>
        (simplePaths G t fuel v (v :: seen)).map (v :: ·)

theorem mem_simplePaths {G : List (α × α)} {t : α} :
    ∀ {fuel : Nat} {u : α} {seen p : List α}, p ∈ simplePaths G t fuel u seen ↔
      (u :: (p ++ [t])).IsChain (Linked G) ∧ p.Nodup ∧ (∀ x ∈ p, x ≠ t ∧ x ∉ seen) ∧
        p.length < fuel := by
  intro fuel
  induction fuel with
  | zero => simp [simplePaths]
  | succ fuel ih =>
    intro u seen p
    cases p with
    | nil => by_cases h : Linked G u t <;> simp [simplePaths, h]
    | cons v p =>
      -- the first vertex is a neighbour that has not been seen, the rest a path from it
      have hhead : v :: p ∈ simplePaths G t (fuel + 1) u seen ↔
          (Linked G u v ∧ v ≠ t ∧ v ∉ seen) ∧ p ∈ simplePaths G t fuel v (v :: seen) := by
        simp only [simplePaths, List.mem_append, List.mem_flatMap, List.mem_filter,
          decide_eq_true_eq, List.mem_map]
        constructor
        · rintro (h | ⟨w, ⟨-, hw⟩, q, hq, hqp⟩)
          · split at h <;> simp at h
          · obtain ⟨rfl, rfl⟩ := List.cons.inj hqp
            exact ⟨hw, hq⟩
        · rintro ⟨hv, hp⟩
          exact .inr ⟨v, ⟨hv.1.mem_vertices, hv⟩, p, hp, rfl⟩
      rw [hhead, ih]
      simp only [List.cons_append, List.isChain_cons_cons, List.nodup_cons, List.mem_cons,
        List.length_cons, not_or, forall_eq_or_imp]
      constructor
      · rintro ⟨⟨hu, hvt, hvs⟩, hchain, hnd, hp, hlen⟩
        exact ⟨⟨hu, hchain⟩, ⟨fun hv => (hp v hv).2.1 rfl, hnd⟩,
          ⟨⟨hvt, hvs⟩, fun x hx => ⟨(hp x hx).1, (hp x hx).2.2⟩⟩, by omega⟩
      · rintro ⟨⟨hu, hchain⟩, ⟨hvp, hnd⟩, ⟨⟨hvt, hvs⟩, hp⟩, hlen⟩
        exact ⟨⟨hu, hvt, hvs⟩, hchain, hnd,
          fun x hx => ⟨(hp x hx).1, fun hxv => hvp (hxv ▸ hx), (hp x hx).2⟩, by omega⟩

/-- The inner vertices of all simple paths between two vertices. -/
def allPaths (G : List (α × α)) (s t : α) : List (List α) :=
  (simplePaths G t ((vertices G).length + 1) s [s]).dedup

/-- The vertices after the first one of a chain of edges are vertices of the graph. -/
theorem mem_vertices_of_isChain {G : List (α × α)} :
    ∀ {u : α} {p : List α}, (u :: p).IsChain (Linked G) → ∀ x ∈ p, x ∈ vertices G := by
  intro u p
  induction p generalizing u with
  | nil => simp
  | cons v p ih =>
    intro h x hx
    rw [List.isChain_cons_cons] at h
    rcases List.mem_cons.mp hx with rfl | hx
    · exact h.1.mem_vertices
    · exact ih h.2 x hx

/-- `allPaths` lists the paths. -/
theorem mem_allPaths {G : List (α × α)} {s t : α} {p : List α} (hst : s ≠ t) :
    p ∈ allPaths G s t ↔ IsPath G s t p := by
  rw [allPaths, List.mem_dedup, mem_simplePaths]
  have hnodup : (s :: (p ++ [t])).Nodup ↔ p.Nodup ∧ ∀ x ∈ p, x ≠ t ∧ x ∉ [s] := by
    simp only [List.nodup_cons, List.mem_append, List.mem_singleton, not_or, List.nodup_append]
    constructor
    · rintro ⟨⟨hs, -⟩, hnd, -, ht⟩
      exact ⟨hnd, fun x hx => ⟨ht x hx t rfl, fun hxs => hs (hxs ▸ hx)⟩⟩
    · rintro ⟨hnd, hp⟩
      refine ⟨⟨fun hs => (hp s hs).2 rfl, hst⟩, hnd, by simp, ?_⟩
      rintro x hx y rfl
      exact (hp x hx).1
  constructor
  · rintro ⟨hchain, hnd, hp, -⟩
    exact ⟨hchain, hnodup.mpr ⟨hnd, hp⟩⟩
  · rintro ⟨hchain, hnd⟩
    obtain ⟨hnd, hp⟩ := hnodup.mp hnd
    have hsub : p ⊆ vertices G := fun x hx =>
      mem_vertices_of_isChain hchain x (List.mem_append_left _ hx)
    exact ⟨hchain, hnd, hp, Nat.lt_succ_of_le (hnd.subperm hsub).length_le⟩

/-- The size of a largest disjoint subfamily that avoids `used`. -/
def largestPacking : List (List α) → List α → Nat
  | [], _ => 0
  | p :: ps, used =>
    max (largestPacking ps used)
      (if ∀ x ∈ p, x ∉ used then largestPacking ps (p ++ used) + 1 else 0)

/-- No disjoint subfamily is larger … -/
theorem card_le_largestPacking {L : List (List α)} :
    ∀ {used : List α} {F : Finset (List α)}, (∀ p ∈ F, p ∈ L) →
      (∀ p ∈ F, ∀ q ∈ F, p ≠ q → List.Disjoint p q) → (∀ p ∈ F, List.Disjoint p used) →
      F.card ≤ largestPacking L used := by
  induction L with
  | nil =>
    intro used F hF _ _
    have hempty : F = ∅ := Finset.eq_empty_of_forall_notMem fun p hp => by simpa using hF p hp
    simp [hempty]
  | cons p L ih =>
    intro used F hF hdisj hused
    rw [largestPacking]
    -- a family with `p` in it is `p` and a family that avoids it
    by_cases hp : p ∈ F
    · have hle : (F.erase p).card ≤ largestPacking L (p ++ used) := by
        refine ih (fun q hq => ?_) (fun q hq r hr => ?_) (fun q hq => ?_)
        all_goals rw [Finset.mem_erase] at hq
        · exact (List.mem_cons.mp (hF q hq.2)).resolve_left hq.1
        · exact hdisj q hq.2 r (Finset.mem_of_mem_erase hr)
        · exact List.disjoint_append_right.mpr ⟨hdisj q hq.2 p hp hq.1, hused q hq.2⟩
      rw [if_pos fun x hx => hused p hp hx, ← Finset.card_erase_add_one hp]
      exact le_max_of_le_right (Nat.add_le_add_right hle 1)
    · refine le_max_of_le_left (ih (fun q hq => ?_) hdisj hused)
      exact (List.mem_cons.mp (hF q hq)).resolve_left fun h => hp (h ▸ hq)

/-- … and there is one of this size. -/
theorem exists_largestPacking {L : List (List α)} :
    ∀ used : List α, L.Nodup → ∃ F : Finset (List α), (∀ p ∈ F, p ∈ L) ∧
      (∀ p ∈ F, ∀ q ∈ F, p ≠ q → List.Disjoint p q) ∧ (∀ p ∈ F, List.Disjoint p used) ∧
      F.card = largestPacking L used := by
  induction L with
  | nil => exact fun _ _ => ⟨∅, by simp, by simp, by simp, rfl⟩
  | cons p L ih =>
    intro used hnd
    obtain ⟨hpL, hL⟩ := List.nodup_cons.mp hnd
    obtain ⟨F, hF, hdisj, hused, hcard⟩ := ih used hL
    obtain ⟨F', hF', hdisj', hused', hcard'⟩ := ih (p ++ used) hL
    rw [largestPacking]
    by_cases hp : List.Disjoint p used ∧ largestPacking L used ≤ largestPacking L (p ++ used) + 1
    · -- take `p` and the best family that avoids it
      refine ⟨insert p F', ?_, ?_, ?_, ?_⟩
      · simpa using fun q hq => .inr (hF' q hq)
      · have hpF : ∀ q ∈ F', List.Disjoint q p := fun q hq =>
          (List.disjoint_append_right.mp (hused' q hq)).1
        intro q hq r hr hqr
        rcases Finset.mem_insert.mp hq with rfl | hqF <;>
          rcases Finset.mem_insert.mp hr with rfl | hrF
        · exact absurd rfl hqr
        · exact (hpF r hrF).symm
        · exact hpF q hqF
        · exact hdisj' q hqF r hrF hqr
      · intro q hq
        rcases Finset.mem_insert.mp hq with rfl | hqF
        · exact hp.1
        · exact (List.disjoint_append_right.mp (hused' q hqF)).2
      · rw [Finset.card_insert_of_notMem fun h => hpL (hF' p h), hcard', if_pos fun x hx => hp.1 hx,
          max_eq_right hp.2]
    · refine ⟨F, fun q hq => List.mem_cons_of_mem _ (hF q hq), hdisj, hused, ?_⟩
      rw [hcard, max_eq_left]
      split
      · next hd =>
        rw [not_and] at hp
        exact (not_le.mp (hp fun x hx => hd x hx)).le
      · exact Nat.zero_le _

/-- The number of internally disjoint paths between two vertices. -/
def connectivity (G : List (α × α)) (s t : α) : Nat := largestPacking (allPaths G s t) []

theorem connectivity_isGreatest {G : List (α × α)} {s t : α} (hst : s ≠ t) :
    IsGreatest {k | ∃ F, IsPacking G s t F ∧ F.card = k} (connectivity G s t) := by
  constructor
  · obtain ⟨F, hF, hdisj, -, hcard⟩ :=
      exists_largestPacking [] (List.nodup_dedup (simplePaths G t _ s [s]))
    exact ⟨F, ⟨fun p hp => (mem_allPaths hst).mp (hF p hp), hdisj⟩, hcard⟩
  · rintro k ⟨F, hF, rfl⟩
    exact card_le_largestPacking (fun p hp => (mem_allPaths hst).mpr (hF.isPath p hp))
      hF.disjoint fun p _ => List.disjoint_nil_right p

/-- Whether there is a path between two vertices. -/
def connected (G : List (α × α)) (s t : α) : Bool := decide (allPaths G s t ≠ [])

theorem connected_iff {G : List (α × α)} {s t : α} (hst : s ≠ t) :
    connected G s t = true ↔ ∃ p, IsPath G s t p := by
  rw [connected, decide_eq_true_eq]
  constructor
  · intro h
    obtain ⟨p, hp⟩ := List.exists_mem_of_ne_nil _ h
    exact ⟨p, (mem_allPaths hst).mp hp⟩
  · rintro ⟨p, hp⟩
    exact List.ne_nil_of_mem ((mem_allPaths hst).mpr hp)

/-! ## Families no few vertices lie on -/

/-- No `f` of the vertices, `s` and `t` apart, lie on all of the paths. -/
def Uncut (f : Nat) (nodes : Finset α) (s t : α) (paths : List (List α)) : Prop :=
  ∀ B ∈ nodes.powerset, B.card ≤ f → s ∉ B → t ∉ B → ∃ p ∈ paths, ∀ x ∈ p, x ∉ B

instance (f : Nat) (nodes : Finset α) (s t : α) (paths : List (List α)) :
    Decidable (Uncut f nodes s t paths) :=
  inferInstanceAs (Decidable (∀ B ∈ nodes.powerset, _))

/-! ## Connectivity of a whole graph -/

/-- The steps of `R` that stay within `A`. -/
def Within (A : Finset α) (R : α → α → Prop) (u v : α) : Prop := u ∈ A ∧ v ∈ A ∧ R u v

/-- There are more than `k` vertices, and without fewer than `k` of them the graph
is connected. -/
structure VertexConnected (k : Nat) (A : Finset α) (R : α → α → Prop) : Prop where
  card : k < A.card
  connected : ∀ B ⊆ A, B.card < k → ∀ u ∈ A \ B, ∀ v ∈ A \ B,
    Relation.ReflTransGen (Within (A \ B) R) u v

/-- What a vertex that is left has and neighbours pass on, all that are left have. -/
theorem VertexConnected.spread {k : Nat} {A B : Finset α} {R : α → α → Prop}
    (h : VertexConnected k A R) (hB : B ⊆ A) (hcard : B.card < k) {P : α → Prop}
    {u : α} (hu : u ∈ A \ B) (hPu : P u)
    (hstep : ∀ x y, x ∈ A \ B → y ∈ A \ B → R x y → P x → P y) :
    ∀ v ∈ A \ B, P v := by
  intro v hv
  induction h.connected B hB hcard u hu v hv with
  | refl => exact hPu
  | tail _ hxy ih => exact hstep _ _ hxy.1 hxy.2.1 hxy.2.2 (ih hxy.1)

/-- Any two vertices are adjacent or have `k` neighbours in common. -/
theorem vertexConnected_of_common {k : Nat} {A : Finset α} {R : α → α → Prop} [DecidableRel R]
    (hcard : k < A.card) (hcommon : ∀ u ∈ A, ∀ v ∈ A, u ≠ v →
      R u v ∨ k ≤ (A.filter fun w => R u w ∧ R w v).card) : VertexConnected k A R where
  card := hcard
  connected B _ hB u hu v hv := by
    by_cases huv : u = v
    · rw [huv]
    rcases hcommon u (Finset.mem_sdiff.mp hu).1 v (Finset.mem_sdiff.mp hv).1 huv with h | h
    · exact .single ⟨hu, hv, h⟩
    · obtain ⟨w, hw, hwB⟩ := Finset.exists_mem_notMem_of_card_lt_card (hB.trans_le h)
      obtain ⟨hwA, huw, hwv⟩ := Finset.mem_filter.mp hw
      have hw' : w ∈ A \ B := Finset.mem_sdiff.mpr ⟨hwA, hwB⟩
      exact .tail (.single ⟨hu, hw', huw⟩) ⟨hw', hv, hwv⟩

end DistBench.Paths
