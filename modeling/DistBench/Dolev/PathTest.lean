import DistBench.Dolev.Integrity
import DistBench.Dolev.Naive
import DistBench.Lib.Menger

/-!
# What the test of the paths finds out

`distPaths` of `dolev.py` asks for `f + 1` disjoint routes along the edges of the recorded
paths, `distPaths` of `dolev_naive.py` looks for `f + 1` disjoint ones among the recorded
paths themselves. The first is not what the second approximates: a route may take its edges
from several paths, and there can be `f + 1` disjoint routes where any two paths have a node
in common.

- `distPaths_iff`: what the test of `dolev.py` decides.
- `distPaths_sound_iff`: the lists for which it can be trusted. Either the list has `f + 1`
  disjoint paths, or at most `f` nodes cut the routes off; by Menger's theorem
  there are no others.
- `distPaths_of_naive`: it accepts what the greedy search accepts, and goes on accepting when
  more paths are recorded.
-/

namespace DistBench.Dolev

open DistBench.Paths
open DistBench.DolevNaive (internal choose)

variable {V : Type} {N : Network V} {self source : PeerId} {paths paths' : List (List PeerId)}
  {path : List PeerId} {k : Nat}

/-! ## The graph of the recorded paths -/

/-- The list has `k` paths no two of which share a node besides the source and the node
itself. -/
def DisjointPaths (k : Nat) (self source : PeerId) (paths : List (List PeerId)) : Prop :=
  ∃ L : List (List PeerId), L.Sublist paths ∧ L.length = k ∧
    L.Pairwise fun p q => Disjoint (internal self source p) (internal self source q)

theorem edges_subset (h : paths ⊆ paths') :
    Network.edges self source paths ⊆ Network.edges self source paths' := by
  intro e he
  obtain ⟨path, hpath, he⟩ := List.mem_flatMap.mp he
  exact List.mem_flatMap.mpr ⟨path, h hpath, he⟩

/-- Consecutive members of a list. -/
theorem isChain_zip_tail {α : Type} (l : List α) : l.IsChain fun u v => (u, v) ∈ l.zip l.tail := by
  induction l with
  | nil => exact .nil
  | cons a l ih =>
    cases l with
    | nil => exact .singleton a
    | cons b l =>
      refine .cons_cons List.mem_cons_self (ih.imp fun u v h => ?_)
      exact List.mem_cons_of_mem _ h

/-- A recorded path is a chain of the edges it adds. -/
theorem isChain_edges (h : path ∈ paths) :
    (source :: path ++ [self]).IsChain (Linked (Network.edges self source paths)) :=
  (isChain_zip_tail _).imp fun _ _ he => .inl (List.mem_flatMap.mpr ⟨path, h, he⟩)

/-- A path as the handlers record them: it visits no node twice and not the node itself, and
the source at most first. -/
structure Recorded (i source : PeerId) (path : List PeerId) : Prop where
  nodup : path.Nodup
  notMem : i ∉ path
  sourceFirst : source ∉ path.tail

/-- Without the source as its first entry, such a path is a path of the graph. -/
theorem isPath_of_recorded (h : path ∈ paths) (hst : source ≠ self)
    (hpath : Recorded self source path) :
    ∃ p, IsPath (Network.edges self source paths) source self p ∧
      ∀ x, x ∈ p ↔ x ∈ internal self source path := by
  obtain ⟨hnodup, hself, hsource⟩ := hpath
  have hchain : (source :: path ++ [self]).IsChain (Linked (Network.edges self source paths)) :=
    isChain_edges h
  have hends {p : List PeerId} (hp : p.Nodup) (hself : self ∉ p) (hsource : source ∉ p) :
      (source :: (p ++ [self])).Nodup := by
    refine List.nodup_cons.mpr ⟨?_, List.nodup_append.mpr ⟨hp, by simp, ?_⟩⟩
    · simpa using ⟨hsource, hst⟩
    · rintro x hx y hy rfl
      obtain rfl := List.mem_singleton.mp hy
      exact hself hx
  cases path with
  | nil => exact ⟨[], ⟨hchain, hends hnodup hself List.not_mem_nil⟩, by simp [internal]⟩
  | cons a p =>
    rw [List.mem_cons, not_or] at hself
    rw [List.tail_cons] at hsource
    by_cases ha : a = source
    · subst ha
      refine ⟨p, ⟨hchain.tail, hends (List.nodup_cons.mp hnodup).2 hself.2 hsource⟩, fun x => ?_⟩
      have hx : x ∈ p → x ≠ self ∧ x ≠ a :=
        fun hx => ⟨fun h => hself.2 (h ▸ hx), fun h => hsource (h ▸ hx)⟩
      simp only [internal, Finset.mem_erase, List.mem_toFinset, List.mem_cons]
      tauto
    · have hsource' : source ∉ a :: p := by simpa [Ne.symm ha] using hsource
      have hself' : self ∉ a :: p := by simpa using hself
      refine ⟨a :: p, ⟨hchain, hends hnodup hself' hsource'⟩, fun x => ?_⟩
      have hx : x ∈ a :: p → x ≠ self ∧ x ≠ source :=
        fun hx => ⟨fun h => hself' (h ▸ hx), fun h => hsource' (h ▸ hx)⟩
      simp only [internal, Finset.mem_erase, List.mem_toFinset]
      tauto

/-! ## The test -/

/-- The test decides whether there are `f + 1` disjoint routes. -/
theorem distPaths_iff (hnx : N.nx.Exact) (hst : source ≠ self) :
    N.distPaths self paths source = true ↔
      ∃ F, IsPacking (Network.edges self source paths) source self F ∧ N.f + 1 ≤ F.card := by
  obtain ⟨⟨F₀, hF₀, hcard₀⟩, hmax⟩ :=
    hnx.nodeConnectivity (Network.edges self source paths) source self hst
  have hpath : (∃ F, IsPacking (Network.edges self source paths) source self F ∧
      N.f + 1 ≤ F.card) → ∃ p, IsPath (Network.edges self source paths) source self p := by
    rintro ⟨F, hF, hcard⟩
    obtain ⟨p, hp⟩ := Finset.card_pos.mp (by omega : 0 < F.card)
    exact ⟨p, hF.isPath p hp⟩
  unfold Network.distPaths
  dsimp only
  split
  · next hnil =>
    refine iff_of_false Bool.false_ne_true fun h => ?_
    obtain ⟨p, hp⟩ := hpath h
    subst hnil
    cases p with
    | nil => simpa [Linked, Network.edges] using hp.chain
    | cons a p => simpa [Linked, Network.edges] using hp.chain
  split
  · next hno =>
    refine iff_of_false Bool.false_ne_true fun h => ?_
    rw [(hnx.hasPath _ _ _ hst).mpr (hpath h)] at hno
    cases hno
  · rw [decide_eq_true_eq]
    constructor
    · exact fun h => ⟨F₀, hF₀, hcard₀.symm ▸ h⟩
    · rintro ⟨F, hF, hcard⟩
      exact hcard.trans (hmax ⟨F, hF, rfl⟩)

/-- **When the test can be trusted.** An accepted list has `f + 1` disjoint paths if it has
them anyway or at most `f` nodes cut the routes off, and only then. -/
theorem distPaths_sound_iff (hnx : N.nx.Exact) (hst : source ≠ self) :
    (N.distPaths self paths source = true → DisjointPaths (N.f + 1) self source paths) ↔
      DisjointPaths (N.f + 1) self source paths ∨
        ∃ C, IsCut (Network.edges self source paths) source self C ∧
          C.card + edgeCount (Network.edges self source paths) source self ≤ N.f := by
  rw [distPaths_iff hnx hst]
  constructor
  · intro h
    rcases exists_packing_or_cut hst (N.f + 1) with hF | ⟨C, hC, hcard⟩
    · exact .inl (h hF)
    · exact .inr ⟨C, hC, by omega⟩
  · rintro (hpaths | ⟨C, hC, hcard⟩) ⟨F, hF, hle⟩
    · exact hpaths
    · have := card_le_of_isCut hF hC
      omega

/-- Two disjoint paths. -/
theorem distPaths_sound_iff_square :
    square.distPaths "t" [["s", "a"], ["s", "b"]] "s" = true ∧
      DisjointPaths 2 "t" "s" [["s", "a"], ["s", "b"]] := by
  have haccepts : square.distPaths "t" [["s", "a"], ["s", "b"]] "s" = true := by decide
  have htwo : DisjointPaths 2 "t" "s" [["s", "a"], ["s", "b"]] :=
    ⟨_, List.Sublist.refl _, rfl, by simp [internal]⟩
  refine ⟨haccepts, (distPaths_sound_iff (N := square) Networkx.allPaths_exact (by decide)).mpr ?_
    haccepts⟩
  exact .inl htwo

/-- What comes from s by a, c and b, and by b and c, adds up to routes by a and c, and
by b. -/
theorem distPaths_unsound : ¬ ∀ (N : Network String) (self source : PeerId)
    (paths : List (List PeerId)), N.nx.Exact → source ≠ self →
      N.distPaths self paths source = true → DisjointPaths (N.f + 1) self source paths := by
  intro h
  obtain ⟨L, hsub, hlen, hdisj⟩ := h square "t" "s" [["s", "a", "c", "b"], ["s", "b", "c"]]
    Networkx.allPaths_exact (by decide) (by decide)
  obtain rfl := hsub.eq_of_length hlen
  rw [List.pairwise_pair] at hdisj
  exact absurd hdisj (by decide)

/-! ## The greedy search -/

/-- What the greedy search chooses is disjoint from what it has chosen. -/
theorem exists_of_choose {needed : Nat} {chosen : List (Finset PeerId)}
    (h : choose needed self source paths chosen = true) (hlt : chosen.length < needed) :
    ∃ L : List (List PeerId), L.Sublist paths ∧ chosen.length + L.length = needed ∧
      (L.Pairwise fun p q => Disjoint (internal self source p) (internal self source q)) ∧
      ∀ p ∈ L, ∀ used ∈ chosen, Disjoint (internal self source p) used := by
  induction paths generalizing chosen with
  | nil => cases h
  | cons path paths ih =>
    rw [choose] at h
    split at h
    · obtain ⟨L, hsub, hlen, hdisj, hchosen⟩ := ih h hlt
      exact ⟨L, hsub.cons path, hlen, hdisj, hchosen⟩
    · next hfree =>
      have hpath : ∀ used ∈ chosen, Disjoint (internal self source path) used := by
        intro used hused
        by_contra hnot
        exact hfree (List.any_eq_true.mpr ⟨used, hused, decide_eq_true hnot⟩)
      split at h
      · refine ⟨[path], List.singleton_sublist.mpr List.mem_cons_self, ?_,
          List.pairwise_singleton _ _, by simpa using hpath⟩
        rw [List.length_singleton]
        omega
      · next hmore =>
        obtain ⟨L, hsub, hlen, hdisj, hchosen⟩ := ih h (by
          rw [List.length_append, List.length_singleton]
          omega)
        rw [List.length_append, List.length_singleton] at hlen
        refine ⟨path :: L, hsub.cons_cons path, by rw [List.length_cons]; omega, ?_, ?_⟩
        · refine List.pairwise_cons.mpr ⟨fun p hp => ?_, hdisj⟩
          exact (hchosen p hp _ (by simp)).symm
        · intro p hp used hused
          rcases List.mem_cons.mp hp with rfl | hp
          · exact hpath used hused
          · exact hchosen p hp used (List.mem_append_left _ hused)

/-- The path has no node besides the source. -/
def Bare (source : PeerId) (path : List PeerId) : Prop := ∀ x ∈ path, x = source

/-- Disjoint recorded paths, at most one of them bare, are as many disjoint routes. -/
theorem exists_packing_of_disjointPaths (hst : source ≠ self)
    (hrecorded : ∀ path ∈ paths, Recorded self source path)
    (hbare : paths.Pairwise fun p q => ¬ (Bare source p ∧ Bare source q))
    (h : DisjointPaths k self source paths) :
    ∃ F, IsPacking (Network.edges self source paths) source self F ∧ F.card = k := by
  obtain ⟨L, hsub, hlen, hdisj⟩ := h
  have hroute : ∀ path ∈ L, ∃ p, IsPath (Network.edges self source paths) source self p ∧
      ∀ x, x ∈ p ↔ x ∈ internal self source path := fun path hpath =>
    isPath_of_recorded (hsub.subset hpath) hst (hrecorded path (hsub.subset hpath))
  choose! route hpath hmem using hroute
  have hdisjoint : L.Pairwise fun p q => List.Disjoint (route p) (route q) := by
    refine hdisj.imp_of_mem fun {p q} hp hq hpq x hxp hxq => ?_
    exact Finset.disjoint_left.mp hpq ((hmem p hp x).mp hxp) ((hmem q hq x).mp hxq)
  have hnodup : (L.map route).Nodup := by
    refine List.pairwise_map.mpr ?_
    refine (hdisjoint.and (hbare.sublist hsub)).imp_of_mem fun {p q} hp hq hpq heq => ?_
    -- equal disjoint routes are empty, and so are the paths but for the source
    have hnil : route p = [] := List.eq_nil_iff_forall_not_mem.mpr fun x hx =>
      hpq.1 hx (heq ▸ hx)
    have hbare' {path : List PeerId} (hpath : path ∈ L) (hnil : route path = []) :
        Bare source path := by
      intro x hx
      by_contra hne
      have hself : x ≠ self := fun h => (hrecorded path (hsub.subset hpath)).notMem (h ▸ hx)
      have hinternal : x ∈ internal self source path := by simp [internal, hne, hself, hx]
      rw [← hmem path hpath, hnil] at hinternal
      exact List.not_mem_nil hinternal
    exact hpq.2 ⟨hbare' hp hnil, hbare' hq (heq ▸ hnil)⟩
  refine ⟨(L.map route).toFinset, ⟨fun p hp => ?_, fun p hp q hq hpq => ?_⟩, ?_⟩
  · obtain ⟨path, hin, rfl⟩ := List.mem_map.mp (List.mem_toFinset.mp hp)
    exact hpath path hin
  · obtain ⟨path, hin, rfl⟩ := List.mem_map.mp (List.mem_toFinset.mp hp)
    obtain ⟨path', hin', rfl⟩ := List.mem_map.mp (List.mem_toFinset.mp hq)
    have : Std.Symm fun p q => List.Disjoint (route p) (route q) := ⟨fun _ _ h => h.symm⟩
    exact hdisjoint.forall hin hin' fun h => hpq (congrArg route h)
  · rw [List.toFinset_card_of_nodup hnodup, List.length_map, hlen]

/-- **No delivery of the greedy search is lost**: the test accepts the lists that the
search of `dolev_naive.py` accepts, and in any order and with more paths those it accepts. -/
theorem distPaths_of_naive (hnx : N.nx.Exact) (hst : source ≠ self) {naive : DolevNaive.Network}
    (hf : naive.f = N.f) (hrecorded : ∀ path ∈ paths, Recorded self source path)
    (hbare : paths.Pairwise fun p q => ¬ (Bare source p ∧ Bare source q)) :
    (naive.distPaths self paths source = true → N.distPaths self paths source = true) ∧
      ∀ known known' : List (List PeerId), known ⊆ known' →
        N.distPaths self known source = true → N.distPaths self known' source = true := by
  refine ⟨fun h => ?_, fun known known' hsub h => ?_⟩
  · obtain ⟨L, hL, hlen, hdisj, -⟩ := exists_of_choose h (by simp)
    rw [List.length_nil, Nat.zero_add] at hlen
    obtain ⟨F, hF, hcard⟩ :=
      exists_packing_of_disjointPaths hst hrecorded hbare ⟨L, hL, hlen, hdisj⟩
    exact (distPaths_iff hnx hst).mpr ⟨F, hF, by omega⟩
  · obtain ⟨F, hF, hcard⟩ := (distPaths_iff hnx hst).mp h
    exact (distPaths_iff hnx hst).mpr ⟨F, hF.mono (edges_subset hsub), hcard⟩

/-- The nodes of `square`, without optimisations. -/
def naiveSquare : DolevNaive.Network where
  toDeployment := square.toDeployment
  f := 1
  neighbours := square.neighbours
  broadcasts _ := []

/-- The greedy search passes over the path by c alone. -/
theorem distPaths_of_naive_square :
    naiveSquare.distPaths "t" [["s", "a", "c"], ["s", "c"], ["s", "b"]] "s" = true ∧
      square.distPaths "t" [["s", "a", "c"], ["s", "c"], ["s", "b"]] "s" = true ∧
      square.distPaths "t" [["s", "b"], ["s", "c"], ["s", "d"], ["s", "a", "c"]] "s" = true := by
  have hnaive : naiveSquare.distPaths "t" [["s", "a", "c"], ["s", "c"], ["s", "b"]] "s" = true := by
    decide
  have hrecorded : ∀ path ∈ [["s", "a", "c"], ["s", "c"], ["s", "b"]], Recorded "t" "s" path := by
    intro path hpath
    simp only [List.mem_cons, List.not_mem_nil, or_false] at hpath
    rcases hpath with rfl | rfl | rfl <;> exact ⟨by decide, by decide, by decide⟩
  have hbare : [["s", "a", "c"], ["s", "c"], ["s", "b"]].Pairwise
      fun p q => ¬ (Bare "s" p ∧ Bare "s" q) := by
    simp [Bare]
  have hf : naiveSquare.f = square.f := rfl
  obtain ⟨haccepts, hmono⟩ := distPaths_of_naive (N := square) Networkx.allPaths_exact (by decide)
    hf hrecorded hbare
  exact ⟨hnaive, haccepts hnaive, hmono _ _ (by simp) (haccepts hnaive)⟩

end DistBench.Dolev
