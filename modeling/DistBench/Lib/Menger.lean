import DistBench.Lib.Paths

/-!
# Menger's theorem

In a finite graph as many disjoint paths lead from one vertex to another as it takes
vertices to cut the two off from each other.

- `IsWalk`, `Separates`, `IsFamily`: walks from one set of vertices to another in a
  directed graph given by its edges, sets of vertices that meet them all, and families of
  walks that share no vertex.
- `exists_family`: the theorem for two sets, by induction on the edges. An edge without
  which fewer vertices separate the sets is one end of such a separator short of one of the
  graph: the families on the two sides of it exist without the edge and fit together.
- `IsCut`, `card_le_of_isCut`, `exists_packing_or_cut`: the theorem for two vertices, in the
  terms of `DistBench.Lib.Paths`, where the edge between the two is a path of its own.
-/

namespace DistBench.Paths

variable {α : Type} [DecidableEq α]

/-! ## Walks from set to set -/

/-- `p` lists the vertices of a walk from `A` to `B` along the edges `D`, from first to
second component. -/
structure IsWalk (D : List (α × α)) (A B : Finset α) (p : List α) : Prop where
  chain : p.IsChain fun u v => (u, v) ∈ D
  head : ∃ a ∈ A, p.head? = some a
  last : ∃ b ∈ B, p.getLast? = some b

/-- Every walk from `A` to `B` meets `C`. -/
def Separates (D : List (α × α)) (A B C : Finset α) : Prop :=
  ∀ p, IsWalk D A B p → ∃ x ∈ p, x ∈ C

/-- Walks from `A` to `B` that share no vertex. -/
structure IsFamily (D : List (α × α)) (A B : Finset α) (F : Finset (List α)) : Prop where
  isWalk : ∀ p ∈ F, IsWalk D A B p
  disjoint : ∀ p ∈ F, ∀ q ∈ F, p ≠ q → List.Disjoint p q

variable {D D' : List (α × α)} {A B T : Finset α} {p q r : List α} {v w x y : α}

omit [DecidableEq α] in
theorem IsWalk.mono (h : IsWalk D A B p) (hsub : D ⊆ D') : IsWalk D' A B p where
  chain := h.chain.imp fun _ _ hD => hsub hD
  head := h.head
  last := h.last

omit [DecidableEq α] in
theorem IsFamily.mono {F : Finset (List α)} (h : IsFamily D A B F) (hsub : D ⊆ D') :
    IsFamily D' A B F where
  isWalk p hp := (h.isWalk p hp).mono hsub
  disjoint := h.disjoint

omit [DecidableEq α] in
/-- A walk up to one of its vertices … -/
theorem IsWalk.take (h : IsWalk D A B (q ++ v :: r)) (hv : v ∈ T) :
    IsWalk D A T (q ++ [v]) where
  chain := (List.isChain_split.mp h.chain).1
  head := by
    obtain ⟨a, ha, hhead⟩ := h.head
    refine ⟨a, ha, ?_⟩
    cases q <;> simpa using hhead
  last := ⟨v, hv, List.getLast?_concat⟩

omit [DecidableEq α] in
/-- … and from it on. -/
theorem IsWalk.drop (h : IsWalk D A B (q ++ v :: r)) (hv : v ∈ T) : IsWalk D T B (v :: r) where
  chain := (List.isChain_split.mp h.chain).2
  head := ⟨v, hv, rfl⟩
  last := by
    obtain ⟨b, hb, hlast⟩ := h.last
    exact ⟨b, hb, by rwa [List.getLast?_append_cons] at hlast⟩

omit [DecidableEq α] in
/-- Two walks that meet. -/
theorem IsWalk.join {A' B' : Finset α} {m n : List α} (h : IsWalk D A A' (q ++ v :: r))
    (h' : IsWalk D B' B (m ++ v :: n)) : IsWalk D A B (q ++ v :: n) where
  chain := List.isChain_split.mpr
    ⟨(List.isChain_split.mp h.chain).1, (List.isChain_split.mp h'.chain).2⟩
  head := by
    obtain ⟨a, ha, hhead⟩ := h.head
    refine ⟨a, ha, ?_⟩
    cases q <;> simpa using hhead
  last := by
    obtain ⟨b, hb, hlast⟩ := h'.last
    exact ⟨b, hb, by rwa [List.getLast?_append_cons] at hlast ⊢⟩

/-- Where a list gets into a set … -/
theorem exists_first (h : ∃ x ∈ p, x ∈ T) : ∃ q v r, p = q ++ v :: r ∧ v ∈ T ∧ ∀ x ∈ q, x ∉ T := by
  induction p with
  | nil => simp at h
  | cons a p ih =>
    by_cases ha : a ∈ T
    · exact ⟨[], a, p, rfl, ha, by simp⟩
    · obtain ⟨q, v, r, rfl, hv, hq⟩ := ih (by simpa [ha] using h)
      exact ⟨a :: q, v, r, rfl, hv, by simpa [ha] using hq⟩

/-- … and where it leaves it. -/
theorem exists_last (h : ∃ x ∈ p, x ∈ T) : ∃ q v r, p = q ++ v :: r ∧ v ∈ T ∧ ∀ x ∈ r, x ∉ T := by
  obtain ⟨q, v, r, hp, hv, hq⟩ := exists_first (p := p.reverse) (T := T) (by simpa using h)
  refine ⟨r.reverse, v, q.reverse, ?_, hv, by simpa using hq⟩
  rw [← List.reverse_reverse p, hp]
  simp

/-- A walk without repetitions along some of the vertices. -/
theorem IsWalk.exists_nodup (h : IsWalk D A B p) : ∃ q, IsWalk D A B q ∧ q.Nodup ∧ q ⊆ p := by
  -- the start is kept, so that the walk can be put in front again
  suffices hcons : ∀ (l : List α) (a : α), (a :: l).IsChain (fun u v => (u, v) ∈ D) →
      ∃ l', (a :: l').IsChain (fun u v => (u, v) ∈ D) ∧ (a :: l').Nodup ∧ a :: l' ⊆ a :: l ∧
        (a :: l').getLast? = (a :: l).getLast? by
    obtain ⟨a, ha, hhead⟩ := h.head
    obtain ⟨l, rfl⟩ : ∃ l, p = a :: l := ⟨p.tail, (List.cons_head?_tail hhead).symm⟩
    obtain ⟨l', hchain, hnodup, hsub, hlast⟩ := hcons l a h.chain
    exact ⟨a :: l', ⟨hchain, ⟨a, ha, rfl⟩, hlast ▸ h.last⟩, hnodup, hsub⟩
  intro l
  induction l with
  | nil => exact fun a _ => ⟨[], .singleton a, List.nodup_singleton a, List.Subset.refl _, rfl⟩
  | cons b l ih =>
    intro a hchain
    rw [List.isChain_cons_cons] at hchain
    obtain ⟨l', hchain', hnodup, hsub, hlast⟩ := ih b hchain.2
    rw [List.getLast?_cons_cons, ← hlast]
    by_cases ha : a ∈ b :: l'
    · -- back at the start: leave the loop out
      obtain ⟨q, r, hqr⟩ := List.append_of_mem ha
      rw [hqr] at hchain' hnodup hsub ⊢
      refine ⟨r, (List.isChain_split.mp hchain').2, (List.nodup_append.mp hnodup).2.1, ?_, ?_⟩
      · exact fun z hz => List.mem_cons_of_mem _ (hsub (List.mem_append_right _ hz))
      · rw [List.getLast?_append_cons]
    · refine ⟨b :: l', .cons_cons hchain.1 hchain', List.nodup_cons.mpr ⟨ha, hnodup⟩, ?_, ?_⟩
      · exact List.cons_subset_cons a hsub
      · rw [List.getLast?_cons_cons]

/-! ## Leaving an edge out -/

omit [DecidableEq α] in
/-- A walk that does not leave `x` before its end does without the edges that do … -/
theorem isChain_of_notMem (h : (q ++ [v]).IsChain fun u w => (u, w) ∈ (x, y) :: D)
    (hx : x ∉ q) : (q ++ [v]).IsChain fun u w => (u, w) ∈ D := by
  induction q with
  | nil => exact .singleton v
  | cons a q ih =>
    rw [List.mem_cons, not_or] at hx
    rw [List.cons_append, List.isChain_cons] at h ⊢
    refine ⟨fun w hw => ?_, ih h.2 hx.2⟩
    exact (List.mem_cons.mp (h.1 w hw)).resolve_left fun h => hx.1 (Prod.mk.inj h).1.symm

omit [DecidableEq α] in
/-- … and so does one that does not come to `y` after its start. -/
theorem isChain_of_notMem_tail (h : (v :: r).IsChain fun u w => (u, w) ∈ (x, y) :: D)
    (hy : y ∉ r) : (v :: r).IsChain fun u w => (u, w) ∈ D := by
  refine h.imp_of_mem_tail_imp fun u w _ hw huw => ?_
  refine (List.mem_cons.mp huw).resolve_left fun h => hy ?_
  obtain ⟨-, rfl⟩ := Prod.mk.inj h
  exact hw

/-- A separator without the edge `(x, y)`, and `x` … -/
theorem Separates.insert_left {S : Finset α} (h : Separates D A B S) :
    Separates ((x, y) :: D) A B (insert x S) := by
  intro p hp
  by_contra hnone
  push Not at hnone
  have hx : x ∉ p := fun hx => hnone x hx (Finset.mem_insert_self _ _)
  have hwalk : IsWalk D A B p := by
    refine ⟨hp.chain.imp_of_mem_imp fun u w hu _ huw => ?_, hp.head, hp.last⟩
    refine (List.mem_cons.mp huw).resolve_left fun h => hx ?_
    obtain ⟨rfl, -⟩ := Prod.mk.inj h
    exact hu
  obtain ⟨z, hz, hzS⟩ := h p hwalk
  exact hnone z hz (Finset.mem_insert_of_mem hzS)

/-- … or and `y`. -/
theorem Separates.insert_right {S : Finset α} (h : Separates D A B S) :
    Separates ((x, y) :: D) A B (insert y S) := by
  intro p hp
  by_contra hnone
  push Not at hnone
  have hy : y ∉ p := fun hy => hnone y hy (Finset.mem_insert_self _ _)
  have hwalk : IsWalk D A B p := by
    refine ⟨hp.chain.imp_of_mem_imp fun u w _ hw huw => ?_, hp.head, hp.last⟩
    refine (List.mem_cons.mp huw).resolve_left fun h => hy ?_
    obtain ⟨-, rfl⟩ := Prod.mk.inj h
    exact hw
  obtain ⟨z, hz, hzS⟩ := h p hwalk
  exact hnone z hz (Finset.mem_insert_of_mem hzS)

/-- What separates `A` from a separator that `x` is on separates `A` from `B`. -/
theorem Separates.of_left {C : Finset α} (hT : Separates ((x, y) :: D) A B T) (hx : x ∈ T)
    (h : Separates D A T C) : Separates ((x, y) :: D) A B C := by
  intro p hp
  obtain ⟨q, v, r, rfl, hv, hq⟩ := exists_first (hT p hp)
  have htake := hp.take hv
  obtain ⟨z, hz, hzC⟩ := h (q ++ [v])
    ⟨isChain_of_notMem htake.chain fun h => hq x h hx, htake.head, htake.last⟩
  refine ⟨z, ?_, hzC⟩
  rcases List.mem_append.mp hz with hz | hz
  · exact List.mem_append_left _ hz
  · exact List.mem_append_right _ (List.mem_singleton.mp hz ▸ List.mem_cons_self)

/-- What separates from `B` a separator that `y` is on separates `A` from `B`. -/
theorem Separates.of_right {C : Finset α} (hT : Separates ((x, y) :: D) A B T) (hy : y ∈ T)
    (h : Separates D T B C) : Separates ((x, y) :: D) A B C := by
  intro p hp
  obtain ⟨q, v, r, rfl, hv, hr⟩ := exists_last (hT p hp)
  have hdrop := hp.drop hv
  obtain ⟨z, hz, hzC⟩ := h (v :: r)
    ⟨isChain_of_notMem_tail hdrop.chain fun h => hr y h hy, hdrop.head, hdrop.last⟩
  exact ⟨z, List.mem_append_right _ hz, hzC⟩

/-! ## Families -/

/-- A family with as many walks as `T` has vertices, each of which picks one of its vertices
in `T`, has one for every vertex of `T`. -/
theorem IsFamily.exists_of_pick {F : Finset (List α)} (hF : IsFamily D A B F)
    (hcard : F.card = T.card) {pick : List α → α} (hmem : ∀ p ∈ F, pick p ∈ p)
    (hT : ∀ p ∈ F, pick p ∈ T) : ∀ v ∈ T, ∃ p ∈ F, pick p = v := by
  have hinj : Set.InjOn pick F := by
    intro p hp q hq hpq
    by_contra hne
    exact hF.disjoint p hp q hq hne (hmem p hp) (hpq ▸ hmem q hq)
  have himage : F.image pick = T := by
    refine Finset.eq_of_subset_of_card_le ?_ ?_
    · exact Finset.image_subset_iff.mpr hT
    · rw [Finset.card_image_of_injOn hinj, hcard]
  intro v hv
  rw [← himage] at hv
  exact Finset.mem_image.mp hv

/-- Disjoint walks from `A` to the vertices of `T`, up to where they first meet `T`. -/
structure Before (D : List (α × α)) (A T : Finset α) (P : α → List α) : Prop where
  isWalk : ∀ v ∈ T, IsWalk D A T (P v ++ [v])
  notMem : ∀ v ∈ T, ∀ x ∈ P v, x ∉ T
  disjoint : ∀ v ∈ T, ∀ w ∈ T, v ≠ w → List.Disjoint (P v ++ [v]) (P w ++ [w])

/-- Disjoint walks from the vertices of `T` to `B`, from where they last meet `T`. -/
structure After (D : List (α × α)) (T B : Finset α) (Q : α → List α) : Prop where
  isWalk : ∀ v ∈ T, IsWalk D T B (v :: Q v)
  notMem : ∀ v ∈ T, ∀ x ∈ Q v, x ∉ T
  disjoint : ∀ v ∈ T, ∀ w ∈ T, v ≠ w → List.Disjoint (v :: Q v) (w :: Q w)

/-- Such a family, with each of its walks cut at a vertex of `T`, indexed by these. -/
theorem IsFamily.exists_cut {F : Finset (List α)} (hF : IsFamily D A B F)
    (hcard : F.card = T.card) {R : List α → List α → Prop}
    (hcut : ∀ p ∈ F, ∃ q v r, p = q ++ v :: r ∧ v ∈ T ∧ R q r) :
    ∃ P Q : α → List α, (∀ v ∈ T, IsWalk D A B (P v ++ v :: Q v) ∧ R (P v) (Q v)) ∧
      ∀ v ∈ T, ∀ w ∈ T, v ≠ w → List.Disjoint (P v ++ v :: Q v) (P w ++ w :: Q w) := by
  rcases isEmpty_or_nonempty α with hα | hα
  · exact ⟨isEmptyElim, isEmptyElim, isEmptyElim, isEmptyElim⟩
  choose! pre pick post hsplit hpick hR using hcut
  have hmem : ∀ p ∈ F, pick p ∈ p := by
    intro p hp
    have h : pick p ∈ pre p ++ pick p :: post p := by simp
    rwa [← hsplit p hp] at h
  have hall := hF.exists_of_pick hcard hmem hpick
  choose! g hgF hgv using hall
  -- the walk that is cut in `v`
  have hg : ∀ v ∈ T, g v = pre (g v) ++ v :: post (g v) := by
    intro v hv
    have h := hsplit (g v) (hgF v hv)
    rwa [hgv v hv] at h
  refine ⟨fun v => pre (g v), fun v => post (g v), fun v hv => ⟨?_, hR _ (hgF v hv)⟩,
    fun v hv w hw hvw => ?_⟩
  · rw [← hg v hv]
    exact hF.isWalk (g v) (hgF v hv)
  · have hne : g v ≠ g w := fun h => hvw (by rw [← hgv v hv, ← hgv w hw, h])
    rw [← hg v hv, ← hg w hw]
    exact hF.disjoint _ (hgF v hv) _ (hgF w hw) hne

theorem IsFamily.exists_before {F : Finset (List α)} (hF : IsFamily D A T F)
    (hcard : F.card = T.card) : ∃ P, Before D A T P := by
  have hfirst : ∀ p ∈ F, ∃ q v r, p = q ++ v :: r ∧ v ∈ T ∧ ∀ x ∈ q, x ∉ T := by
    intro p hp
    obtain ⟨b, hb, hlast⟩ := (hF.isWalk p hp).last
    exact exists_first ⟨b, List.mem_of_getLast? hlast, hb⟩
  obtain ⟨P, Q, hPQ, hdisjoint⟩ := hF.exists_cut hcard hfirst
  refine ⟨P, fun v hv => (hPQ v hv).1.take hv, fun v hv => (hPQ v hv).2, fun v hv w hw hvw => ?_⟩
  have hsub (u : α) : P u ++ [u] ⊆ P u ++ u :: Q u := by
    rw [List.append_cons (P u) u (Q u)]
    exact List.subset_append_left _ _
  exact fun z hzv hzw => hdisjoint v hv w hw hvw (hsub v hzv) (hsub w hzw)

theorem IsFamily.exists_after {F : Finset (List α)} (hF : IsFamily D T B F)
    (hcard : F.card = T.card) : ∃ Q, After D T B Q := by
  have hlast : ∀ p ∈ F, ∃ q v r, p = q ++ v :: r ∧ v ∈ T ∧ ∀ x ∈ r, x ∉ T := by
    intro p hp
    obtain ⟨a, ha, hhead⟩ := (hF.isWalk p hp).head
    exact exists_last ⟨a, List.mem_of_mem_head? hhead, ha⟩
  obtain ⟨P, Q, hPQ, hdisjoint⟩ := hF.exists_cut (R := fun _ r => ∀ x ∈ r, x ∉ T) hcard hlast
  refine ⟨Q, fun v hv => (hPQ v hv).1.drop hv, fun v hv => (hPQ v hv).2, fun v hv w hw hvw => ?_⟩
  have hsub (u : α) : u :: Q u ⊆ P u ++ u :: Q u := List.subset_append_right _ _
  exact fun z hzv hzw => hdisjoint v hv w hw hvw (hsub v hzv) (hsub w hzw)

/-- Walks on the two sides of a separator meet on it. -/
theorem mem_of_before_of_after {S T' : Finset α} {P Q : α → List α} (hS : Separates D A B S)
    (hP : Before D A T P) (hQ : After D T' B Q) (hT : S ⊆ T) (hT' : S ⊆ T') {z : α} (hv : v ∈ T)
    (hw : w ∈ T') (hzP : z ∈ P v ++ [v]) (hzQ : z ∈ w :: Q w) : z ∈ S := by
  by_contra hz
  obtain ⟨q, r, hqr⟩ := List.append_of_mem hzP
  obtain ⟨q', r', hqr'⟩ := List.append_of_mem hzQ
  have hwalk := (hqr ▸ hP.isWalk v hv).join (hqr' ▸ hQ.isWalk w hw)
  obtain ⟨u, hu, huS⟩ := hS _ hwalk
  rcases List.mem_append.mp hu with hu | hu
  · -- before `z` the first walk is not yet in `T`
    have hsub : q ⊆ P v := by
      have hinit := congrArg List.dropLast hqr
      rw [List.dropLast_concat, List.dropLast_append_of_ne_nil (List.cons_ne_nil z r)] at hinit
      rw [hinit]
      exact List.subset_append_left _ _
    exact hP.notMem v hv u (hsub hu) (hT huS)
  · rcases List.mem_cons.mp hu with rfl | hu
    · exact hz huS
    · -- after it the second walk has left `T'`
      have hsub : r' ⊆ Q w := by
        cases q' with
        | nil => exact (List.cons.inj hqr').2 ▸ List.Subset.refl _
        | cons a q' =>
          rw [(List.cons.inj hqr').2]
          exact fun z hz => List.mem_append_right _ (List.mem_cons_of_mem _ hz)
      exact hQ.notMem w hw u (hsub hu) (hT' huS)

/-! ## The theorem -/

/-- Without edges a walk is a vertex. -/
theorem exists_family_nil {k : Nat} (h : ∀ C, Separates [] A B C → k ≤ C.card) :
    ∃ F, IsFamily [] A B F ∧ F.card = k := by
  have hsep : Separates [] A B (A ∩ B) := by
    rintro p ⟨hchain, ⟨a, ha, hhead⟩, b, hb, hlast⟩
    obtain ⟨l, rfl⟩ : ∃ l, p = a :: l := ⟨p.tail, (List.cons_head?_tail hhead).symm⟩
    cases l with
    | nil =>
      obtain rfl : a = b := by simpa using hlast
      exact ⟨a, List.mem_singleton_self a, Finset.mem_inter.mpr ⟨ha, hb⟩⟩
    | cons c l => simp at hchain
  obtain ⟨C, hC, hcard⟩ := Finset.exists_subset_card_eq (h _ hsep)
  refine ⟨C.image fun v => [v], ⟨fun p hp => ?_, fun p hp q hq hpq => ?_⟩, ?_⟩
  · obtain ⟨v, hv, rfl⟩ := Finset.mem_image.mp hp
    have hv := Finset.mem_inter.mp (hC hv)
    exact ⟨.singleton v, ⟨v, hv.1, rfl⟩, v, hv.2, rfl⟩
  · obtain ⟨v, -, rfl⟩ := Finset.mem_image.mp hp
    obtain ⟨w, -, rfl⟩ := Finset.mem_image.mp hq
    simpa [eq_comm] using hpq
  · rw [Finset.card_image_of_injective _ fun v w h => List.singleton_injective h, hcard]

/-- The families on the two sides of the edge `(x, y)`, put together. -/
theorem exists_family_of_sides {S : Finset α} {P Q : α → List α} (hS : Separates D A B S)
    (hx : x ∉ S) (hy : y ∉ S) (hP : Before D A (insert x S) P) (hQ : After D (insert y S) B Q) :
    ∃ F, IsFamily ((x, y) :: D) A B F ∧ F.card = (insert x S).card := by
  -- a walk goes on where it has met `S`, or over the edge
  let next : α → α := fun v => if v = x then y else v
  let path : α → List α := fun v => P v ++ v :: if v = x then y :: Q y else Q v
  have hnext : ∀ v ∈ insert x S, next v ∈ insert y S := by
    intro v hv
    by_cases hvx : v = x
    · simp [next, hvx]
    · simp [next, hvx, (Finset.mem_insert.mp hv).resolve_left hvx]
  have hmem : ∀ v z, z ∈ path v → z ∈ P v ++ [v] ∨ z ∈ next v :: Q (next v) := by
    intro v z hz
    by_cases hvx : v = x
    · simp only [path, next, if_pos hvx, List.mem_append, List.mem_cons] at hz ⊢
      tauto
    · simp only [path, next, if_neg hvx, List.mem_append, List.mem_cons] at hz ⊢
      tauto
  have hcross : ∀ v ∈ insert x S, ∀ w ∈ insert x S, ∀ z, z ∈ P v ++ [v] →
      z ∈ next w :: Q (next w) → v = w := by
    intro v hv w hw z hzP hzQ
    have hzS : z ∈ S := mem_of_before_of_after hS hP hQ (Finset.subset_insert _ _)
      (Finset.subset_insert _ _) hv (hnext w hw) hzP hzQ
    have hzv : z = v := by
      rcases List.mem_append.mp hzP with h | h
      · exact absurd (Finset.mem_insert_of_mem hzS) (hP.notMem v hv z h)
      · exact List.mem_singleton.mp h
    have hzw : z = next w := by
      rcases List.mem_cons.mp hzQ with h | h
      · exact h
      · exact absurd (Finset.mem_insert_of_mem hzS) (hQ.notMem _ (hnext w hw) z h)
    by_cases hwx : w = x
    · rw [hzw] at hzS
      simp only [next, if_pos hwx] at hzS
      exact absurd hzS hy
    · rw [← hzv, hzw]
      simp only [next, if_neg hwx]
  have hdisj : ∀ v ∈ insert x S, ∀ w ∈ insert x S, v ≠ w → List.Disjoint (path v) (path w) := by
    intro v hv w hw hvw z hzv hzw
    rcases hmem v z hzv with hzv | hzv <;> rcases hmem w z hzw with hzw | hzw
    · exact hP.disjoint v hv w hw hvw hzv hzw
    · exact hvw (hcross v hv w hw z hzv hzw)
    · exact hvw (hcross w hw v hv z hzw hzv).symm
    · refine hQ.disjoint _ (hnext v hv) _ (hnext w hw) (fun h => hvw ?_) hzv hzw
      by_cases hvx : v = x <;> by_cases hwx : w = x
      · rw [hvx, hwx]
      · simp only [next, if_pos hvx, if_neg hwx] at h
        exact absurd ((Finset.mem_insert.mp hw).resolve_left hwx) (h ▸ hy)
      · simp only [next, if_neg hvx, if_pos hwx] at h
        exact absurd ((Finset.mem_insert.mp hv).resolve_left hvx) (h ▸ hy)
      · simpa only [next, if_neg hvx, if_neg hwx] using h
  have hwalk : ∀ v ∈ insert x S, IsWalk ((x, y) :: D) A B (path v) := by
    intro v hv
    have hbefore := (hP.isWalk v hv).mono (List.subset_cons_self (x, y) D)
    by_cases hvx : v = x
    · subst hvx
      have hafter :=
        (hQ.isWalk y (Finset.mem_insert_self _ _)).mono (List.subset_cons_self (v, y) D)
      have hedge : IsWalk ((v, y) :: D) {v} B (v :: y :: Q y) :=
        ⟨.cons_cons List.mem_cons_self hafter.chain, ⟨v, Finset.mem_singleton_self v, rfl⟩,
          by rw [List.getLast?_cons_cons]; exact hafter.last⟩
      show IsWalk _ A B (P v ++ v :: if v = v then y :: Q y else Q v)
      rw [if_pos rfl]
      exact hbefore.join (m := []) hedge
    · have hvS := (Finset.mem_insert.mp hv).resolve_left hvx
      have hafter := (hQ.isWalk v (Finset.mem_insert_of_mem hvS)).mono
        (List.subset_cons_self (x, y) D)
      simpa only [path, if_neg hvx] using hbefore.join (m := []) hafter
  refine ⟨(insert x S).image path, ⟨fun p hp => ?_, fun p hp q hq hpq => ?_⟩, ?_⟩
  · obtain ⟨v, hv, rfl⟩ := Finset.mem_image.mp hp
    exact hwalk v hv
  · obtain ⟨v, hv, rfl⟩ := Finset.mem_image.mp hp
    obtain ⟨w, hw, rfl⟩ := Finset.mem_image.mp hq
    exact hdisj v hv w hw fun h => hpq (congrArg path h)
  · refine Finset.card_image_of_injOn fun v hv w hw hvw => ?_
    by_contra hne
    have hself : v ∈ path v := by simp [path]
    exact hdisj v hv w hw hne hself (hvw ▸ hself)

/-- **Menger's theorem**, for two sets: if no set of fewer than `k` vertices separates them,
then there are `k` walks that share no vertex. -/
theorem exists_family {k : Nat} (h : ∀ C, Separates D A B C → k ≤ C.card) :
    ∃ F, IsFamily D A B F ∧ F.card = k := by
  induction D generalizing A B with
  | nil => exact exists_family_nil h
  | cons e D ih =>
    obtain ⟨x, y⟩ := e
    by_cases hD : ∀ C, Separates D A B C → k ≤ C.card
    · -- the edge is not needed
      obtain ⟨F, hF, hcard⟩ := ih hD
      exact ⟨F, hF.mono (List.subset_cons_self _ _), hcard⟩
    · push Not at hD
      obtain ⟨S, hS, hlt⟩ := hD
      have hT : Separates ((x, y) :: D) A B (insert x S) := hS.insert_left
      have hT' : Separates ((x, y) :: D) A B (insert y S) := hS.insert_right
      -- the separator is one short with either end of the edge
      have hcardT : (insert x S).card = k := by
        have := h _ hT
        have := Finset.card_insert_le x S
        omega
      have hcardT' : (insert y S).card = k := by
        have := h _ hT'
        have := Finset.card_insert_le y S
        omega
      have hx : x ∉ S := fun hx => by
        rw [Finset.insert_eq_of_mem hx] at hcardT
        omega
      have hy : y ∉ S := fun hy => by
        rw [Finset.insert_eq_of_mem hy] at hcardT'
        omega
      obtain ⟨F, hF, hcardF⟩ := ih fun C hC => h C (hT.of_left (Finset.mem_insert_self x S) hC)
      obtain ⟨F', hF', hcardF'⟩ :=
        ih fun C hC => h C (hT'.of_right (Finset.mem_insert_self y S) hC)
      obtain ⟨P, hP⟩ := hF.exists_before (hcardF.trans hcardT.symm)
      obtain ⟨Q, hQ⟩ := hF'.exists_after (hcardF'.trans hcardT'.symm)
      obtain ⟨E, hE, hcardE⟩ := exists_family_of_sides hS hx hy hP hQ
      exact ⟨E, hE, hcardE.trans hcardT⟩

/-! ## Between two vertices -/

/-- `C` meets every path from `s` to `t` but the edge between the two. -/
structure IsCut (G : List (α × α)) (s t : α) (C : Finset α) : Prop where
  source : s ∉ C
  target : t ∉ C
  meets : ∀ p, IsPath G s t p → p ≠ [] → ∃ x ∈ p, x ∈ C

/-- What the edge between two vertices counts. -/
def edgeCount (G : List (α × α)) (s t : α) : Nat := if Linked G s t then 1 else 0

variable {G : List (α × α)} {s t : α} {F : Finset (List α)} {C : Finset α}

/-- Disjoint paths are no more than the vertices of a cut, and the edge. -/
theorem card_le_of_isCut (hF : IsPacking G s t F) (hC : IsCut G s t C) :
    F.card ≤ C.card + edgeCount G s t := by
  have : Nonempty α := ⟨s⟩
  have hmeets : ∀ p ∈ F.erase [], ∃ x ∈ p, x ∈ C := by
    intro p hp
    obtain ⟨hne, hp⟩ := Finset.mem_erase.mp hp
    exact hC.meets p (hF.isPath p hp) hne
  choose! hit hmem hhit using hmeets
  have hle : (F.erase []).card ≤ C.card := by
    refine Finset.card_le_card_of_injOn hit hhit fun p hp q hq hpq => ?_
    by_contra hne
    refine hF.disjoint p (Finset.mem_of_mem_erase hp) q (Finset.mem_of_mem_erase hq) hne
      (hmem p hp) ?_
    rw [hpq]
    exact hmem q hq
  by_cases hnil : [] ∈ F
  · have hedge : Linked G s t := by simpa using (hF.isPath [] hnil).chain
    have hcard := Finset.card_erase_add_one hnil
    rw [edgeCount, if_pos hedge]
    omega
  · rw [Finset.erase_eq_of_notMem hnil] at hle
    exact hle.trans (Nat.le_add_right _ _)

/-- The edges between other vertices than `s` and `t`, in both directions. -/
def inner (G : List (α × α)) (s t : α) : List (α × α) :=
  (G ++ G.map Prod.swap).filter fun e => e.1 ∉ [s, t] ∧ e.2 ∉ [s, t]

/-- The neighbours of `u`, other than `s` and `t`. -/
def adjacent (G : List (α × α)) (s t u : α) : Finset α :=
  (vertices G).toFinset.filter fun v => Linked G u v ∧ v ∉ [s, t]

omit [DecidableEq α] in
theorem Linked.symm {u v : α} (h : Linked G u v) : Linked G v u := Or.symm h

theorem mem_inner {u v : α} :
    (u, v) ∈ inner G s t ↔ Linked G u v ∧ u ∉ [s, t] ∧ v ∉ [s, t] := by
  have hswap : (u, v) ∈ G.map Prod.swap ↔ (v, u) ∈ G := by
    rw [List.mem_map]
    constructor
    · rintro ⟨⟨a, b⟩, hab, h⟩
      obtain ⟨rfl, rfl⟩ := Prod.mk.inj h
      exact hab
    · exact fun h => ⟨(v, u), h, rfl⟩
  rw [inner, List.mem_filter, List.mem_append, hswap, decide_eq_true_eq]
  exact Iff.rfl

theorem mem_adjacent {u v : α} : v ∈ adjacent G s t u ↔ Linked G u v ∧ v ∉ [s, t] := by
  rw [adjacent, Finset.mem_filter, List.mem_toFinset]
  exact and_iff_right_of_imp fun h => h.1.mem_vertices

/-- A path but for its ends is a walk between the neighbours of the ends. -/
theorem IsPath.isWalk (h : IsPath G s t p) (hp : p ≠ []) :
    IsWalk (inner G s t) (adjacent G s t s) (adjacent G s t t) p := by
  have hends : ∀ v ∈ p, v ∉ [s, t] := by
    intro v hv hst
    have hs := (List.nodup_cons.mp h.nodup).1
    have ht := (List.nodup_append.mp (List.nodup_cons.mp h.nodup).2).2.2
    rcases List.mem_cons.mp hst with rfl | hst
    · exact hs (List.mem_append_left _ hv)
    · obtain rfl := List.mem_singleton.mp hst
      exact ht v hv v (List.mem_singleton_self v) rfl
  have hchain := h.chain
  refine ⟨?_, ?_, ?_⟩
  · refine hchain.tail.left_of_append.imp_of_mem_imp fun u v hu hv huv => ?_
    exact mem_inner.mpr ⟨huv, hends u hu, hends v hv⟩
  · obtain ⟨a, l, rfl⟩ := List.exists_cons_of_ne_nil hp
    rw [List.cons_append, List.isChain_cons_cons] at hchain
    exact ⟨a, mem_adjacent.mpr ⟨hchain.1, hends a List.mem_cons_self⟩, rfl⟩
  · obtain ⟨l, b, rfl⟩ := (List.eq_nil_or_concat p).resolve_left hp
    rw [List.concat_eq_append] at hchain hends ⊢
    have hlast : Linked G b t := by
      have htail : (l ++ [b] ++ [t]).IsChain (Linked G) := hchain.tail
      rw [List.append_assoc, List.singleton_append, List.isChain_append_cons_cons] at htail
      exact htail.2.1
    exact ⟨b, mem_adjacent.mpr ⟨hlast.symm, hends b (by simp)⟩, List.getLast?_concat⟩

/-- And such a walk without repetitions is a path. -/
theorem IsWalk.isPath (h : IsWalk (inner G s t) (adjacent G s t s) (adjacent G s t t) p)
    (hnodup : p.Nodup) (hst : s ≠ t) : IsPath G s t p := by
  obtain ⟨a, ha, hhead⟩ := h.head
  obtain ⟨b, hb, hlast⟩ := h.last
  have hends : ∀ v ∈ p, v ∉ [s, t] := by
    obtain ⟨l, rfl⟩ : ∃ l, p = a :: l := ⟨p.tail, (List.cons_head?_tail hhead).symm⟩
    intro v hv
    rcases List.mem_cons.mp hv with rfl | hv
    · exact (mem_adjacent.mp ha).2
    · have hchain : (a :: l).IsChain fun _ w => w ∉ [s, t] :=
        h.chain.imp fun u w huw => (mem_inner.mp huw).2.2
      have hall : ∀ (l : List α) (a : α), (a :: l).IsChain (fun _ w => w ∉ [s, t]) →
          ∀ w ∈ l, w ∉ [s, t] := by
        intro l
        induction l with
        | nil => simp
        | cons c l ih =>
          intro a hchain w hw
          rw [List.isChain_cons_cons] at hchain
          rcases List.mem_cons.mp hw with rfl | hw
          · exact hchain.1
          · exact ih c hchain.2 w hw
      exact hall l a hchain v hv
  constructor
  · refine List.isChain_cons.mpr ⟨fun w hw => ?_, ?_⟩
    · rw [List.head?_append, hhead, Option.some_or] at hw
      obtain rfl := Option.some.inj hw
      exact (mem_adjacent.mp ha).1
    · refine (h.chain.imp fun u w huw => (mem_inner.mp huw).1).append (.singleton t) ?_
      intro u hu w hw
      obtain rfl := Option.some.inj (hlast.symm.trans hu)
      obtain rfl := Option.some.inj hw
      exact (mem_adjacent.mp hb).1.symm
  · refine List.nodup_cons.mpr ⟨fun hs => ?_, List.nodup_append.mpr ⟨hnodup, by simp, ?_⟩⟩
    · rcases List.mem_append.mp hs with hs | hs
      · exact hends s hs (by simp)
      · exact hst (List.mem_singleton.mp hs)
    · rintro v hv w hw rfl
      exact hends v hv (by rw [List.mem_singleton.mp hw]; simp)

/-- **Menger's theorem**, for two vertices: there are `k` disjoint paths, or fewer than `k`
vertices, the edge counted as one, cut the two off. -/
theorem exists_packing_or_cut (hst : s ≠ t) (k : Nat) :
    (∃ F, IsPacking G s t F ∧ k ≤ F.card) ∨ ∃ C, IsCut G s t C ∧ C.card + edgeCount G s t < k := by
  by_cases hcut : ∃ C, Separates (inner G s t) (adjacent G s t s) (adjacent G s t t) C ∧
      C.card + edgeCount G s t < k
  · right
    obtain ⟨C, hC, hcard⟩ := hcut
    have hsub : (C \ {s, t}).card ≤ C.card := Finset.card_le_card Finset.sdiff_subset
    refine ⟨C \ {s, t}, ⟨by simp, by simp, fun p hp hne => ?_⟩, by omega⟩
    obtain ⟨x, hx, hxC⟩ := hC p (hp.isWalk hne)
    have hs := (List.nodup_cons.mp hp.nodup).1
    have ht := (List.nodup_append.mp (List.nodup_cons.mp hp.nodup).2).2.2
    refine ⟨x, hx, Finset.mem_sdiff.mpr ⟨hxC, fun hst => ?_⟩⟩
    rcases Finset.mem_insert.mp hst with rfl | hst
    · exact hs (List.mem_append_left _ hx)
    · exact ht x hx t (List.mem_singleton_self t) (Finset.mem_singleton.mp hst)
  · left
    push Not at hcut
    obtain ⟨F, hF, hcard⟩ := exists_family (k := k - edgeCount G s t) fun C hC => by
      have := hcut C hC
      omega
    -- loops are left out, and the edge is added
    choose! simple hwalk hnodup hsub using fun p hp => (hF.isWalk p hp).exists_nodup
    have hne : ∀ p ∈ F, simple p ≠ [] := by
      intro p hp hnil
      obtain ⟨a, -, hhead⟩ := (hwalk p hp).head
      simp [hnil] at hhead
    have hdisj : ∀ p ∈ F, ∀ q ∈ F, p ≠ q → List.Disjoint (simple p) (simple q) :=
      fun p hp q hq hpq x hxp hxq => hF.disjoint p hp q hq hpq (hsub p hp hxp) (hsub q hq hxq)
    have hinj : Set.InjOn simple F := by
      intro p hp q hq hpq
      by_contra hpq'
      obtain ⟨x, hx⟩ := List.exists_mem_of_ne_nil _ (hne p hp)
      exact hdisj p hp q hq hpq' hx (hpq ▸ hx)
    have hpacking : IsPacking G s t (F.image simple) := by
      refine ⟨fun p hp => ?_, fun p hp q hq hpq => ?_⟩
      · obtain ⟨p₀, hp₀, rfl⟩ := Finset.mem_image.mp hp
        exact (hwalk p₀ hp₀).isPath (hnodup p₀ hp₀) hst
      · obtain ⟨p₀, hp₀, rfl⟩ := Finset.mem_image.mp hp
        obtain ⟨q₀, hq₀, rfl⟩ := Finset.mem_image.mp hq
        exact hdisj p₀ hp₀ q₀ hq₀ fun h => hpq (congrArg simple h)
    have hcardF : (F.image simple).card = k - edgeCount G s t := by
      rw [Finset.card_image_of_injOn hinj, hcard]
    by_cases hedge : Linked G s t
    · have hnil : [] ∉ F.image simple := fun h => by
        obtain ⟨p, hp, hnil⟩ := Finset.mem_image.mp h
        exact hne p hp hnil
      refine ⟨insert [] (F.image simple), ⟨fun p hp => ?_, fun p hp q hq hpq => ?_⟩, ?_⟩
      · rcases Finset.mem_insert.mp hp with rfl | hp
        · exact ⟨by simpa using hedge, by simpa using hst⟩
        · exact hpacking.isPath p hp
      · rcases Finset.mem_insert.mp hp with rfl | hp
        · exact List.disjoint_nil_left q
        rcases Finset.mem_insert.mp hq with rfl | hq
        · exact List.disjoint_nil_right p
        · exact hpacking.disjoint p hp q hq hpq
      · rw [Finset.card_insert_of_notMem hnil, hcardF, edgeCount, if_pos hedge]
        omega
    · refine ⟨F.image simple, hpacking, ?_⟩
      rw [hcardF, edgeCount, if_neg hedge]
      omega

end DistBench.Paths
