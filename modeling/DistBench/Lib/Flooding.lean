import Mathlib

/-!
# Flooding along simple paths

A message that collects the nodes it has come by, and is never sent to one of them, goes
along simple paths. There are finitely many of these, and what one message can cause can
be added up: all the messages it is handed on as, to at most `n` nodes each, and so on
as long as there are nodes left that are not on the path.

- `Trail`: a simple path that begins at a node.
- `Flight`: a message on the way from one node to the next.
- `words`: the lists of bounded length, for messages that may come by a node again.
- `loopCost`: the cost of a loop over the nodes that pays a price in each round.
- `nextPeer`-like loops are left to the user: `loopCost_step` is what a round takes.
-/

namespace DistBench.Flooding

variable {α : Type} {S : Finset α} {adj : α → α → Prop} {s u v : α} {p : List α}

/-- `p` is a simple path from `s` inside `S`. -/
structure Trail (S : Finset α) (adj : α → α → Prop) (s : α) (p : List α) : Prop where
  head : p.head? = some s
  nodup : p.Nodup
  chain : p.IsChain adj
  inside : ∀ v ∈ p, v ∈ S

namespace Trail

theorem single (hs : s ∈ S) : Trail S adj s [s] where
  head := rfl
  nodup := List.nodup_singleton s
  chain := List.isChain_singleton s
  inside _ hv := List.mem_singleton.mp hv ▸ hs

theorem snoc (h : Trail S adj s (p ++ [u])) (hv : v ∉ p ++ [u]) (hadj : adj u v) (hmem : v ∈ S) :
    Trail S adj s (p ++ [u] ++ [v]) where
  head := by rw [List.head?_append, h.head, Option.some_or]
  nodup := List.nodup_append.mpr ⟨h.nodup, List.nodup_singleton v, fun a ha b hb => by
    rintro rfl
    exact hv (List.mem_singleton.mp hb ▸ ha)⟩
  chain := by
    refine List.isChain_append.mpr ⟨h.chain, List.isChain_singleton v, fun x hx y hy => ?_⟩
    obtain rfl : u = x := by simpa using hx
    obtain rfl : v = y := by simpa using hy
    exact hadj
  inside w hw := by
    rcases List.mem_append.mp hw with hw | hw
    · exact h.inside w hw
    · exact List.mem_singleton.mp hw ▸ hmem

/-- The part before the last node, and that node is not on it. -/
theorem init (h : Trail S adj s (p ++ [v])) (hp : p ≠ []) : Trail S adj s p ∧ v ∉ p := by
  have hnd := List.nodup_append.mp h.nodup
  refine ⟨⟨?_, hnd.1, (List.isChain_append.mp h.chain).1,
    fun w hw => h.inside w (List.mem_append_left _ hw)⟩,
    fun hv => hnd.2.2 v hv v (List.mem_singleton_self v) rfl⟩
  have hhead := h.head
  rwa [List.head?_append_of_ne_nil p hp] at hhead

theorem mono {adj' : α → α → Prop} (h : Trail S adj s p) (hadj : ∀ u v, adj u v → adj' u v) :
    Trail S adj' s p :=
  ⟨h.head, h.nodup, h.chain.imp hadj, h.inside⟩

theorem length_le [DecidableEq α] (h : Trail S adj s p) : p.length ≤ S.card := by
  rw [← List.toFinset_card_of_nodup h.nodup]
  exact Finset.card_le_card fun v hv => h.inside v (List.mem_toFinset.mp hv)

end Trail

/-! ## Messages on their way -/

/-- Each is a neighbour of the other. -/
def Mutual (nb : α → Finset α) (u v : α) : Prop := v ∈ nb u ∧ u ∈ nb v

/-- `u` has sent `v` what has come to it from `s` by the nodes of `p`. -/
structure Flight (S : Finset α) (nb : α → Finset α) (s : α) (p : List α) (u v : α) : Prop where
  trail : Trail S (Mutual nb) s (p ++ [u])
  notMem : v ∉ p ++ [u]
  near : v ∈ nb u
  inside : v ∈ S

namespace Flight

variable {nb : α → Finset α}

/-- `v` receives it. -/
theorem arrive (h : Flight S nb s p u v) (hnear : u ∈ nb v) :
    Trail S (Mutual nb) s (p ++ [u] ++ [v]) :=
  h.trail.snoc h.notMem ⟨h.near, hnear⟩ h.inside

/-- The source sends something to a neighbour. -/
theorem start (hs : s ∈ S) (hv : v ∈ S) (hne : v ≠ s) (hnear : v ∈ nb s) :
    Flight S nb s [] s v :=
  ⟨.single hs, by simpa using hne, hnear, hv⟩

/-- `u` hands on what it has received. -/
theorem handOn (h : Trail S (Mutual nb) s (p ++ [u])) (hp : v ∉ p) (hne : v ≠ u)
    (hnear : v ∈ nb u) (hv : v ∈ S) : Flight S nb s p u v :=
  ⟨h, by simp [hp, hne], hnear, hv⟩

/-- What the path in the message is. -/
theorem path (h : Flight S nb s p u v) (hp : p ≠ []) : Trail S (Mutual nb) s p ∧ v ∉ p :=
  ⟨(h.trail.init hp).1, fun hv => h.notMem (List.mem_append_left _ hv)⟩

/-- It does not go back to the source. -/
theorem ne_source (h : Flight S nb s p u v) : v ≠ s := by
  rintro rfl
  exact h.notMem (List.mem_of_head? h.trail.head)

/-- There is a node left that is not on the path. -/
theorem length_lt [DecidableEq α] (h : Flight S nb s p u v) : p.length + 1 < S.card := by
  have htrail : Trail S (fun _ _ => True) s (p ++ [u] ++ [v]) :=
    (h.trail.mono fun _ _ _ => trivial).snoc h.notMem trivial h.inside
  have hlen := htrail.length_le
  simp only [List.length_append, List.length_singleton] at hlen
  omega

end Flight

/-! ## Lists of bounded length -/

/-- The lists over `A` of length at most `k`. -/
def words [DecidableEq α] (A : Finset α) : Nat → Finset (List α)
  | 0 => {[]}
  | k + 1 => insert [] ((A ×ˢ words A k).image fun p => p.1 :: p.2)

section Words

variable [DecidableEq α] {A : Finset α} {k : Nat}

theorem mem_words {l : List α} : l ∈ words A k ↔ (∀ a ∈ l, a ∈ A) ∧ l.length ≤ k := by
  induction k generalizing l with
  | zero =>
    rw [words, Finset.mem_singleton, Nat.le_zero, List.length_eq_zero_iff]
    exact ⟨fun h => ⟨by simp [h], h⟩, And.right⟩
  | succ k ih =>
    cases l with
    | nil => simp [words]
    | cons a l =>
      have hcons : a :: l ∈ words A (k + 1) ↔ a ∈ A ∧ l ∈ words A k := by simp [words]
      rw [hcons, ih, List.forall_mem_cons, List.length_cons, Nat.succ_le_succ_iff, and_assoc]

theorem card_words_le : (words A k).card ≤ (A.card + 1) ^ k := by
  induction k with
  | zero => simp [words]
  | succ k ih =>
    have hpos : 1 ≤ (A.card + 1) ^ k := Nat.one_le_pow _ _ (by omega)
    calc (words A (k + 1)).card
        ≤ ((A ×ˢ words A k).image fun p => p.1 :: p.2).card + 1 := Finset.card_insert_le _ _
      _ ≤ A.card * (words A k).card + 1 := by
          refine Nat.succ_le_succ (Finset.card_image_le.trans ?_)
          rw [Finset.card_product]
      _ ≤ A.card * (A.card + 1) ^ k + (A.card + 1) ^ k :=
          Nat.add_le_add (Nat.mul_le_mul_left _ ih) hpos
      _ = (A.card + 1) ^ (k + 1) := by rw [pow_succ]; ring

end Words

/-! ## Costs -/

/-- A loop that pays `q` and two steps in each of its rounds, and `d` at its end. -/
def loopCost (d q rounds : Nat) : Nat := d + (q + 2) * rounds

variable {d q m n : Nat}

theorem loopCost_step (h : m < n) : loopCost d q m + q + 2 ≤ loopCost d q n := by
  have hmul : (q + 2) * (m + 1) ≤ (q + 2) * n := Nat.mul_le_mul_left _ h
  rw [Nat.mul_succ] at hmul
  unfold loopCost
  omega

theorem loopCost_mono (h : m ≤ n) : loopCost d q m ≤ loopCost d q n :=
  Nat.add_le_add_left (Nat.mul_le_mul_left _ h) d

theorem le_loopCost : d ≤ loopCost d q n := Nat.le_add_right _ _

end DistBench.Flooding
