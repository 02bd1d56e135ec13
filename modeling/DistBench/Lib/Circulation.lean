import Mathlib

/-!
# Tokens that are handed on

A token that goes from each element to its `next` one has passed everything between its
owner and the place it has come to. If only elements of a certain kind let it pass, and
it comes back to its owner, then everything else on the owner's cycle is of this kind.

- `Passed`: how far a token has come, and past what.
- `Passed.start`, `Passed.on`: a token leaves its owner and is handed on.
- `Passed.back`: a token that is back.
-/

namespace DistBench.Circulation

variable {α : Type} {next : α → α} {ok ok' : α → Prop} {owner x y : α}

/-- A token of `owner` has come to `x`, past elements that are all `ok`. -/
def Passed (next : α → α) (ok : α → Prop) (owner x : α) : Prop :=
  ∃ k, next^[k + 1] owner = x ∧ ∀ m, 1 ≤ m → m ≤ k → ok (next^[m] owner)

namespace Passed

theorem start : Passed next ok owner (next owner) :=
  ⟨0, rfl, fun m hpos hle => absurd hpos (by omega)⟩

theorem on (h : Passed next ok owner x) (hx : ok x) : Passed next ok owner (next x) := by
  obtain ⟨k, rfl, hok⟩ := h
  refine ⟨k + 1, Function.iterate_succ_apply' _ _ _, fun m hpos hle => ?_⟩
  rcases Nat.lt_or_ge k m with hlt | hge
  · obtain rfl : m = k + 1 := by omega
    exact hx
  · exact hok m hpos hge

theorem mono (h : Passed next ok owner x) (hok : ∀ y, ok y → ok' y) :
    Passed next ok' owner x := by
  obtain ⟨k, hk, hpassed⟩ := h
  exact ⟨k, hk, fun m hpos hle => hok _ (hpassed m hpos hle)⟩

theorem reached (h : Passed next ok owner x) : ∃ k > 0, next^[k] owner = x := by
  obtain ⟨k, hk, -⟩ := h
  exact ⟨k + 1, Nat.succ_pos k, hk⟩

/-- The owner is on a cycle, and everything else on it has let the token pass. -/
theorem back (h : Passed next ok x x) {k : Nat} (hy : next^[k] x = y) : y = x ∨ ok y := by
  obtain ⟨n, hn, hok⟩ := h
  have hperiod : Function.IsPeriodicPt next (n + 1) x := hn
  have hmod : next^[k % (n + 1)] x = y := by rw [hperiod.iterate_mod_apply, hy]
  have hlt : k % (n + 1) < n + 1 := Nat.mod_lt _ (Nat.succ_pos n)
  rcases Nat.eq_zero_or_pos (k % (n + 1)) with hzero | hpos
  · rw [hzero] at hmod
    exact .inl hmod.symm
  · rw [← hmod]
    exact .inr (hok _ hpos (by omega))

end Passed

end DistBench.Circulation
