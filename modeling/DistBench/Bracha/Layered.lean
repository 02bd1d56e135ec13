import DistBench.Bracha.Basic

/-!
# Bracha over a broadcast layer

`bracha.py` and `bracha_optimized.py` hand their messages to a Dolev child:
`await self.bracha(method, msg)` gives the message to the broadcast layer and
suspends the coroutine until the layer is done with it, and the layer calls
`dolev_deliver(src, msg)` at every other node. What the layer does in between
is not the handlers' concern, so a segment of a handler is a `Turn`: the new
state, what it gave away, and the point at which it is suspended.

`Code` is one node's code as turns. A node on its own is driven by inputs in any
order (`Code.run`): deliveries, and the resumption of any of its suspended
coroutines. Or it handles one delivery after the other, each handler to its end
(`Code.runWhole`). `outputs_map_eq` is the lockstep rule for comparing two nodes.
-/

namespace DistBench.Bracha

open DistBench.Async

/-- What a segment gives away: a message for the broadcast layer, or one sent
straight to a handler of a peer. -/
inductive Action where
  | bracha (msg : BrachaMessage)
  | sendTo (peer : PeerId) (msg : BrachaMessage)
deriving DecidableEq, Repr

/-- The message an action carries. -/
def Action.message : Action → BrachaMessage
  | .bracha msg => msg
  | .sendTo _ msg => msg

/-- One segment of a coroutine over state `S` with program points `K`. -/
structure Turn (S K : Type) where
  st : S
  acts : List Action := []
  rest : Option K := none

/-- The code of one node. -/
structure Code (S K : Type) where
  onStart : S → Turn S K
  deliver : S → PeerId → BrachaMessage → Turn S K
  resume : S → K → Turn S K

/-- What happens to a node next. `resume n` continues its `n`-th suspended
coroutine. -/
inductive Input where
  | start
  | deliver (src : PeerId) (msg : BrachaMessage)
  | resume (n : Nat)
deriving DecidableEq, Repr

/-- A node on its own. -/
structure Local (S K : Type) where
  st : S
  suspended : List K

variable {S K S' K' : Type}

/-- A turn that has been taken, with the coroutines that were not involved. -/
def Turn.settle (t : Turn S K) (ks : List K) : Local S K × List Action :=
  (⟨t.st, t.rest.toList ++ ks⟩, t.acts)

/-- One input. -/
def Code.step (C : Code S K) (x : Local S K) : Input → Local S K × List Action
  | .start => (C.onStart x.st).settle x.suspended
  | .deliver src msg => (C.deliver x.st src msg).settle x.suspended
  | .resume n =>
    match x.suspended[n]? with
    | some k => (C.resume x.st k).settle (x.suspended.eraseIdx n)
    | none => (x, [])

/-- A delivery whose handler runs to its end before anything else happens: it goes on
when the layer is done with what it has broadcast. -/
def Code.handle (C : Code S K) (x : Local S K) (d : PeerId × BrachaMessage) :
    Local S K × List Action :=
  let begun := C.step x (.deliver d.1 d.2)
  let done := C.step begun.1 (.resume 0)
  (done.1, begun.2 ++ done.2)

/-- A turn, and what its coroutine goes on with. -/
def Code.finish (C : Code S K) (t : Turn S K) : Turn S K :=
  match t.rest with
  | none => t
  | some k => { C.resume t.st k with acts := t.acts ++ (C.resume t.st k).acts }

theorem Code.handle_eq {C : Code S K} {s : S} {d : PeerId × BrachaMessage} :
    C.handle ⟨s, []⟩ d = (C.finish (C.deliver s d.1 d.2)).settle [] := by
  cases h : (C.deliver s d.1 d.2).rest with
  | none => simp [handle, finish, step, Turn.settle, h]
  | some k => simp [handle, finish, step, Turn.settle, h]

section Outputs

variable {σ τ I A B Q R : Type}

/-- What each input of a sequence makes a node give away, and what it leaves of its
state. -/
def outputs (step : σ → I → σ × A) (view : σ → Q) : σ → List I → List (A × Q)
  | _, [] => []
  | x, inp :: inps => ((step x inp).2, view (step x inp).1) :: outputs step view (step x inp).1 inps

/-- **Lockstep**: if corresponding nodes do the same on every input of a sequence, as
far as `g` and `g'` tell, and correspond again, then they do the same on the sequence,
and what corresponding states agree on (`f`, `f'`) they agree on after every input. -/
theorem outputs_map_eq {Q' : Type} {step : σ → I → σ × A} {step' : τ → I → τ × A} {view : σ → Q}
    {view' : τ → Q'} (corr : σ → τ → Prop) {f : Q → R} {f' : Q' → R} {g g' : A → B}
    (hf : ∀ x y, corr x y → f (view x) = f' (view' y)) (inps : List I)
    (hstep : ∀ inp ∈ inps, ∀ x y, corr x y →
      corr (step x inp).1 (step' y inp).1 ∧ g (step x inp).2 = g' (step' y inp).2)
    (x : σ) (y : τ) (hxy : corr x y) :
    (outputs step view x inps).map (Prod.map g f) =
      (outputs step' view' y inps).map (Prod.map g' f') := by
  induction inps generalizing x y with
  | nil => rfl
  | cons inp inps ih =>
    obtain ⟨hcorr, hacts⟩ := hstep inp List.mem_cons_self x y hxy
    have hrest := ih (fun inp' h => hstep inp' (List.mem_cons_of_mem _ h)) _ _ hcorr
    rw [outputs, outputs, List.map_cons, List.map_cons, hrest]
    simp only [Prod.map_apply, hacts, hf _ _ hcorr]

end Outputs

/-- What each input of a sequence makes the node give away, and the state it leaves the
node in. -/
def Code.run (C : Code S K) : Local S K → List Input → List (List Action × S) :=
  outputs C.step Local.st

/-- The same for deliveries that are handled one after the other. -/
def Code.runWhole (C : Code S K) :
    Local S K → List (PeerId × BrachaMessage) → List (List Action × S) :=
  outputs C.handle Local.st

end DistBench.Bracha
