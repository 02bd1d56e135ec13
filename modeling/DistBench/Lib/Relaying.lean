import DistBench.Lib.Async

/-!
# Paths that messages collect

A message carries the path it has come by, and a node that hands it on appends the node
it has got it from. A node outside the protocol may write any names on a path, but behind
the last such node a path is authentic: every node there has sent the message to the next
one, with what stands on the path before it.

- `Relaying`: where a protocol keeps its paths. In a `Faithful` one a segment records and
  sends on nothing but the path of the message it is about, with its sender appended.
- `Arrived`: a message has come on a path. `arrivals` is the assertion that whatever is
  recorded or sent on has arrived.
- `sent_of_arrived`: the way back along a path, node by node.
-/

namespace DistBench.Async

variable {ι M S T K : Type}

/-- Where a protocol keeps paths: a message has a key and a path, a state records paths
by their keys, and a suspended coroutine carries those it may yet record or send. -/
structure Relaying (ι M S T K : Type) where
  key : M → K
  path : M → List ι
  recorded : S → K → List (List ι)
  carries : T → K → List ι → Prop

namespace Relaying

variable (R : Relaying ι M S T K)

/-- `p` is the path of the message with its sender appended. -/
def Extends (src : ι) (msg : M) (k : K) (p : List ι) : Prop :=
  R.key msg = k ∧ R.path msg ++ [src] = p

/-- What is recorded in `s'` is recorded in `s` or in `new`. -/
def Grows (new : K → List ι → Prop) (s s' : S) : Prop :=
  ∀ k, ∀ p ∈ R.recorded s' k, p ∈ R.recorded s k ∨ new k p

/-- A segment that started in `s` adds no path but those in `new`; a message it makes up
has an empty one. -/
structure Adds (new : K → List ι → Prop) (s : S) (o : Outcome ι M S T) : Prop where
  recorded : R.Grows new s o.st
  rest : ∀ t ∈ o.rest, ∀ k p, R.carries t k p → new k p
  out : ∀ dm ∈ o.out, R.path dm.2 ≠ [] → new (R.key dm.2) (R.path dm.2)

/-- The code extends a path by the sender of the message, and makes none up. -/
structure Faithful (P : Protocol ι M S T) : Prop where
  handle : ∀ i s src msg, R.Adds (R.Extends src msg) s (P.handle i s src msg)
  resume : ∀ i s t o, P.resume i s t = some o → R.Adds (R.carries t) s o

/-- No message has been sent yet, and there are no paths. -/
structure Fresh (c : Config ι M S T) : Prop where
  recorded : ∀ i k, R.recorded (c.st i) k = []
  tasks : ∀ i, ∀ t ∈ c.tasks i, ∀ k p, ¬ R.carries t k p
  net : c.net = []

/-- Node `i` has handled a message that came on the path `p`. -/
def Arrived (ls : Trace ι M T) (i : ι) (k : K) (p : List ι) : Prop :=
  ∃ src msg, Handled ls i src msg ∧ R.Extends src msg k p

/-- What a node has recorded and what it sends on has arrived there. -/
def arrivals : Assertion ι M S T where
  node ls i s ts :=
    (∀ k, ∀ p ∈ R.recorded s k, R.Arrived ls i k p) ∧
      ∀ t ∈ ts, ∀ k p, R.carries t k p → R.Arrived ls i k p
  msg ls e := R.path e.msg ≠ [] → R.Arrived ls e.src (R.key e.msg) (R.path e.msg)

variable {R} {P : Protocol ι M S T} {G : Parties ι} {c c₀ : Config ι M S T}
  {ls : Trace ι M T} {i x : ι} {k : K} {p q r : List ι} {s s' s'' : S} {o : Outcome ι M S T}
  {new new' : K → List ι → Prop}

theorem Grows.of_eq (h : ∀ k, R.recorded s' k = R.recorded s k) : R.Grows new s s' :=
  fun k _ hp => .inl (h k ▸ hp)

theorem Grows.trans (h : R.Grows new s s') (h' : R.Grows new s' s'') : R.Grows new s s'' :=
  fun k p hp => (h' k p hp).elim (h k p) .inr

theorem Adds.mono (h : R.Adds new s o) (hnew : ∀ k p, new k p → new' k p) :
    R.Adds new' s o where
  recorded k p hp := (h.recorded k p hp).imp_right (hnew k p)
  rest t ht k p hp := hnew k p (h.rest t ht k p hp)
  out dm hdm hp := hnew _ _ (h.out dm hdm hp)

/-- A segment that sends nothing. -/
theorem Adds.quiet {rest : Option T} (hs : R.Grows new s s')
    (hrest : ∀ t ∈ rest, ∀ k p, R.carries t k p → new k p) :
    R.Adds new s { st := s', rest := rest } :=
  ⟨hs, hrest, nofun⟩

theorem Arrived.append (ls' : Trace ι M T) (h : R.Arrived ls i k p) :
    R.Arrived (ls ++ ls') i k p := by
  obtain ⟨src, msg, hhandled, hext⟩ := h
  exact ⟨src, msg, hhandled.append, hext⟩

variable [DecidableEq ι] [DecidableEq M] [DecidableEq T]

theorem arrivals_inductive (hP : R.Faithful P) (h₀ : R.Fresh c₀) :
    R.arrivals.Inductive P G c₀ fun _ _ _ => True where
  init := by
    refine ⟨fun i _ => ⟨fun k p hp => ?_, fun t ht k p hp => ?_⟩, fun e he => ?_, nofun⟩
    · rw [h₀.recorded] at hp
      cases hp
    · exact absurd hp (h₀.tasks i t ht k p)
    · rw [h₀.net] at he
      cases he
  node_mono _ h :=
    ⟨fun k p hp => (h.1 k p hp).append _, fun t ht k p hp => (h.2 t ht k p hp).append _⟩
  msg_mono h hp := (h hp).append _
  segment := by
    intro ls c l i o base _ h _ hseg
    obtain ⟨hrecorded, htasks⟩ := h.node i hseg.correct
    -- whatever the segment adds has arrived by now
    have hadds : R.Adds (R.Arrived (ls ++ [l]) i) (c.st i) o := by
      cases hseg with
      | @recv e _ _ =>
        exact (hP.handle _ _ _ _).mono fun k p hext => ⟨e.src, e.msg, .inl (by simp), hext⟩
      | @forge e _ _ =>
        exact (hP.handle _ _ _ _).mono fun k p hext => ⟨e.src, e.msg, .inr (by simp), hext⟩
      | @wake i t o _ ht ho =>
        exact (hP.resume _ _ _ _ ho).mono fun k p hp => (htasks t ht k p hp).append _
    refine ⟨⟨fun k p hp => ?_, fun t ht k p hp => ?_⟩, hadds.out⟩
    · rcases hadds.recorded k p hp with hold | hnew
      · exact (hrecorded k p hold).append _
      · exact hnew
    · rcases hseg.mem_rest_or_tasks ht with hnew | hold
      · exact hadds.rest t hnew k p hp
      · exact (htasks t hold k p hp).append _

/-- **Back along a path.** Where all nodes from `x` on follow the protocol, `x` has sent
the message to the next of them, with the path that stands before `x`. -/
theorem sent_of_arrived (hnet : c₀.net = []) (hc : exec (step P G) c₀ ls = some c)
    (hA : R.arrivals.Holds G ls c) (hcorrect : ∀ y ∈ x :: r, y ∈ G.correct)
    (h : R.Arrived ls i k (q ++ x :: r)) :
    ∃ msg, R.key msg = k ∧ R.path msg = q ∧
      Occurs (step P G) c₀ ls (Sends P G x (r.head?.getD i) msg) := by
  induction r using List.reverseRecOn generalizing i with
  | nil =>
    obtain ⟨src, msg, hhandled, hkey, hpath⟩ := h
    obtain ⟨rfl, hsrc⟩ := List.append_inj' hpath rfl
    obtain rfl := List.singleton_inj.mp hsrc
    have hrecv := hhandled.received hc (hcorrect src (by simp))
    exact ⟨msg, hkey, rfl, (sent_of_received hnet ls c hc _ hrecv).2⟩
  | append_singleton r y ih =>
    obtain ⟨src, msg, hhandled, hkey, hpath⟩ := h
    rw [← List.cons_append, ← List.append_assoc] at hpath
    obtain ⟨hinit, hsrc⟩ := List.append_inj' hpath rfl
    obtain rfl := List.singleton_inj.mp hsrc
    -- `src` follows the protocol too, so the rest of the path has arrived there
    have hrecv := hhandled.received hc (hcorrect src (by simp))
    have hsent : R.path msg ≠ [] → R.Arrived ls src (R.key msg) (R.path msg) :=
      hA.received _ hrecv
    rw [hinit, hkey] at hsent
    have hnext : (r ++ [src]).head?.getD i = r.head?.getD src := by
      cases r <;> rfl
    rw [hnext]
    refine ih (fun y hy => hcorrect y ?_) (hsent (by simp))
    rcases List.mem_cons.mp hy with rfl | hy
    · exact List.mem_cons_self
    · exact List.mem_cons_of_mem _ (List.mem_append_left _ hy)

/-- In a run of a faithful protocol the recorded paths can be followed back. -/
theorem sent_of_recorded (hP : R.Faithful P) (h₀ : R.Fresh c₀)
    (hc : exec (step P G) c₀ ls = some c) (hi : i ∈ G.correct)
    (hp : q ++ x :: r ∈ R.recorded (c.st i) k) (hcorrect : ∀ y ∈ x :: r, y ∈ G.correct) :
    ∃ msg, R.key msg = k ∧ R.path msg = q ∧
      Occurs (step P G) c₀ ls (Sends P G x (r.head?.getD i) msg) := by
  have hA := Assertion.holds_of_run (arrivals_inductive hP h₀) hc
  exact sent_of_arrived h₀.net hc hA hcorrect ((hA.node i hi).1 k _ hp)

end Relaying

end DistBench.Async
