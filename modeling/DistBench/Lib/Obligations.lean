import DistBench.Lib.Async

/-!
# Obligations to send

A handler that goes over a list of nodes owes a message to each of them from the
moment it starts. `Duties` says what a message obliges its handler to and what a
suspended coroutine still owes; a protocol that is `Honoured` sends it or leaves a
coroutine that owes it.

- `Duties.sent_or_due`, `Duties.sent_or_due_initial`: what was ever owed has been sent or
  is still owed.
- `Config.Quiescent`, `Config.quiescent_iff_stuck`: a network at rest.
- `SentOrDue.received`: in a network at rest what was owed to a correct node has been
  received by it.
- `Retained`, `Retained.of_run`, `Retained.of_handled`: what no segment of a node undoes
  holds of its state once it holds at the start or a handler has established it.
-/

namespace DistBench.Async

variable {ι M S T : Type}

/-- What a node that handles a message owes, and what a suspended coroutine does. -/
structure Duties (ι M T : Type) where
  handling : ι → ι → M → ι → M → Prop
  resting : ι → T → ι → M → Prop

namespace Duties

variable (D : Duties ι M T)

/-- A segment of node `i` sends `m` to `d`, or leaves a coroutine that owes it. -/
def Settles (i : ι) (o : Outcome ι M S T) (d : ι) (m : M) : Prop :=
  (d, m) ∈ o.out ∨ ∃ t ∈ o.rest, D.resting i t d m

/-- The code sends what it owes, or goes on owing it. -/
structure Honoured (P : Protocol ι M S T) : Prop where
  handle : ∀ i s src msg d m, D.handling i src msg d m → D.Settles i (P.handle i s src msg) d m
  resume : ∀ i s t o d m, P.resume i s t = some o → D.resting i t d m → D.Settles i o d m

end Duties

/-- No correct node is about to do anything. -/
def Config.Quiescent (G : Parties ι) (c : Config ι M S T) : Prop :=
  (∀ e ∈ c.net, e.dst ∉ G.correct) ∧ ∀ i ∈ G.correct, c.tasks i = []

instance [DecidableEq ι] [DecidableEq T] (G : Parties ι) (c : Config ι M S T) :
    Decidable (c.Quiescent G) :=
  inferInstanceAs (Decidable (_ ∧ _))

variable [DecidableEq ι] [DecidableEq M] [DecidableEq T] {D : Duties ι M T}
  {P : Protocol ι M S T} {G : Parties ι} {c c' c₀ : Config ι M S T} {l : Label ι M T}
  {ls : Trace ι M T} {i src d : ι} {m msg : M} {t : T}

/-- Where a coroutine can always go on and no node is Byzantine, a network is at rest when
it cannot take a step. -/
theorem Config.quiescent_iff_stuck (htotal : ∀ i s t, P.resume i s t ≠ none)
    (hall : G.byz = ∅) : c.Quiescent G ↔ ∀ l, step P G c l = none := by
  constructor
  · rintro ⟨hnet, htasks⟩ l
    rw [Option.eq_none_iff_forall_ne_some]
    intro c' hl
    obtain ⟨i, o, base, hseg, -⟩ := step_iff.mp hl
    cases hseg with
    | recv he hdst => exact hnet _ he hdst
    | forge hsrc _ => exact Finset.notMem_empty _ (hall ▸ hsrc)
    | wake hi ht _ => exact List.not_mem_nil (htasks _ hi ▸ ht)
  · refine fun h => ⟨fun e he hdst => ?_, fun i hi => ?_⟩
    · have hrecv := h (.recv e)
      rw [step, if_pos ⟨he, hdst⟩] at hrecv
      cases hrecv
    · refine List.eq_nil_iff_forall_not_mem.mpr fun t ht => ?_
      have hwake := h (.wake i t)
      rw [step, if_pos ⟨hi, ht⟩, Option.map_eq_none_iff] at hwake
      exact htotal i (c.st i) t hwake

namespace Duties

variable (D P G c₀) in
/-- Node `i` has sent `m` to `d`, or one of its coroutines owes it. -/
def SentOrDue (ls : Trace ι M T) (c : Config ι M S T) (i d : ι) (m : M) : Prop :=
  Occurs (step P G) c₀ ls (Sends P G i d m) ∨ ∃ t ∈ c.tasks i, D.resting i t d m

/-- The segment that has to see to it does. -/
theorem Settles.sentOrDue {o : Outcome ι M S T} {base : Config ι M S T} (h : D.Settles i o d m)
    (hc : exec (step P G) c₀ ls = some c) (hseg : Segment P G c l i o base) :
    D.SentOrDue P G c₀ (ls ++ [l]) (base.commit i o) i d m := by
  rcases h with hout | ⟨t, ht, hrest⟩
  · exact .inl (occurs_last hc ⟨o, base, hseg, hout⟩)
  · refine .inr ⟨t, ?_, hrest⟩
    rw [Config.commit_tasks_self]
    exact List.mem_append_left _ (Option.mem_toList.mpr ht)

/-- A step sends what is due, or leaves it due. -/
theorem SentOrDue.step (hD : D.Honoured P) (h : D.SentOrDue P G c₀ ls c i d m)
    (hc : exec (Async.step P G) c₀ ls = some c) (hl : Async.step P G c l = some c') :
    D.SentOrDue P G c₀ (ls ++ [l]) c' i d m := by
  rcases h with hsent | ⟨t, ht, hrest⟩
  · exact .inl hsent.append
  obtain ⟨j, o, base, hseg, rfl⟩ := step_iff.mp hl
  by_cases hij : i = j
  · subst hij
    rcases hseg.mem_base_tasks_or ht with hbase | rfl
    · refine .inr ⟨t, ?_, hrest⟩
      rw [Config.commit_tasks_self]
      exact List.mem_append_right _ hbase
    · have hsettles : D.Settles i o d m := by
        cases hseg with
        | wake _ _ ho => exact hD.resume _ _ _ _ _ _ ho hrest
      exact hsettles.sentOrDue hc hseg
  · refine .inr ⟨t, ?_, hrest⟩
    rw [Config.commit_tasks_of_ne hij, hseg.base_tasks_of_ne hij]
    exact ht

/-- What a handled message obliges to has been sent or is due. -/
theorem sent_or_due (hD : D.Honoured P) (hm : D.handling i src msg d m) :
    ∀ ls c, exec (step P G) c₀ ls = some c → Handled ls i src msg →
      D.SentOrDue P G c₀ ls c i d m := by
  refine run_induction (P := fun (ls : Trace ι M T) (c : Config ι M S T) =>
    Handled ls i src msg → D.SentOrDue P G c₀ ls c i d m) (by simp [Handled]) ?_
  intro ls c l c' hc ih hl hh
  rcases hh.of_append with hold | hnew
  · exact (ih hold).step hD hc hl
  · obtain ⟨j, o, base, hseg, rfl⟩ := step_iff.mp hl
    have hsettles := hD.handle i (c.st i) src msg d m hm
    rcases hnew with hnew | hnew
    · obtain rfl := List.mem_singleton.mp hnew
      cases hseg with
      | recv hnet hdst => exact hsettles.sentOrDue hc (.recv hnet hdst)
    · obtain rfl := List.mem_singleton.mp hnew
      cases hseg with
      | forge hsrc hdst => exact hsettles.sentOrDue hc (.forge hsrc hdst)

/-- So has what a coroutine owes from the start. -/
theorem sent_or_due_initial (hD : D.Honoured P) (ht : t ∈ c₀.tasks i)
    (hm : D.resting i t d m) :
    ∀ ls c, exec (step P G) c₀ ls = some c → D.SentOrDue P G c₀ ls c i d m :=
  run_induction (P := fun (ls : Trace ι M T) (c : Config ι M S T) =>
    D.SentOrDue P G c₀ ls c i d m) (.inr ⟨t, ht, hm⟩)
    fun _ _ _ _ hc ih hl => ih.step hD hc hl

/-- **At rest nothing is owed**: what was owed to a correct node has reached it. -/
theorem SentOrDue.received (h : D.SentOrDue P G c₀ ls c i d m)
    (hc : exec (Async.step P G) c₀ ls = some c) (hquiet : c.Quiescent G)
    (hi : i ∈ G.correct) (hd : d ∈ G.correct) : .recv ⟨i, d, m⟩ ∈ ls := by
  rcases h with hsent | ⟨t, ht, -⟩
  · exact (handled_or_in_flight ls c hc hsent).resolve_right fun hnet => hquiet.1 _ hnet hd
  · rw [hquiet.2 i hi] at ht
    cases ht

end Duties

/-! ## What a handler establishes -/

/-- No segment of node `i` makes `K` false. -/
structure Retained (P : Protocol ι M S T) (i : ι) (K : S → Prop) : Prop where
  handle : ∀ s src msg, K s → K (P.handle i s src msg).st
  resume : ∀ s t o, P.resume i s t = some o → K s → K o.st

variable {K : S → Prop}

theorem Retained.segment {o : Outcome ι M S T} {base : Config ι M S T} (hK : Retained P i K)
    (hseg : Segment P G c l i o base) (h : K (c.st i)) : K o.st := by
  cases hseg with
  | recv _ _ => exact hK.handle _ _ _ h
  | forge _ _ => exact hK.handle _ _ _ h
  | wake _ _ ho => exact hK.resume _ _ _ ho h

/-- What is retained stays true from one step to the next. -/
theorem Retained.step (hK : Retained P i K) (hl : Async.step P G c l = some c')
    (h : K (c.st i)) : K (c'.st i) := by
  obtain ⟨j, o, base, hseg, rfl⟩ := step_iff.mp hl
  by_cases hij : i = j
  · subst hij
    rw [Config.commit_st_self]
    exact hK.segment hseg h
  · rw [Config.commit_st_of_ne hij, hseg.base_st]
    exact h

/-- It holds all along if it holds at the start. -/
theorem Retained.of_run (hK : Retained P i K) (h : K (c₀.st i)) :
    ∀ ls c, exec (Async.step P G) c₀ ls = some c → K (c.st i) :=
  run_induction (P := fun (_ : Trace ι M T) (c : Config ι M S T) => K (c.st i)) h
    fun _ _ _ _ _ ih hl => hK.step hl ih

/-- It holds at a node that has handled a message whose handler establishes it. -/
theorem Retained.of_handled (hK : Retained P i K) (hest : ∀ s, K (P.handle i s src msg).st) :
    ∀ ls c, exec (Async.step P G) c₀ ls = some c → Handled ls i src msg → K (c.st i) := by
  refine run_induction (P := fun (ls : Trace ι M T) (c : Config ι M S T) =>
    Handled ls i src msg → K (c.st i)) (by simp [Handled]) ?_
  intro ls c l c' hc ih hl hh
  rcases hh.of_append with hold | hnew
  · exact hK.step hl (ih hold)
  · obtain ⟨j, o, base, hseg, rfl⟩ := step_iff.mp hl
    rcases hnew with hnew | hnew
    all_goals
      obtain rfl := List.mem_singleton.mp hnew
      cases hseg
      rw [Config.commit_st_self]
      exact hest _

end DistBench.Async
