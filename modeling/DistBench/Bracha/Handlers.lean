import DistBench.Bracha.Layered

/-!
# A Bracha node in any environment

The handlers of `bracha.py` and `bracha_optimized.py` as coroutines of one node that may
be started at any time, with any arguments, and go on at any time after that. What is
proved here holds whoever sends the messages.

- `Handlers`, `Call`, `Handlers.step`: the node and what its environment makes it do.
- `Counts`, `Effect`: what a segment does to the dictionaries. It counts votes, and then
  sets `sent_ready` and broadcasts a READY, or sets `delivered` and delivers, or neither.
- `Consistent`: the invariant of the dictionaries, which an effect keeps.
- `Reading`, `Guarded`: a node whose segments have effects; `Guarded.inv_of_run` and
  `Guarded.readies_le` are what follows for its runs.
-/

namespace DistBench.Bracha

/-- The coroutines through which a message reaches the node. -/
inductive Handler where
  | dolevDeliver
  | send
  | echo
  | ready
deriving DecidableEq, Repr

/-- The coroutines of a node, as turns. -/
structure Handlers (S K : Type) where
  onStart : S → Turn S K
  call : Handler → S → PeerId → BrachaMessage → Turn S K
  resume : S → K → Turn S K

/-- What the environment makes the node do: a coroutine is started, or goes on. -/
inductive Call (K : Type) where
  | start
  | call (h : Handler) (src : PeerId) (msg : BrachaMessage)
  | wake (k : K)
deriving DecidableEq

variable {S K : Type}

/-- The message a handler is called with. -/
def Call.message : Call K → Option BrachaMessage
  | .call _ _ msg => some msg
  | .start | .wake _ => none

namespace Handlers

variable (H : Handlers S K)

def turn (s : S) : Call K → Turn S K
  | .start => H.onStart s
  | .call h src msg => H.call h s src msg
  | .wake k => H.resume s k

/-- One segment. -/
def step [DecidableEq K] (x : Local S K) (c : Call K) : Option (Local S K) :=
  match c with
  | .wake k =>
    if k ∈ x.suspended then some ((H.resume x.st k).settle (x.suspended.erase k)).1 else none
  | .start => some ((H.onStart x.st).settle x.suspended).1
  | .call h src msg => some ((H.call h x.st src msg).settle x.suspended).1

/-- Inversion of `step`. -/
theorem step_cases [DecidableEq K] {H : Handlers S K} {x x' : Local S K} {c : Call K}
    (h : H.step x c = some x') :
    (∀ k, c = .wake k → k ∈ x.suspended) ∧ x'.st = (H.turn x.st c).st ∧
      ∀ k ∈ x'.suspended, k ∈ (H.turn x.st c).rest ∨ k ∈ x.suspended := by
  cases c with
  | start =>
    obtain rfl := Option.some.inj h
    refine ⟨by simp, rfl, fun k hk => ?_⟩
    exact (List.mem_append.mp hk).imp_left Option.mem_toList.mp
  | call h' src msg =>
    obtain rfl := Option.some.inj h
    refine ⟨by simp, rfl, fun k hk => ?_⟩
    exact (List.mem_append.mp hk).imp_left Option.mem_toList.mp
  | wake k =>
    obtain ⟨hk, h⟩ := Option.ite_none_right_eq_some.mp h
    obtain rfl := Option.some.inj h
    refine ⟨fun k' hk' => by cases hk'; exact hk, rfl, fun k' hk' => ?_⟩
    exact (List.mem_append.mp hk').imp Option.mem_toList.mp List.mem_of_mem_erase

end Handlers

/-- The READYs for `m` that a segment broadcasts. A READY is a message in that phase, and
what `ready` broadcasts before it is suspended there, whatever its phase. -/
def Turn.readies (inReady : K → Bool) (t : Turn S K) (m : String) : Nat :=
  t.acts.countP fun a =>
    a.message.msgId = m ∧ (a.message.phase = "ready" ∨ t.rest.any inReady = true)

/-- The READYs for `m` of a run from `s₀`. -/
def Handlers.readies [DecidableEq K] (H : Handlers S K) (inReady : K → Bool) (s₀ : S)
    (calls : List (Call K)) (m : String) : Nat :=
  tally H.step (fun x c => (H.turn x.st c).readies inReady m) ⟨s₀, []⟩ calls

/-! ## Effects -/

section Effects

variable (N f : Nat) (i : PeerId) (member : PeerId → Prop)

/-- `w` is `v` after some writes that set neither `sent_ready` nor `delivered`. Entries are
written where there are some, and `sent_echo` is set along with the own vote. -/
inductive Counts (i : PeerId) (v : BrachaState) : BrachaState → Prop
  | refl : Counts i v v
  | initState {w : BrachaState} (m : String) (h : Counts i v w) : Counts i v (w.initState m)
  | see {w : BrachaState} (m : String) (h : Counts i v w) : Counts i v (w.see m)
  | addEcho {w : BrachaState} {m : String} (x : PeerId) (h : Counts i v w) (hkey : m ∈ w.echos) :
      Counts i v (w.addEcho m x)
  | addReady {w : BrachaState} {m : String} (x : PeerId) (h : Counts i v w) (hkey : m ∈ w.echos) :
      Counts i v (w.addReady m x)
  | countOwnEcho {w : BrachaState} {m : String} (h : Counts i v w) (hkey : m ∈ w.echos) :
      Counts i v ((w.markSentEcho m).addEcho m i)

/-- What a segment that concerns the messages `msgs` does to the dictionaries and the
deliveries, and the message whose READY it broadcasts. -/
inductive Effect (msgs : Option BrachaMessage) (v : BrachaState) (ds : List (String × String)) :
    BrachaState → List (String × String) → Option String → Prop
  | count {w : BrachaState} (h : Counts i v w) : Effect msgs v ds w ds none
  | ready {w : BrachaState} {msg : BrachaMessage} (hmsg : msg ∈ msgs) (h : Counts i v w)
      (hkey : msg.msgId ∈ w.echos) (hmember : member msg.sender)
      (hnew : (w.slot msg.msgId).sentReady = false)
      (hcard : readyThreshold N f ≤ (w.slot msg.msgId).echos.card ∨
        f + 1 ≤ (w.slot msg.msgId).readys.card) :
      Effect msgs v ds (w.markSentReady msg.msgId) ds (some msg.msgId)
  | deliver {w : BrachaState} {msg : BrachaMessage} (h : Counts i v w)
      (hkey : msg.msgId ∈ w.echos) (hnew : (w.slot msg.msgId).delivered = false)
      (hcard : deliverThreshold f ≤ (w.slot msg.msgId).readys.card) :
      Effect msgs v ds (w.markDelivered msg.msgId) (ds ++ [(msg.msgId, msg.payload)]) none

/-- What is true of the entry of the message `m`. `received` are the messages the handlers
have been called with. -/
structure EntryOk (received : BrachaMessage → Prop) (m : String) (e : Slot) : Prop where
  own : e.sentEcho = true → i ∈ e.echos
  ready : e.sentReady = true → (∃ msg, received msg ∧ msg.msgId = m ∧ member msg.sender) ∧
    (readyThreshold N f ≤ e.echos.card ∨ f + 1 ≤ e.readys.card)
  delivered : e.delivered = true → deliverThreshold f ≤ e.readys.card

/-- The invariant of a node that has made the deliveries `ds`. -/
structure Consistent (received : BrachaMessage → Prop) (v : BrachaState)
    (ds : List (String × String)) : Prop where
  sameKeys : v.SameKeys
  entries : ∀ m, EntryOk N f i member received m (v.slot m)
  logged : ∀ m ∈ ds.map Prod.fst, (v.slot m).delivered = true
  nodup : (ds.map Prod.fst).Nodup

end Effects

variable {N f : Nat} {i : PeerId} {member : PeerId → Prop} {v w : BrachaState} {m : String}
  {ds ds' : List (String × String)} {received received' : BrachaMessage → Prop}
  {msgs : Option BrachaMessage} {label : Option String}

/-- What counting does to an entry. -/
structure Grows (i : PeerId) (a b : Slot) : Prop where
  echos : a.echos ⊆ b.echos
  readys : a.readys ⊆ b.readys
  sentEcho : b.sentEcho = true → a.sentEcho = true ∨ i ∈ b.echos
  sentReady : b.sentReady = a.sentReady
  delivered : b.delivered = a.delivered

theorem Grows.refl (a : Slot) : Grows i a a :=
  ⟨subset_rfl, subset_rfl, .inl, rfl, rfl⟩

theorem Grows.trans {a b c : Slot} (h : Grows i a b) (h' : Grows i b c) : Grows i a c where
  echos := h.echos.trans h'.echos
  readys := h.readys.trans h'.readys
  sentEcho hc := (h'.sentEcho hc).elim
    (fun hb => (h.sentEcho hb).imp_right fun hi => h'.echos hi) .inr
  sentReady := h'.sentReady.trans h.sentReady
  delivered := h'.delivered.trans h.delivered

theorem Counts.grows (h : Counts i v w) (m : String) : Grows i (v.slot m) (w.slot m) := by
  induction h with
  | refl => exact .refl _
  | initState m' _ ih =>
    rw [BrachaState.slot_initState]
    exact ih
  | see m' _ ih => exact ih
  | @addEcho w m' x _ hkey ih =>
    rw [BrachaState.slot_addEcho hkey]
    by_cases hm : m = m'
    · subst hm
      rw [Function.update_self]
      exact ih.trans ⟨Finset.subset_insert _ _, subset_rfl, .inl, rfl, rfl⟩
    · rwa [Function.update_of_ne hm]
  | @addReady w m' x _ hkey ih =>
    rw [BrachaState.slot_addReady hkey]
    by_cases hm : m = m'
    · subst hm
      rw [Function.update_self]
      exact ih.trans ⟨subset_rfl, Finset.subset_insert _ _, .inl, rfl, rfl⟩
    · rwa [Function.update_of_ne hm]
  | @countOwnEcho w m' _ hkey ih =>
    rw [BrachaState.slot_addEcho (s := w.markSentEcho m') hkey, BrachaState.slot_markSentEcho hkey]
    by_cases hm : m = m'
    · subst hm
      rw [Function.update_self, Function.update_self]
      exact ih.trans ⟨Finset.subset_insert _ _, subset_rfl,
        fun _ => .inr (Finset.mem_insert_self _ _), rfl, rfl⟩
    · rwa [Function.update_of_ne hm, Function.update_of_ne hm]

theorem Counts.mem (h : Counts i v w) (hm : m ∈ v.echos) : m ∈ w.echos := by
  induction h with
  | refl => exact hm
  | initState _ _ ih => exact BrachaState.mem_initState_of_mem ih
  | addEcho _ _ hkey ih => exact (BrachaState.mem_addEcho hkey).mpr ih
  | countOwnEcho _ hkey ih => exact (BrachaState.mem_addEcho hkey).mpr ih
  | see _ _ ih | addReady _ _ _ ih => exact ih

theorem Counts.sameKeys (h : Counts i v w) (hv : v.SameKeys) : w.SameKeys := by
  induction h with
  | refl => exact hv
  | initState _ _ ih => exact ih.initState
  | see _ _ ih => exact ih.see
  | addEcho _ _ hkey ih => exact ih.addEcho hkey
  | addReady _ _ hkey ih => exact ih.addReady hkey
  | countOwnEcho _ hkey ih => exact (ih.markSentEcho hkey).addEcho hkey

theorem Effect.mem (h : Effect N f i member msgs v ds w ds' label) (hm : m ∈ v.echos) :
    m ∈ w.echos := by
  cases h with
  | count h => exact h.mem hm
  | ready _ h _ _ _ _ => exact h.mem hm
  | deliver h _ _ _ => exact h.mem hm

theorem Consistent.mono (h : Consistent N f i member received v ds)
    (hreceived : ∀ msg, received msg → received' msg) :
    Consistent N f i member received' v ds where
  sameKeys := h.sameKeys
  entries m :=
    { own := (h.entries m).own
      ready := fun hm =>
        ((h.entries m).ready hm).imp_left fun ⟨msg, hmsg, h⟩ => ⟨msg, hreceived msg hmsg, h⟩
      delivered := (h.entries m).delivered }
  logged := h.logged
  nodup := h.nodup

theorem EntryOk.grows {a b : Slot} (h : EntryOk N f i member received m a) (hab : Grows i a b) :
    EntryOk N f i member received m b where
  own hb := (hab.sentEcho hb).elim (fun ha => hab.echos (h.own ha)) id
  ready hb := (h.ready (hab.sentReady ▸ hb)).imp_right
    (.imp (le_trans · (Finset.card_le_card hab.echos))
      (le_trans · (Finset.card_le_card hab.readys)))
  delivered hb := (h.delivered (hab.delivered ▸ hb)).trans (Finset.card_le_card hab.readys)

theorem Consistent.counts (h : Consistent N f i member received v ds) (hw : Counts i v w) :
    Consistent N f i member received w ds where
  sameKeys := hw.sameKeys h.sameKeys
  entries m := (h.entries m).grows (hw.grows m)
  logged m hm := (hw.grows m).delivered.trans (h.logged m hm)
  nodup := h.nodup

/-- A segment keeps the invariant. -/
theorem Consistent.effect (h : Consistent N f i member received v ds)
    (hw : Effect N f i member msgs v ds w ds' label) (hreceived : ∀ msg ∈ msgs, received msg) :
    Consistent N f i member received w ds' := by
  cases hw with
  | count hw => exact h.counts hw
  | @ready w msg hmsg hw hkey hmember hnew hcard =>
    obtain ⟨hkeys, hentries, hlogged, hnodup⟩ := h.counts hw
    refine ⟨hkeys.markSentReady hkey, ?_, ?_, hnodup⟩
    · rw [BrachaState.slot_markSentReady hkey]
      refine (Function.forall_update_iff _ _).mpr ⟨?_, fun m _ => hentries m⟩
      exact ⟨(hentries _).own, fun _ => ⟨⟨msg, hreceived msg hmsg, rfl, hmember⟩, hcard⟩,
        (hentries _).delivered⟩
    · rw [BrachaState.slot_markSentReady hkey]
      exact (Function.forall_update_iff _
        fun m (e : Slot) => m ∈ ds.map Prod.fst → e.delivered = true).mpr
          ⟨hlogged _, fun m _ => hlogged m⟩
  | @deliver w msg hw hkey hnew hcard =>
    obtain ⟨hkeys, hentries, hlogged, hnodup⟩ := h.counts hw
    have hfirst : msg.msgId ∉ ds.map Prod.fst := fun hm => by
      rw [hlogged _ hm] at hnew
      cases hnew
    refine ⟨hkeys.markDelivered hkey, ?_, ?_, ?_⟩
    · rw [BrachaState.slot_markDelivered hkey]
      refine (Function.forall_update_iff _ _).mpr ⟨?_, fun m _ => hentries m⟩
      exact ⟨(hentries _).own, (hentries _).ready, fun _ => hcard⟩
    · rw [BrachaState.slot_markDelivered hkey, List.map_append, List.map_singleton]
      refine (Function.forall_update_iff _
        fun m (e : Slot) => m ∈ ds.map Prod.fst ++ [msg.msgId] → e.delivered = true).mpr
          ⟨fun _ => rfl, fun m hne hm => ?_⟩
      exact hlogged m ((List.mem_append.mp hm).resolve_right fun h => hne (List.mem_singleton.mp h))
    · rw [List.map_append, List.map_singleton]
      refine List.nodup_append.mpr ⟨hnodup, List.nodup_singleton _, ?_⟩
      rintro m hm _ hm' rfl
      obtain rfl := List.mem_singleton.mp hm'
      exact hfirst hm

/-- The READY of a message is broadcast when `sent_ready` is set. -/
theorem Effect.sentReady (h : Effect N f i member msgs v ds w ds' label) (m : String) :
    (if label = some m then 1 else 0) + (if (w.slot m).sentReady then 0 else 1) ≤
      if (v.slot m).sentReady then 0 else 1 := by
  cases h with
  | count h => simp [(h.grows m).sentReady]
  | @ready w msg _ h hkey _ hnew _ =>
    have hsame := (h.grows m).sentReady
    rw [BrachaState.slot_markSentReady hkey]
    by_cases hm : m = msg.msgId
    · subst hm
      rw [Function.update_self]
      simp [← hsame, hnew]
    · rw [Function.update_of_ne hm]
      simp [Ne.symm hm, hsame]
  | @deliver w msg h hkey _ _ =>
    have hsame := (h.grows m).sentReady
    rw [BrachaState.slot_markDelivered hkey]
    by_cases hm : m = msg.msgId
    · subst hm
      rw [Function.update_self]
      simp [hsame]
    · rw [Function.update_of_ne hm]
      simp [hsame]

/-! ## Runs -/

/-- How to read the states of a node and the points at which its coroutines are suspended. -/
structure Reading (S K : Type) where
  vars : S → BrachaState
  deliveries : S → List (String × String)
  /-- The coroutine is in the READY of `ready`. -/
  inReady : K → Bool
  /-- It will index the entries of the message. -/
  Indexes : K → String → Prop
  /-- It goes on with this message. -/
  message : K → Option BrachaMessage

namespace Reading

variable (R : Reading S K)

/-- The message a segment is about. -/
def concern : Call K → Option BrachaMessage
  | .start => none
  | .call _ _ msg => some msg
  | .wake k => R.message k

/-- What is to be shown of a segment. -/
structure Does (N f : Nat) (i : PeerId) (member : PeerId → Prop) (msgs : Option BrachaMessage)
    (s : S) (t : Turn S K) : Prop where
  effect : ∃ label, Effect N f i member msgs (R.vars s) (R.deliveries s) (R.vars t.st)
    (R.deliveries t.st) label ∧ ∀ m, t.readies R.inReady m = if label = some m then 1 else 0
  keyed : ∀ k ∈ t.rest, ∀ m, R.Indexes k m → m ∈ (R.vars t.st).echos
  about : ∀ k ∈ t.rest, ∀ msg ∈ R.message k, msg ∈ msgs

/-- The segments of the node have effects, as long as the entries they index exist. -/
def Guarded (H : Handlers S K) (N f : Nat) (i : PeerId) (member : PeerId → Prop) : Prop :=
  ∀ s c, (R.vars s).SameKeys → (∀ k, c = .wake k → ∀ m, R.Indexes k m → m ∈ (R.vars s).echos) →
    R.Does N f i member (R.concern c) s (H.turn s c)

end Reading

namespace Reading

variable {R : Reading S K} {s s' s'' : S} {msg : BrachaMessage} {k : K}

/-- A segment has counted votes so far. -/
structure Counted (R : Reading S K) (i : PeerId) (s s' : S) : Prop where
  vars : Counts i (R.vars s) (R.vars s')
  deliveries : R.deliveries s' = R.deliveries s

theorem Counted.silent (h : R.Counted i s s') : R.Does N f i member msgs s { st := s' } where
  effect := by
    refine ⟨none, ?_, fun m => rfl⟩
    rw [h.deliveries]
    exact .count h.vars
  keyed := by simp
  about := by simp

/-- It ends in a broadcast that is no READY. -/
theorem Counted.vote (h : R.Counted i s s') {acts : List Action}
    (hacts : ∀ a ∈ acts, a.message.phase ≠ "ready") (hk : R.inReady k = false)
    (hkeyed : ∀ m, R.Indexes k m → m ∈ (R.vars s').echos)
    (habout : ∀ msg ∈ R.message k, msg ∈ msgs) :
    R.Does N f i member msgs s { st := s', acts := acts, rest := some k } where
  effect := by
    refine ⟨none, ?_, fun m => ?_⟩
    · rw [h.deliveries]
      exact .count h.vars
    · rw [Turn.readies, if_neg (by simp), List.countP_eq_zero]
      intro a ha hready
      simp [hacts a ha, hk] at hready
  keyed := by
    intro k' hk'
    obtain rfl := Option.some.inj hk'
    exact hkeyed
  about := by
    intro k' hk'
    obtain rfl := Option.some.inj hk'
    exact habout

/-- It ends in a READY. -/
theorem Counted.readied (h : R.Counted i s s') {out : BrachaMessage} (hmsg : msg ∈ msgs)
    (hkey : msg.msgId ∈ (R.vars s').echos) (hmember : member msg.sender)
    (hnew : ((R.vars s').slot msg.msgId).sentReady = false)
    (hcard : readyThreshold N f ≤ ((R.vars s').slot msg.msgId).echos.card ∨
      f + 1 ≤ ((R.vars s').slot msg.msgId).readys.card)
    (hvars : R.vars s'' = (R.vars s').markSentReady msg.msgId)
    (hdeliveries : R.deliveries s'' = R.deliveries s')
    (hout : out.msgId = msg.msgId) (hready : out.phase = "ready" ∨ R.inReady k = true)
    (hkeyed : ∀ m, R.Indexes k m → m = msg.msgId) (habout : ∀ msg ∈ R.message k, msg ∈ msgs) :
    R.Does N f i member msgs s { st := s'', acts := [.bracha out], rest := some k } where
  effect := by
    refine ⟨some msg.msgId, ?_, fun m => ?_⟩
    · rw [hvars, hdeliveries, h.deliveries]
      exact .ready hmsg h.vars hkey hmember hnew hcard
    · simp [Turn.readies, Action.message, hout, hready, List.countP_singleton]
  keyed := by
    intro k' hk' m hm
    obtain rfl := Option.some.inj hk'
    obtain rfl := hkeyed m hm
    rw [hvars]
    exact hkey
  about := by
    intro k' hk'
    obtain rfl := Option.some.inj hk'
    exact habout

/-- It ends in a delivery. -/
theorem Counted.delivered (h : R.Counted i s s') (hkey : msg.msgId ∈ (R.vars s').echos)
    (hnew : ((R.vars s').slot msg.msgId).delivered = false)
    (hcard : deliverThreshold f ≤ ((R.vars s').slot msg.msgId).readys.card)
    (hvars : R.vars s'' = (R.vars s').markDelivered msg.msgId)
    (hdeliveries : R.deliveries s'' = R.deliveries s' ++ [(msg.msgId, msg.payload)]) :
    R.Does N f i member msgs s { st := s'' } where
  effect := by
    refine ⟨none, ?_, fun m => rfl⟩
    rw [hvars, hdeliveries, h.deliveries]
    exact .deliver h.vars hkey hnew hcard
  keyed := by simp
  about := by simp

end Reading

/-- The messages the handlers have been called with. -/
def Received (calls : List (Call K)) (msg : BrachaMessage) : Prop :=
  ∃ h src, .call h src msg ∈ calls

namespace Reading.Guarded

variable [DecidableEq K] {R : Reading S K} {H : Handlers S K} {s₀ : S} {x x' : Local S K}
  {calls : List (Call K)} {c : Call K}

/-- The dictionaries of a node that was called like this, and its suspended coroutines. -/
structure Inv (R : Reading S K) (N f : Nat) (i : PeerId) (member : PeerId → Prop)
    (calls : List (Call K)) (x : Local S K) : Prop where
  consistent : Consistent N f i member (Received calls) (R.vars x.st) (R.deliveries x.st)
  keyed : ∀ k ∈ x.suspended, ∀ m, R.Indexes k m → m ∈ (R.vars x.st).echos
  about : ∀ k ∈ x.suspended, ∀ msg ∈ R.message k, Received calls msg

theorem does (hG : R.Guarded H N f i member) (h : Inv R N f i member calls x)
    (hstep : H.step x c = some x') : R.Does N f i member (R.concern c) x.st (H.turn x.st c) := by
  obtain ⟨hwake, -, -⟩ := Handlers.step_cases hstep
  exact hG x.st c h.consistent.sameKeys fun k hk => h.keyed k (hwake k hk)

theorem inv_step (hG : R.Guarded H N f i member) (h : Inv R N f i member calls x)
    (hstep : H.step x c = some x') : Inv R N f i member (calls ++ [c]) x' := by
  obtain ⟨⟨label, heffect, -⟩, hkeyed, habout⟩ := hG.does h hstep
  obtain ⟨hwake, hst, hsuspended⟩ := Handlers.step_cases hstep
  have hold {msg : BrachaMessage} (hmsg : Received calls msg) : Received (calls ++ [c]) msg :=
    hmsg.imp fun h => Exists.imp fun src => List.mem_append_left _
  have hconcern : ∀ msg ∈ R.concern c, Received (calls ++ [c]) msg := by
    intro msg hmsg
    cases c with
    | start => cases hmsg
    | call h src msg' =>
      obtain rfl := Option.some.inj hmsg
      exact ⟨h, src, List.mem_append_right _ (List.mem_singleton.mpr rfl)⟩
    | wake k => exact hold (h.about k (hwake k rfl) msg hmsg)
  refine ⟨?_, fun k hk m hm => ?_, fun k hk msg hmsg => ?_⟩
  · rw [hst]
    exact (h.consistent.mono fun msg => hold).effect heffect hconcern
  · rw [hst]
    rcases hsuspended k hk with hk | hk
    · exact hkeyed k hk m hm
    · exact heffect.mem (h.keyed k hk m hm)
  · rcases hsuspended k hk with hk | hk
    · exact hconcern msg (habout k hk msg hmsg)
    · exact hold (h.about k hk msg hmsg)

/-- The invariant holds in every state a node can reach. -/
theorem inv_of_run (hG : R.Guarded H N f i member) (hvars : R.vars s₀ = {})
    (hdeliveries : R.deliveries s₀ = []) :
    ∀ calls x, exec H.step ⟨s₀, []⟩ calls = some x → Inv R N f i member calls x := by
  refine run_induction (P := Inv R N f i member) ⟨?_, by simp, by simp⟩ ?_
  · rw [hvars, hdeliveries]
    exact ⟨BrachaState.sameKeys_empty, fun m => ⟨by simp, by simp, by simp⟩, by simp, by simp⟩
  · intro calls x c x' _ h hstep
    exact hG.inv_step h hstep

/-- No message gets more than one READY. -/
theorem readies_le (hG : R.Guarded H N f i member) (hvars : R.vars s₀ = {})
    (hdeliveries : R.deliveries s₀ = []) (hx : exec H.step ⟨s₀, []⟩ calls = some x) (m : String) :
    H.readies R.inReady s₀ calls m ≤ 1 := by
  let μ : Local S K → Nat := fun x => if ((R.vars x.st).slot m).sentReady then 0 else 1
  have hdec : ∀ calls x c x', exec H.step ⟨s₀, []⟩ calls = some x → H.step x c = some x' →
      (H.turn x.st c).readies R.inReady m + μ x' ≤ μ x := by
    intro calls x c x' hx hstep
    obtain ⟨⟨label, heffect, hreadies⟩, -, -⟩ :=
      hG.does (hG.inv_of_run hvars hdeliveries calls x hx) hstep
    rw [hreadies]
    simp only [μ, (Handlers.step_cases hstep).2.1]
    exact heffect.sentReady m
  have hle : H.readies R.inReady s₀ calls m + μ x ≤ μ ⟨s₀, []⟩ := tally_add_le hdec calls x hx
  have hstart : μ ⟨s₀, []⟩ ≤ 1 := by
    simp only [μ]
    split <;> omega
  omega

end Reading.Guarded

end DistBench.Bracha
