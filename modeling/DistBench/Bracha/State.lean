import DistBench.Deployment
import DistBench.Lib.Dict

/-!
# What the three Bracha algorithms share

`bracha_basic.py`, `bracha.py` and `bracha_optimized.py` keep the same five
dictionaries keyed by `msg_id`, create the five entries of a message together
in `init_state`, and use the same two thresholds.

- `Membership`: a deployment and the `f` its nodes are configured with.
- `BrachaMessage`, `BrachaState`, `initState`, `readyThreshold`,
  `deliverThreshold`: as in the source.
- `Slot`, `BrachaState.slot`: the five entries of one message as a record, with
  the defaults `init_state` writes where there are none yet. Handlers only ever
  touch the slot of the message they handle, so everything that is proved about
  the algorithms is proved about slots; the lemmas below say what each write of
  a handler does to them.
- `SameKeys`: the five dictionaries have the same keys.
- `Writes`: what handlers do to a node's dictionaries, write by write.
-/

namespace DistBench.Bracha

/-- A deployment whose nodes are configured with `f`. -/
structure Membership extends Deployment where
  f : Nat

/-- A Bracha message (bracha_basic.py:10–15; the same fields in bracha.py and
bracha_optimized.py). -/
structure BrachaMessage where
  phase : String
  sender : PeerId
  msgId : String
  payload : String
deriving DecidableEq, Repr

/-- `math.ceil((self.N + self.f + 1) / 2)`. -/
def readyThreshold (N f : Nat) : Nat := (N + f + 2) / 2

/-- `2 * self.f + 1`. -/
def deliverThreshold (f : Nat) : Nat := 2 * f + 1

/-- The truncated division is the ceiling the code takes. -/
theorem readyThreshold_eq_ceil (N f : Nat) :
    readyThreshold N f = ⌈((N + f + 1 : ℕ) : ℚ) / 2⌉₊ := by
  refine (Nat.ceil_eq_iff (by unfold readyThreshold; omega)).mpr ⟨?_, ?_⟩ |>.symm
  · have h : 2 * (readyThreshold N f - 1) < N + f + 1 := by unfold readyThreshold; omega
    have h' : ((2 * (readyThreshold N f - 1) : ℕ) : ℚ) < ((N + f + 1 : ℕ) : ℚ) :=
      Nat.cast_lt.mpr h
    rw [lt_div_iff₀ (by norm_num : (0 : ℚ) < 2)]
    rw [Nat.cast_mul, Nat.cast_ofNat] at h'
    linarith
  · have h : N + f + 1 ≤ 2 * readyThreshold N f := by unfold readyThreshold; omega
    have h' : ((N + f + 1 : ℕ) : ℚ) ≤ ((2 * readyThreshold N f : ℕ) : ℚ) := Nat.cast_le.mpr h
    rw [div_le_iff₀ (by norm_num : (0 : ℚ) < 2)]
    rw [Nat.cast_mul, Nat.cast_ofNat] at h'
    linarith

/-- Two echo quorums overlap in more than `f` of `N` nodes. -/
theorem lt_two_mul_readyThreshold (N f : Nat) : N + f < 2 * readyThreshold N f := by
  unfold readyThreshold
  omega

/-- The per-message dictionaries and the set of messages seen. -/
structure BrachaState where
  seenMessages : Finset String := ∅
  echos : Dict String (Finset PeerId) := ∅
  readys : Dict String (Finset PeerId) := ∅
  sentEcho : Dict String Bool := ∅
  sentReady : Dict String Bool := ∅
  delivered : Dict String Bool := ∅

/-- The five entries of one message. -/
@[ext] structure Slot where
  echos : Finset PeerId := ∅
  readys : Finset PeerId := ∅
  sentEcho : Bool := false
  sentReady : Bool := false
  delivered : Bool := false

namespace BrachaState

variable (s : BrachaState) (m : String) (x : PeerId)

/-- Create the entries of a message, unless it has them. -/
def initState : BrachaState :=
  if m ∈ s.echos then s
  else
    { s with
      echos := s.echos.insert m ∅
      readys := s.readys.insert m ∅
      sentEcho := s.sentEcho.insert m false
      sentReady := s.sentReady.insert m false
      delivered := s.delivered.insert m false }

/-- `self.seen_messages.add(msg_id)`. -/
def see : BrachaState := { s with seenMessages := insert m s.seenMessages }

/-- `self.echos[msg_id].add(x)`. -/
def addEcho : BrachaState :=
  { s with echos := s.echos.insert m (insert x (s.echos.get m ∅)) }

/-- `self.readys[msg_id].add(x)`. -/
def addReady : BrachaState :=
  { s with readys := s.readys.insert m (insert x (s.readys.get m ∅)) }

/-- `self.sent_echo[msg_id] = True`. -/
def markSentEcho : BrachaState := { s with sentEcho := s.sentEcho.insert m true }

/-- `self.sent_ready[msg_id] = True`. -/
def markSentReady : BrachaState := { s with sentReady := s.sentReady.insert m true }

/-- `self.delivered[msg_id] = True`. -/
def markDelivered : BrachaState := { s with delivered := s.delivered.insert m true }

/-- The five entries of a message, with the values `init_state` gives them
where they do not exist yet. -/
def slot : Slot :=
  if m ∈ s.echos then
    { echos := s.echos.get m ∅
      readys := s.readys.get m ∅
      sentEcho := s.sentEcho.get m false
      sentReady := s.sentReady.get m false
      delivered := s.delivered.get m false }
  else {}

/-- The five dictionaries have the same keys. -/
structure SameKeys : Prop where
  readys : ∀ m, m ∈ s.readys ↔ m ∈ s.echos
  sentEcho : ∀ m, m ∈ s.sentEcho ↔ m ∈ s.echos
  sentReady : ∀ m, m ∈ s.sentReady ↔ m ∈ s.echos
  delivered : ∀ m, m ∈ s.delivered ↔ m ∈ s.echos

variable {s m x} {k : String}

@[simp] theorem slot_empty : ({} : BrachaState).slot k = {} := by
  simp [slot]

/-! ## Reading a slot -/

theorem mem_initState : m ∈ (s.initState m).echos := by
  unfold initState
  split
  · assumption
  · simp

theorem mem_initState_of_mem (h : k ∈ s.echos) : k ∈ (s.initState m).echos := by
  unfold initState
  split
  · exact h
  · simp [AList.mem_insert, h]

/-- Creating the entries of a message changes no slot. -/
@[simp] theorem slot_initState : (s.initState m).slot k = s.slot k := by
  unfold initState
  split
  · rfl
  · rename_i hm
    by_cases hk : k = m
    · subst hk
      simp [slot, hm]
    · simp [slot, AList.mem_insert, hk, Dict.get_insert_of_ne hk]

theorem slot_initState_eq : (s.initState m).slot = s.slot := funext fun _ => slot_initState

@[simp] theorem seenMessages_initState : (s.initState m).seenMessages = s.seenMessages := by
  unfold initState
  split <;> rfl

theorem get_echos (h : m ∈ s.echos) : s.echos.get m ∅ = (s.slot m).echos := by
  simp [slot, h]

theorem get_readys (h : m ∈ s.echos) : s.readys.get m ∅ = (s.slot m).readys := by
  simp [slot, h]

theorem get_sentEcho (h : m ∈ s.echos) : s.sentEcho.get m false = (s.slot m).sentEcho := by
  simp [slot, h]

theorem get_sentReady (h : m ∈ s.echos) : s.sentReady.get m false = (s.slot m).sentReady := by
  simp [slot, h]

theorem get_delivered (h : m ∈ s.echos) : s.delivered.get m false = (s.slot m).delivered := by
  simp [slot, h]

/-! ## What the writes of a handler do to the slots -/

@[simp] theorem slot_see : (s.see m).slot k = s.slot k := rfl

theorem slot_see_eq : (s.see m).slot = s.slot := rfl

@[simp] theorem mem_see : k ∈ (s.see m).echos ↔ k ∈ s.echos := Iff.rfl

@[simp] theorem seenMessages_see : (s.see m).seenMessages = insert m s.seenMessages := rfl

@[simp] theorem seenMessages_addEcho : (s.addEcho m x).seenMessages = s.seenMessages := rfl

@[simp] theorem seenMessages_addReady : (s.addReady m x).seenMessages = s.seenMessages := rfl

@[simp] theorem seenMessages_markSentEcho :
    (s.markSentEcho m).seenMessages = s.seenMessages := rfl

@[simp] theorem seenMessages_markSentReady :
    (s.markSentReady m).seenMessages = s.seenMessages := rfl

@[simp] theorem seenMessages_markDelivered :
    (s.markDelivered m).seenMessages = s.seenMessages := rfl

@[simp] theorem mem_addReady : k ∈ (s.addReady m x).echos ↔ k ∈ s.echos := Iff.rfl

@[simp] theorem mem_markSentEcho : k ∈ (s.markSentEcho m).echos ↔ k ∈ s.echos := Iff.rfl

@[simp] theorem mem_markSentReady : k ∈ (s.markSentReady m).echos ↔ k ∈ s.echos := Iff.rfl

@[simp] theorem mem_markDelivered : k ∈ (s.markDelivered m).echos ↔ k ∈ s.echos := Iff.rfl

theorem mem_addEcho (h : m ∈ s.echos) : k ∈ (s.addEcho m x).echos ↔ k ∈ s.echos :=
  Dict.mem_insert_of_mem h

theorem slot_addEcho (h : m ∈ s.echos) :
    (s.addEcho m x).slot = Function.update s.slot m
      { s.slot m with echos := insert x (s.slot m).echos } := by
  funext k
  by_cases hk : k = m
  · subst hk
    rw [Function.update_self]
    simp [slot, addEcho, h]
  · rw [Function.update_of_ne hk]
    simp [slot, addEcho, AList.mem_insert, hk, Dict.get_insert_of_ne hk]

/-- What `echo` finds after its first two lines. -/
theorem slot_initState_addEcho : ((s.initState m).addEcho m x).slot = Function.update s.slot m
    { s.slot m with echos := insert x (s.slot m).echos } := by
  rw [slot_addEcho mem_initState, slot_initState_eq]

theorem mem_initState_addEcho : m ∈ ((s.initState m).addEcho m x).echos :=
  (mem_addEcho mem_initState).mpr mem_initState

theorem slot_addReady (h : m ∈ s.echos) :
    (s.addReady m x).slot = Function.update s.slot m
      { s.slot m with readys := insert x (s.slot m).readys } := by
  funext k
  by_cases hk : k = m
  · subst hk
    rw [Function.update_self]
    simp [slot, addReady, h]
  · rw [Function.update_of_ne hk]
    simp [slot, addReady, Dict.get_insert_of_ne hk]

/-- What `ready` finds after its first two lines. -/
theorem slot_initState_addReady : ((s.initState m).addReady m x).slot = Function.update s.slot m
    { s.slot m with readys := insert x (s.slot m).readys } := by
  rw [slot_addReady mem_initState, slot_initState_eq]

theorem mem_initState_addReady : m ∈ ((s.initState m).addReady m x).echos :=
  mem_initState

theorem slot_markSentEcho (h : m ∈ s.echos) :
    (s.markSentEcho m).slot = Function.update s.slot m
      { s.slot m with sentEcho := true } := by
  funext k
  by_cases hk : k = m
  · subst hk
    rw [Function.update_self]
    simp [slot, markSentEcho, h]
  · rw [Function.update_of_ne hk]
    simp [slot, markSentEcho, Dict.get_insert_of_ne hk]

theorem slot_markSentReady (h : m ∈ s.echos) :
    (s.markSentReady m).slot = Function.update s.slot m
      { s.slot m with sentReady := true } := by
  funext k
  by_cases hk : k = m
  · subst hk
    rw [Function.update_self]
    simp [slot, markSentReady, h]
  · rw [Function.update_of_ne hk]
    simp [slot, markSentReady, Dict.get_insert_of_ne hk]

theorem slot_markDelivered (h : m ∈ s.echos) :
    (s.markDelivered m).slot = Function.update s.slot m
      { s.slot m with delivered := true } := by
  funext k
  by_cases hk : k = m
  · subst hk
    rw [Function.update_self]
    simp [slot, markDelivered, h]
  · rw [Function.update_of_ne hk]
    simp [slot, markDelivered, Dict.get_insert_of_ne hk]

/-! ## The five dictionaries have the same keys -/

theorem sameKeys_empty : ({} : BrachaState).SameKeys := by
  constructor <;> intro m <;> simp

theorem SameKeys.initState (h : s.SameKeys) : (s.initState m).SameKeys := by
  unfold BrachaState.initState
  split
  · exact h
  · constructor <;> intro k <;>
      simp [AList.mem_insert, h.readys k, h.sentEcho k, h.sentReady k, h.delivered k]

theorem SameKeys.see (h : s.SameKeys) : (s.see m).SameKeys :=
  ⟨h.readys, h.sentEcho, h.sentReady, h.delivered⟩

theorem SameKeys.addEcho (h : s.SameKeys) (hm : m ∈ s.echos) : (s.addEcho m x).SameKeys :=
  ⟨fun k => (h.readys k).trans (mem_addEcho hm).symm,
   fun k => (h.sentEcho k).trans (mem_addEcho hm).symm,
   fun k => (h.sentReady k).trans (mem_addEcho hm).symm,
   fun k => (h.delivered k).trans (mem_addEcho hm).symm⟩

theorem SameKeys.addReady (h : s.SameKeys) (hm : m ∈ s.echos) : (s.addReady m x).SameKeys :=
  ⟨fun k => (Dict.mem_insert_of_mem ((h.readys m).mpr hm)).trans (h.readys k),
   h.sentEcho, h.sentReady, h.delivered⟩

theorem SameKeys.markSentEcho (h : s.SameKeys) (hm : m ∈ s.echos) :
    (s.markSentEcho m).SameKeys :=
  ⟨h.readys, fun k => (Dict.mem_insert_of_mem ((h.sentEcho m).mpr hm)).trans (h.sentEcho k),
   h.sentReady, h.delivered⟩

theorem SameKeys.markSentReady (h : s.SameKeys) (hm : m ∈ s.echos) :
    (s.markSentReady m).SameKeys :=
  ⟨h.readys, h.sentEcho,
   fun k => (Dict.mem_insert_of_mem ((h.sentReady m).mpr hm)).trans (h.sentReady k),
   h.delivered⟩

theorem SameKeys.markDelivered (h : s.SameKeys) (hm : m ∈ s.echos) :
    (s.markDelivered m).SameKeys :=
  ⟨h.readys, h.sentEcho, h.sentReady,
   fun k => (Dict.mem_insert_of_mem ((h.delivered m).mpr hm)).trans (h.delivered k)⟩

/-- A dictionary with the keys of `echos` has no entry for a message without a slot. -/
theorem get_of_notMem {α : Type} {d : Dict String α} {a : α} (hkeys : m ∈ d ↔ m ∈ s.echos)
    (hm : m ∉ s.echos) : d.get m a = a := by
  have hd : d.lookup m = none := AList.lookup_eq_none.mpr fun hd => hm (hkeys.mp hd)
  simp [Dict.get, hd]

/-! With equal keys, the entries of a message are its slot, whether it has any or not. -/

theorem get_echos_eq : s.echos.get m ∅ = (s.slot m).echos := by
  by_cases hm : m ∈ s.echos
  · exact get_echos hm
  · simp [slot, hm, get_of_notMem (d := s.echos) Iff.rfl hm]

theorem SameKeys.get_readys (h : s.SameKeys) : s.readys.get m ∅ = (s.slot m).readys := by
  by_cases hm : m ∈ s.echos
  · exact BrachaState.get_readys hm
  · simp [slot, hm, get_of_notMem (h.readys m) hm]

theorem SameKeys.get_sentEcho (h : s.SameKeys) :
    s.sentEcho.get m false = (s.slot m).sentEcho := by
  by_cases hm : m ∈ s.echos
  · exact BrachaState.get_sentEcho hm
  · simp [slot, hm, get_of_notMem (h.sentEcho m) hm]

theorem SameKeys.get_sentReady (h : s.SameKeys) :
    s.sentReady.get m false = (s.slot m).sentReady := by
  by_cases hm : m ∈ s.echos
  · exact BrachaState.get_sentReady hm
  · simp [slot, hm, get_of_notMem (h.sentReady m) hm]

theorem SameKeys.get_delivered (h : s.SameKeys) :
    s.delivered.get m false = (s.slot m).delivered := by
  by_cases hm : m ∈ s.echos
  · exact BrachaState.get_delivered hm
  · simp [slot, hm, get_of_notMem (h.delivered m) hm]

theorem SameKeys.delivered_iff (h : s.SameKeys) :
    s.delivered.get m false = true ↔ (s.slot m).delivered = true := by
  rw [h.get_delivered]

/-! ## Sequences of writes -/

/-- `w` is `v` after some of the writes of the handlers about the messages `P`; an
entry is written only where there is one. -/
inductive Writes (P : String → Prop) (v : BrachaState) : BrachaState → Prop
  | refl : Writes P v v
  | initState {w} {m : String} (h : Writes P v w) (hm : P m) : Writes P v (w.initState m)
  | see {w} {m : String} (h : Writes P v w) (hm : P m) : Writes P v (w.see m)
  | addEcho {w} {m : String} (x : PeerId) (h : Writes P v w) (hm : P m) (hkey : m ∈ w.echos) :
      Writes P v (w.addEcho m x)
  | addReady {w} {m : String} (x : PeerId) (h : Writes P v w) (hm : P m) (hkey : m ∈ w.echos) :
      Writes P v (w.addReady m x)
  | markSentEcho {w} {m : String} (h : Writes P v w) (hm : P m) (hkey : m ∈ w.echos) :
      Writes P v (w.markSentEcho m)
  | markSentReady {w} {m : String} (h : Writes P v w) (hm : P m) (hkey : m ∈ w.echos) :
      Writes P v (w.markSentReady m)
  | markDelivered {w} {m : String} (h : Writes P v w) (hm : P m) (hkey : m ∈ w.echos) :
      Writes P v (w.markDelivered m)

namespace Writes

variable {P : String → Prop} {v w : BrachaState}

theorem sameKeys (h : Writes P v w) (hv : v.SameKeys) : w.SameKeys := by
  induction h with
  | refl => exact hv
  | initState _ _ ih => exact ih.initState
  | see _ _ ih => exact ih.see
  | addEcho x _ _ hkey ih => exact ih.addEcho hkey
  | addReady x _ _ hkey ih => exact ih.addReady hkey
  | markSentEcho _ _ hkey ih => exact ih.markSentEcho hkey
  | markSentReady _ _ hkey ih => exact ih.markSentReady hkey
  | markDelivered _ _ hkey ih => exact ih.markDelivered hkey

/-- No entry goes away. -/
theorem mem (h : Writes P v w) (hk : k ∈ v.echos) : k ∈ w.echos := by
  induction h with
  | refl => exact hk
  | initState _ _ ih => exact mem_initState_of_mem ih
  | addEcho x _ _ hkey ih => exact (mem_addEcho hkey).mpr ih
  | see _ _ ih | addReady _ _ _ _ ih => exact ih
  | markSentEcho _ _ _ ih | markSentReady _ _ _ ih | markDelivered _ _ _ ih => exact ih

/-- The slots of other messages stay as they are … -/
theorem slot_eq (h : Writes P v w) (hk : ¬ P k) : w.slot k = v.slot k := by
  have hne {m : String} (hm : P m) : k ≠ m := fun hkm => hk (hkm ▸ hm)
  induction h with
  | refl => rfl
  | initState _ _ ih => rw [slot_initState, ih]
  | see _ _ ih => exact ih
  | addEcho x _ hm hkey ih => rw [slot_addEcho hkey, Function.update_of_ne (hne hm), ih]
  | addReady x _ hm hkey ih => rw [slot_addReady hkey, Function.update_of_ne (hne hm), ih]
  | markSentEcho _ hm hkey ih => rw [slot_markSentEcho hkey, Function.update_of_ne (hne hm), ih]
  | markSentReady _ hm hkey ih => rw [slot_markSentReady hkey, Function.update_of_ne (hne hm), ih]
  | markDelivered _ hm hkey ih => rw [slot_markDelivered hkey, Function.update_of_ne (hne hm), ih]

/-- … and so does whether they have been seen. -/
theorem mem_seenMessages_iff (h : Writes P v w) (hk : ¬ P k) :
    k ∈ w.seenMessages ↔ k ∈ v.seenMessages := by
  induction h with
  | refl => exact Iff.rfl
  | initState _ _ ih => rw [seenMessages_initState, ih]
  | see _ hm ih =>
    rw [seenMessages_see, Finset.mem_insert, ih, or_iff_right]
    rintro rfl
    exact hk hm
  | addEcho _ _ _ _ ih | addReady _ _ _ _ ih => exact ih
  | markSentEcho _ _ _ ih | markSentReady _ _ _ ih | markDelivered _ _ _ ih => exact ih

end Writes

end BrachaState

end DistBench.Bracha
