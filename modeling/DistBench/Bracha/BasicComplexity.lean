import DistBench.Bracha.BasicTotality
import DistBench.Lib.Obligations
import DistBench.Lib.Potential

/-!
# What a broadcast of bracha_basic.py costs

A node broadcasts an ECHO when it first sees a message and a READY when it first has a
reason to, so what it can still send about a message is known from `seen_messages` and
`sent_ready`. A `Tariff` prices messages and turns; `Tariff.paid` is the invariant: every
segment pays for its turn and for what it sends out of what its message, its coroutine
and its node's state are worth.

- `sentTo_le`: whatever the Byzantine nodes send, a correct node sends each peer one
  READY and one ECHO about a message, and another ECHO only if the message is its own.
- `length_le`: without Byzantine nodes every run is finite.
- `delivered_exactly_of_stuck`: and a run that cannot go on has delivered at every node what
  the senders have broadcast, each once, and nothing else.
-/

namespace DistBench.Bracha.Basic

open DistBench.Async

variable {S : System} {ls : History} {i j : PeerId} {method : Method} {m p q : String}
  {msg : BrachaMessage} {l : Label PeerId Packet Task}
  {c base : Config PeerId Packet NodeState Task} {o : Seg} {v v' : View} {ev : Event}
  {out : List (PeerId × Packet)} {rest : Option Task}

/-! ## Prices -/

/-- What a turn of a node costs, and what a message about `m` costs its sender, for the
messages that count. -/
structure Tariff where
  ids : Finset String
  turn : Nat
  price : PeerId → Method → String → PeerId → Nat

namespace Tariff

variable (T : Tariff) (S)

/-- The price of what is handed to the transport. -/
def sent (i : PeerId) (dm : PeerId × Packet) : Nat :=
  T.price i dm.2.method dm.2.msg.msgId dm.1

/-- Serving the peers: a turn and the price for each, and the turn of the receiver. -/
def serving (i : PeerId) (method : Method) (m : String) (ps : List PeerId) : Nat :=
  (ps.map fun p => T.price i method m p + 2 * T.turn).sum

/-- A broadcast to all peers, with the turn in which the loop ends. -/
def broadcast (i : PeerId) (method : Method) (m : String) : Nat :=
  T.turn + T.serving i method m (S.peers i)

/-- What follows the loop. -/
def after (i : PeerId) : Cont → Nat
  | .sendDone msg => T.broadcast S i .echo msg.msgId
  | _ => 0

/-- What a suspended coroutine can still cost. -/
def task (i : PeerId) : Task → Nat
  | .onStart => T.turn + if S.isSender i then
      T.broadcast S i .send (S.uuid i) + T.broadcast S i .echo (S.uuid i) else 0
  | .bracha method msg ps k => T.turn + T.serving i method msg.msgId ps + T.after S i k

/-- What a node's handlers can still cost about `m`. -/
def owed (i : PeerId) (v : View) (m : String) : Nat :=
  (if m ∈ v.seen then 0 else T.broadcast S i .echo m) +
    if (v.slot m).sentReady then 0 else T.broadcast S i .ready m

/-- The weights: a message in flight costs the turn of its receiver. -/
def weights : Weights PeerId Packet NodeState Task where
  st i s := ∑ m ∈ T.ids, T.owed S i s.view m
  task := T.task S
  msg _ := T.turn

/-- What an event is worth. -/
def worth (i : PeerId) : Event → Nat
  | .handle _ _ => T.turn
  | .resume t => T.task S i t

/-- The messages about `m` are free, or the tariff knows `m`. -/
def Covers (i : PeerId) (m : String) : Prop :=
  m ∈ T.ids ∨ ∀ method, T.broadcast S i method m = 0

variable {T S}

@[simp] theorem serving_nil : T.serving i method m [] = 0 := rfl

@[simp] theorem serving_cons {ps : List PeerId} : T.serving i method m (p :: ps) =
    T.price i method m p + 2 * T.turn + T.serving i method m ps := rfl

@[simp] theorem task_onStart : T.task S i .onStart = T.turn + if S.isSender i then
    T.broadcast S i .send (S.uuid i) + T.broadcast S i .echo (S.uuid i) else 0 := rfl

@[simp] theorem task_loop {ps : List PeerId} {k : Cont} : T.task S i (.bracha method msg ps k) =
    T.turn + T.serving i method msg.msgId ps + T.after S i k := rfl

@[simp] theorem task_bracha {k : Cont} : T.task S i (bracha S i method msg k) =
    T.broadcast S i method msg.msgId + T.after S i k := rfl

/-- A node that goes on seeing and being ready owes less and less … -/
theorem owed_le (hseen : v.seen ⊆ v'.seen)
    (hready : ∀ k, (v.slot k).sentReady = true → (v'.slot k).sentReady = true) (k : String) :
    T.owed S i v' k ≤ T.owed S i v k := by
  refine Nat.add_le_add ?_ ?_
  · by_cases hk : k ∈ v.seen
    · rw [if_pos hk, if_pos (hseen hk)]
    · rw [if_neg hk]
      split
      · exact Nat.zero_le _
      · exact le_rfl
  · by_cases hk : (v.slot k).sentReady = true
    · rw [if_pos hk, if_pos (hready k hk)]
    · rw [if_neg hk]
      split
      · exact Nat.zero_le _
      · exact le_rfl

/-- … and what it does about `m` may cost what it no longer owes. -/
theorem add_sum_owed_le {n : Nat} (hle : ∀ k, T.owed S i v' k ≤ T.owed S i v k)
    (hm : m ∈ T.ids ∨ n = 0) (hpay : n + T.owed S i v' m ≤ T.owed S i v m) :
    n + ∑ k ∈ T.ids, T.owed S i v' k ≤ ∑ k ∈ T.ids, T.owed S i v k := by
  rcases hm with hm | rfl
  · have hothers : ∑ k ∈ T.ids.erase m, T.owed S i v' k ≤ ∑ k ∈ T.ids.erase m, T.owed S i v k :=
      Finset.sum_le_sum fun k _ => hle k
    rw [← Finset.sum_erase_add _ _ hm, ← Finset.sum_erase_add _ _ hm]
    omega
  · rw [Nat.zero_add]
    exact Finset.sum_le_sum fun k _ => hle k

/-- **Every move is paid**: for its turn, for what it sends, and for what it leaves to do. -/
theorem paid (h : Move S i v ev v' out rest)
    (hev : ∀ src pkt, ev = .handle src pkt → T.Covers S i pkt.msg.msgId) :
    (out.map (T.sent i)).sum + (T.turn + (∑ k ∈ T.ids, T.owed S i v' k +
      (rest.toList.map (T.task S i)).sum + (out.map fun _ => T.turn).sum)) ≤
    T.worth S i ev + ∑ k ∈ T.ids, T.owed S i v k := by
  have hle := owed_le (S := S) (T := T) (i := i) h.seen_subset h.sentReady_mono
  have hsum : ∑ k ∈ T.ids, T.owed S i v' k ≤ ∑ k ∈ T.ids, T.owed S i v k :=
    Finset.sum_le_sum fun k _ => hle k
  obtain ⟨n', hn'⟩ : ∃ n', ∑ k ∈ T.ids, T.owed S i v' k = n' := ⟨_, rfl⟩
  rw [hn'] at hsum ⊢
  cases h with
  | sendSeen _ | echoCount _ | idle _ | returns _ => simp [worth, after]; omega
  | readyCount _ _ | readyDone _ => simp [worth, after]; omega
  | @sendNew src msg hnew =>
    -- the ECHO that is broadcast is no longer owed
    have hpay := add_sum_owed_le (m := msg.msgId) (n := T.broadcast S i .echo msg.msgId) hle
      ((hev _ _ rfl).imp_right fun h => h _) (by simp [owed, hnew])
    rw [hn'] at hpay
    simp [worth, after]
    omega
  | @echoTip src msg hnew _ | @readyTip src msg hnew _ =>
    -- and neither is the READY
    have hpay := add_sum_owed_le (m := msg.msgId) (n := T.broadcast S i .ready msg.msgId) hle
      ((hev _ _ rfl).imp_right fun h => h _) (by
        by_cases hseen : msg.msgId ∈ v.seen <;> simp [owed, hnew, hseen, Nat.add_comm])
    rw [hn'] at hpay
    simp [worth, after]
    omega
  | start h => simp [worth, after, h, initialSend]; omega
  | serve => simp [worth, sent]; omega
  | sendDone => simp [worth, after]; omega

/-- **Every segment is paid**, where what Byzantine nodes send need not pay for turns. -/
theorem paid_segment (hc : exec (next S) initial ls = some c)
    (hseg : Segment (protocol S) S.parties c l i o base)
    (hforge : T.turn = 0 ∨ S.parties.byz = ∅)
    (hev : ∀ src pkt, Basic.event l = .handle src pkt → T.Covers S i pkt.msg.msgId) :
    (o.out.map (T.sent i)).sum + (T.turn + (T.weights S).outcome i o) ≤
      (T.weights S).label l + (T.weights S).st i (c.st i) := by
  refine (paid (move_of_segment hc hseg) hev).trans (Nat.add_le_add_right ?_ _)
  cases hseg with
  | recv _ _ | wake _ _ _ => exact le_rfl
  | forge hsrc _ =>
    rcases hforge with hturn | hbyz
    · exact hturn.le
    · exact absurd (hbyz ▸ hsrc) (Finset.notMem_empty _)

end Tariff

/-! ## What a node sends about one message -/

/-- The `method` messages about `m` that node `i` has handed to the transport for `q`. -/
def sentTo (S : System) (i q : PeerId) (method : Method) (m : String) (ls : History) : Nat :=
  tally (next S) (fun c l => if l.node = i then (emitted (protocol S) c l).countP fun dm =>
    dm.1 = q ∧ dm.2.method = method ∧ dm.2.msg.msgId = m else 0) initial ls

/-- The `on_start` of node `i` broadcasts `m`. -/
def Originates (S : System) (i : PeerId) (m : String) : Prop :=
  S.isSender i = true ∧ S.uuid i = m

instance : Decidable (Originates S i m) := inferInstanceAs (Decidable (_ ∧ _))

/-- The messages of one kind about one message, from one node to another. -/
def link (i q : PeerId) (method : Method) (m : String) : Tariff where
  ids := {m}
  turn := 0
  price j method' m' p :=
    if j = i ∧ method' = method ∧ m' = m then if p = q then 1 else 0 else 0

/-- A broadcast serves `q` at most once. -/
theorem broadcast_link_le {method' : Method} {m' : String} (hj : j ∈ S.parties.nodes) :
    (link i q method m).broadcast S j method' m' ≤
      if j = i ∧ method' = method ∧ m' = m then 1 else 0 := by
  by_cases h : j = i ∧ method' = method ∧ m' = m
  · have hcount := List.nodup_iff_count_le_one.mp (S.nodup_peers j hj) q
    simpa [link, Tariff.broadcast, Tariff.serving, h, sum_map_ite, List.count,
      beq_eq_decide] using hcount
  · simp [link, Tariff.broadcast, Tariff.serving, h]

theorem sent_link : (link i q method m).sent j = fun dm : PeerId × Packet =>
    if j = i then if dm.1 = q ∧ dm.2.method = method ∧ dm.2.msg.msgId = m then 1 else 0 else 0 := by
  funext dm
  simp only [Tariff.sent, link]
  split_ifs <;> simp_all

/-- Node `i` pays for what it sends from its own potential. -/
theorem sentTo_le_config (hc : exec (next S) initial ls = some c) :
    sentTo S i q method m ls ≤
      ((link i q method m).weights S).config S.parties initial := by
  have htrue : Meets (step (protocol S) S.parties) initial (fun _ _ _ => True) ls :=
    fun _ _ _ _ _ _ => trivial
  have hle := ((link i q method m).weights S).tally_price_le (link i q method m).sent
    (fun ls c l j o base hc _ hseg => ?_) ls c hc htrue
  · refine le_trans (le_of_eq ?_) hle
    rw [sentTo]
    congr 1
    funext c l
    simp only [sent_link]
    split_ifs with hl
    · rw [sum_map_ite]
    · simp
  · have hpaid := (link i q method m).paid_segment hc hseg (.inl rfl) (fun src pkt _ => ?_)
    · rwa [show (link i q method m).turn = 0 from rfl, Nat.zero_add] at hpaid
    · by_cases hm : pkt.msg.msgId = m
      · exact .inl (Finset.mem_singleton.mpr hm)
      · refine .inr fun method' => ?_
        have hb : (link i q method m).broadcast S j method' pkt.msg.msgId ≤ _ :=
          broadcast_link_le (S.mem_nodes_of_correct hseg.correct)
        rw [if_neg (fun h => hm h.2.2)] at hb
        exact Nat.le_zero.mp hb

/-- What node `i` may send to `q`: its votes, and what its `on_start` broadcasts. -/
def allowance (S : System) (i : PeerId) (m : String) : Method → Nat
  | .send => if Originates S i m then 1 else 0
  | .echo => 1 + if Originates S i m then 1 else 0
  | .ready => 1

theorem node_link_le (hj : j ∈ S.parties.correct) :
    ((link i q method m).weights S).node initial j ≤
      if j = i then allowance S i m method else 0 := by
  have hle (method' : Method) (m' : String) :
      (link i q method m).broadcast S j method' m' ≤
        if j = i ∧ method' = method ∧ m' = m then 1 else 0 :=
    broadcast_link_le (S.mem_nodes_of_correct hj)
  have hecho := hle .echo m
  have hready := hle .ready m
  have hsend := hle .send (S.uuid j)
  have hown := hle .echo (S.uuid j)
  have hnode : ((link i q method m).weights S).node initial j =
      (link i q method m).broadcast S j .echo m + (link i q method m).broadcast S j .ready m +
        if S.isSender j then (link i q method m).broadcast S j .send (S.uuid j) +
          (link i q method m).broadcast S j .echo (S.uuid j) else 0 := by
    simp [Weights.node, Tariff.weights, Tariff.owed, initial, NodeState.view, link]
  rw [hnode]
  clear hnode
  by_cases hji : j = i
  · subst hji
    rw [if_pos rfl]
    simp only [true_and] at hecho hready hsend hown
    cases method <;> by_cases hs : S.isSender j = true <;> by_cases hm : S.uuid j = m <;>
      simp [allowance, Originates, hs, hm] at hecho hready hsend hown ⊢ <;> omega
  · simp_all

/-- **What a correct node sends about a message**, whatever the Byzantine nodes send: each
peer gets at most one READY and one ECHO, and a second ECHO and a SEND only from the node
whose `on_start` broadcasts the message. -/
theorem sentTo_le (S : System) (ls : History) (c : Config PeerId Packet NodeState Task)
    (hc : exec (next S) initial ls = some c) (i q : PeerId) (method : Method) (m : String) :
    sentTo S i q method m ls ≤ allowance S i m method := by
  refine (sentTo_le_config hc).trans ?_
  calc ((link i q method m).weights S).config S.parties initial
      = ∑ j ∈ S.parties.correct, ((link i q method m).weights S).node initial j := by
        rw [Weights.config, initial, List.map_nil, List.sum_nil, Nat.add_zero]
    _ ≤ ∑ j ∈ S.parties.correct, if j = i then allowance S i m method else 0 :=
        Finset.sum_le_sum fun j hj => node_link_le hj
    _ ≤ allowance S i m method := by
        rw [Finset.sum_ite_eq']
        split_ifs
        · exact le_rfl
        · exact Nat.zero_le _

/-- `z` sends `a` the message that `a` is about to broadcast, and `a` echoes it twice. -/
def echoedTwiceRun : History :=
  let sent := initialSend fourNodes "a"
  let echoed := { sent with phase := "echo" }
  [.wake "a" .onStart, .forge ⟨"z", "a", .send, sent⟩] ++
  broadcast fourNodes "a" .echo echoed .handled ++
  broadcast fourNodes "a" .send sent (.sendDone sent) ++
  broadcast fourNodes "a" .echo echoed .echoDone

theorem sentTo_le_echoedTwice :
    sentTo fourNodes "a" "b" .echo "uuid of a" echoedTwiceRun = 2 ∧
      sentTo fourNodes "a" "b" .echo "uuid of a" echoedTwiceRun ≤
        allowance fourNodes "a" "uuid of a" .echo := by
  obtain ⟨c, hc, -⟩ := exists_exec_of_any (next fourNodes) initial echoedTwiceRun
    (fun _ => True) (by decide)
  exact ⟨by decide, sentTo_le fourNodes echoedTwiceRun c hc "a" "b" .echo "uuid of a"⟩

/-! ## What is delivered, once -/

/-- The log holds what is marked as delivered, each message once. -/
structure Logged (v : View) : Prop where
  delivered_iff : ∀ k, (v.slot k).delivered = true ↔ k ∈ v.deliveries.map Prod.fst
  nodup : (v.deliveries.map Prod.fst).Nodup

/-- Whatever leaves the marks alone leaves the log right. -/
theorem Logged.congr (h : Logged v)
    (hmark : ∀ k, (v'.slot k).delivered = (v.slot k).delivered)
    (hlog : v'.deliveries = v.deliveries) : Logged v' where
  delivered_iff k := by
    rw [hmark, hlog]
    exact h.delivered_iff k
  nodup := hlog ▸ h.nodup

theorem Logged.deliver (h : Logged v) (hdel : Deliver S v msg v') : Logged v' := by
  cases hdel with
  | no _ => exact h
  | yes hnew _ =>
    have hfresh : msg.msgId ∉ v.deliveries.map Prod.fst := by
      rw [← h.delivered_iff, hnew]
      exact Bool.false_ne_true
    refine ⟨fun k => ?_, ?_⟩
    · show ((v.set msg.msgId _).slot k).delivered = true ↔ _
      rw [List.map_append, List.mem_append]
      by_cases hk : k = msg.msgId
      · subst hk
        simp
      · rw [View.set_slot_of_ne hk, h.delivered_iff k]
        simp [hk]
    · show ((v.deliveries ++ [(msg.msgId, msg.payload)]).map Prod.fst).Nodup
      rw [List.map_append, List.nodup_append_comm]
      exact List.nodup_cons.mpr ⟨hfresh, h.nodup⟩

theorem Logged.move (h : Logged v) (hmove : Move S i v ev v' out rest) : Logged v' := by
  cases hmove with
  | sendSeen _ | start _ | idle _ | serve | returns _ => exact h
  | sendNew _ | sendDone | echoTip _ _ | echoCount _ | readyTip _ _ =>
    exact h.congr (View.map_set_slot Slot.delivered (by rfl)) rfl
  | readyCount _ hdel =>
    exact Logged.deliver (h.congr (View.map_set_slot Slot.delivered (by rfl)) rfl) hdel
  | readyDone hdel => exact h.deliver hdel

/-! ## Nothing but what has been broadcast -/

/-- What the coroutine does after its loop is about a message that satisfies `R`. -/
def Cont.Carries (R : String → String → Prop) : Cont → Prop
  | .sendDone msg => R msg.msgId msg.payload
  | .readyDone msg => R msg.msgId msg.payload
  | _ => True

/-- The coroutine is about messages that satisfy `R`. -/
def Task.Carries (R : String → String → Prop) : Task → Prop
  | .onStart => True
  | .bracha _ msg _ k => R msg.msgId msg.payload ∧ k.Carries R

/-- And so is what a label starts or continues. -/
def Event.Carries (R : String → String → Prop) : Event → Prop
  | .handle _ pkt => R pkt.msg.msgId pkt.msg.payload
  | .resume t => t.Carries R

variable {R : String → String → Prop}

/-- A move passes on what its event carries. -/
theorem Move.carries (h : Move S i v ev v' out rest) (hev : ev.Carries R)
    (hown : S.isSender i = true → R (S.uuid i) (hello i)) :
    (∀ t ∈ rest, t.Carries R) ∧ (∀ dm ∈ out, R dm.2.msg.msgId dm.2.msg.payload) ∧
      ∀ d ∈ v'.deliveries, d ∈ v.deliveries ∨ R d.1 d.2 := by
  have hkept {v₁ v₂ : View} (h : v₂.deliveries = v₁.deliveries) :
      ∀ d ∈ v₂.deliveries, d ∈ v₁.deliveries ∨ R d.1 d.2 := fun d hd => .inl (h ▸ hd)
  cases h with
  | sendSeen _ | echoCount _ | idle _ | returns _ => exact ⟨nofun, nofun, hkept rfl⟩
  | sendNew _ | echoTip _ _ =>
    refine ⟨fun t ht => ?_, nofun, hkept rfl⟩
    cases ht
    exact ⟨hev, trivial⟩
  | readyTip _ _ =>
    refine ⟨fun t ht => ?_, nofun, hkept rfl⟩
    cases ht
    exact ⟨hev, hev⟩
  | start h =>
    refine ⟨fun t ht => ?_, nofun, hkept rfl⟩
    cases ht
    exact ⟨hown h, hown h⟩
  | serve =>
    refine ⟨fun t ht => ?_, fun dm hdm => ?_, hkept rfl⟩
    · cases ht
      exact hev
    · obtain rfl := List.mem_singleton.mp hdm
      exact hev.1
  | sendDone =>
    refine ⟨fun t ht => ?_, nofun, hkept rfl⟩
    cases ht
    exact ⟨hev.2, trivial⟩
  | readyCount _ hdel =>
    refine ⟨nofun, nofun, fun d hd => (hdel.mem_deliveries hd).imp_right fun h => ?_⟩
    rw [h.1, h.2.1]
    exact hev
  | readyDone hdel =>
    refine ⟨nofun, nofun, fun d hd => (hdel.mem_deliveries hd).imp_right fun h => ?_⟩
    rw [h.1, h.2.1]
    exact hev.2

/-- Some sender's `on_start` broadcasts this. -/
def Broadcast (S : System) (m p : String) : Prop :=
  ∃ s ∈ S.parties.correct, S.isSender s = true ∧ S.uuid s = m ∧ hello s = p

/-- Only what is broadcast is in circulation, and the logs are right. -/
def circulating (S : System) : Assertion PeerId Packet NodeState Task where
  node _ _ s ts := Logged s.view ∧ (∀ d ∈ s.deliveries, Broadcast S d.1 d.2) ∧
    ∀ t ∈ ts, t.Carries (Broadcast S)
  msg _ e := Broadcast S e.msg.msg.msgId e.msg.msg.payload

theorem circulating.carries (hA : (circulating S).Holds S.parties ls c)
    (hall : S.parties.byz = ∅) (hseg : Segment (protocol S) S.parties c l i o base) :
    (event l).Carries (Broadcast S) := by
  cases hseg with
  | recv hnet _ => exact hA.msg _ hnet
  | forge hsrc _ => exact absurd (hall ▸ hsrc) (Finset.notMem_empty _)
  | wake hi ht _ => exact (hA.node _ hi).2.2 _ ht

theorem circulating_inductive (hall : S.parties.byz = ∅) :
    (circulating S).Inductive (protocol S) S.parties initial fun _ _ _ => True where
  init := by
    refine ⟨fun i _ => ⟨⟨?_, ?_⟩, ?_, ?_⟩, ?_, ?_⟩ <;>
      simp [initial, NodeState.view, Task.Carries, BrachaState.slot]
  node_mono _ h := h
  msg_mono h := h
  segment := by
    intro ls c l i o base hc hA _ hseg
    have hmove := move_of_segment hc hseg
    obtain ⟨hlogged, hlog, htasks⟩ := hA.node i hseg.correct
    obtain ⟨hrest, hout, hdel⟩ := hmove.carries (circulating.carries hA hall hseg)
      fun hs => ⟨i, hseg.correct, hs, rfl, rfl⟩
    refine ⟨⟨hlogged.move hmove, fun d hd => ?_, fun t ht => ?_⟩, hout⟩
    · exact (hdel d hd).elim (hlog d) id
    · exact (hseg.mem_rest_or_tasks ht).elim (hrest t) (htasks t)

theorem circulating_of_run (hall : S.parties.byz = ∅) (hc : exec (next S) initial ls = some c) :
    (circulating S).Holds S.parties ls c :=
  Assertion.holds_of_run (circulating_inductive hall) hc

/-! ## Runs without Byzantine nodes -/

/-- The nodes whose `on_start` broadcasts. -/
def senders (S : System) : Finset PeerId := S.parties.correct.filter (S.isSender ·)

/-- One turn for every step, for the messages the senders broadcast. -/
def turns (S : System) : Tariff where
  ids := (senders S).image S.uuid
  turn := 1
  price _ _ _ _ := 0

/-- The turns of one broadcast: one for each peer, one for each receiver, and one to end. -/
def broadcastTurns (S : System) : Nat := 2 * (S.parties.nodes.card - 1) + 1

theorem broadcast_turns (hi : i ∈ S.parties.nodes) :
    (turns S).broadcast S i method m = broadcastTurns S := by
  have hN := S.N_eq hi
  have hlen : (S.peers i).length = S.parties.nodes.card - 1 := by
    rw [← hN, Deployment.N, Nat.add_sub_cancel]
  simp [turns, Tariff.broadcast, Tariff.serving, broadcastTurns, hlen]
  omega

theorem covers_turns (h : Broadcast S m p) : (turns S).Covers S i m := by
  obtain ⟨s, hs, hsender, rfl, -⟩ := h
  exact .inl (Finset.mem_image_of_mem _ (Finset.mem_filter.mpr ⟨hs, hsender⟩))

/-- The turns of a run that handles everything. -/
def runTurns (S : System) : Nat :=
  let n := S.parties.nodes.card
  n + 2 * (senders S).card * (n + 1) * broadcastTurns S

theorem config_turns_le (hall : S.parties.byz = ∅) :
    ((turns S).weights S).config S.parties initial ≤ runTurns S := by
  have hnodes : S.parties.nodes = S.parties.correct := by
    rw [Parties.nodes, hall, Finset.union_empty]
  have hnode : ∀ i ∈ S.parties.correct, ((turns S).weights S).node initial i =
      ((senders S).image S.uuid).card * (2 * broadcastTurns S) +
        (1 + if S.isSender i then 2 * broadcastTurns S else 0) := by
    intro i hi
    have hb (method : Method) (m : String) :
        (turns S).broadcast S i method m = broadcastTurns S :=
      broadcast_turns (S.mem_nodes_of_correct hi)
    simp [Weights.node, Tariff.weights, Tariff.owed, initial, NodeState.view, hb, BrachaState.slot,
      two_mul]
    rfl
  have hids : ((senders S).image S.uuid).card ≤ (senders S).card := Finset.card_image_le
  calc ((turns S).weights S).config S.parties initial
      = ∑ i ∈ S.parties.correct, (((senders S).image S.uuid).card * (2 * broadcastTurns S) +
          (1 + if S.isSender i then 2 * broadcastTurns S else 0)) := by
        rw [Weights.config, initial, List.map_nil, List.sum_nil, Nat.add_zero]
        exact Finset.sum_congr rfl hnode
    _ = S.parties.correct.card * (((senders S).image S.uuid).card * (2 * broadcastTurns S)) +
          (S.parties.correct.card + (senders S).card * (2 * broadcastTurns S)) := by
        rw [Finset.sum_add_distrib, Finset.sum_add_distrib, ← Finset.sum_filter]
        simp [senders]
    _ ≤ S.parties.correct.card * ((senders S).card * (2 * broadcastTurns S)) +
          (S.parties.correct.card + (senders S).card * (2 * broadcastTurns S)) := by
        gcongr
    _ = runTurns S := by
        rw [runTurns, hnodes]
        ring

/-- **Every run without Byzantine nodes is finite.** -/
theorem length_le_runTurns (hall : S.parties.byz = ∅) (hc : exec (next S) initial ls = some c) :
    ls.length ≤ runTurns S := by
  refine (((turns S).weights S).length_le (fun ls c l i o base hc hseg => ?_) hc).trans
    (config_turns_le hall)
  have hcarries := circulating.carries (circulating_of_run hall hc) hall hseg
  have hpaid := (turns S).paid_segment hc hseg (.inr hall) fun src pkt hev => ?_
  · have hturn : (turns S).turn = 1 := rfl
    omega
  · rw [hev] at hcarries
    exact covers_turns hcarries

/-- **Fault-free runs end, and have delivered everything**: without Byzantine nodes every
run is finite, and when no step is left and the nodes suffice for the thresholds, every node has
delivered what the senders have broadcast, each message once, and nothing else. -/
theorem delivered_exactly_of_stuck (S : System) (hall : S.parties.byz = ∅)
    (ls : History) (c : Config PeerId Packet NodeState Task)
    (hc : exec (next S) initial ls = some c) :
    ls.length ≤ runTurns S ∧
      (CorrectSuffice S → (∀ l, next S c l = none) → ∀ i ∈ S.parties.correct,
        (c.st i).deliveries.Nodup ∧
          ∀ m p, (m, p) ∈ (c.st i).deliveries ↔ Broadcast S m p) := by
  refine ⟨length_le_runTurns hall hc, fun hsuff hstuck i hi => ?_⟩
  obtain ⟨hlogged, hlog, -⟩ := (circulating_of_run hall hc).node i hi
  obtain ⟨hnet, htasks⟩ := (Config.quiescent_iff_stuck nofun hall).mpr hstuck
  have hq : Quiescent S c := ⟨hnet, fun i hi => htasks i hi ▸ nofun⟩
  refine ⟨hlogged.nodup.of_map, fun m p => ⟨hlog (m, p), ?_⟩⟩
  rintro ⟨s, hs, hsender, rfl, rfl⟩
  have hdone : OnStartCompleted c s := by
    rw [OnStartCompleted, htasks s hs]
    nofun
  have hdel : (c.st i).vars.delivered.get (S.uuid s) false = true :=
    delivered_of_all_ready hsuff hc hq
      (fun k hk => ready_of_onStartCompleted hsuff hc hq hs hsender hdone hk) hi
  rw [(wellKeyed_of_run hc hi).sameKeys.delivered_iff] at hdel
  obtain ⟨⟨m, p⟩, hmem, rfl⟩ := List.mem_map.mp ((hlogged.delivered_iff _).mp hdel)
  -- the id is one sender's only
  obtain ⟨s', hs', -, huuid, rfl⟩ := hlog _ hmem
  obtain rfl := S.uuid_inj s' (S.mem_nodes_of_correct hs') s (S.mem_nodes_of_correct hs) huuid
  exact hmem

/-- Three correct nodes of which the first broadcasts. -/
def threeNodes : System where
  toDeployment := .ofLists ["a", "b", "c"] [] Cluster.nodup_trio
  f := 0
  isSender i := i = "a"
  uuid i := "uuid of " ++ i
  uuid_inj := by decide

/-- `a` broadcasts, and every message is handled. -/
def threeNodesFullRun : History :=
  let sent := initialSend threeNodes "a"
  let echoed := { sent with phase := "echo" }
  let readied := { sent with phase := "ready" }
  [.wake "a" .onStart, .wake "b" .onStart, .wake "c" .onStart] ++
  broadcast threeNodes "a" .send sent (.sendDone sent) ++
  broadcast threeNodes "a" .echo echoed .echoDone ++ arrive threeNodes "a" .send sent ++
  broadcast threeNodes "b" .echo echoed .handled ++
  broadcast threeNodes "c" .echo echoed .handled ++
  ["a", "b", "c"].flatMap (fun i => arrive threeNodes i .echo echoed) ++
  ["a", "b", "c"].flatMap (fun i => broadcast threeNodes i .ready readied .handled) ++
  ["a", "b", "c"].flatMap fun i => arrive threeNodes i .ready readied

theorem delivered_exactly_of_stuck_threeNodes :
    ∃ c, exec (next threeNodes) initial threeNodesFullRun = some c ∧
      threeNodesFullRun.length ≤ runTurns threeNodes ∧ ∀ i ∈ threeNodes.parties.correct,
        ∀ m p, (m, p) ∈ (c.st i).deliveries ↔ Broadcast threeNodes m p := by
  obtain ⟨c, hc, h⟩ := exists_exec_of_any (next threeNodes) initial threeNodesFullRun
    (fun c => c.Quiescent threeNodes.parties) (by decide)
  obtain ⟨hlen, hdel⟩ := delivered_exactly_of_stuck threeNodes rfl threeNodesFullRun c hc
  have hstuck := (Config.quiescent_iff_stuck (P := protocol threeNodes) nofun rfl).mp
    (of_decide_eq_true h)
  exact ⟨c, hc, hlen, fun i hi => (hdel (by decide) hstuck i hi).2⟩

end DistBench.Bracha.Basic
