import DistBench.Bracha.OptimizedProgress

/-!
# Validity at quiescence, with silent faults and without any

When everything about a message has been handled, the READY committee is ready
and its READYs are counted, so a node has delivered if and only if `2f + 1`
*other* nodes of the committee are correct (`Broadcast.delivered_iff`): a node
does not count its own READY.

- The ECHO committee ECHOs. With Single-hop Send not everybody sees the SEND;
  then either a READY has been handled, which makes everybody ECHO, or none has,
  and the nodes that were reached make the rest of the committee amplify.
- Silent faults: `3f + 1` nodes are on the READY committee, so all deliver if
  fewer than `f` of them are silent, and no correct node on the committee does
  if `f` are (`delivered_iff_silent_lt`).
- No faults: under every setting of the flags all deliver
  (`delivered_of_faultFree`).
-/

namespace DistBench.Bracha.Optimized

open DistBench.Async

variable {S : System} {ls : History} {s : PeerId} {k : Nat} {m : String}
  {c : Config PeerId Packet NodeState Task}

/-! ## Settled states -/

/-- Every message about `m` to a correct node has been handled, and no coroutine
of a correct node has anything left to do about it. -/
def Settled (S : System) (c : Config PeerId Packet NodeState Task) (m : String) : Prop :=
  (∀ e ∈ c.net, e.dst ∈ S.parties.correct → e.msg.msg.msgId ≠ m) ∧
    ∀ i ∈ S.parties.correct, ∀ t, .suspended t ∈ c.tasks i → ¬ t.About S i m

/-- A run without messages from outside the protocol, at a point where message
`k` of the correct node `s` has been taken up and has settled. -/
structure Broadcast (S : System) (s : PeerId) (k : Nat) (ls : History)
    (c : Config PeerId Packet NodeState Task) : Prop where
  run : exec (next S) initial ls = some c
  silent : Silent ls
  sender : s ∈ S.parties.correct
  originated : Occurs (next S) initial ls (Originates S s (S.uuid s k))
  settled : Settled S c (S.uuid s k)

/-- The correct nodes of the ECHO committee … -/
def echoers (S : System) (s : PeerId) : Finset PeerId := echoCommittee S s ∩ S.parties.correct

/-- … and of the READY committee. -/
def readiers (S : System) (s : PeerId) : Finset PeerId := readyCommittee S s ∩ S.parties.correct

/-- The correct nodes that `on_start` of node `s` hands its SENDs to. -/
def reached (S : System) (s : PeerId) : Finset PeerId := (targets S s).toFinset ∩ S.parties.correct

namespace Broadcast

variable (hb : Bounds S) (hids : UniqueIds S) (h : Broadcast S s k ls c)

include h in
theorem sender_mem : s ∈ S.parties.nodes := S.mem_nodes_of_correct h.sender

include hb hids h in
theorem progress (hi : i ∈ S.parties.correct) :
    Progress S s k ls i (entry (c.st i).vars (S.uuid s k)) (c.tasks i) :=
  progress_of_silent hb hids h.sender_mem h.run h.silent hi

include h in
/-- What was sent to a correct node has been handled. -/
theorem handled {i j : PeerId} {p : Packet} (hj : j ∈ S.parties.correct)
    (hm : p.msg.msgId = S.uuid s k)
    (hsent : Occurs (next S) initial ls (Sends (protocol S) S.parties i j p)) :
    Handled ls j i p := by
  rcases handled_or_in_flight ls c h.run hsent with hrecv | hnet
  · exact .inl hrecv
  · exact absurd hm (h.settled.1 _ hnet hj)

include hb hids h in
/-- A vote has been counted by the other correct nodes. -/
theorem counted {phase : String} {i j : PeerId} (hi : i ∈ S.parties.correct)
    (hj : j ∈ S.parties.correct) (hji : j ≠ i) (hvote : Voted S ls i phase (S.uuid s k)) :
    (phase = "echo" → i ∈ (entry (c.st j).vars (S.uuid s k)).echos) ∧
      (phase = "ready" → i ∈ (entry (c.st j).vars (S.uuid s k)).readys) := by
  obtain ⟨msg, hm, rfl, hsent⟩ := hvote
  have hpeer : j ∈ S.peers i :=
    (S.mem_peers i (S.mem_nodes_of_correct hi) j).mpr ⟨S.mem_nodes_of_correct hj, hji⟩
  exact ((h.progress hb hids hj).counted i _ (h.handled hj hm (hsent j hpeer)) hm).2

include hb hids h in
/-- `on_start` has sent the message to all it sends it to, and they have seen
it, as has the node itself. -/
theorem seen {i : PeerId} (hi : i ∈ S.parties.correct) (hway : i = s ∨ i ∈ targets S s) :
    (entry (c.st i).vars (S.uuid s k)).seen = true := by
  have hlaunched := (h.progress hb hids h.sender).launched rfl h.originated
  rcases hlaunched with ⟨t, ps, hmem, ht, -⟩ | ⟨hseen, hall⟩
  · exact absurd ht.about (h.settled.2 s h.sender t hmem)
  rcases hway with rfl | htarget
  · exact hseen
  obtain ⟨q, hmsg, hphase, hsent⟩ := hall i htarget
  have hm : q.msg.msgId = S.uuid s k := congrArg BrachaMessage.msgId hmsg
  exact ((h.progress hb hids hi).counted s q (h.handled hi hm hsent) hm).1 hphase

include hb hids h in
/-- Every READY has been counted by all correct nodes. -/
theorem mem_readys_iff {i j : PeerId} (hj : j ∈ S.parties.correct) :
    i ∈ (entry (c.st j).vars (S.uuid s k)).readys ↔
      i ≠ j ∧ i ∈ S.parties.correct ∧ Voted S ls i "ready" (S.uuid s k) := by
  constructor
  · intro hi
    obtain ⟨hcorr, -, hji, hvote⟩ := (h.progress hb hids hj).backed i hi
    exact ⟨hji, hcorr, hvote⟩
  · rintro ⟨hij, hi, hvote⟩
    exact (h.counted hb hids hi hj hij.symm hvote).2 rfl

include hb hids h in
/-- A node that has sent its ECHO, and is on the committee or has handled no
READY, has it counted by the others. -/
theorem mem_echos {i j : PeerId} (hi : i ∈ S.parties.correct) (hj : j ∈ S.parties.correct)
    (hij : i ≠ j) (hsent : (entry (c.st i).vars (S.uuid s k)).sentEcho = true)
    (hway : i ∈ echoCommittee S s ∨ (entry (c.st i).vars (S.uuid s k)).readys = ∅) :
    i ∈ (entry (c.st j).vars (S.uuid s k)).echos :=
  (h.counted hb hids hi hj hij.symm ((h.progress hb hids hi).echoed hsent hway)).1 rfl

include hb hids h in
/-- Once a READY has been handled somewhere, the whole ECHO committee ECHOs. -/
theorem sentEcho_of_ready (hamp : S.enableEchoAmplification = true)
    (hcard : S.f + 2 ≤ (echoers S s).card) {i j : PeerId} (hj : j ∈ S.parties.correct)
    (hready : i ∈ (entry (c.st j).vars (S.uuid s k)).readys) {x : PeerId}
    (hx : x ∈ echoers S s) : (entry (c.st x).vars (S.uuid s k)).sentEcho = true := by
  obtain ⟨-, hi, hvote⟩ := (h.mem_readys_iff hb hids hj).mp hready
  obtain ⟨hmember, hcorr⟩ := Finset.mem_inter.mp hx
  have hother {y : PeerId} (hy : y ∈ S.parties.correct) (hyi : y ≠ i) :
      (entry (c.st y).vars (S.uuid s k)).sentEcho = true :=
    (h.progress hb hids hy).answered hamp
      ⟨i, (h.mem_readys_iff hb hids hy).mpr ⟨hyi.symm, hi, hvote⟩⟩
  by_cases hxi : x = i
  swap
  · exact hother hcorr hxi
  -- the node whose READY it is has the ECHOs of the others
  refine (h.progress hb hids hcorr).amplify hamp hmember ?_
  have hsub : (echoers S s).erase x ⊆ (entry (c.st x).vars (S.uuid s k)).echos := by
    intro y hy
    obtain ⟨hyx, hy⟩ := Finset.mem_erase.mp hy
    obtain ⟨hym, hyc⟩ := Finset.mem_inter.mp hy
    exact h.mem_echos hb hids hyc hcorr hyx (hother hyc (hxi ▸ hyx)) (.inl hym)
  have hle := Finset.card_le_card hsub
  rw [Finset.card_erase_of_mem hx] at hle
  omega

include hb hids h in
/-- The ECHO committee ECHOs. -/
theorem sentEcho (hcard : S.f + 2 ≤ (echoers S s).card)
    (hkick : S.enableSingleHopSend = true → S.f + 1 ≤ (reached S s).card) {x : PeerId}
    (hx : x ∈ echoers S s) : (entry (c.st x).vars (S.uuid s k)).sentEcho = true := by
  obtain ⟨hmember, hcorr⟩ := Finset.mem_inter.mp hx
  by_cases hsee : x = s ∨ x ∈ targets S s
  · exact (h.progress hb hids hcorr).saw (.inr hmember) (h.seen hb hids hcorr hsee)
  -- only single-hop SENDs leave somebody out
  have hhop : S.enableSingleHopSend = true := by
    by_contra hhop
    refine hsee ?_
    rw [targets, if_neg hhop, S.mem_peers s h.sender_mem]
    by_cases hxs : x = s
    · exact .inl hxs
    · exact .inr ⟨S.mem_nodes_of_correct hcorr, hxs⟩
  have hamp := S.admissible hhop
  by_cases hready : ∃ i, ∃ j ∈ S.parties.correct,
      i ∈ (entry (c.st j).vars (S.uuid s k)).readys
  · obtain ⟨i, j, hj, hready⟩ := hready
    exact h.sentEcho_of_ready hb hids hamp hcard hj hready hx
  -- no READY has been handled: all the nodes that were reached have sent ECHOs
  refine (h.progress hb hids hcorr).amplify hamp hmember ((hkick hhop).trans ?_)
  refine Finset.card_le_card fun y hy => ?_
  obtain ⟨hyt, hyc⟩ := Finset.mem_inter.mp hy
  have hyt := List.mem_toFinset.mp hyt
  have hyx : y ≠ x := by
    rintro rfl
    exact hsee (.inr hyt)
  have hys : y ≠ s := by
    rw [targets, if_pos hhop] at hyt
    exact neighbourPeers_ne h.sender_mem hyt
  refine h.mem_echos hb hids hyc hcorr hyx ?_ (.inr ?_)
  · exact (h.progress hb hids hyc).saw (.inl ⟨hhop, hys⟩) (h.seen hb hids hyc (.inr hyt))
  · rw [← Finset.not_nonempty_iff_eq_empty]
    rintro ⟨i, hi⟩
    exact hready ⟨i, y, hyc, hi⟩

include hb hids h in
/-- The READY committee becomes ready. -/
theorem sentReady (hkick : S.enableSingleHopSend = true → S.f + 1 ≤ (reached S s).card)
    {x : PeerId} (hx : x ∈ readiers S s)
    (hquota : quota S x ≤ ((echoers S s).erase x).card) :
    (entry (c.st x).vars (S.uuid s k)).sentReady = true := by
  obtain ⟨hmember, hcorr⟩ := Finset.mem_inter.mp hx
  have hxe : x ∈ echoers S s :=
    Finset.mem_inter.mpr ⟨readyCommittee_subset hb.nodes hmember, hcorr⟩
  have hcard : S.f + 2 ≤ (echoers S s).card := by
    have hle := (quota_pos hb (S.mem_nodes_of_correct hcorr)).trans hquota
    have hpos := Finset.card_pos.mpr ⟨x, hxe⟩
    rw [Finset.card_erase_of_mem hxe] at hle
    omega
  have hsub : (echoers S s).erase x ⊆
      (entry (c.st x).vars (S.uuid s k)).echos.erase x := by
    intro y hy
    obtain ⟨hyx, hy⟩ := Finset.mem_erase.mp hy
    obtain ⟨hym, hyc⟩ := Finset.mem_inter.mp hy
    exact Finset.mem_erase.mpr ⟨hyx,
      h.mem_echos hb hids hyc hcorr hyx (h.sentEcho hb hids hcard hkick hy) (.inl hym)⟩
  rcases (h.progress hb hids hcorr).tripped hmember (hquota.trans (Finset.card_le_card hsub)) with
    hready | ⟨msg, hmem, hm⟩
  · exact hready
  · exact absurd hm (h.settled.2 x hcorr _ hmem)

include hb hids h in
/-- A correct node has delivered if and only if there are `2f + 1` other correct
nodes on the READY committee. -/
theorem delivered_iff (hkick : S.enableSingleHopSend = true → S.f + 1 ≤ (reached S s).card)
    (hquota : ∀ x ∈ readiers S s, quota S x ≤ ((echoers S s).erase x).card) {j : PeerId}
    (hj : j ∈ S.parties.correct) :
    (c.st j).vars.delivered.get (S.uuid s k) false = true ↔
      deliverThreshold S.f ≤ ((readiers S s).erase j).card := by
  have hprogress := h.progress hb hids hj
  have hreadys : (entry (c.st j).vars (S.uuid s k)).readys = (readiers S s).erase j := by
    ext i
    rw [Finset.mem_erase, readiers, Finset.mem_inter]
    constructor
    · intro hi
      obtain ⟨hcorr, hmember, hij, -⟩ := hprogress.backed i hi
      exact ⟨hij, hmember, hcorr⟩
    · rintro ⟨hij, hi⟩
      have hi' : i ∈ readiers S s := Finset.mem_inter.mpr hi
      have hready := h.sentReady hb hids hkick hi' (hquota i hi')
      exact (h.mem_readys_iff hb hids hj).mpr
        ⟨hij, hi.2, (h.progress hb hids hi.2).readied hready⟩
  rw [(wellKeyed_of_run h.run hj).sameKeys.delivered_iff, ← hreadys]
  refine ⟨hprogress.delivered, fun hcard => ?_⟩
  rcases hprogress.delivering hcard with hdel | ⟨t, msg, hmem, ht, hm⟩
  · exact hdel
  · refine absurd ?_ (h.settled.2 j hj t hmem)
    rcases ht with rfl | rfl
    · exact hm
    · exact hm

end Broadcast

/-! ## Silent faults -/

theorem card_neighbourPeers (hs : s ∈ S.parties.nodes) :
    (neighbourPeers S s).toFinset.card = (neighbourPeers S s).length :=
  List.toFinset_card_of_nodup ((S.nodup_peers s hs).filter _)

theorem neighbourPeers_subset (hs : s ∈ S.parties.nodes) :
    (neighbourPeers S s).toFinset ⊆ S.parties.nodes := fun p hp =>
  ((S.mem_peers s hs p).mp (List.mem_of_mem_filter (List.mem_toFinset.mp hp))).1

/-- **Silent faults**, with all optimisations on (Reduced Messages makes no
difference to Single-hop Send): when message `k` of a correct sender with
`2f + 1` neighbours has settled, every correct node has delivered it if and only
if fewer than `f` nodes of the READY committee are silent. -/
theorem delivered_iff_silent_lt (S : System) (hhop : S.enableSingleHopSend = true)
    (hpos : 1 ≤ S.f) (hN : 3 * S.f + 1 ≤ S.parties.nodes.card)
    (hf : S.parties.byz.card ≤ S.f) (hids : UniqueIds S) (s : PeerId)
    (hs : s ∈ S.parties.correct) (hneighbours : 2 * S.f + 1 ≤ (neighbourPeers S s).length)
    (k : Nat) (ls : History) (c : Config PeerId Packet NodeState Task)
    (hc : exec (next S) initial ls = some c) (hsilent : Silent ls)
    (horig : Occurs (next S) initial ls (Originates S s (S.uuid s k)))
    (hsettled : Settled S c (S.uuid s k)) :
    (∀ j ∈ S.parties.correct, (c.st j).vars.delivered.get (S.uuid s k) false = true) ↔
      (S.parties.byz.filter fun i => shouldGenerateReady S i s = true).card < S.f := by
  have hsn := S.mem_nodes_of_correct hs
  have hsilent_eq : (S.parties.byz.filter fun i => shouldGenerateReady S i s = true) =
      readyCommittee S s ∩ S.parties.byz := by
    ext i
    rw [Finset.mem_filter, Finset.mem_inter, and_comm]
    refine and_congr_left fun hi => shouldGenerateReady_iff (Parties.mem_nodes.mpr (.inr hi)) hsn
  rw [hsilent_eq]
  have h : Broadcast S s k ls c := ⟨hc, hsilent, hs, horig, hsettled⟩
  have hreadiers : (readiers S s).card + (readyCommittee S s ∩ S.parties.byz).card =
      3 * S.f + 1 := by
    rw [← card_readyCommittee hN (s := s)]
    exact Parties.card_inter_add fun i => mem_nodes_of_mem_readyCommittee
  have hbyz : (readyCommittee S s ∩ S.parties.byz).card ≤ S.f :=
    (Finset.card_le_card Finset.inter_subset_right).trans hf
  have hechoers : readyThreshold S.parties.nodes.card S.f ≤ (echoers S s).card := by
    have hle : (echoCommittee S s).card ≤ (echoers S s).card + S.f :=
      Parties.card_le_correct_add (fun i => mem_nodes_of_mem_echoCommittee) hf
    rw [card_echoCommittee hN] at hle
    omega
  have hkick (_ : S.enableSingleHopSend = true) : S.f + 1 ≤ (reached S s).card := by
    have hle : (neighbourPeers S s).toFinset.card ≤
        ((neighbourPeers S s).toFinset ∩ S.parties.correct).card + S.f :=
      Parties.card_le_correct_add (neighbourPeers_subset hsn) hf
    rw [card_neighbourPeers hsn] at hle
    rw [reached, targets, if_pos hhop]
    omega
  have hquota : ∀ x ∈ readiers S s, quota S x ≤ ((echoers S s).erase x).card := by
    intro x hx
    have hle := Finset.pred_card_le_card_erase (s := echoers S s) (a := x)
    rw [quota, if_pos (S.admissible hhop),
      S.N_eq (S.mem_nodes_of_correct (Finset.mem_inter.mp hx).2)]
    omega
  have hiff := fun {j} (hj : j ∈ S.parties.correct) =>
    h.delivered_iff ⟨hf, hpos, hN⟩ hids hkick hquota hj
  constructor
  · intro hall
    -- a node of the committee does not count its own READY
    obtain ⟨x, hx⟩ : (readiers S s).Nonempty := Finset.card_pos.mp (by omega)
    have hcard := (hiff (Finset.mem_inter.mp hx).2).mp (hall x (Finset.mem_inter.mp hx).2)
    rw [Finset.card_erase_of_mem hx] at hcard
    unfold deliverThreshold at hcard
    omega
  · intro hlt j hj
    refine (hiff hj).mpr ?_
    have hle := Finset.pred_card_le_card_erase (s := readiers S s) (a := j)
    unfold deliverThreshold
    omega

/-! ### Six nodes, one of them silent, and four -/

/-- `a` sends, with all optimisations on. -/
def hopSystem (correct byz neighbours : List PeerId) (h : (correct ++ byz).Nodup) : System where
  toDeployment := .ofLists correct byz h
  f := 1
  isSender i := i = "a"
  enableEchoAmplification := true
  enableSingleHopSend := true
  enableReducedMessages := true
  admissible _ := rfl
  numMessages := 1
  uuid i k := i ++ String.ofList (List.replicate k '+')
  neighbours _ := neighbours.toFinset

theorem uniqueIds_hopSystem {correct byz neighbours : List PeerId} {h : (correct ++ byz).Nodup}
    (hone : ∀ i ∈ (hopSystem correct byz neighbours h).parties.nodes, i.toList.length = 1) :
    UniqueIds (hopSystem correct byz neighbours h) := by
  intro i hi j hj k k' heq
  have hlist := congrArg String.toList heq
  simp only [hopSystem, String.toList_append, String.toList_ofList] at hlist
  obtain ⟨hij, hk⟩ := List.append_inj hlist ((hone i hi).trans (hone j hj).symm)
  exact ⟨String.toList_injective hij, by simpa using congrArg List.length hk⟩

/-- Nothing is left to do. -/
def Idle (S : System) (c : Config PeerId Packet NodeState Task) : Prop :=
  (∀ e ∈ c.net, e.dst ∉ S.parties.correct) ∧ ∀ i ∈ S.parties.correct, c.tasks i = []

instance : Decidable (Idle S c) := inferInstanceAs (Decidable (_ ∧ _))

theorem Idle.settled (h : Idle S c) : Settled S c m := by
  refine ⟨fun e he hdst => absurd hdst (h.1 e he), fun i hi t ht => ?_⟩
  rw [h.2 i hi] at ht
  cases ht

/-- The READY committee of `a` are `b`, `c`, `d` and `e`. -/
abbrev sixNodes : System := hopSystem ["a", "b", "c", "d", "e"] ["f"] ["b", "c", "d"] (by decide)

/-- `a` broadcasts, everything is handled, and `f` is silent. -/
def sixRun : History :=
  schedule (protocol sixNodes) sixNodes.parties ["a", "b", "c", "d", "e"] 120 initial

theorem delivered_iff_silent_lt_sixNodes :
    ∃ c, exec (next sixNodes) initial sixRun = some c ∧ Idle sixNodes c ∧
      ∀ j ∈ sixNodes.parties.correct, (c.st j).vars.delivered.get "a" false = true := by
  obtain ⟨c, hc, hidle⟩ := exists_exec_of_any (next sixNodes) initial sixRun
    (fun c => Idle sixNodes c) (by decide +kernel)
  have hidle := of_decide_eq_true hidle
  have horig : Occurs (next sixNodes) initial sixRun (Originates sixNodes "a" "a") :=
    ⟨[], .wake "a" .onStart, sixRun.tail, initial, by decide +kernel, rfl, 0, by decide, _, _,
      .wake (by decide) (by decide) rfl, .inr rfl⟩
  refine ⟨c, hc, hidle, (delivered_iff_silent_lt sixNodes rfl (by decide) (by decide) (by decide)
    (uniqueIds_hopSystem (by decide)) "a" (by decide) (by decide) 0 sixRun c hc
    (fun e => forge_not_mem_schedule) horig hidle.settled).mpr (by decide +kernel)⟩

/-- With `d` silent a READY is missing. -/
abbrev fourNodes : System :=
  hopSystem ["a", "b", "c"] ["d"] ["b", "c", "d"] Cluster.nodup_threeAndOne

/-- `a` broadcasts, everything is handled, and `d` is silent. -/
def fourRun : History :=
  schedule (protocol fourNodes) fourNodes.parties ["a", "b", "c"] 120 initial

/-- At `N = 3f + 1` the correct nodes do not tolerate `f` silent ones. -/
theorem fourRun_not_delivered :
    ¬ ∀ (S : System) (s : PeerId) (k : Nat) (ls : History)
      (c : Config PeerId Packet NodeState Task), S.enableEchoAmplification = true →
      S.enableSingleHopSend = true → S.enableReducedMessages = true → 1 ≤ S.f →
      3 * S.f + 1 ≤ S.parties.nodes.card → S.parties.byz.card ≤ S.f → UniqueIds S →
      s ∈ S.parties.correct → 2 * S.f + 1 ≤ (neighbourPeers S s).length →
      exec (next S) initial ls = some c → Silent ls →
      Occurs (next S) initial ls (Originates S s (S.uuid s k)) → Settled S c (S.uuid s k) →
      ∀ j ∈ S.parties.correct, (c.st j).vars.delivered.get (S.uuid s k) false = true := by
  intro h
  obtain ⟨c, hc, hrun⟩ := exists_exec_of_any (next fourNodes) initial fourRun
    (fun c => Idle fourNodes c ∧ (c.st "a").vars.delivered.get "a" false = false)
    (by decide +kernel)
  obtain ⟨hidle, hnot⟩ := of_decide_eq_true hrun
  have horig : Occurs (next fourNodes) initial fourRun (Originates fourNodes "a" "a") :=
    ⟨[], .wake "a" .onStart, fourRun.tail, initial, by decide +kernel, rfl, 0, by decide, _, _,
      .wake (by decide) (by decide) rfl, .inr rfl⟩
  have hdel := h fourNodes "a" 0 fourRun c rfl rfl rfl (by decide) (by decide) (by decide)
    (uniqueIds_hopSystem (by decide)) (by decide) (by decide) hc (fun e => forge_not_mem_schedule)
    horig hidle.settled "a" (by decide)
  exact Bool.false_ne_true (hnot.symm.trans hdel)

/-! ## No faults -/

/-- **No faults**, under every setting of the flags: when message `k` of a sender,
with `f + 1` neighbours if Single-hop Send is on, has settled, every node has
delivered it. -/
theorem delivered_of_faultFree (S : System) (hbyz : S.parties.byz = ∅) (hpos : 1 ≤ S.f)
    (hN : 3 * S.f + 1 ≤ S.parties.nodes.card) (hids : UniqueIds S) (s : PeerId)
    (hs : s ∈ S.parties.nodes)
    (hneighbours : S.enableSingleHopSend = true → S.f + 1 ≤ (neighbourPeers S s).length)
    (k : Nat) (ls : History) (c : Config PeerId Packet NodeState Task)
    (hc : exec (next S) initial ls = some c)
    (horig : Occurs (next S) initial ls (Originates S s (S.uuid s k)))
    (hsettled : Settled S c (S.uuid s k)) (j : PeerId) (hj : j ∈ S.parties.nodes) :
    (c.st j).vars.delivered.get (S.uuid s k) false = true := by
  have hcorrect : S.parties.correct = S.parties.nodes := by
    rw [Parties.nodes, hbyz, Finset.union_empty]
  have hf : S.parties.byz.card ≤ S.f := by simp [hbyz]
  have hsilent : Silent ls := fun e he => by
    have := byz_of_forged ls c hc he
    simp [hbyz] at this
  have h : Broadcast S s k ls c := ⟨hc, hsilent, hcorrect ▸ hs, horig, hsettled⟩
  have hreadiers : readiers S s = readyCommittee S s := by
    rw [readiers, hcorrect]
    exact Finset.inter_eq_left.mpr fun i => mem_nodes_of_mem_readyCommittee
  have hechoers : echoers S s = echoCommittee S s := by
    rw [echoers, hcorrect]
    exact Finset.inter_eq_left.mpr fun i => mem_nodes_of_mem_echoCommittee
  have hkick (hhop : S.enableSingleHopSend = true) : S.f + 1 ≤ (reached S s).card := by
    rw [reached, targets, if_pos hhop, hcorrect,
      Finset.inter_eq_left.mpr (neighbourPeers_subset hs), card_neighbourPeers hs]
    exact hneighbours hhop
  have hquota : ∀ x ∈ readiers S s, quota S x ≤ ((echoers S s).erase x).card := by
    intro x hx
    have hle := Finset.pred_card_le_card_erase (s := echoers S s) (a := x)
    rw [hechoers, card_echoCommittee hN] at hle
    rw [quota, hechoers, S.N_eq (S.mem_nodes_of_correct (Finset.mem_inter.mp hx).2)]
    split <;> omega
  refine (h.delivered_iff ⟨hf, hpos, hN⟩ hids hkick hquota (hcorrect ▸ hj)).mpr ?_
  have hle := Finset.pred_card_le_card_erase (s := readiers S s) (a := j)
  rw [hreadiers, card_readyCommittee hN] at hle
  rw [hreadiers]
  unfold deliverThreshold
  omega

/-- Four correct nodes, of which `a` has two as neighbours. -/
abbrev fourCorrectNodes : System := hopSystem ["a", "b", "c", "d"] [] ["b", "c"] Cluster.nodup_four

/-- `a` broadcasts, and everything is handled. -/
def fourCorrectRun : History :=
  schedule (protocol fourCorrectNodes) fourCorrectNodes.parties ["a", "b", "c", "d"] 120 initial

theorem delivered_of_faultFree_fourCorrectNodes :
    ∃ c, exec (next fourCorrectNodes) initial fourCorrectRun = some c ∧ Idle fourCorrectNodes c ∧
      (c.st "d").vars.delivered.get "a" false = true := by
  obtain ⟨c, hc, hidle⟩ := exists_exec_of_any (next fourCorrectNodes) initial fourCorrectRun
    (fun c => Idle fourCorrectNodes c) (by decide +kernel)
  have hidle := of_decide_eq_true hidle
  have horig : Occurs (next fourCorrectNodes) initial fourCorrectRun
      (Originates fourCorrectNodes "a" "a") :=
    ⟨[], .wake "a" .onStart, fourCorrectRun.tail, initial, by decide +kernel, rfl, 0, by decide,
      _, _, .wake (by decide) (by decide) rfl, .inr rfl⟩
  exact ⟨c, hc, hidle, delivered_of_faultFree fourCorrectNodes (by decide) (by decide) (by decide)
    (uniqueIds_hopSystem (by decide)) "a" (by decide) (fun _ => by decide) 0 fourCorrectRun c hc
    horig hidle.settled "d" (by decide)⟩

end DistBench.Bracha.Optimized
