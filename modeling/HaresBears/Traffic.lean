import HaresBears.Cascades
import HaresBears.PartyValidity
import Mathlib.Algebra.BigOperators.Ring.List

/-!
The books of a run. A request costs a message and a reply for each other process, a
party a start for each other process, and nothing else is sent. If messages arrive in
order, the places in all parties started are the requests made, less those in the
line that no start on its way is about to serve.
-/
namespace HaresBears

open FifoNetwork LamportQueueAlgorithm

def Message.starts : Message → Option PartyStart
  | .partyStart m => some m
  | _ => none

def requestsBy (c : Call) : List Ticket := c.out.filterMap (fun pkt => pkt.msg.asks)

def startsBy (c : Call) : List PartyStart := c.out.filterMap (fun pkt => pkt.msg.starts)

def requestsMade (w : World) : List Ticket := w.past.flatMap requestsBy

def partiesStarted (w : World) : List PartyStart := w.past.flatMap startsBy

def isRequestWeight (m : Message) : ℕ := if m.isRequest = true then 1 else 0

/-- The weight that counts the members a party start names to themselves. -/
def namingWeight (q : Pid) (m : Message) : ℕ := if q ∈ m.participants then 1 else 0

section Calls

variable {cfg : Config} {c : Call} {r : Runtime} {env : Env} {src p : Pid} {m : Message}
variable {res : Runtime × Sends}

theorem filterMap_answer {τ : Type*} {f : Message → Option τ} (hf : ∀ x, f (.reply x) = none)
    (a : LamportQueueAlgorithm) (src : Pid) (m : Message) :
    ((a.answer m).toList.map (fun x => (⟨[src], x⟩ : Packet Pid Message))).filterMap
      (fun pkt => f pkt.msg) = [] := by
  rw [List.filterMap_eq_nil_iff]
  intro pkt hpkt
  obtain ⟨x, hx, rfl⟩ := List.mem_map.mp hpkt
  obtain ⟨y, -, rfl⟩ := answer_eq_some (Option.mem_toList.mp hx)
  exact hf _

theorem forms_of_startsBy {x : PartyStart} (h : x ∈ startsBy c) : Forms c x := by
  obtain ⟨pkt, hpkt, hstarts⟩ := List.mem_filterMap.mp h
  refine ⟨pkt, hpkt, ?_⟩
  cases hmsg : pkt.msg with
  | partyStart y =>
    rw [hmsg] at hstarts
    rw [Option.some.inj hstarts]
  | request | reply =>
    rw [hmsg] at hstarts
    cases hstarts

/-- What a call dispatches: the answer to the message it hears, and a message for each
other process for each request and each party start. -/
theorem Explained.dispatched (hc : Coherent cfg c.proc c.before.algorithm)
    (h : Explained cfg c) (f : Pid → Message → ℕ) :
    dispatched (everyone cfg.worldSize) f c.out =
      c.heard.elim 0 (fun x => (c.before.algorithm.answer x.2).elim 0 (f x.1)) +
      ((requestsBy c).map (fun t =>
        ∑ q ∈ (everyone cfg.worldSize).erase c.proc, f q (.request ⟨t⟩))).sum +
      ((startsBy c).map (fun m =>
        ∑ q ∈ (everyone cfg.worldSize).erase c.proc, f q (.partyStart m))).sum := by
  unfold requestsBy startsBy
  cases h with
  | heard src m env hh hm hheard =>
    have hasks := filterMap_answer (f := Message.asks) (fun _ => rfl) c.before.algorithm src m
    have hstarts := filterMap_answer (f := Message.starts) (fun _ => rfl) c.before.algorithm src m
    have hans := dispatched_answer (a := c.before.algorithm) (m := m) f hm.src_live
    generalize hres : (c.after, c.out) = res at hheard
    obtain ⟨-, hout⟩ := Prod.mk.inj hres
    rw [hout, hh]
    cases hheard with
    | stay =>
      rw [hasks, hstarts, hans]
      rfl
    | start a g ha _ _ =>
      have hset : Coherent cfg c.proc a := ha ▸ (hc.absorb hm).settle
      rw [List.filterMap_append, hasks, List.filterMap_append, hstarts, dispatched_append, hans,
        hset.config, hset.myPid, dispatched_broadcast]
      simp [Message.asks, Message.starts]
  | polled env hh _ hpolled =>
    generalize hres : (c.after, c.out) = res at hpolled
    obtain ⟨-, hout⟩ := Prod.mk.inj hres
    rw [hout, hh]
    cases hpolled with
    | nothing => exact dispatched_nil
    | want _ =>
      dsimp only
      rw [hc.config, hc.myPid, dispatched_broadcast]
      simp [Message.asks, Message.starts]
    | release _ => exact dispatched_nil

theorem answer_weight (a : LamportQueueAlgorithm) (m : Message) :
    (a.answer m).elim 0 (fun _ => 1) = isRequestWeight m := by
  cases m <;> rfl

theorem answer_not_request (a : LamportQueueAlgorithm) (m : Message) :
    (a.answer m).elim 0 isRequestWeight = 0 := by
  cases m <;> rfl

/-- A call sends a message for each request it hears, and others to everybody else. -/
theorem Explained.dispatched_one (hc : Coherent cfg c.proc c.before.algorithm)
    (h : Explained cfg c) (hlive : c.proc < cfg.worldSize) :
    FifoNetwork.dispatched (everyone cfg.worldSize) (fun _ _ => 1) c.out =
      c.heard.elim 0 (fun x => isRequestWeight x.2) +
        (cfg.worldSize.toNat - 1) * ((requestsBy c).length + (startsBy c).length) := by
  have hcount := h.dispatched hc (fun _ _ => 1)
  simp only [answer_weight, Finset.sum_const, card_others hlive, List.map_const',
    List.sum_replicate,
    Nat.nsmul_eq_mul, Nat.mul_one] at hcount
  rw [hcount, Nat.mul_add, Nat.mul_comm (requestsBy c).length, Nat.mul_comm (startsBy c).length]
  omega

theorem Explained.dispatched_requests (hc : Coherent cfg c.proc c.before.algorithm)
    (h : Explained cfg c) (hlive : c.proc < cfg.worldSize) :
    FifoNetwork.dispatched (everyone cfg.worldSize) (fun _ => isRequestWeight) c.out =
      (cfg.worldSize.toNat - 1) * (requestsBy c).length := by
  have hcount := h.dispatched hc (fun _ => isRequestWeight)
  have hheard : c.heard.elim 0
      (fun x => (c.before.algorithm.answer x.2).elim 0 isRequestWeight) = 0 := by
    cases c.heard with
    | none => rfl
    | some x => exact answer_not_request _ _
  have hrequest : ∀ t, isRequestWeight (.request ⟨t⟩) = 1 := fun _ => rfl
  have hstart : ∀ m, isRequestWeight (.partyStart m) = 0 := fun _ => rfl
  simp only [hheard, hrequest, hstart, Finset.sum_const, card_others hlive, List.map_const',
    List.sum_replicate, Nat.nsmul_eq_mul, Nat.mul_one, Nat.mul_zero] at hcount
  rw [hcount, Nat.mul_comm (requestsBy c).length]
  omega

/-- The queue on which a call runs `Recompute` lists live processes only. -/
theorem queueAt_live {w : World} {ok : World → Label → World → Prop} (h : (system cfg).Run ok w)
    (hc : c ∈ w.past) {q : Pid} {t : Ticket} (hq : (queueAt c).lookup q = some t) :
    q < cfg.worldSize := by
  obtain ⟨-, -, hexp⟩ := explained_of_run h c hc
  have hbefore := (replicas_live h).2 c hc
  unfold queueAt at hq
  cases hh : c.heard with
  | none =>
    rw [hh] at hq
    exact hbefore q t hq
  | some x =>
    rw [hh] at hq
    exact lookup_absorb_live (hexp.proper hh) hbefore q t hq

/-- A call that starts a party tells every other member. -/
theorem dispatched_named (hcfg : ExactConfig cfg) {w : World}
    {ok : World → Label → World → Prop} (h : (system cfg).Run ok w) (hc : c ∈ w.past) :
    FifoNetwork.dispatched (everyone cfg.worldSize) namingWeight c.out + (startsBy c).length =
      ((startsBy c).map (fun m => m.participants.length)).sum := by
  obtain ⟨hcoh, -, hexp⟩ := explained_of_run h c hc
  have hcount := hexp.dispatched hcoh namingWeight
  have hheard : c.heard.elim 0
      (fun x => (c.before.algorithm.answer x.2).elim 0 (namingWeight x.1)) = 0 := by
    cases c.heard with
    | none => rfl
    | some x =>
      cases hans : c.before.algorithm.answer x.2 with
      | none => simp [hans]
      | some y =>
        obtain ⟨z, -, rfl⟩ := answer_eq_some hans
        simp [hans, namingWeight, Message.participants]
  have hrequest : ∀ q t, namingWeight q (.request ⟨t⟩) = 0 := fun _ _ => rfl
  have hparty : ∀ m ∈ startsBy c,
      ∑ q ∈ (everyone cfg.worldSize).erase c.proc, namingWeight q (.partyStart m) + 1 =
        m.participants.length := by
    intro m hm
    obtain ⟨-, -, hvalid⟩ := valid_of_forms hcfg h hc (forms_of_startsBy hm)
    have hlead := List.mem_of_mem_head? hvalid.first
    have hlive : ∀ q ∈ m.participants, q < cfg.worldSize := by
      intro q hq
      obtain ⟨t, ht⟩ := Option.isSome_iff_exists.mp (hvalid.drawn q hq)
      exact queueAt_live h hc ht
    have hset : ((everyone cfg.worldSize).erase c.proc).filter
        (fun q => q ∈ (Message.partyStart m).participants) =
        m.participants.toFinset.erase c.proc := by
      ext q
      rw [Finset.mem_filter, Finset.mem_erase, mem_everyone, Finset.mem_erase, List.mem_toFinset]
      constructor
      · exact fun hq => ⟨hq.1.1, hq.2⟩
      · exact fun hq => ⟨⟨hq.1, hlive q hq.2⟩, hq.2⟩
    have hpos := List.length_pos_of_mem hlead
    unfold namingWeight
    rw [← Finset.card_filter, hset, Finset.card_erase_of_mem (List.mem_toFinset.mpr hlead),
      List.toFinset_card_of_nodup hvalid.nodup]
    omega
  simp only [hheard, hrequest, Finset.sum_const_zero, List.map_const', List.sum_replicate] at hcount
  rw [hcount, ← List.map_congr_left hparty, List.sum_map_add]
  simp

theorem Explained.live (h : Explained cfg c) : c.proc < cfg.worldSize := by
  cases h with
  | heard src m env _ hm _ => exact hm.dst_live
  | polled env _ hp _ => exact hp

end Calls

section Books

variable {cfg : Config} {w : World} {ok : World → Label → World → Prop}

theorem mem_partiesStarted {m : PartyStart} (h : m ∈ partiesStarted w) :
    ∃ c ∈ w.past, Forms c m := by
  obtain ⟨c, hc, hm⟩ := List.mem_flatMap.mp h
  exact ⟨c, hc, forms_of_startsBy hm⟩

theorem length_requestsMade (w : World) :
    (requestsMade w).length = (w.past.map (fun c => (requestsBy c).length)).sum :=
  List.length_flatMap

theorem length_partiesStarted (w : World) :
    (partiesStarted w).length = (w.past.map (fun c => (startsBy c).length)).sum :=
  List.length_flatMap

theorem sentWeight_requests (h : (system cfg).Run ok w) :
    sentWeight (everyone cfg.worldSize) (fun _ => isRequestWeight) w.past =
      (cfg.worldSize.toNat - 1) * (requestsMade w).length := by
  rw [length_requestsMade, ← List.sum_map_mul_left, sentWeight]
  refine congrArg List.sum (List.map_congr_left ?_)
  intro c hc
  obtain ⟨hcoh, -, hexp⟩ := explained_of_run h c hc
  exact hexp.dispatched_requests hcoh hexp.live

theorem sentWeight_one (h : (system cfg).Run ok w) :
    sentWeight (everyone cfg.worldSize) (fun _ _ => 1) w.past =
      heardWeight (fun _ => isRequestWeight) w.past +
        (cfg.worldSize.toNat - 1) * ((requestsMade w).length + (partiesStarted w).length) := by
  rw [length_requestsMade, length_partiesStarted, ← List.sum_map_add, ← List.sum_map_mul_left,
    heardWeight,
    ← List.sum_map_add, sentWeight]
  refine congrArg List.sum (List.map_congr_left ?_)
  intro c hc
  obtain ⟨hcoh, -, hexp⟩ := explained_of_run h c hc
  exact hexp.dispatched_one hcoh hexp.live

/-- The message complexity: with the requests still on their way, which have yet to be
answered, a run has sent two messages to each other process for every request made and
one for every party started. -/
theorem messages_sent (h : (system cfg).Reachable w) :
    sentWeight (everyone cfg.worldSize) (fun _ _ => 1) w.past +
        w.load (everyone cfg.worldSize) (fun _ => isRequestWeight) =
      (cfg.worldSize.toNat - 1) * (2 * (requestsMade w).length + (partiesStarted w).length) := by
  have hbooks := sentWeight_eq (fun _ => isRequestWeight) (fun p hp => mem_everyone.mpr hp)
    (fun w hr => (Sound.of_run hr).within) h
  rw [sentWeight_requests h] at hbooks
  rw [sentWeight_one h, Nat.mul_add, Nat.mul_add, Nat.mul_left_comm]
  omega

/-- Two hares have formed a party; the start has yet to be heard. -/
theorem messages_sent_pair : ∃ w, (system (haresOnly 2 2)).Reachable w ∧
    (requestsMade w).length = 2 ∧ (partiesStarted w).length = 1 ∧
    sentWeight (everyone 2) (fun _ _ => 1) w.past = 5 := by
  obtain ⟨w, hrun, hmade, hstarted, hload⟩ := Protocol.exists_of_exec (system (haresOnly 2 2))
    (fun _ _ _ => True) pairRun
    (fun w => (requestsMade w).length = 2 ∧ (partiesStarted w).length = 1 ∧
      w.load (everyone 2) (fun _ => isRequestWeight) = 0) (by decide +kernel)
  have hsent := messages_sent hrun
  rw [hmade, hstarted] at hsent
  change _ + w.load (everyone 2) _ = (2 - 1) * (2 * 2 + 1) at hsent
  rw [hload] at hsent
  exact ⟨w, hrun, hmade, hstarted, hsent⟩

end Books

section Service

variable {cfg : Config} {w : World} {c : Call}

theorem names_iff {p : Pid} {m : Message} : m.Names p ↔ p ∈ m.participants := by
  cases m with
  | partyStart x => exact Iff.rfl
  | request | reply => simp [Message.Names, Message.participants]

/-- A request puts its process into the line, and a party takes its leader out of it and
every member that hears of it. -/
theorem Explained.balance (hc : Coherent cfg c.proc c.before.algorithm) (h : Explained cfg c)
    (hfound : ∀ x ∈ c.heard, c.proc ∈ x.2.participants → Unserved c.before.algorithm) :
    (requestsBy c).length + (if Unserved c.before.algorithm then 1 else 0) =
      (startsBy c).length + c.heard.elim 0 (fun x => namingWeight c.proc x.2) +
        if Unserved c.after.algorithm then 1 else 0 := by
  unfold requestsBy startsBy
  cases h with
  | heard src m env hh hm hheard =>
    have hasks := filterMap_answer (f := Message.asks) (fun _ => rfl) c.before.algorithm src m
    have hstarts := filterMap_answer (f := Message.starts) (fun _ => rfl) c.before.algorithm src m
    have hiff : Unserved (c.before.algorithm.absorb src m).settle ↔
        ¬ m.Names c.before.algorithm.myPid ∧ Unserved c.before.algorithm := unserved_absorb
    have hfind := hfound (src, m) (by rw [hh]; rfl)
    rw [hc.myPid, names_iff] at hiff
    generalize hres : (c.after, c.out) = res at hheard
    obtain ⟨hafter, hout⟩ := Prod.mk.inj hres
    rw [hout, hafter, hh, Option.elim, namingWeight]
    cases hheard with
    | stay a l ha _ _ _ =>
      subst ha
      rw [hasks, hstarts]
      by_cases hn : c.proc ∈ m.participants
      · simp [hiff, hn, hfind hn]
      · simp [hiff, hn]
    | start a g ha hr _ =>
      subst ha
      obtain ⟨hn, hbefore⟩ := hiff.mp (Or.inr hr.queued)
      rw [List.filterMap_append, hasks, List.filterMap_append, hstarts, if_pos hbefore, if_neg hn]
      simp [Message.asks, Message.starts, Unserved, afterStart]
  | polled env hh _ hpolled =>
    generalize hres : (c.after, c.out) = res at hpolled
    obtain ⟨hafter, hout⟩ := Prod.mk.inj hres
    rw [hout, hafter, hh]
    cases hpolled with
    | nothing => simp
    | want hidle => simp [Message.asks, Message.starts, Unserved, hidle, afterWant]
    | release hparty => simp [Unserved, hparty, afterRelease]

/-- When messages arrive in order, the requests made are those of the leaders, those whose
start has been heard and those still in the line. -/
theorem requests_balance (hcfg : ExactConfig cfg) (h : (system cfg).Run InOrder w) :
    (requestsMade w).length =
      (partiesStarted w).length + heardWeight namingWeight w.past + unserved cfg w := by
  rw [length_requestsMade, length_partiesStarted]
  refine Protocol.Run.invariant (I := fun w => (w.past.map (fun c => (requestsBy c).length)).sum =
    (w.past.map (fun c => (startsBy c).length)).sum + heardWeight namingWeight w.past +
      unserved cfg w) ?_ ?_ ?_ h
  · simp [Protocol.initial, heardWeight, unserved, World.census, system, create, Unserved]
  · intro w src dst env m rest hr ih hchan _
    have hs := Sound.of_run hr
    have hdst := (hs.proper src dst m (by simp [hchan])).dst_live
    obtain ⟨hcoh, -, hexp⟩ := explained_of_run (hr.reachable.hear env hchan) _
      (by rw [Protocol.hear_past]; exact List.mem_cons_self)
    have hcensus : unserved cfg ((system cfg).hear w src dst env m rest) + _ = unserved cfg w + _ :=
      Protocol.census_hear (U := fun r : Runtime => Unserved r.algorithm)
        (mem_everyone.mpr hdst) env
    have hbalance := hexp.balance hcoh (by
      intro x hx hn
      obtain rfl := Option.some.inj hx
      obtain ⟨y, rfl⟩ : ∃ y, m = .partyStart y := by
        cases m with
        | partyStart y => exact ⟨y, rfl⟩
        | request | reply => cases hn
      have hmem : Message.partyStart y ∈ w.chan src dst := by simp [hchan]
      exact ((orderly_of_run hcfg hr).member_pending (flight_of_start hmem) hn).imp phase_waiting.mp
        phase_queued.mp)
    simp only [heardWeight, Protocol.hear_past, List.map_cons, List.sum_cons, Option.elim]
      at ih hbalance ⊢
    omega
  · intro w p env hr ih hp _
    obtain ⟨hcoh, -, hexp⟩ := explained_of_run (hr.reachable.turn env hp) _
      (by rw [Protocol.turn_past]; exact List.mem_cons_self)
    have hcensus : unserved cfg ((system cfg).turn w p env) + _ = unserved cfg w + _ :=
      Protocol.census_turn (U := fun r : Runtime => Unserved r.algorithm) (mem_everyone.mpr hp) env
    have hbalance := hexp.balance hcoh (by
      intro x hx
      cases hx)
    simp only [heardWeight, Protocol.turn_past, List.map_cons, List.sum_cons, Option.elim]
      at ih hbalance ⊢
    omega

/-- Every request is served once: when messages arrive in order, the requests made and the
members that have yet to hear of their party balance the places in all parties and the
processes in the line. -/
theorem requests_served_once (hcfg : Accepted cfg) (h : (system cfg).Run InOrder w) :
    (requestsMade w).length + w.load (everyone cfg.worldSize) namingWeight =
      ((partiesStarted w).map (fun m => m.participants.length)).sum + unserved cfg w := by
  have hexact := hcfg.exactConfig
  have hbooks := sentWeight_eq namingWeight (fun p hp => mem_everyone.mpr hp)
    (fun w hr => (Sound.of_run hr).within) h
  have hsizes : ((partiesStarted w).map (fun m => m.participants.length)).sum =
      sentWeight (everyone cfg.worldSize) namingWeight w.past + (partiesStarted w).length := by
    rw [length_partiesStarted, sentWeight, ← List.sum_map_add, partiesStarted, List.map_flatMap,
      List.flatMap_def, List.sum_flatten, List.map_map]
    refine congrArg List.sum (List.map_congr_left ?_)
    intro c hc
    exact (dispatched_named hexact h hc).symm
  rw [hsizes, requests_balance hexact h]
  omega

theorem requests_served_once_pair : ∃ w, (system (haresOnly 2 2)).Run InOrder w ∧
    (requestsMade w).length = 2 ∧ w.load (everyone 2) namingWeight = 1 ∧
    ((partiesStarted w).map (fun m => m.participants.length)).sum +
      unserved (haresOnly 2 2) w = 3 := by
  obtain ⟨w, hrun, hmade, hload⟩ := Protocol.exists_of_exec (system (haresOnly 2 2))
    InOrder pairRun
    (fun w => (requestsMade w).length = 2 ∧ w.load (everyone 2) namingWeight = 1)
    (by decide +kernel)
  have hbooks := requests_served_once (haresOnly_accepted (by decide) (by decide)) hrun
  rw [hmade] at hbooks
  change 2 + w.load (everyone 2) _ = _ at hbooks
  rw [hload] at hbooks
  exact ⟨w, hrun, hmade, hload, hbooks.symm⟩

end Service

end HaresBears
