import HaresBears.CalmRuns
import HaresBears.Quiescence
import HaresBears.Traffic
import Mathlib.Tactic.Ring

/-!
New parties. From a network at rest the members of a legal party are polled until each has
asked, and their messages are handed over calmly. When the network is at rest again, a
party has been started, unless a bear that leaves no room beside it heads the line.
-/
namespace HaresBears

open FifoNetwork LamportQueueAlgorithm

def Asking (w : World) : Prop :=
  ∀ a b, ∀ x ∈ w.chan a b, ∃ t, x.asks = some t ∧ (algo w a).pendingReqTicket = some t

section Polls

variable {cfg : Config} {w v : World} {env : Env} {p q : Pid} {party : Finset Pid} {now n : ℕ}

theorem asking_of_silent (h : w.Silent) : Asking w := by
  intro a b x hx
  rw [h] at hx
  cases hx

theorem Asking.current (h : Asking w) : Current w where
  asked := by
    intro a b x hx t ht _
    obtain ⟨u, hu, hpend⟩ := h a b x hx
    rw [hu] at ht
    exact Option.some.inj ht ▸ hpend
  answered := by
    intro a b x hx t ht _
    obtain ⟨u, hu, -⟩ := h b a x hx
    obtain rfl := request_of_asks hu
    cases ht

theorem Asking.starts (h : Asking w) {a b : Pid} {x : Message} (hx : x ∈ w.chan a b) :
    x.starts = none := by
  obtain ⟨t, ht, -⟩ := h a b x hx
  obtain rfl := request_of_asks ht
  rfl

theorem Asking.turn (hs : Sound cfg w) (h : Asking w) : Asking ((system cfg).turn w p env) := by
  have hpolled := (hs.inStep p).onPoll env
  intro a b x hx
  by_cases ha : a = p
  · subst ha
    have hmem := Protocol.mem_chan_turn hx
    rw [system_onPoll] at hmem
    rw [algo, Protocol.turn_node_self, system_onPoll]
    generalize Runtime.onPoll (w.node a) env = res at hpolled hmem
    cases hpolled with
    | nothing =>
      rcases hmem with hold | ⟨-, hnew⟩
      · exact h a b x hold
      · cases hnew
    | want hidle =>
      rcases hmem with hold | ⟨-, hnew⟩
      · obtain ⟨t, -, hpend⟩ := h a b x hold
        have hline := (hs.coherent a).pending.mp (by simp [hpend])
        simp [hidle] at hline
      · obtain ⟨pkt, hpkt, -, rfl⟩ := mem_addressed.mp hnew
        obtain rfl := List.mem_singleton.mp hpkt
        exact ⟨_, rfl, rfl⟩
    | release hparty =>
      rcases hmem with hold | ⟨-, hnew⟩
      · obtain ⟨t, -, hpend⟩ := h a b x hold
        have hline := (hs.coherent a).pending.mp (by simp [hpend])
        simp [hparty] at hline
      · cases hnew
  · rw [algo, Protocol.turn_node_ne ha]
    rcases Protocol.mem_chan_turn hx with hold | ⟨hp, -⟩
    · exact h a b x hold
    · exact absurd hp ha

theorem partiesStarted_turn (hs : Sound cfg w) :
    partiesStarted ((system cfg).turn w p env) = partiesStarted w := by
  have hpolled := (hs.inStep p).onPoll env
  rw [partiesStarted, Protocol.turn_past, List.flatMap_cons, system_onPoll]
  generalize Runtime.onPoll (w.node p) env = res at hpolled
  cases hpolled <;> rfl

theorem unserved_le (cfg : Config) (w : World) : unserved cfg w ≤ cfg.worldSize.toNat := by
  rw [unserved, World.census, ← card_everyone cfg.worldSize]
  exact Finset.card_filter_le ..

theorem effort_silent (h : w.Silent) : effort cfg w ≤ cfg.worldSize.toNat ^ 2 := by
  rw [effort, h.load, Nat.zero_add, Nat.pow_two]
  exact Nat.mul_le_mul_left _ (unserved_le cfg w)

/-- A poll adds a request to each other process, and a process to the line. -/
theorem effort_turn (hs : Sound cfg w) (hp : p < cfg.worldSize) (env : Env) :
    effort cfg ((system cfg).turn w p env) ≤ effort cfg w + 3 * cfg.worldSize.toNat := by
  have hpolled := (hs.inStep p).onPoll env
  have hload := Protocol.load_turn (P := system cfg) (f := fun _ => Message.effort) (w := w)
    (mem_everyone.mpr hp) env
  have hcensus : unserved cfg ((system cfg).turn w p env) + _ = unserved cfg w + _ :=
    Protocol.census_turn (U := fun r : Runtime => Unserved r.algorithm) (mem_everyone.mpr hp) env
  have hsent : dispatched (everyone cfg.worldSize) (fun _ => Message.effort)
      ((system cfg).onPoll p (w.node p) env).2 ≤ 2 * cfg.worldSize.toNat := by
    rw [system_onPoll]
    generalize Runtime.onPoll (w.node p) env = res at hpolled
    cases hpolled with
    | nothing => simp
    | want _ =>
      rw [(hs.coherent p).config, (hs.coherent p).myPid, dispatched_broadcast, Finset.sum_const,
        card_others hp, Nat.nsmul_eq_mul, Message.effort]
      omega
    | release _ => simp
  have hline : unserved cfg ((system cfg).turn w p env) ≤ unserved cfg w + 1 := by
    split at hcensus <;> split at hcensus <;> omega
  have hmul := Nat.mul_le_mul_left cfg.worldSize.toNat hline
  rw [Nat.mul_add, Nat.mul_one] at hmul
  unfold effort
  omega

/-- The party time of a process starts when it enters a party, not in a poll. -/
theorem timeMark_turn (hs : Sound cfg w) :
    (((system cfg).turn w p env).node q).localSrc.timeMark = (w.node q).localSrc.timeMark := by
  have hpolled := (hs.inStep p).onPoll env
  by_cases hq : q = p
  · subst hq
    rw [Protocol.turn_node_self, system_onPoll]
    generalize Runtime.onPoll (w.node q) env = res at hpolled
    cases hpolled <;> rfl
  · rw [Protocol.turn_node_ne hq]

end Polls

def Polling (cfg : Config) (party : Finset Pid) (now : ℕ) (w : World) (l : Label)
    (w' : World) : Prop :=
  Round cfg party now w l w' ∧ ∃ p env, l = .poll p env

section Asked

variable {cfg : Config} {w v : World} {p : Pid} {party : Finset Pid} {now n : ℕ}

theorem leads_poll (h : (system cfg).Run (InBothOrders cfg) w)
    (hroom : 3 * (w.past.length + 1) < 2 ^ 64) (hp : p < cfg.worldSize) (hparty : p ∈ party)
    (now : ℕ) :
    (system cfg).Leads (Polling cfg party now) w 1 ((system cfg).turn w p ⟨now, true⟩) := by
  have hbelow := (clocksBelow_of_run h (by omega)).2
  have hwrap := (hbelow.turn (Sound.of_run h) (by omega) p ⟨now, true⟩).1
  refine Protocol.leads_turn hp ⟨⟨⟨hwrap, trivial, trivial, trivial⟩, rfl, ?_⟩, p, _, rfl⟩
  intro q env hl
  obtain ⟨rfl, -⟩ := Label.poll.inj hl
  exact hparty

structure AfterPolls (cfg : Config) (w v : World) (n : ℕ) : Prop where
  run : (system cfg).Run (InBothOrders cfg) v
  asking : Asking v
  started : partiesStarted v = partiesStarted w
  effort : effort cfg v ≤ effort cfg w + n * (3 * cfg.worldSize.toNat)
  timeMark : ∀ p, (v.node p).localSrc.timeMark = (w.node p).localSrc.timeMark

theorem afterPolls_of_leads (h : (system cfg).Run (InBothOrders cfg) w) (hask : Asking w)
    (hl : (system cfg).Leads (Polling cfg party now) w n v) : AfterPolls cfg w v n := by
  induction hl with
  | refl => exact ⟨h, hask, rfl, by omega, fun _ => rfl⟩
  | @step n v v' l _ hnext hok ih =>
    obtain ⟨hround, p, env, rfl⟩ := hok
    have hs := Sound.of_run ih.run
    rcases Protocol.next_cases hnext with ⟨_, _, _, _, _, hl, -⟩ | ⟨q, env', hl, hq, rfl⟩
    · cases hl
    · have heffort := effort_turn hs hq env'
      have hle := ih.effort
      refine ⟨.step ih.run hnext hround.orders, ih.asking.turn hs,
        (partiesStarted_turn hs).trans ih.started, ?_,
        fun p => (timeMark_turn hs).trans (ih.timeMark p)⟩
      rw [Nat.add_mul, Nat.one_mul]
      omega

theorem unserved_of_want (hs : Sound cfg w) (hidle : (algo w p).currentState = .idle) :
    Unserved (algo ((system cfg).turn w p ⟨now, true⟩) p) := by
  have hn : (w.node p).localSrc.currentNotification = .exitedParty := by
    cases hnot : (w.node p).localSrc.currentNotification with
    | exitedParty => rfl
    | enteredParty =>
      have hparty := (hs.inStep p).entered.mp hnot
      rw [hidle] at hparty
      cases hparty
  rw [algo, Protocol.turn_node_self, system_onPoll,
    Runtime.onPoll_want hidle hn ((hs.inStep p).idle hidle) rfl]
  exact Or.inl rfl

theorem idle_of_release (hs : Sound cfg w) (hparty : (algo w p).currentState = .inParty)
    (hnow : (w.node p).localSrc.timeMark + 501000000 ≤ now) :
    (algo ((system cfg).turn w p ⟨now, true⟩) p).currentState = .idle := by
  have hn := (hs.inStep p).entered.mpr hparty
  rw [algo, Protocol.turn_node_self, system_onPoll,
    Runtime.onPoll_release ((shouldReleaseParty_iff hn).mpr hnow)]
  rfl

/-- At most two polls put a process into the line. -/
theorem exists_request (h : (system cfg).Run (InBothOrders cfg) w)
    (hroom : 3 * (w.past.length + 2) < 2 ^ 64) (hp : p < cfg.worldSize) (hparty : p ∈ party)
    (hnow : (w.node p).localSrc.timeMark + 501000000 ≤ now) :
    ∃ n ≤ 2, ∃ v, (system cfg).Leads (Polling cfg party now) w n v ∧ Unserved (algo v p) ∧
      ∀ q, q ≠ p → v.node q = w.node q := by
  have hs := Sound.of_run h
  cases hstate : (algo w p).currentState with
  | waitingForReplies => exact ⟨0, by omega, w, .refl, Or.inl hstate, fun _ _ => rfl⟩
  | queued => exact ⟨0, by omega, w, .refl, Or.inr hstate, fun _ _ => rfl⟩
  | idle =>
    exact ⟨1, by omega, _, leads_poll h (by omega) hp hparty now, unserved_of_want hs hstate,
      fun q hq => Protocol.turn_node_ne hq⟩
  | inParty =>
    have hfirst := leads_poll h (by omega) hp hparty now
    have hrun := (hfirst.mono (fun _ _ _ hk => hk.1.orders)).run h
    have hsecond := leads_poll hrun (by rw [hfirst.past_length]; omega) hp hparty now
    refine ⟨2, by omega, _, hfirst.trans hsecond,
      unserved_of_want (Sound.of_run hrun) (idle_of_release hs hstate hnow), ?_⟩
    intro q hq
    rw [Protocol.turn_node_ne hq, Protocol.turn_node_ne hq]

/-- Polling each of a list of processes often enough puts them all into the line. -/
theorem exists_asked (h : (system cfg).Run (InBothOrders cfg) w) (hask : Asking w)
    (ps : List Pid) (hlive : ∀ p ∈ ps, p < cfg.worldSize) (hparty : ∀ p ∈ ps, p ∈ party)
    (hroom : 3 * (w.past.length + 2 * ps.length) < 2 ^ 64)
    (hnow : ∀ p ∈ ps, (w.node p).localSrc.timeMark + 501000000 ≤ now) :
    ∃ n ≤ 2 * ps.length, ∃ v, (system cfg).Leads (Polling cfg party now) w n v ∧
      ∀ p ∈ ps, Unserved (algo v p) := by
  induction ps with
  | nil => exact ⟨0, by simp, w, .refl, by simp⟩
  | cons p ps ih =>
    rw [List.length_cons] at hroom ⊢
    obtain ⟨n, hn, v, hlead, hline⟩ := ih (fun q hq => hlive q (List.mem_cons_of_mem _ hq))
      (fun q hq => hparty q (List.mem_cons_of_mem _ hq)) (by omega)
      (fun q hq => hnow q (List.mem_cons_of_mem _ hq))
    have hpolled := afterPolls_of_leads h hask hlead
    have hmark := hnow p List.mem_cons_self
    rw [← hpolled.timeMark p] at hmark
    obtain ⟨k, hk, v', hlead', hu, hothers⟩ := exists_request hpolled.run
      (by rw [hlead.past_length]; omega) (hlive p List.mem_cons_self)
      (hparty p List.mem_cons_self) hmark
    refine ⟨n + k, by omega, v', hlead.trans hlead', ?_⟩
    intro q hq
    by_cases hqp : q = p
    · exact hqp ▸ hu
    · rw [algo, hothers q hqp]
      exact hline q ((List.mem_cons.mp hq).resolve_left hqp)

end Asked

/-- More than `k` parties have been started, or `k` have, `party` is in the line and no
start is on its way. -/
def StartedOrWaiting (party : Finset Pid) (k : ℕ) (v : World) : Prop :=
  k < (partiesStarted v).length ∨ k = (partiesStarted v).length ∧
    (∀ q ∈ party, Unserved (algo v q)) ∧ ∀ a b, ∀ x ∈ v.chan a b, x.starts = none

section Rounds

variable {cfg : Config} {w v : World} {env : Env} {src dst p : Pid} {m : Message}
variable {rest : List Message} {party : Finset Pid} {now n k : ℕ}

theorem not_names_of_starts (h : m.starts = none) (p : Pid) : ¬ m.Names p := by
  cases m with
  | partyStart x => cases h
  | request | reply => exact fun hn => hn

theorem partiesStarted_hear : partiesStarted ((system cfg).hear v src dst env m rest) =
    ((Runtime.onMsg (v.node dst) env src m).2.filterMap (fun pkt => pkt.msg.starts)) ++
      partiesStarted v := by
  rw [partiesStarted, Protocol.hear_past, List.flatMap_cons]
  rfl

/-- A message that starts no party leaves its receiver in the line, unless the receiver
starts one. -/
theorem heard_quietly {r : Runtime} {res : Runtime × Sends} (hh : Runtime.Heard r env src m res)
    (hm : m.starts = none) :
    res.2.filterMap (fun pkt => pkt.msg.starts) ≠ [] ∨
      (∀ pkt ∈ res.2, pkt.msg.starts = none) ∧
        (Unserved r.algorithm → Unserved res.1.algorithm) := by
  cases hh with
  | stay a l ha _ _ _ =>
    right
    subst ha
    have hnone := filterMap_answer (f := Message.starts) (fun _ => rfl) r.algorithm src m
    exact ⟨List.filterMap_eq_nil_iff.mp hnone,
      fun hu => unserved_absorb.mpr ⟨not_names_of_starts hm _, hu⟩⟩
  | start a g _ _ _ =>
    left
    rw [List.filterMap_append]
    simp [Message.starts]

/-- Only a party that is started takes a process out of the line. -/
theorem StartedOrWaiting.hear (hs : Sound cfg v) (h : StartedOrWaiting party k v)
    (hchan : v.chan src dst = m :: rest) :
    StartedOrWaiting party k ((system cfg).hear v src dst env m rest) := by
  have hgrow : (partiesStarted ((system cfg).hear v src dst env m rest)).length =
      ((Runtime.onMsg (v.node dst) env src m).2.filterMap (fun pkt => pkt.msg.starts)).length +
        (partiesStarted v).length := by
    rw [partiesStarted_hear, List.length_append]
  rcases h with hmore | ⟨hcount, hline, hquiet⟩
  · left
    omega
  · have hheard := Runtime.onMsg_heard (v.node dst) env src m (hs.notReady dst)
    rcases heard_quietly hheard (hquiet src dst m (by simp [hchan])) with hstart | ⟨hnone, hkeep⟩
    · left
      have hpos := List.length_pos_of_ne_nil hstart
      omega
    · right
      rw [List.filterMap_eq_nil_iff.mpr hnone, List.length_nil, Nat.zero_add] at hgrow
      refine ⟨hcount.trans hgrow.symm, ?_, ?_⟩
      · exact Protocol.hear_nodes (I := fun q (r : Runtime) => q ∈ party → Unserved r.algorithm)
          hline (fun hq => hkeep (hline dst hq))
      · refine Protocol.hear_chans hchan hquiet ?_
        intro b x hx
        obtain ⟨pkt, hpkt, -, rfl⟩ := mem_addressed.mp hx
        exact hnone pkt hpkt

theorem startedOrWaiting_of_drains (hr : (system cfg).Reachable v)
    (h : StartedOrWaiting party k v) (hd : (system cfg).Drains (Round cfg party now) n v w) :
    StartedOrWaiting party k w ∧ n ≤ effort cfg v := by
  have hdraining : Draining (system cfg) (Round cfg party now)
      (fun v => (system cfg).Reachable v ∧ StartedOrWaiting party k v) (effort cfg) := by
    refine ⟨fun v src dst env m rest hI hchan _ => ?_, fun v src dst env m rest hI hchan _ => ?_⟩
    · exact ⟨hI.1.hear env hchan, hI.2.hear (Sound.of_run hI.1) hchan⟩
    · exact effort_hear hI.1 hchan env
  obtain ⟨⟨-, hstarted⟩, hle⟩ := hdraining.bound hd ⟨hr, h⟩
  exact ⟨hstarted, by omega⟩

/-- A round: each process of `party` is polled until it has asked, and the messages are
handed over calmly until there are none. -/
theorem exists_rest (h : (system cfg).Run (InBothOrders cfg) w) (hsilent : w.Silent)
    (party : Finset Pid) (hlive : ∀ p ∈ party, p < cfg.worldSize)
    (hroom : 3 * (w.past.length + 9 * cfg.worldSize.toNat ^ 2) < 2 ^ 64) :
    ∃ t, ∀ now ≥ t, ∃ n ≤ 9 * cfg.worldSize.toNat ^ 2, ∃ v,
      (system cfg).Leads (Round cfg party now) w n v ∧ v.Silent ∧
        StartedOrWaiting party (partiesStarted w).length v := by
  refine ⟨∑ p ∈ party, ((w.node p).localSrc.timeMark + 501000000), fun now hnow => ?_⟩
  have hask := asking_of_silent hsilent
  have hcard : party.card ≤ cfg.worldSize.toNat := by
    rw [← card_everyone cfg.worldSize]
    exact Finset.card_le_card (fun p hp => mem_everyone.mpr (hlive p hp))
  have hsquare : cfg.worldSize.toNat ≤ cfg.worldSize.toNat ^ 2 :=
    Nat.le_self_pow (by decide) _
  have hprod : 2 * party.card * (3 * cfg.worldSize.toNat) ≤ 6 * cfg.worldSize.toNat ^ 2 :=
    calc 2 * party.card * (3 * cfg.worldSize.toNat)
        ≤ 2 * cfg.worldSize.toNat * (3 * cfg.worldSize.toNat) :=
          Nat.mul_le_mul_right _ (Nat.mul_le_mul_left 2 hcard)
      _ = 6 * cfg.worldSize.toNat ^ 2 := by ring
  obtain ⟨n, hn, v, hpolls, hline⟩ := exists_asked h hask
    party.toList (fun p hp => hlive p (Finset.mem_toList.mp hp))
    (fun p hp => Finset.mem_toList.mp hp) (by rw [Finset.length_toList]; omega)
    (fun p hp => (Finset.single_le_sum (f := fun p => (w.node p).localSrc.timeMark + 501000000)
      (fun _ _ => Nat.zero_le _) (Finset.mem_toList.mp hp)).trans hnow)
  rw [Finset.length_toList] at hn
  have hpolled := afterPolls_of_leads h hask hpolls
  have heffort : effort cfg v ≤ 7 * cfg.worldSize.toNat ^ 2 := by
    have hle := hpolled.effort
    have hrest : effort cfg w ≤ cfg.worldSize.toNat ^ 2 := effort_silent hsilent
    have hmul := Nat.mul_le_mul_right (3 * cfg.worldSize.toNat) hn
    omega
  obtain ⟨k, v', hdrains, hsilent'⟩ := exists_calm_silence hpolled.run hpolled.asking.current
    (by rw [hpolls.past_length]; omega) party now
  obtain ⟨hstarted, hk⟩ := startedOrWaiting_of_drains hpolled.run.reachable
    (Or.inr ⟨congrArg List.length hpolled.started.symm,
      fun q hq => hline q (Finset.mem_toList.mpr hq), fun a b x hx => hpolled.asking.starts hx⟩)
    hdrains
  exact ⟨n + k, by omega, v', (hpolls.mono (fun _ _ _ hk => hk.1)).trans hdrains.leads,
    hsilent', hstarted⟩

/-- After a round of a legal party a party has been started, or a bear that leaves no room
beside it heads the line. -/
theorem exists_party_round (hcfg : Accepted cfg) (hne : cfg.worldSize ≠ 1)
    (h : (system cfg).Run (InBothOrders cfg) w) (hsilent : w.Silent)
    (hlegal : LegalParty cfg party)
    (hroom : 3 * (w.past.length + 9 * cfg.worldSize.toNat ^ 2) < 2 ^ 64) :
    ∃ t, ∀ now ≥ t, ∃ n ≤ 9 * cfg.worldSize.toNat ^ 2, ∃ v,
      (system cfg).Leads (Round cfg party now) w n v ∧ v.Silent ∧
        ((partiesStarted w).length < (partiesStarted v).length ∨
          cfg.partyCapacity.toNat ≤ cfg.bearWeight.toNat ∧
            ∃ p < cfg.worldSize, speciesOf p cfg = .bear ∧
              (algo v p).globalQueue.getFirstPid = some p) := by
  obtain ⟨t, hrest⟩ := exists_rest h hsilent party hlegal.live hroom
  refine ⟨t, fun now hnow => ?_⟩
  obtain ⟨n, hn, v, hlead, hsilent', hstarted⟩ := hrest now hnow
  refine ⟨n, hn, v, hlead, hsilent', ?_⟩
  rcases hstarted with hmore | ⟨-, hwaiting, -⟩
  · exact Or.inl hmore
  · right
    have hrun := (hlead.mono (fun _ _ _ hk => hk.orders)).run h
    obtain ⟨hcap, p, hp, hbear, -, hfirst, -⟩ := bear_of_silent hcfg hne
      ((inEveryOrder_of_both hcfg.exactConfig hrun).mono (fun _ _ _ hk => hk.1)) hsilent' hlegal
      hwaiting
    exact ⟨hcap, p, hp, hbear, hfirst⟩

/-- Parties go on: from any world at rest that has kept both orders, if there is a legal
party and a bear leaves room beside it, a round at any time late enough ends in such a world
again, at rest and with more parties started. -/
theorem another_party (hcfg : Accepted cfg) (hne : cfg.worldSize ≠ 1)
    (hlegal : LegalParty cfg party)
    (hroom : ∀ p < cfg.worldSize, speciesOf p cfg = .bear →
      cfg.bearWeight.toNat < cfg.partyCapacity.toNat)
    (h : (system cfg).Run (InBothOrders cfg) w) (hsilent : w.Silent)
    (hclock : 3 * (w.past.length + 9 * cfg.worldSize.toNat ^ 2) < 2 ^ 64) :
    ∃ t, ∀ now ≥ t, ∃ n ≤ 9 * cfg.worldSize.toNat ^ 2, ∃ v,
      (system cfg).Leads (Round cfg party now) w n v ∧ (system cfg).Run (InBothOrders cfg) v ∧
        v.Silent ∧ (partiesStarted w).length < (partiesStarted v).length := by
  obtain ⟨t, hround⟩ := exists_party_round hcfg hne h hsilent hlegal hclock
  refine ⟨t, fun now hnow => ?_⟩
  obtain ⟨n, hn, v, hlead, hrest, hmore⟩ := hround now hnow
  refine ⟨n, hn, v, hlead, (hlead.mono (fun _ _ _ hk => hk.orders)).run h, hrest, ?_⟩
  rcases hmore with hmore | ⟨hcap, p, hp, hbear, -⟩
  · exact hmore
  · have hlt := hroom p hp hbear
    omega

theorem pair_party : LegalParty (haresOnly 2 2) {0, 1} := by
  refine ⟨?_, ⟨0, by decide, by decide⟩, ?_⟩
  · intro p hp
    rcases Finset.mem_insert.mp hp with rfl | hp
    · decide
    · obtain rfl := Finset.mem_singleton.mp hp
      decide
  · rw [Finset.sum_pair (by decide)]
    decide

theorem pair_hares : ∀ p < (haresOnly 2 2).worldSize, speciesOf p (haresOnly 2 2) ≠ .bear := by
  intro p hp
  have hmem : p ∈ [0, 1] := mem_processes.mpr hp
  rcases List.mem_pair.mp hmem with rfl | rfl
  · decide
  · decide

/-- The first party of two hares, with the bounds at hand. -/
theorem another_party_pair : ∃ t, ∀ now ≥ t, ∃ n ≤ 36, ∃ v,
    (system (haresOnly 2 2)).Leads (Round (haresOnly 2 2) {0, 1} now)
      (system (haresOnly 2 2)).initial n v ∧
    (system (haresOnly 2 2)).Run (InBothOrders (haresOnly 2 2)) v ∧
    v.Silent ∧ 0 < (partiesStarted v).length :=
  another_party (haresOnly_accepted (by decide) (by decide)) (by decide) pair_party
    (fun p hp hbear => absurd hbear (pair_hares p hp)) .init (fun _ _ => rfl) (by decide)

end Rounds

end HaresBears
