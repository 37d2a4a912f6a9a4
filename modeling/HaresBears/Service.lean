import HaresBears.Overtaking
import HaresBears.PossibleParties

/-!
Service. A request that everybody has acknowledged is passed over by fewer parties than
there are processes. So if bears leave room beside them, every process in the line is
served after as many rounds as there are processes.
-/
namespace HaresBears

open FifoNetwork LamportQueueAlgorithm

/-- The parties started since `w` start after the ticket `t`, and one of them names `q`, or
`q` waits on with `t` and no start that names it is on its way. -/
structure ServedOrWaiting (cfg : Config) (w : World) (q : Pid) (t : Ticket) (v : World) :
    Prop where
  clock : ∀ p < cfg.worldSize, t.ts.toNat ≤ time (v.node p)
  since : ∃ new, partiesStarted v = new ++ partiesStarted w ∧
    (∀ m ∈ new, t.ts ≤ m.senderTicket.ts) ∧
    ((∃ m ∈ new, q ∈ m.participants) ∨
      (algo v q).pendingReqTicket = some t ∧ Unclaimed v q)

section Waiting

variable {cfg : Config} {w v : World} {r : Runtime} {env : Env} {src dst p q : Pid} {m : Message}
variable {rest : List Message} {res : Runtime × Sends} {t : Ticket} {c : Call}

/-- A message that does not name its receiver leaves it its ticket, unless the receiver
starts a party, and then it takes part in it. -/
theorem heard_waits (hc : Coherent cfg dst r.algorithm) (hm : Proper cfg src dst m)
    (hh : Runtime.Heard r env src m res) (hn : dst ∉ m.participants) :
    (∃ x ∈ res.2.filterMap (fun pkt => pkt.msg.starts), dst ∈ x.participants) ∨
      res.1.algorithm.pendingReqTicket = r.algorithm.pendingReqTicket := by
  have hnames : ¬ m.Names r.algorithm.myPid := by
    rw [hc.myPid]
    exact fun hx => hn (names_iff.mp hx)
  cases hh with
  | stay a l ha _ _ _ =>
    right
    subst ha
    rw [settle_pending, absorb_pending src hnames]
  | start a g ha hr _ =>
    left
    subst ha
    refine ⟨_, List.mem_filterMap.mpr ⟨_, List.mem_append_right _ List.mem_cons_self, rfl⟩, ?_⟩
    have hmem := hr.mem
    rwa [(hc.absorb hm).settle.myPid] at hmem

/-- The messages that a reaction adds claim `q` only if it starts a party with `q`. -/
theorem named_of_addressed {out : Sends} {x : Message} (hx : x ∈ addressed q out)
    (hq : q ∈ x.participants) :
    ∃ y ∈ out.filterMap (fun pkt => pkt.msg.starts), q ∈ y.participants := by
  obtain ⟨pkt, hpkt, -, rfl⟩ := mem_addressed.mp hx
  cases hmsg : pkt.msg with
  | partyStart y =>
    rw [hmsg] at hq
    exact ⟨y, List.mem_filterMap.mpr ⟨pkt, hpkt, by rw [hmsg]; rfl⟩, hq⟩
  | request | reply =>
    rw [hmsg] at hq
    cases hq

/-- What a call adds starts after the ticket, since the clock of its process has passed it. -/
theorem ServedOrWaiting.react (h : ServedOrWaiting cfg w q t v) {v' : World}
    (hpast : v'.past = c :: v.past) (hlive : c.proc < cfg.worldSize)
    (hdisc : Disciplined time stamp c) (hbefore : v.node c.proc = c.before)
    (hafter : v'.node c.proc = c.after) (hothers : ∀ p, p ≠ c.proc → v'.node p = v.node p)
    (hwaits : (algo v q).pendingReqTicket = some t → Unclaimed v q →
      (∃ x ∈ startsBy c, q ∈ x.participants) ∨
        (algo v' q).pendingReqTicket = some t ∧ Unclaimed v' q) :
    ServedOrWaiting cfg w q t v' := by
  have hclock := h.clock c.proc hlive
  rw [hbefore] at hclock
  constructor
  · intro p hp
    by_cases hpc : p = c.proc
    · rw [hpc, hafter]
      exact hclock.trans hdisc.mono
    · rw [hothers p hpc]
      exact h.clock p hp
  · obtain ⟨new, hnew, hlater, hserved⟩ := h.since
    refine ⟨startsBy c ++ new, ?_, ?_, ?_⟩
    · rw [partiesStarted, hpast, List.flatMap_cons, ← partiesStarted, hnew, List.append_assoc]
    · intro m hm
      rcases List.mem_append.mp hm with hm | hm
      · have hlt := (stamped_of_startsBy hdisc hm).1
        rw [UInt64.le_iff_toNat_le]
        omega
      · exact hlater m hm
    · rcases hserved with ⟨m, hm, hq⟩ | ⟨hpend, hunc⟩
      · exact Or.inl ⟨m, List.mem_append_right _ hm, hq⟩
      · refine (hwaits hpend hunc).imp_left ?_
        rintro ⟨x, hx, hq⟩
        exact ⟨x, List.mem_append_left _ hx, hq⟩

theorem waits_hear (hs : Sound cfg v) (hchan : v.chan src dst = m :: rest)
    (hpend : (algo v q).pendingReqTicket = some t) (hunc : Unclaimed v q) :
    (∃ x ∈ (Runtime.onMsg (v.node dst) env src m).2.filterMap (fun pkt => pkt.msg.starts),
        q ∈ x.participants) ∨
      (algo ((system cfg).hear v src dst env m rest) q).pendingReqTicket = some t ∧
        Unclaimed ((system cfg).hear v src dst env m rest) q := by
  by_cases hnamed : ∃ x ∈ (Runtime.onMsg (v.node dst) env src m).2.filterMap
      (fun pkt => pkt.msg.starts), q ∈ x.participants
  · exact Or.inl hnamed
  · right
    refine ⟨?_, ?_⟩
    · by_cases hqd : q = dst
      · subst hqd
        have hmem : m ∈ v.chan src q := by simp [hchan]
        have hheard := Runtime.onMsg_heard (v.node q) env src m (hs.notReady q)
        rw [algo, Protocol.hear_node_self, ← hpend]
        exact (heard_waits (hs.coherent q) (hs.proper src q m hmem) hheard
          (hunc src m hmem)).resolve_left hnamed
      · rw [algo, Protocol.hear_node_ne hqd]
        exact hpend
    · intro a x hx hq
      rcases Protocol.mem_chan_hear hchan hx with hold | ⟨-, hnew⟩
      · exact hunc a x hold hq
      · exact hnamed (named_of_addressed hnew hq)

theorem waits_turn (hs : Sound cfg v) (hpend : (algo v q).pendingReqTicket = some t)
    (hunc : Unclaimed v q) :
    (algo ((system cfg).turn v p env) q).pendingReqTicket = some t ∧
      Unclaimed ((system cfg).turn v p env) q := by
  refine ⟨?_, ?_⟩
  · by_cases hqp : q = p
    · subst hqp
      have hline := (hs.coherent q).pending.mp (by simp [hpend])
      rw [algo, Protocol.turn_node_self, system_onPoll, onPoll_unserved (hs.inStep q) env hline]
      exact hpend
    · rw [algo, Protocol.turn_node_ne hqp]
      exact hpend
  · have hpolled := (hs.inStep p).onPoll env
    intro a x hx hq
    rcases Protocol.mem_chan_turn hx with hold | ⟨-, hnew⟩
    · exact hunc a x hold hq
    · obtain ⟨y, hy, -⟩ := named_of_addressed hnew hq
      rw [system_onPoll] at hy
      generalize Runtime.onPoll (v.node p) env = res at hpolled hy
      cases hpolled <;> cases hy

theorem servedOrWaiting_of_leads {n : ℕ} (h : (system cfg).Run (InformsLeaders cfg) w)
    (hw : ServedOrWaiting cfg w q t w) (hl : (system cfg).Leads (InformsLeaders cfg) w n v) :
    ServedOrWaiting cfg w q t v := by
  have hboth := hl.invariant (I := fun v => (system cfg).Run (InformsLeaders cfg) v ∧
    ServedOrWaiting cfg w q t v) ?_ ⟨h, hw⟩
  · exact hboth.2
  · intro v l v' hI hnext hok
    obtain ⟨hrun, hwait⟩ := hI
    have hrun' : (system cfg).Run (InformsLeaders cfg) v' := .step hrun hnext hok
    have hs := Sound.of_run hrun
    have hdisc := disciplined_of_run (hrun'.mono (fun _ _ _ hk => hk.1))
    refine ⟨hrun', ?_⟩
    rcases Protocol.next_cases hnext with ⟨src, dst, env, m, rest, -, hchan, rfl⟩ |
      ⟨p, env, -, hp, rfl⟩
    · refine hwait.react rfl (hs.proper src dst m (by simp [hchan])).dst_live
        (hdisc _ List.mem_cons_self) rfl Protocol.hear_node_self
        (fun _ hne => Protocol.hear_node_ne hne) ?_
      exact waits_hear hs hchan
    · refine hwait.react rfl hp (hdisc _ List.mem_cons_self) rfl Protocol.turn_node_self
        (fun _ hne => Protocol.turn_node_ne hne) ?_
      exact fun hpend hunc => Or.inr (waits_turn hs hpend hunc)

end Waiting

section Served

variable {cfg : Config} {w v : World} {q : Pid} {t : Ticket} {n : ℕ} {party : Finset Pid}

/-- Everybody's clock has passed the ticket of a queued process. -/
theorem servedOrWaiting_of_queued (hcfg : ExactConfig cfg)
    (h : (system cfg).Run (InformsLeaders cfg) w) (hqueued : (algo w q).currentState = .queued)
    (ht : (algo w q).pendingReqTicket = some t) (hunc : Unclaimed w q) :
    ServedOrWaiting cfg w q t w := by
  obtain ⟨hb, hr, -⟩ := GroupAdmission.informed_of_run (admission_of_informed hcfg h)
  have hticket := ticket_of_pending ht
  have hphase : (abstraction w).phase q = .queued := by
    show phaseOf (algo w q).currentState = _
    rw [hqueued]
    rfl
  refine ⟨fun p hp => ?_, [], rfl, by simp, Or.inr ⟨ht, hunc⟩⟩
  by_cases hpq : p = q
  · subst hpq
    exact (hb.replica_clock p p _ ((hb.own p _).mp hticket)).1
  · exact Nat.le_of_lt (hr.informed q p _ hpq hticket (hb.complete q p hphase hp)).1

/-- Of as many parties as there are processes one names any process that was queued
before them. -/
theorem named_within (hcfg : ExactConfig cfg) (h : (system cfg).Run (InformsLeaders cfg) w)
    (hqueued : (algo w q).currentState = .queued) (hunc : Unclaimed w q)
    (hl : (system cfg).Leads (InformsLeaders cfg) w n v)
    (hmany : (partiesStarted w).length + cfg.worldSize.toNat ≤ (partiesStarted v).length) :
    ∃ new, partiesStarted v = new ++ partiesStarted w ∧ ∃ m ∈ new, q ∈ m.participants := by
  have hc := (Sound.of_run h).coherent q
  obtain ⟨t, ht⟩ := Option.ne_none_iff_exists'.mp (hc.pending.mpr (Or.inr hqueued))
  have hlive : q < cfg.worldSize := (replicas_live h).1 q q t (hc.own.trans ht)
  have hv := hl.run h
  obtain ⟨-, new, hnew, hlater, hserved⟩ := servedOrWaiting_of_leads h
    (servedOrWaiting_of_queued hcfg h hqueued ht hunc) hl
  refine ⟨new, hnew, ?_⟩
  rcases hserved with hnamed | ⟨hpend, hstill⟩
  · exact hnamed
  · exfalso
    obtain ⟨hnodup, hother⟩ := overtakers hcfg hv hpend hstill
    have hall : new.filter (fun m => t.ts ≤ m.senderTicket.ts) = new :=
      List.filter_eq_self.mpr (fun m hm => decide_eq_true (hlater m hm))
    have hmem : ∀ m ∈ new, m ∈ partiesStarted v := by
      intro m hm
      rw [hnew]
      exact List.mem_append_left _ hm
    rw [hnew, List.filter_append, List.map_append, hall] at hnodup
    have hlt := length_lt_of_leaders hlive (List.nodup_append.mp hnodup).1
      (fun m hm => leader_live hcfg hv (hmem m hm))
      (fun m hm => hother m (hmem m hm) (hlater m hm))
    rw [hnew, List.length_append] at hmany
    omega

end Served

section Rounds

variable {cfg : Config} {w v : World} {q : Pid} {n : ℕ} {party : Finset Pid}

theorem leads_informed (hcfg : ExactConfig cfg) (h : (system cfg).Run (InBothOrders cfg) w)
    (hl : (system cfg).Leads (InBothOrders cfg) w n v) :
    (system cfg).Leads (InformsLeaders cfg) w n v := by
  induction hl with
  | refl => exact .refl
  | step hl hnext hk ih =>
    obtain ⟨⟨hwrap, -, hreplies, -⟩, -, hpending⟩ :=
      inEveryOrder_of_step hcfg (hl.run h) hnext hk
    exact .step ih hnext ⟨hwrap, hreplies, hpending⟩

/-- Each round starts a party at least. -/
theorem exists_party_rounds (hcfg : Accepted cfg) (hne : cfg.worldSize ≠ 1)
    (hlegal : LegalParty cfg party)
    (hroom : ∀ p < cfg.worldSize, speciesOf p cfg = .bear →
      cfg.bearWeight.toNat < cfg.partyCapacity.toNat)
    (h : (system cfg).Run (InBothOrders cfg) w) (hsilent : w.Silent) (k : ℕ)
    (hclock : 3 * (w.past.length + k * (9 * cfg.worldSize.toNat ^ 2)) < 2 ^ 64) :
    ∃ n ≤ k * (9 * cfg.worldSize.toNat ^ 2), ∃ v,
      (system cfg).Leads (InBothOrders cfg) w n v ∧ v.Silent ∧
        (partiesStarted w).length + k ≤ (partiesStarted v).length := by
  induction k with
  | zero => exact ⟨0, Nat.zero_le _, w, .refl, hsilent, Nat.le_refl _⟩
  | succ k ih =>
    rw [Nat.add_one_mul k] at hclock ⊢
    obtain ⟨n, hn, v, hl, hrest, hmany⟩ := ih (by omega)
    have hv := hl.run h
    obtain ⟨t, hround⟩ := exists_party_round hcfg hne hv hrest hlegal
      (by rw [hl.past_length]; omega)
    obtain ⟨n', hn', v', hl', hrest', hmore⟩ := hround t (Nat.le_refl t)
    refine ⟨n + n', by omega, v', hl.trans (hl'.mono (fun _ _ _ hk => hk.orders)), hrest', ?_⟩
    rcases hmore with hmore | ⟨hcap, p, hp, hbear, -⟩
    · omega
    · have hlt := hroom p hp hbear
      omega

/-- Of as many parties as there are processes one names any process that was in the line
when the network was at rest. -/
theorem named_after_rest (hcfg : ExactConfig cfg) (hne : cfg.worldSize ≠ 1)
    (h : (system cfg).Run (InBothOrders cfg) w) (hsilent : w.Silent)
    (hl : (system cfg).Leads (InBothOrders cfg) w n v)
    (hmany : (partiesStarted w).length + cfg.worldSize.toNat ≤ (partiesStarted v).length)
    (hq : Unserved (algo w q)) :
    ∃ new, partiesStarted v = new ++ partiesStarted w ∧ ∃ m ∈ new, q ∈ m.participants := by
  have hinformed : (system cfg).Run (InformsLeaders cfg) w :=
    (inEveryOrder_of_both hcfg h).mono (fun _ _ _ hk => ⟨hk.1.1, hk.1.2.2.1, hk.2.2⟩)
  have hqueued : (algo w q).currentState = .queued := by
    rcases hq with hwait | hqueued
    · exact absurd hwait (not_waiting_of_silent hne (h.mono (fun _ _ _ hk => hk.1)) hsilent q)
    · exact hqueued
  have hunc : Unclaimed w q := by
    intro a x hx
    rw [hsilent] at hx
    cases hx
  exact named_within hcfg hinformed hqueued hunc (leads_informed hcfg h hl) hmany

/-- No starvation: from a world at rest that has kept both orders, any continuation that
keeps them serves all who are in the line once it has started as many parties as there
are processes. -/
theorem everyone_served (hcfg : Accepted cfg) (h : (system cfg).Run (InBothOrders cfg) w)
    (hsilent : w.Silent) (hl : (system cfg).Leads (InBothOrders cfg) w n v)
    (hmany : (partiesStarted w).length + cfg.worldSize.toNat ≤ (partiesStarted v).length)
    (hq : Unserved (algo w q)) :
    ∃ new, partiesStarted v = new ++ partiesStarted w ∧ ∃ m ∈ new, q ∈ m.participants := by
  have hsome : ∃ m, m ∈ partiesStarted v := by
    apply List.exists_mem_of_length_pos
    have hpos := hcfg.worldSize_pos
    omega
  obtain ⟨m, hm⟩ := hsome
  have hne : cfg.worldSize ≠ 1 := ne_one_of_started (hl.run h) hm
  exact named_after_rest hcfg.exactConfig hne h hsilent hl hmany hq

/-- Everyone can be served: if there is a legal party and a bear leaves room beside it, a
world at rest that has kept both orders leads to one in which all who were in the line
have been in a party. -/
theorem everyone_can_be_served (hcfg : Accepted cfg) (hne : cfg.worldSize ≠ 1)
    (hlegal : LegalParty cfg party)
    (hroom : ∀ p < cfg.worldSize, speciesOf p cfg = .bear →
      cfg.bearWeight.toNat < cfg.partyCapacity.toNat)
    (h : (system cfg).Run (InBothOrders cfg) w) (hsilent : w.Silent)
    (hclock : 3 * (w.past.length + 9 * cfg.worldSize.toNat ^ 3) < 2 ^ 64) :
    ∃ n ≤ 9 * cfg.worldSize.toNat ^ 3, ∃ v,
      (system cfg).Leads (InBothOrders cfg) w n v ∧ v.Silent ∧
        ∀ q, Unserved (algo w q) → ∃ new, partiesStarted v = new ++ partiesStarted w ∧
          ∃ m ∈ new, q ∈ m.participants := by
  have hcube : cfg.worldSize.toNat * (9 * cfg.worldSize.toNat ^ 2) =
      9 * cfg.worldSize.toNat ^ 3 := by ring
  rw [← hcube] at hclock ⊢
  obtain ⟨n, hn, v, hl, hrest, hmany⟩ :=
    exists_party_rounds hcfg hne hlegal hroom h hsilent cfg.worldSize.toNat hclock
  refine ⟨n, hn, v, hl, hrest, ?_⟩
  intro q hq
  exact named_after_rest hcfg.exactConfig hne h hsilent hl hmany hq

/-- A hare that waits for a second one, at rest. -/
theorem exists_waiting_pair : ∃ w, (system (haresOnly 2 2)).Run (InBothOrders (haresOnly 2 2)) w ∧
    w.Silent ∧ Unserved (algo w 0) ∧ w.past.length = 3 := by
  obtain ⟨w, hrun, hempty, hasked, hpast⟩ := Protocol.exists_of_exec (system (haresOnly 2 2))
    (InBothOrders (haresOnly 2 2)) [want 0, hand 0 1, hand 1 0]
    (fun w => (∀ a ∈ processes (haresOnly 2 2).worldSize,
        ∀ b ∈ processes (haresOnly 2 2).worldSize, w.chan a b = []) ∧
      (algo w 0).currentState = .queued ∧ w.past.length = 3) (by decide +kernel)
  exact ⟨w, hrun, channels_empty (Sound.of_run hrun) hempty, Or.inr hasked, hpast⟩

/-- It is in one of the next two parties. -/
theorem everyone_served_pair : ∃ w n v,
    (system (haresOnly 2 2)).Run (InBothOrders (haresOnly 2 2)) w ∧ Unserved (algo w 0) ∧
    (system (haresOnly 2 2)).Leads (InBothOrders (haresOnly 2 2)) w n v ∧
    ∃ m ∈ partiesStarted v, 0 ∈ m.participants := by
  obtain ⟨w, hrun, hsilent, hasked, hpast⟩ := exists_waiting_pair
  obtain ⟨n, -, v, hl, -, hmany⟩ := exists_party_rounds
    (haresOnly_accepted (by decide) (by decide)) (by decide) pair_party
    (fun p hp hbear => absurd hbear (pair_hares p hp)) hrun hsilent 2 (by rw [hpast]; decide)
  obtain ⟨new, hnew, m, hm, hmem⟩ := everyone_served
    (haresOnly_accepted (by decide) (by decide)) hrun hsilent hl hmany hasked
  refine ⟨w, n, v, hrun, hasked, hl, m, ?_, hmem⟩
  rw [hnew]
  exact List.mem_append_left _ hm

/-- Seventy-two steps are enough for that. -/
theorem everyone_can_be_served_pair : ∃ w n v,
    (system (haresOnly 2 2)).Run (InBothOrders (haresOnly 2 2)) w ∧ Unserved (algo w 0) ∧
    n ≤ 72 ∧ (system (haresOnly 2 2)).Leads (InBothOrders (haresOnly 2 2)) w n v ∧
    ∃ m ∈ partiesStarted v, 0 ∈ m.participants := by
  obtain ⟨w, hrun, hsilent, hasked, hpast⟩ := exists_waiting_pair
  obtain ⟨n, hn, v, hl, -, hserved⟩ := everyone_can_be_served
    (haresOnly_accepted (by decide) (by decide)) (by decide) pair_party
    (fun p hp hbear => absurd hbear (pair_hares p hp)) hrun hsilent (by rw [hpast]; decide)
  obtain ⟨new, hnew, m, hm, hmem⟩ := hserved 0 hasked
  refine ⟨w, n, v, hrun, hasked, hn, hl, m, ?_, hmem⟩
  rw [hnew]
  exact List.mem_append_left _ hm

end Rounds

end HaresBears
