import HaresBears.DeliveryOrder

/-!
Safety of the system. Requests and party starts of different senders may reach a
process in any order, so mutual exclusion, agreement and the order of service
hold in the runs whose deliveries keep the orders of `DeliveryOrder`, and fail in
others.
-/
namespace HaresBears

open FifoNetwork LamportQueueAlgorithm

abbrev Unserved (a : LamportQueueAlgorithm) : Prop :=
  a.currentState = .waitingForReplies ∨ a.currentState = .queued

section Booking

variable {cfg : Config} {w : World}

theorem phase_waiting {a : AppState} : phaseOf a = .waiting ↔ a = .waitingForReplies := by
  cases a <;> simp [phaseOf]

theorem phase_queued {a : AppState} : phaseOf a = .queued ↔ a = .queued := by
  cases a <;> simp [phaseOf]

theorem flight_of_start {src q : Pid} {m : PartyStart} (hm : .partyStart m ∈ w.chan src q) :
    (abstraction w).flight src q (.start m.senderTicket.ts.toNat m.participants) :=
  ⟨_, hm, rfl⟩

/-- No double booking: a party start on its way to one of its participants finds
it with an unserved request and in no party. -/
theorem start_finds_unserved (hcfg : Accepted cfg) (h : (system cfg).Run InOrder w)
    {src q : Pid} {m : PartyStart} (hm : .partyStart m ∈ w.chan src q)
    (hq : q ∈ m.participants) :
    Unserved (algo w q) ∧ (algo w q).pendingReqTicket ≠ none ∧ (algo w q).myParty = none := by
  have ho := orderly_of_run hcfg.exactConfig h
  have hc := (Sound.of_run h).coherent q
  have hstate : Unserved (algo w q) := by
    rcases ho.member_pending (flight_of_start hm) hq with hp | hp
    · exact Or.inl (phase_waiting.mp hp)
    · exact Or.inr (phase_queued.mp hp)
  refine ⟨hstate, hc.pending.mpr hstate, ?_⟩
  by_contra hparty
  have hin := hc.party.mp hparty
  rcases hstate with hs | hs <;> simp [hin] at hs

def pairRun : List Label := [want 0, want 1, hand 0 1, hand 1 0, hand 1 0]

theorem start_finds_unserved_pair :
    ∃ w m, (system (haresOnly 2 2)).Run InOrder w ∧ .partyStart m ∈ w.chan 0 1 ∧
      1 ∈ m.participants ∧
      Unserved (algo w 1) ∧ (algo w 1).pendingReqTicket ≠ none ∧ (algo w 1).myParty = none := by
  obtain ⟨w, hrun, hm⟩ := Protocol.exists_of_exec (system (haresOnly 2 2))
    InOrder pairRun
    (fun w => .partyStart ⟨⟨0, 5⟩, 5, [0, 1]⟩ ∈ w.chan 0 1) (by decide +kernel)
  exact ⟨w, _, hrun, hm, by decide,
    start_finds_unserved (haresOnly_accepted (by decide) (by decide)) hrun hm (by decide)⟩

/-- Process 0 hears the start of its party while an older request of process 1
is still on its way to 0, and later takes the ghost of that request for
pending. -/
def bookingRun : List Label :=
  [want 2, hand 2 1, hand 2 0, hand 0 2, want 1, hand 1 0, hand 1 2, want 0, hand 0 2, hand 2 1,
    hand 2 0, hand 0 1, hand 1 2, hand 2 1, hand 0 1, hand 2 0, hand 1 0]

/-- Without the order a party start can reach a participant that is in a party. -/
theorem start_finds_member_in_party :
    ¬ ∀ cfg, Accepted cfg → ∀ w, (system cfg).Reachable w → ∀ src q m rest,
      w.chan src q = .partyStart m :: rest → q ∈ m.participants → Unserved (algo w q) := by
  intro h
  obtain ⟨w, hrun, hm, hparty⟩ := Protocol.exists_of_exec (system (haresOnly 3 2))
    (fun _ _ _ => True) bookingRun
    (fun w => (w.chan 1 0).head? = some (.partyStart ⟨⟨1, 13⟩, 10000013, [1, 0]⟩) ∧
      (algo w 0).currentState = .inParty) (by decide +kernel)
  obtain ⟨rest, hrest⟩ := List.head?_eq_some_iff.mp hm
  have hs := h _ (haresOnly_accepted (by decide) (by decide)) w hrun 1 0 _ rest hrest (by decide)
  rcases hs with hs | hs <;> simp [hparty] at hs

end Booking

section Leader

variable {cfg : Config} {w : World}

theorem leads_of_amLeader (hs : Sound cfg w) {p : Pid} (h : (algo w p).amLeader = true) :
    (abstraction w).Leads p := by
  have hfirst := (algo w p).amLeader_iff.mp h
  rw [(hs.coherent p).myPid] at hfirst
  exact leads_of_first rfl hfirst

/-- Leader mutual exclusion: at most one queued process is first in its replica. -/
theorem leader_unique (hcfg : Accepted cfg) (h : (system cfg).Run InOrder w) {p q : Pid}
    (hp : (algo w p).currentState = .queued) (hq : (algo w q).currentState = .queued)
    (hlp : (algo w p).amLeader = true) (hlq : (algo w q).amLeader = true) : p = q := by
  have hs := Sound.of_run h
  exact (orderly_of_run hcfg.exactConfig h).first_unique (phase_queued.mpr hp)
    (phase_queued.mpr hq) (leads_of_amLeader hs hlp) (leads_of_amLeader hs hlq)

/-- Two hares of a party of three are queued, and the later one does not lead. -/
theorem leader_unique_pair :
    ∃ w, (system (haresOnly 3 3)).Run InOrder w ∧ (algo w 0).currentState = .queued ∧
      (algo w 1).currentState = .queued ∧ (algo w 0).amLeader = true ∧
      (algo w 1).amLeader = false := by
  obtain ⟨w, hrun, h0, h1, hl⟩ := Protocol.exists_of_exec (system (haresOnly 3 3)) InOrder
    [want 0, want 1, hand 0 1, hand 1 0, hand 0 2, hand 1 2, hand 1 0, hand 2 0, hand 0 1, hand 2 1]
    (fun w => (algo w 0).currentState = .queued ∧ (algo w 1).currentState = .queued ∧
      (algo w 0).amLeader = true) (by decide +kernel)
  refine ⟨w, hrun, h0, h1, hl, ?_⟩
  rw [Bool.eq_false_iff]
  intro hl'
  have heq := leader_unique (haresOnly_accepted (by decide) (by decide)) hrun h0 h1 hl hl'
  exact absurd heq (by decide)

/-- Process 2 removes the second request of process 1 on hearing the start that
served the first, and queues as the leader beside process 1. -/
def twoLeadersRun : List Label :=
  [want 0, want 1, want 2, hand 0 1, hand 0 2, hand 2 1, hand 1 2, hand 1 0, hand 2 0, hand 1 0,
    hand 2 0, hand 0 1, hand 0 1, release 1, want 1, hand 1 2, hand 1 2, hand 0 2, hand 0 2,
    release 2, want 2, hand 2 1, hand 2 1, hand 2 1, hand 1 0, hand 0 1, hand 2 0, hand 0 2,
    hand 1 2]

theorem two_leaders :
    ¬ ∀ cfg, Accepted cfg → ∀ w, (system cfg).Reachable w → ∀ p q,
      (algo w p).currentState = .queued → (algo w q).currentState = .queued →
      (algo w p).amLeader = true → (algo w q).amLeader = true → p = q := by
  intro h
  obtain ⟨w, hrun, hp, hq, hlp, hlq⟩ := Protocol.exists_of_exec (system (haresOnly 3 3))
    (fun _ _ _ => True) twoLeadersRun
    (fun w => (algo w 1).currentState = .queued ∧ (algo w 2).currentState = .queued ∧
      (algo w 1).amLeader = true ∧ (algo w 2).amLeader = true) (by decide +kernel)
  have heq := h _ (haresOnly_accepted (by decide) (by decide)) w hrun 1 2 hp hq hlp hlq
  exact absurd heq (by decide)

end Leader

section Agreement

variable {cfg : Config} {w : World}

theorem snapshot_eq_of_mem {q q' : RequestQueue} (h : ∀ t, t ∈ q.snapshot ↔ t ∈ q'.snapshot) :
    q.snapshot = q'.snapshot := by
  have hperm := (List.perm_ext_iff_of_nodup q.queue.nodup q'.queue.nodup).mpr h
  exact hperm.eq_of_pairwise (fun _ _ _ _ hab hba => absurd hba (lt_asymm hab))
    q.snapshot_sorted q'.snapshot_sorted

/-- Replica agreement: when nothing is in flight, every replica lists exactly the
pending tickets of the waiting and queued processes. -/
theorem replicas_agree (hcfg : Accepted cfg) (h : (system cfg).Run InOrder w)
    (hnone : ∀ a b, w.chan a b = []) :
    (∀ p < cfg.worldSize, ∀ t, t ∈ (algo w p).globalQueue.snapshot ↔
      ∃ r < cfg.worldSize, Unserved (algo w r) ∧ (algo w r).pendingReqTicket = some t) ∧
    ∀ p < cfg.worldSize, ∀ q < cfg.worldSize,
      (algo w p).globalQueue.snapshot = (algo w q).globalQueue.snapshot := by
  have hs := Sound.of_run h
  have ho := orderly_of_run hcfg.exactConfig h
  have hflight : ∀ a b x, ¬ (abstraction w).flight a b x := by
    intro a b x hex
    obtain ⟨m, hm, -⟩ := hex
    rw [hnone] at hm
    cases hm
  have hmem : ∀ p < cfg.worldSize, ∀ t, t ∈ (algo w p).globalQueue.snapshot ↔
      ∃ r < cfg.worldSize, Unserved (algo w r) ∧ (algo w r).pendingReqTicket = some t := by
    intro p hp t
    rw [RequestQueue.mem_snapshot]
    constructor
    · intro hl
      have hrep : (abstraction w).replica p t.pid = some t.ts.toNat := by
        simp only [abstraction, view, times, hl, Option.map_some]
      have htick := (ho.replica_iff_ticket hflight hp t.ts.toNat).mp hrep
      obtain ⟨k, hk, hkt⟩ := Option.map_eq_some_iff.mp htick
      obtain rfl : k = t := Ticket.ext_toNat hkt (by rw [pending_pid hs hk])
      exact ⟨k.pid, ho.basic.live_of_ticket htick,
        (hs.coherent k.pid).pending.mp (by simp [hk]), hk⟩
    · intro hex
      obtain ⟨r, -, -, hk⟩ := hex
      have hpid := pending_pid hs hk
      have htick : (abstraction w).ticket r = some t.ts.toNat := by
        simp only [abstraction, view, hk, Option.map_some]
      obtain ⟨k, hl, hkp, hkt⟩ := lookup_of_times
        ((ho.replica_iff_ticket hflight hp t.ts.toNat).mpr htick)
      obtain rfl : k = t := Ticket.ext_toNat hkt (by rw [hkp, hpid])
      rwa [hkp]
  refine ⟨hmem, fun p hp q hq => ?_⟩
  exact snapshot_eq_of_mem (fun t => (hmem p hp t).trans (hmem q hq t).symm)

/-- After a party of two everybody knows the one ticket of the third. -/
theorem replicas_agree_served :
    ∃ w, (system (haresOnly 3 2)).Run InOrder w ∧ (∀ a b, w.chan a b = []) ∧
      (algo w 0).currentState = .inParty ∧ (algo w 1).currentState = .inParty ∧
      (algo w 2).pendingReqTicket = some ⟨2, 8⟩ ∧
      (∀ p < 3, ∀ t, t ∈ (algo w p).globalQueue.snapshot ↔
        ∃ r < 3, Unserved (algo w r) ∧ (algo w r).pendingReqTicket = some t) ∧
      ∀ p < 3, ∀ q < 3, (algo w p).globalQueue.snapshot = (algo w q).globalQueue.snapshot := by
  obtain ⟨w, hrun, h0, h1, hpend, hchan⟩ := Protocol.exists_of_exec (system (haresOnly 3 2))
    InOrder servedRun
    (fun w => (algo w 0).currentState = .inParty ∧ (algo w 1).currentState = .inParty ∧
      (algo w 2).pendingReqTicket = some ⟨2, 8⟩ ∧
      ∀ a ∈ processes (haresOnly 3 2).worldSize, ∀ b ∈ processes (haresOnly 3 2).worldSize,
        w.chan a b = []) (by decide +kernel)
  have hnone := channels_empty (Sound.of_run hrun) hchan
  exact ⟨w, hrun, hnone, h0, h1, hpend,
    replicas_agree (haresOnly_accepted (by decide) (by decide)) hrun hnone⟩

/-- The request of process 1 reaches process 2 after the start that has served
it, and stays in the replica of process 2 for good. -/
def ghostRun : List Label :=
  [want 0, want 1, hand 0 1, hand 1 0, hand 0 2, hand 1 0, hand 2 0, hand 0 2, hand 1 2, hand 0 1,
    hand 0 1, hand 2 1]

theorem ghost_ticket :
    ¬ ∀ cfg, Accepted cfg → ∀ w, (system cfg).Reachable w → (∀ a b, w.chan a b = []) →
      ∀ p < cfg.worldSize, ∀ t, t ∈ (algo w p).globalQueue.snapshot ↔
        ∃ r < cfg.worldSize, Unserved (algo w r) ∧ (algo w r).pendingReqTicket = some t := by
  intro h
  obtain ⟨w, hrun, hghost, hserved, hchan⟩ := Protocol.exists_of_exec (system (haresOnly 3 2))
    (fun _ _ _ => True) ghostRun
    (fun w => ⟨1, 1⟩ ∈ (algo w 2).globalQueue.snapshot ∧
      (∀ r ∈ processes (haresOnly 3 2).worldSize, ¬ Unserved (algo w r)) ∧
      ∀ a ∈ processes (haresOnly 3 2).worldSize, ∀ b ∈ processes (haresOnly 3 2).worldSize,
        w.chan a b = []) (by decide +kernel)
  have hnone := channels_empty (Sound.of_run hrun) hchan
  have hiff := h _ (haresOnly_accepted (by decide) (by decide)) w hrun hnone 2 (by decide) ⟨1, 1⟩
  obtain ⟨r, hr, hs, -⟩ := hiff.mp hghost
  exact hserved r (mem_processes.mpr hr) hs

end Agreement

section Removal

variable {cfg : Config} {w w' : World}

/-- No request is lost to an old party: the ticket a party start removes is the
one its leader had taken up when it formed the party. -/
theorem removed_is_taken (hcfg : Accepted cfg) (h : (system cfg).Run (InBothOrders cfg) w)
    {leader s : Pid} {env : Env} {m : PartyStart} {rest : List Message}
    (hchan : w.chan leader s = .partyStart m :: rest)
    (hok : InBothOrders cfg w (.deliver leader s env)
      ((system cfg).hear w leader s env (.partyStart m) rest))
    {r : Pid} (hr : r ∈ m.participants) {t : Ticket}
    (ht : (algo w s).globalQueue.lookup r = some t) :
    (∃ c ∈ w.past, c.proc = leader ∧ Forms c m) ∧
      ∀ c ∈ w.past, c.proc = leader → Forms c m → (queueAt c).lookup r = some t := by
  have hmem : .partyStart m ∈ w.chan leader s := by simp [hchan]
  refine ⟨mem_past_of_start h hmem, ?_⟩
  intro c hc hproc hforms
  obtain ⟨ho, hset, htr⟩ := traced_of_run hcfg.exactConfig h
  have hs := Sound.of_run h
  have hsorted := chan_sorted h (disciplined_of_run (h.mono (fun _ _ _ hk => hk.1))) leader s
  have hrep : (abstraction w).replica s r = some t.ts.toNat := by
    simp only [abstraction, view, times, ht, Option.map_some]
  have hen : (abstraction w).Enabled (live cfg) (hearEvent leader s
      (max (time (w.node s)) (stamp (.partyStart m)) + 1) (.partyStart m)) :=
    enabled_hear hchan hsorted (by omega) (by omega)
  have htaken := GroupAdmission.removed_ticket ho hset htr hen
    (requestsFirst_hear hchan hok.2.1 _) hr hrep (f := formation c m) ⟨c, hc, m, hforms, rfl⟩
    hproc rfl rfl
  obtain ⟨k, hk, hkp, hkt⟩ := lookup_of_times htaken
  obtain rfl : k = t := Ticket.ext_toNat hkt (by rw [hkp, RequestQueue.lookup_pid ht])
  exact hk

def thirdRun : List Label :=
  [want 0, want 1, hand 0 1, hand 1 0, hand 0 2, hand 1 2, hand 1 0, hand 2 0]

theorem removed_is_taken_third :
    ∃ w m rest, (system (haresOnly 3 2)).Run (InBothOrders (haresOnly 3 2)) w ∧
      w.chan 0 2 = .partyStart m :: rest ∧ 1 ∈ m.participants ∧
      (algo w 2).globalQueue.lookup 1 = some ⟨1, 1⟩ ∧
      (∃ c ∈ w.past, c.proc = 0 ∧ Forms c m) ∧
      ∀ c ∈ w.past, c.proc = 0 → Forms c m → (queueAt c).lookup 1 = some ⟨1, 1⟩ := by
  obtain ⟨w, hrun, hm, hl, hok⟩ := Protocol.exists_of_exec (system (haresOnly 3 2))
    (InBothOrders (haresOnly 3 2)) thirdRun
    (fun w => (w.chan 0 2).head? = some (.partyStart ⟨⟨0, 6⟩, 6, [0, 1]⟩) ∧
      (algo w 2).globalQueue.lookup 1 = some ⟨1, 1⟩ ∧
      ∀ w' ∈ (system (haresOnly 3 2)).next w (hand 0 2),
        InBothOrders (haresOnly 3 2) w (hand 0 2) w') (by decide +kernel)
  obtain ⟨rest, hrest⟩ := List.head?_eq_some_iff.mp hm
  have hstep := hok _ (by simp only [hand, Protocol.next, hrest]; rfl)
  exact ⟨w, _, rest, hrun, hrest, by decide, hl,
    removed_is_taken (haresOnly_accepted (by decide) (by decide)) hrun hrest hstep (by decide) hl⟩

/-- The second request of process 1 reaches process 2 before the start that has
served the first. -/
def lostRun : List Label :=
  [want 0, hand 0 1, want 1, hand 1 2, hand 1 0, hand 0 2, hand 1 0, hand 0 1, hand 2 0, hand 0 1,
    release 1, want 1, hand 1 2]

theorem removed_is_newer :
    ¬ ∀ cfg, Accepted cfg → ∀ w, (system cfg).Reachable w → ∀ leader s m rest,
      w.chan leader s = .partyStart m :: rest → ∀ r ∈ m.participants, ∀ t,
      (algo w s).globalQueue.lookup r = some t →
      ∀ c ∈ w.past, c.proc = leader → Forms c m → (queueAt c).lookup r = some t := by
  intro h
  obtain ⟨w, hrun, hm, hl, c, hc, hproc, hforms, htaken⟩ :=
    Protocol.exists_of_exec (system (haresOnly 3 2)) (fun _ _ _ => True) lostRun
    (fun w => (w.chan 0 2).head? = some (.partyStart ⟨⟨0, 8⟩, 8, [0, 1]⟩) ∧
      (algo w 2).globalQueue.lookup 1 = some ⟨1, 11⟩ ∧
      ∃ c ∈ w.past, c.proc = 0 ∧ (∃ pkt ∈ c.out, pkt.msg = .partyStart ⟨⟨0, 8⟩, 8, [0, 1]⟩) ∧
        (queueAt c).lookup 1 = some ⟨1, 3⟩) (by decide +kernel)
  obtain ⟨rest, hrest⟩ := List.head?_eq_some_iff.mp hm
  have hsame := h _ (haresOnly_accepted (by decide) (by decide)) w hrun 0 2 _ rest hrest 1
    (by decide) _ hl c hc hproc hforms
  rw [htaken] at hsame
  exact absurd hsame (by decide)

end Removal

section Service

variable {cfg : Config} {w w' : World}

/-- A step that starts a party hands a message to the leader. -/
theorem leader_hears {ok : World → Label → World → Prop} (h : (system cfg).Run ok w) {l : Label}
    (hnext : (system cfg).next w l = some w') {c : Call} (hpast : w'.past = c :: w.past)
    {m : PartyStart} (hforms : Forms c m) :
    ∃ src env x rest g, l = .deliver src c.proc env ∧ w.chan src c.proc = x :: rest ∧
      w' = (system cfg).hear w src c.proc env x rest ∧
      ((algo w c.proc).absorb src x).settle.Ready g ∧ ¬ x.Names (algo w c.proc).myPid ∧
      (algo w' c.proc) = ((algo w c.proc).absorb src x).settle.afterStart g := by
  rcases Protocol.next_cases hnext with
    ⟨src, dst, env, x, rest, rfl, hchan, rfl⟩ | ⟨p, env, rfl, hp, rfl⟩
  · have hs := Sound.of_run h
    have hheard := Runtime.onMsg_heard (w.node dst) env src x (hs.notReady dst)
    obtain rfl := (List.cons.inj hpast).1
    refine ⟨src, env, x, rest, ?_⟩
    have hres : algo ((system cfg).hear w src dst env x rest) dst =
        ((system cfg).onMsg dst (w.node dst) env src x).1.algorithm := by
      simp only [algo, Protocol.hear_node_self]
    obtain ⟨pkt, hpkt, hmsg⟩ := hforms
    dsimp only at hpkt ⊢
    rw [hres]
    change pkt ∈ ((system cfg).onMsg dst (w.node dst) env src x).2 at hpkt
    change Runtime.Heard (w.node dst) env src x ((system cfg).onMsg dst (w.node dst) env src x)
      at hheard
    generalize (system cfg).onMsg dst (w.node dst) env src x = res at hheard hpkt ⊢
    cases hheard with
    | stay a l ha _ _ _ => exact absurd hmsg (answer_not_start hpkt)
    | start a g ha hr hn =>
      subst ha
      exact ⟨g, rfl, hchan, rfl, hr, hn, rfl⟩
  · have hs := Sound.of_run h
    have hpolled := (hs.inStep p).onPoll env
    obtain rfl := (List.cons.inj hpast).1
    obtain ⟨pkt, hpkt, hmsg⟩ := hforms
    change pkt ∈ ((system cfg).onPoll p (w.node p) env).2 at hpkt
    change Runtime.Polled (w.node p) env ((system cfg).onPoll p (w.node p) env) at hpolled
    generalize (system cfg).onPoll p (w.node p) env = res at hpolled hpkt
    cases hpolled with
    | nothing => cases hpkt
    | want _ =>
      obtain rfl := List.mem_singleton.mp hpkt
      cases hmsg
    | release _ => cases hpkt

theorem informs_onHearing : OnHearing GroupAdmission.InformsLeaders := by
  apply onHearing_of_events
  exact fun _ _ _ _ => ⟨⟨trivial, trivial⟩, ⟨trivial, trivial⟩, ⟨trivial, trivial⟩,
    ⟨trivial, trivial⟩⟩

theorem informs_hear (hs : Sound cfg w) {src dst : Pid} {env : Env} {x : Message}
    {rest : List Message} (hchan : w.chan src dst = x :: rest)
    (hok : InformsLeaders cfg w (.deliver src dst env) w') (e : ℕ) :
    GroupAdmission.InformsLeaders (abstraction w) (hearEvent src dst e x) :=
  ⟨ownReplies_hear hchan hok.2.1 e, keepsPending_hear hs hchan hok.2.2 e⟩

/-- A start still on its way to `q` in the middle of a step was so before it. -/
theorem claimed_viewAfter {src p q : Pid} {x : Message} {rest : List Message}
    {a : LamportQueueAlgorithm} {formed : GroupAdmission.Formation Pid → Prop}
    (hchan : w.chan src p = x :: rest)
    (hc : GroupAdmission.Claimed (viewAfter (w.consume src p rest) p a
      (((algo w p).answer x).toList.map (fun y => ⟨[src], y⟩)) formed) q) :
    ∃ b, ∃ y ∈ w.chan b q, q ∈ y.participants := by
  obtain ⟨b, u, g, ⟨y, hy, hyu⟩, hq⟩ := hc
  obtain ⟨hpart, -⟩ := start_of_abstract hyu
  refine ⟨b, y, ?_, hpart ▸ hq⟩
  rcases List.mem_append.mp hy with hold | hnew
  · unfold World.consume at hold
    dsimp only at hold
    split at hold
    · rename_i hab
      rw [hab.1, hab.2, hchan]
      exact List.mem_cons_of_mem _ hold
    · exact hold
  · split at hnew
    · obtain ⟨pkt, hpkt, -, rfl⟩ := mem_addressed.mp hnew
      cases hm : pkt.msg with
      | partyStart z => exact absurd hm (answer_not_start hpkt)
      | request | reply =>
        rw [hm] at hyu
        cases hyu
    · cases hnew

/-- Requests are served in ticket order: every process with an unserved request
for which no party start is on its way has a later ticket than a process that
starts a party. -/
theorem started_in_ticket_order (hcfg : Accepted cfg)
    (h : (system cfg).Run (InformsLeaders cfg) w) {l : Label}
    (hnext : (system cfg).next w l = some w') (hok : InformsLeaders cfg w l w') {c : Call}
    (hpast : w'.past = c :: w.past) {m : PartyStart} (hforms : Forms c m) :
    ∃ t, (algo w c.proc).pendingReqTicket = some t ∧
      ∀ q ≠ c.proc, Unserved (algo w q) → (∀ x, ∀ y ∈ w.chan x q, q ∉ y.participants) →
        ∃ u, (algo w q).pendingReqTicket = some u ∧ t < u := by
  obtain ⟨src, env, x, rest, g, rfl, hchan, rfl, hready, hnamed, hafter⟩ :=
    leader_hears h hnext hpast hforms
  have hs := Sound.of_run h
  have hm : Proper cfg src c.proc x := hs.proper src c.proc x (by simp [hchan])
  have hcoh := ((hs.coherent c.proc).absorb hm).settle
  have hsorted := chan_sorted h (disciplined_of_run (h.mono (fun _ _ _ hk => hk.1))) src c.proc
  have htime := congrArg (fun a => a.lamportClock.time.toNat) hafter
  have hclock := hok.1.1
  have hheard := hok.1.2 x (by simp [hchan])
  rw [show time _ = _ from htime] at hclock hheard
  have hz : Readings (w.node c.proc) src x
      (((algo w c.proc).absorb src x).settle.afterStart g).lamportClock.time.toNat :=
    readings (Or.inr (toNat_tick _)) hclock hheard
  -- The state in which the leader forms the party is itself a state of group admission.
  have hrun := refines hcfg.exactConfig informs_onHearing (fun _ _ _ hk => hk.1)
    (fun _ _ _ _ _ _ _ hr hc hk => informs_hear (Sound.of_run hr) hc hk) h
  have hform := refines_absorb informs_onHearing hs hchan hsorted hz (informs_hear hs hchan hok)
    hrun
  obtain ⟨hb, hr, hd⟩ := GroupAdmission.informed_of_run hform
  obtain ⟨hqueued, hleads, -⟩ := enabled_form (w := w.consume src c.proc rest)
    hcfg.exactConfig hcoh hready (Nat.lt_succ_self _)
  have hpend : ((algo w c.proc).absorb src x).settle.pendingReqTicket =
      (algo w c.proc).pendingReqTicket := by
    rw [settle_pending, absorb_pending src hnamed]
  obtain ⟨t, ht⟩ := Option.ne_none_iff_exists'.mp (hcoh.pending.mpr (Or.inr hready.queued))
  refine ⟨t, by rw [← hpend, ht], ?_⟩
  intro q hne hq hnone
  obtain ⟨u, hu⟩ := Option.ne_none_iff_exists'.mp ((hs.coherent q).pending.mpr hq)
  refine ⟨u, hu, ?_⟩
  have hearlier : GroupAdmission.Earlier t.ts.toNat c.proc u.ts.toNat q := by
    refine GroupAdmission.served_in_order hb hr hd hqueued hleads ?_ ?_ hne ?_
    · simp [viewAfter, view, ht]
    · simp [viewAfter, view, hne, hu]
    · intro hc
      obtain ⟨b, y, hy, hqy⟩ := claimed_viewAfter hchan hc
      exact hnone b y hy hqy
  have htp : t.pid = c.proc := RequestQueue.lookup_pid (hcoh.own.trans ht)
  unfold GroupAdmission.Earlier at hearlier
  rw [UInt32.lt_iff_toNat_lt] at hearlier
  rwa [Ticket.lt_iff, htp, pending_pid hs hu]

theorem unnamed_of_processes (hs : Sound cfg w) {q : Pid}
    (h : ∀ x ∈ processes cfg.worldSize, ∀ y ∈ w.chan x q, q ∉ y.participants) :
    ∀ x, ∀ y ∈ w.chan x q, q ∉ y.participants :=
  fun x y hy => h x (mem_processes.mpr (hs.proper x q y hy).src_live) y hy

def StartsLast (w : World) (m : PartyStart) : Prop :=
  ∃ c ∈ w.past.head?, ∃ pkt ∈ c.out, pkt.msg = .partyStart m

instance (w : World) (m : PartyStart) : Decidable (StartsLast w m) :=
  inferInstanceAs (Decidable (∃ c ∈ w.past.head?, ∃ pkt ∈ c.out, pkt.msg = .partyStart m))

theorem forms_of_startsLast {l : Label} {m : PartyStart}
    (hnext : (system cfg).next w l = some w')
    (h : StartsLast w' m) : ∃ c, w'.past = c :: w.past ∧ Forms c m := by
  obtain ⟨c, hc⟩ := Protocol.next_past hnext
  obtain ⟨d, hd, pkt, hpkt, hmsg⟩ := h
  rw [hc] at hd
  obtain rfl := Option.some.inj hd
  exact ⟨c, hc, pkt, hpkt, hmsg⟩

theorem started_in_ticket_order_pair :
    ∃ w w' c m, (system (haresOnly 3 2)).Run (InformsLeaders (haresOnly 3 2)) w ∧
      (system (haresOnly 3 2)).next w (hand 2 0) = some w' ∧ w'.past = c :: w.past ∧ Forms c m ∧
      (algo w 2).pendingReqTicket = some ⟨2, 4⟩ ∧
      ∃ t, (algo w c.proc).pendingReqTicket = some t ∧
        ∀ q ≠ c.proc, Unserved (algo w q) → (∀ x, ∀ y ∈ w.chan x q, q ∉ y.participants) →
          ∃ u, (algo w q).pendingReqTicket = some u ∧ t < u := by
  obtain ⟨w, hrun, hpend, hstep⟩ := Protocol.exists_of_exec (system (haresOnly 3 2))
    (InformsLeaders (haresOnly 3 2))
    [want 0, want 1, hand 0 1, hand 1 0, hand 0 2, hand 1 2, hand 1 0, want 2]
    (fun w => (algo w 2).pendingReqTicket = some ⟨2, 4⟩ ∧
      ∃ w' ∈ (system (haresOnly 3 2)).next w (hand 2 0),
        InformsLeaders (haresOnly 3 2) w (hand 2 0) w' ∧ StartsLast w' ⟨⟨0, 6⟩, 6, [0, 1]⟩)
    (by decide +kernel)
  obtain ⟨w', hnext, hok, hlast⟩ := hstep
  obtain ⟨c, hpast, hforms⟩ := forms_of_startsLast hnext hlast
  exact ⟨w, w', c, _, hrun, hnext, hpast, hforms, hpend,
    started_in_ticket_order (haresOnly_accepted (by decide) (by decide)) hrun hnext hok hpast
      hforms⟩

/-- Process 2 has lost the second request of process 1, which is older than its
own, and is about to start a party. -/
def overtakenRun : List Label :=
  [want 0, want 1, hand 0 1, hand 1 0, hand 0 2, hand 1 0, hand 2 0, hand 0 1, hand 0 1,
    release 1, want 1, hand 1 2, hand 1 2, hand 0 2, want 2, release 0, hand 2 0, want 0,
    hand 2 1, hand 2 1, hand 2 1, hand 0 2, hand 0 2]

theorem started_ahead_of_older :
    ¬ ∀ cfg, Accepted cfg → ∀ w, (system cfg).Reachable w → ∀ l w',
      (system cfg).next w l = some w' → ∀ c m, w'.past = c :: w.past → Forms c m →
      ∀ t, (algo w c.proc).pendingReqTicket = some t →
      ∀ q ≠ c.proc, Unserved (algo w q) → (∀ x, ∀ y ∈ w.chan x q, q ∉ y.participants) →
        ∃ u, (algo w q).pendingReqTicket = some u ∧ t < u := by
  intro h
  obtain ⟨w, hrun, hleader, hother, hwait, hunnamed, hstep⟩ := Protocol.exists_of_exec
    (system (haresOnly 3 2)) (fun _ _ _ => True) overtakenRun
    (fun w => (algo w 2).pendingReqTicket = some ⟨2, 12⟩ ∧
      (algo w 1).pendingReqTicket = some ⟨1, 9⟩ ∧ Unserved (algo w 1) ∧
      (∀ x ∈ processes (haresOnly 3 2).worldSize, ∀ y ∈ w.chan x 1, 1 ∉ y.participants) ∧
      ∃ w' ∈ (system (haresOnly 3 2)).next w (hand 1 2), StartsLast w' ⟨⟨2, 18⟩, 20000018, [2, 0]⟩)
    (by decide +kernel)
  obtain ⟨w', hnext, hlast⟩ := hstep
  obtain ⟨c, hpast, hforms⟩ := forms_of_startsLast hnext hlast
  obtain ⟨src, env, x, rest, g, hl, -⟩ := leader_hears hrun hnext hpast hforms
  have hproc : c.proc = 2 := by
    simp only [hand, Label.deliver.injEq] at hl
    exact hl.2.1.symm
  obtain ⟨u, hu, hlt⟩ := h _ (haresOnly_accepted (by decide) (by decide)) w hrun _ w' hnext c _
    hpast hforms ⟨2, 12⟩ (by rw [hproc, hleader]) 1 (by rw [hproc]; decide) hwait
    (unnamed_of_processes (Sound.of_run hrun) hunnamed)
  rw [hother] at hu
  obtain rfl := Option.some.inj hu
  exact absurd hlt (by decide)

end Service

end HaresBears
