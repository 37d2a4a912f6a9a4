import HaresBears.PossibleParties

/-!
Deadlock. Once everybody knows that a bear that leaves no room beside it heads the line,
no step starts a party ever again. So the system can come to a halt with a legal party in
the line exactly if there is such a bear, or nobody to ask.
-/
namespace HaresBears

open FifoNetwork LamportQueueAlgorithm

/-- The ticket `t` of the bear `p` heads every replica, and nothing on its way is earlier. -/
structure BearFirst (cfg : Config) (p : Pid) (t : Ticket) (w : World) : Prop where
  line : Unserved (algo w p)
  known : ∀ q < cfg.worldSize, (algo w q).globalQueue.lookup p = some t
  least : ∀ q < cfg.worldSize, ∀ r u, (algo w q).globalQueue.lookup r = some u → t ≤ u
  clock : ∀ q < cfg.worldSize, t.ts.toNat ≤ time (w.node q)
  quiet : ∀ a b, ∀ x ∈ w.chan a b, x.starts = none
  asks : ∀ a b, ∀ x ∈ w.chan a b, ∀ u ∈ x.asks, t ≤ u ∧ (u.pid = p → u = t)

section Blocked

variable {cfg : Config} {w v : World} {a : LamportQueueAlgorithm} {r : Runtime} {env : Env}
variable {src dst p q : Pid} {m : Message} {rest : List Message} {t : Ticket} {n : ℕ}
variable {res : Runtime × Sends}

structure Heads (p : Pid) (t : Ticket) (queue : RequestQueue) : Prop where
  known : queue.lookup p = some t
  least : ∀ r u, queue.lookup r = some u → t ≤ u

/-- Nobody starts a party behind the bear, nor does the bear. -/
theorem not_ready_behind (hcfg : ExactConfig cfg) (hbear : speciesOf p cfg = .bear)
    (hcap : cfg.partyCapacity.toNat ≤ cfg.bearWeight.toNat) (hc : Coherent cfg q a)
    (hlive : ∀ r u, a.globalQueue.lookup r = some u → r < cfg.worldSize)
    (hh : Heads p t a.globalQueue) (g : List Pid) : ¬ a.Ready g := by
  intro hr
  obtain ⟨u, hu, hleast⟩ := RequestQueue.getFirstPid_eq_some.mp hr.first
  have heq : u = t := le_antisymm (hleast p t hh.known) (hh.least _ u hu)
  have hpid : a.myPid = p := by
    rw [← RequestQueue.lookup_pid hu, heq, RequestQueue.lookup_pid hh.known]
  have hvalid := tryBuildParty_valid (by rw [hc.config]; exact hcfg)
    (by rw [hc.policy, hc.config]) hr.first hr.group
  rw [hc.config] at hvalid
  have hlegal : LegalParty cfg g.toFinset := by
    refine ⟨?_, ?_, ?_⟩
    · intro r hr
      obtain ⟨k, hk⟩ := Option.isSome_iff_exists.mp (hvalid.drawn r (List.mem_toFinset.mp hr))
      exact hlive r k hk
    · obtain ⟨r, hr, hhare⟩ := hvalid.hare
      exact ⟨r, List.mem_toFinset.mpr hr, hhare⟩
    · rw [← hvalid.weight]
      exact List.sum_toFinset _ hvalid.nodup
  have hroom := hlegal.room hcfg (List.mem_toFinset.mpr (hpid ▸ hr.mem)) hbear
  omega

theorem Heads.absorb (h : Heads p t a.globalQueue) (hm : m.starts = none)
    (hasks : ∀ u ∈ m.asks, t ≤ u ∧ (u.pid = p → u = t)) (src : Pid) :
    Heads p t (a.absorb src m).globalQueue := by
  constructor
  · rw [absorb_lookup]
    cases m with
    | request x =>
      dsimp only
      split
      · rename_i hp
        rw [(hasks x.requestTicket rfl).2 hp.symm]
      · exact h.known
    | reply x => exact h.known
    | partyStart x => cases hm
  · intro r u hu
    rw [absorb_lookup] at hu
    cases m with
    | request x =>
      dsimp only at hu
      split at hu
      · exact Option.some.inj hu ▸ (hasks x.requestTicket rfl).1
      · exact h.least r u hu
    | reply x => exact h.least r u hu
    | partyStart x => cases hm

/-- A message that starts no party leaves the line behind the bear. -/
theorem heard_behind (hcfg : ExactConfig cfg) (hbear : speciesOf p cfg = .bear)
    (hcap : cfg.partyCapacity.toNat ≤ cfg.bearWeight.toNat) (hc : Coherent cfg dst r.algorithm)
    (hproper : Proper cfg src dst m) (hh : Runtime.Heard r env src m res)
    (hlive : ∀ q u, (r.algorithm.absorb src m).globalQueue.lookup q = some u → q < cfg.worldSize)
    (hheads : Heads p t (r.algorithm.absorb src m).globalQueue) (hm : m.starts = none) :
    res.1.algorithm.globalQueue = (r.algorithm.absorb src m).globalQueue ∧
      (∀ pkt ∈ res.2, pkt.msg.starts = none) ∧
      (Unserved r.algorithm → Unserved res.1.algorithm) := by
  cases hh with
  | stay a l ha _ _ _ =>
    subst ha
    have hnone := filterMap_answer (f := Message.starts) (fun _ => rfl) r.algorithm src m
    exact ⟨settle_queue _, List.filterMap_eq_nil_iff.mp hnone,
      fun hu => unserved_absorb.mpr ⟨not_names_of_starts hm _, hu⟩⟩
  | start a g ha hr _ =>
    subst ha
    rw [← settle_queue] at hlive hheads
    exact absurd hr (not_ready_behind hcfg hbear hcap (hc.absorb hproper).settle hlive hheads g)

theorem BearFirst.heard (hcfg : ExactConfig cfg) (hbear : speciesOf p cfg = .bear)
    (hcap : cfg.partyCapacity.toNat ≤ cfg.bearWeight.toNat) (hr : (system cfg).Reachable w)
    (h : BearFirst cfg p t w) (hmem : m ∈ w.chan src dst) (env : Env) :
    Heads p t (Runtime.onMsg (w.node dst) env src m).1.algorithm.globalQueue ∧
      (∀ pkt ∈ (Runtime.onMsg (w.node dst) env src m).2, pkt.msg.starts = none) ∧
      (Unserved (algo w dst) →
        Unserved (Runtime.onMsg (w.node dst) env src m).1.algorithm) := by
  have hs := Sound.of_run hr
  have hproper := hs.proper src dst m hmem
  have hdst := hproper.dst_live
  have hquiet := h.quiet src dst m hmem
  have hheads := Heads.absorb (a := algo w dst) ⟨h.known dst hdst, h.least dst hdst⟩ hquiet
    (h.asks src dst m hmem) src
  obtain ⟨hqueue, hkept⟩ := heard_behind hcfg hbear hcap (hs.coherent dst) hproper
    (Runtime.onMsg_heard (w.node dst) env src m (hs.notReady dst))
    (lookup_absorb_live hproper ((replicas_live hr).1 dst)) hheads hquiet
  rw [hqueue]
  exact ⟨hheads, hkept⟩

theorem BearFirst.hear (hcfg : ExactConfig cfg) (hbear : speciesOf p cfg = .bear)
    (hcap : cfg.partyCapacity.toNat ≤ cfg.bearWeight.toNat) (hr : (system cfg).Reachable w)
    (h : BearFirst cfg p t w) (hchan : w.chan src dst = m :: rest)
    (hwrap : NoWrap w (.deliver src dst env) ((system cfg).hear w src dst env m rest)) :
    BearFirst cfg p t ((system cfg).hear w src dst env m rest) := by
  have hs := Sound.of_run hr
  have hmem : m ∈ w.chan src dst := by simp [hchan]
  have hdst := (hs.proper src dst m hmem).dst_live
  have hheard := Runtime.onMsg_heard (w.node dst) env src m (hs.notReady dst)
  obtain ⟨hheads, hnone, hkeep⟩ := h.heard hcfg hbear hcap hr hmem env
  have hclock := (h.clock dst hdst).trans hwrap.1
  rw [Protocol.hear_node_self] at hclock
  refine ⟨?_, ?_, ?_, ?_, ?_, ?_⟩
  · refine Protocol.hear_nodes (I := fun q (r : Runtime) => q = p → Unserved r.algorithm) ?_ ?_
      p rfl
    · rintro q rfl
      exact h.line
    · rintro rfl
      exact hkeep h.line
  · refine Protocol.hear_nodes (I := fun q (r : Runtime) => q < cfg.worldSize →
      r.algorithm.globalQueue.lookup p = some t) h.known ?_
    exact fun _ => hheads.known
  · refine Protocol.hear_nodes (I := fun q (r : Runtime) => q < cfg.worldSize →
      ∀ s u, r.algorithm.globalQueue.lookup s = some u → t ≤ u) h.least ?_
    exact fun _ => hheads.least
  · refine Protocol.hear_nodes (I := fun q r => q < cfg.worldSize → t.ts.toNat ≤ time r)
      h.clock ?_
    exact fun _ => hclock
  · refine Protocol.hear_chans hchan h.quiet ?_
    intro b x hx
    obtain ⟨pkt, hpkt, -, rfl⟩ := mem_addressed.mp hx
    exact hnone pkt hpkt
  · refine Protocol.hear_chans hchan h.asks ?_
    intro b x hx u hu
    have hno := List.filterMap_eq_nil_iff.mp (asks_heard hheard b) x hx
    rw [hno] at hu
    cases hu

/-- A poll makes later requests at most. -/
theorem polled_behind (hh : Runtime.Polled r env res) (hclock : time r ≤ time res.1)
    (ht : t.ts.toNat ≤ time r) (hline : r.algorithm.myPid = p → Unserved r.algorithm)
    (hheads : Heads p t r.algorithm.globalQueue) :
    (Unserved r.algorithm → Unserved res.1.algorithm) ∧
      Heads p t res.1.algorithm.globalQueue ∧
      ∀ pkt ∈ res.2, pkt.msg.starts = none ∧
        ∀ u ∈ pkt.msg.asks, t ≤ u ∧ (u.pid = p → u = t) := by
  cases hh with
  | nothing =>
    refine ⟨fun hu => hu, hheads, ?_⟩
    intro pkt hpkt
    cases hpkt
  | want hidle =>
    have hother : r.algorithm.myPid ≠ p := by
      intro hp
      rcases hline hp with hw | hw
      · cases hidle.symm.trans hw
      · cases hidle.symm.trans hw
    have htick := toNat_tick r.algorithm.lamportClock
    have hlater : t ≤ ⟨r.algorithm.myPid, r.algorithm.lamportClock.tick.now⟩ := by
      rw [Ticket.le_iff]
      left
      show t.ts.toNat < r.algorithm.lamportClock.tick.time.toNat
      dsimp only [time, afterWant] at hclock ht
      omega
    refine ⟨fun _ => Or.inl rfl, ⟨?_, ?_⟩, ?_⟩
    · simp only [afterWant, RequestQueue.lookup_insert]
      rw [if_neg (Ne.symm hother)]
      exact hheads.known
    · intro q u hu
      simp only [afterWant, RequestQueue.lookup_insert] at hu
      split at hu
      · exact Option.some.inj hu ▸ hlater
      · exact hheads.least q u hu
    · intro pkt hpkt
      obtain rfl := List.mem_singleton.mp hpkt
      refine ⟨rfl, ?_⟩
      intro u hu
      obtain rfl := Option.some.inj hu
      exact ⟨hlater, fun hp => absurd hp hother⟩
  | release hparty =>
    refine ⟨?_, hheads, ?_⟩
    · intro hu
      rcases hu with hu | hu
      · cases hparty.symm.trans hu
      · cases hparty.symm.trans hu
    · intro pkt hpkt
      cases hpkt

theorem BearFirst.turn (hs : Sound cfg w) (h : BearFirst cfg p t w) (hq : q < cfg.worldSize)
    (hwrap : NoWrap w (.poll q env) ((system cfg).turn w q env)) :
    BearFirst cfg p t ((system cfg).turn w q env) := by
  have hclock : time (w.node q) ≤ time (((system cfg).turn w q env).node q) := hwrap
  rw [Protocol.turn_node_self] at hclock
  have hline : (w.node q).algorithm.myPid = p → Unserved (algo w q) := by
    intro hp
    rw [(hs.coherent q).myPid] at hp
    exact hp ▸ h.line
  obtain ⟨hkeep, hheads, hsent⟩ := polled_behind (p := p) (t := t) ((hs.inStep q).onPoll env)
    hclock (h.clock q hq) hline ⟨h.known q hq, h.least q hq⟩
  refine ⟨?_, ?_, ?_, ?_, ?_, ?_⟩
  · refine Protocol.turn_nodes (I := fun q (r : Runtime) => q = p → Unserved r.algorithm) ?_ ?_
      p rfl
    · rintro q rfl
      exact h.line
    · rintro rfl
      exact hkeep h.line
  · refine Protocol.turn_nodes (I := fun q (r : Runtime) => q < cfg.worldSize →
      r.algorithm.globalQueue.lookup p = some t) h.known ?_
    exact fun _ => hheads.known
  · refine Protocol.turn_nodes (I := fun q (r : Runtime) => q < cfg.worldSize →
      ∀ s u, r.algorithm.globalQueue.lookup s = some u → t ≤ u) h.least ?_
    exact fun _ => hheads.least
  · refine Protocol.turn_nodes (I := fun q r => q < cfg.worldSize → t.ts.toNat ≤ time r)
      h.clock ?_
    exact fun _ => (h.clock q hq).trans hclock
  · refine Protocol.turn_chans h.quiet ?_
    intro b x hx
    obtain ⟨pkt, hpkt, -, rfl⟩ := mem_addressed.mp hx
    exact (hsent pkt hpkt).1
  · refine Protocol.turn_chans h.asks ?_
    intro b x hx
    obtain ⟨pkt, hpkt, -, rfl⟩ := mem_addressed.mp hx
    exact (hsent pkt hpkt).2

/-- Behind the bear no step starts a party. -/
theorem BearFirst.leads (hcfg : ExactConfig cfg) (hbear : speciesOf p cfg = .bear)
    (hcap : cfg.partyCapacity.toNat ≤ cfg.bearWeight.toNat) (hr : (system cfg).Reachable w)
    (h : BearFirst cfg p t w) (hl : (system cfg).Leads NoWrap w n v) :
    BearFirst cfg p t v ∧ partiesStarted v = partiesStarted w := by
  have hboth := hl.invariant (I := fun v => (system cfg).Reachable v ∧ BearFirst cfg p t v ∧
    partiesStarted v = partiesStarted w) ?_ ⟨hr, h, rfl⟩
  · exact hboth.2
  · intro v l v' hI hnext hwrap
    obtain ⟨hreach, hfirst, hsame⟩ := hI
    have hs := Sound.of_run hreach
    rcases Protocol.next_cases hnext with ⟨src, dst, env, m, rest, rfl, hchan, rfl⟩ |
      ⟨q, env, rfl, hq, rfl⟩
    · refine ⟨hreach.hear env hchan, hfirst.hear hcfg hbear hcap hreach hchan hwrap, ?_⟩
      have hmem : m ∈ v.chan src dst := by simp [hchan]
      have hnone := (hfirst.heard hcfg hbear hcap hreach hmem env).2.1
      rw [partiesStarted_hear, List.filterMap_eq_nil_iff.mpr hnone, List.nil_append, hsame]
    · exact ⟨hreach.turn env hq, hfirst.turn hs hq hwrap, (partiesStarted_turn hs).trans hsame⟩

end Blocked

section Halting

variable {cfg : Config} {w v : World} {p : Pid} {t : Ticket} {n : ℕ} {party : Finset Pid}

theorem bearFirst_of_silent (hcfg : ExactConfig cfg) (h : (system cfg).Run InOrder w)
    (hsilent : w.Silent) (ht : (algo w p).pendingReqTicket = some t)
    (hleast : ∀ q < cfg.worldSize, ∀ u, (algo w q).pendingReqTicket = some u → t ≤ u) :
    BearFirst cfg p t w := by
  have hknown : ∀ q < cfg.worldSize, (algo w q).globalQueue.lookup p = some t := by
    intro q hq
    rw [lookup_of_silent hcfg h hsilent hq, ht]
  refine ⟨?_, hknown, ?_, ?_, ?_, ?_⟩
  · exact ((Sound.of_run h).coherent p).pending.mp (by simp [ht])
  · intro q hq r u hu
    have hr := (replicas_live h).1 q r u hu
    rw [lookup_of_silent hcfg h hsilent hq] at hu
    exact hleast r hr u hu
  · intro q hq
    refine ((orderly_of_run hcfg h).basic.replica_clock q p t.ts.toNat ?_).1
    show times (algo w q).globalQueue p = some t.ts.toNat
    rw [times, hknown q hq, Option.map_some]
  · intro a b x hx
    rw [hsilent] at hx
    cases hx
  · intro a b x hx
    rw [hsilent] at hx
    cases hx

/-- Blocked for good: if the network is at rest and the least ticket is that of a bear that
leaves no room beside it, no continuation in which no clock wraps starts a party, and the
bear stays in the line. -/
theorem blocked_for_good (hcfg : Accepted cfg) (h : (system cfg).Run InOrder w)
    (hsilent : w.Silent) (hbear : speciesOf p cfg = .bear)
    (hcap : cfg.partyCapacity.toNat ≤ cfg.bearWeight.toNat)
    (ht : (algo w p).pendingReqTicket = some t)
    (hleast : ∀ q < cfg.worldSize, ∀ u, (algo w q).pendingReqTicket = some u → t ≤ u)
    (hl : (system cfg).Leads NoWrap w n v) :
    partiesStarted v = partiesStarted w ∧ Unserved (algo v p) := by
  have hfirst := bearFirst_of_silent hcfg.exactConfig h hsilent ht hleast
  obtain ⟨hkept, hsame⟩ := hfirst.leads hcfg.exactConfig hbear hcap h.reachable hl
  exact ⟨hsame, hkept.line⟩

/-- The bear of the tiny glade has asked, and nobody else. -/
theorem blocked_for_good_tiny : ∃ w, (system tinyGlade).Reachable w ∧
    Unserved (algo w 1) ∧ ∀ n v, (system tinyGlade).Leads NoWrap w n v →
      partiesStarted v = partiesStarted w := by
  obtain ⟨w, hrun, hempty, hothers, hasked⟩ := Protocol.exists_of_exec (system tinyGlade)
    InOrder [want 1, hand 1 0, hand 0 1]
    (fun w => (∀ a ∈ processes tinyGlade.worldSize, ∀ b ∈ processes tinyGlade.worldSize,
        w.chan a b = []) ∧ (algo w 0).pendingReqTicket = none ∧
      (algo w 1).pendingReqTicket ≠ none) (by decide +kernel)
  obtain ⟨t, ht⟩ := Option.ne_none_iff_exists'.mp hasked
  have hleast : ∀ q < tinyGlade.worldSize, ∀ u, (algo w q).pendingReqTicket = some u → t ≤ u := by
    intro q hq u hu
    have hmem : q ∈ [0, 1] := mem_processes.mpr hq
    rcases List.mem_pair.mp hmem with rfl | rfl
    · cases hothers.symm.trans hu
    · exact le_of_eq (Option.some.inj (ht.symm.trans hu))
  have hsilent := channels_empty (Sound.of_run hrun) hempty
  refine ⟨w, hrun.reachable, ((Sound.of_run hrun).coherent 1).pending.mp hasked, ?_⟩
  intro n v hl
  exact (blocked_for_good tinyGlade_accepted hrun hsilent (by decide) (by decide) ht hleast hl).1

/-- A world of one process halts as soon as it asks. -/
theorem exists_halted_alone (hone : cfg.worldSize = 1) :
    ∃ w, (system cfg).Run (InBothOrders cfg) w ∧ Halted cfg w := by
  have hlive : (0 : Pid) < cfg.worldSize := by
    rw [hone]
    decide
  have hstart : (system cfg).Run (InBothOrders cfg) (system cfg).initial := .init
  have hlead := leads_poll hstart (by simp only [Protocol.initial, List.length_nil]; omega) hlive
    (Finset.mem_singleton_self 0) 0
  have hrun := (hlead.mono (fun _ _ _ hk => hk.1.orders)).run .init
  have hs := Sound.of_run hrun
  refine ⟨_, hrun, halted_of_silent hrun ?_ ?_⟩
  · intro a b
    by_contra hne
    obtain ⟨m, rest, hm⟩ := List.exists_cons_of_ne_nil hne
    obtain ⟨ha, hb, hab, -⟩ := hs.proper a b m (by simp [hm])
    rw [hone] at ha hb
    exact hab ((eq_zero_of_lt_one ha).trans (eq_zero_of_lt_one hb).symm)
  · intro q hq
    rw [hone] at hq
    obtain rfl := eq_zero_of_lt_one hq
    exact unserved_of_want (Sound.of_run hstart) rfl

/-- Behind a bear that leaves no room beside it everybody can end up in the line. -/
theorem exists_halted_behind (hcfg : Accepted cfg) (hsize : cfg.worldSize.toNat ≤ 2 ^ 29)
    (hp : p < cfg.worldSize) (hbear : speciesOf p cfg = .bear)
    (hcap : cfg.partyCapacity.toNat ≤ cfg.bearWeight.toNat) :
    ∃ w, (system cfg).Run (InBothOrders cfg) w ∧ Halted cfg w := by
  have hexact := hcfg.exactConfig
  have hsquare := Nat.pow_le_pow_left hsize 2
  have hstart : (system cfg).Run (InBothOrders cfg) (system cfg).initial := .init
  obtain ⟨t₁, hfirst⟩ := exists_rest hstart (fun _ _ => rfl) {p}
    (fun q hq => Finset.mem_singleton.mp hq ▸ hp)
    (by simp only [Protocol.initial, List.length_nil]; omega)
  obtain ⟨n, hn, w, hlead, hsilent, hasked⟩ := hfirst t₁ (Nat.le_refl t₁)
  have hrun := (hlead.mono (fun _ _ _ hk => hk.orders)).run .init
  have horder := (inEveryOrder_of_both hexact hrun).mono (fun _ _ _ hk => hk.1)
  have hconf := confined_of_leads hexact .init (confined_initial cfg {p}) hlead
  have hline : Unserved (algo w p) := by
    rcases hasked with hmore | ⟨-, hline, -⟩
    · obtain ⟨m, hm⟩ := List.exists_mem_of_length_pos (Nat.zero_lt_of_lt hmore)
      obtain ⟨q, hq, hhare⟩ := (legal_of_started hexact hrun hm).hare
      have hqp := Finset.mem_singleton.mp (hconf.started m hm q (List.mem_toFinset.mp hq))
      rw [hqp, hbear] at hhare
      cases hhare
    · exact hline p (Finset.mem_singleton_self p)
  obtain ⟨t, ht⟩ := Option.ne_none_iff_exists'.mp
    (((Sound.of_run hrun).coherent p).pending.mpr hline)
  have hleast : ∀ q < cfg.worldSize, ∀ u, (algo w q).pendingReqTicket = some u → t ≤ u := by
    intro q _ u hu
    have hown := ((Sound.of_run hrun).coherent q).own.trans hu
    obtain rfl := Finset.mem_singleton.mp (hconf.queue q q (by rw [hown]; rfl))
    rw [ht] at hu
    exact le_of_eq (Option.some.inj hu)
  obtain ⟨t₂, hsecond⟩ := exists_rest hrun hsilent (everyone cfg.worldSize)
    (fun q hq => mem_everyone.mp hq)
    (by rw [hlead.past_length]; simp only [Protocol.initial, List.length_nil]; omega)
  obtain ⟨k, -, v, hlead', hsilent', hasked'⟩ := hsecond t₂ (Nat.le_refl t₂)
  have hrun' := (hlead'.mono (fun _ _ _ hk => hk.orders)).run hrun
  obtain ⟨-, hsame⟩ := (bearFirst_of_silent hexact horder hsilent ht hleast).leads hexact hbear hcap
    hrun.reachable (hlead'.mono (fun _ _ _ hk => hk.orders.1))
  rcases hasked' with hmore | ⟨-, hline', -⟩
  · rw [hsame] at hmore
    exact absurd hmore (Nat.lt_irrefl _)
  · exact ⟨v, hrun', halted_of_silent hrun' hsilent'
      (fun q hq => hline' q (mem_everyone.mpr hq))⟩

/-- The system can come to a halt with a legal party in the line exactly if there is one and
a bear leaves no room beside it, or there is nobody to ask. -/
theorem deadlock_iff (hcfg : Accepted cfg) (hsize : cfg.worldSize.toNat ≤ 2 ^ 29) :
    (∃ w, (system cfg).Run (InBothOrders cfg) w ∧ Halted cfg w ∧
      ∃ party, LegalParty cfg party ∧ ∀ q ∈ party, Unserved (algo w q)) ↔
      (∃ party, LegalParty cfg party) ∧ (cfg.worldSize = 1 ∨
        cfg.partyCapacity.toNat ≤ cfg.bearWeight.toNat ∧
          ∃ p < cfg.worldSize, speciesOf p cfg = .bear) := by
  constructor
  · rintro ⟨w, h, hhalt, party, hlegal, hline⟩
    refine ⟨⟨party, hlegal⟩, ?_⟩
    by_cases hone : cfg.worldSize = 1
    · exact Or.inl hone
    · right
      have horder := (inEveryOrder_of_both hcfg.exactConfig h).mono (fun _ _ _ hk => hk.1)
      obtain ⟨hcap, p, hp, hbear, -⟩ := bear_of_silent hcfg hone horder
        (silent_of_halted h hhalt) hlegal hline
      exact ⟨hcap, p, hp, hbear⟩
  · rintro ⟨⟨party, hlegal⟩, hcases⟩
    have hhalted : ∃ w, (system cfg).Run (InBothOrders cfg) w ∧ Halted cfg w := by
      rcases hcases with hone | ⟨hcap, p, hp, hbear⟩
      · exact exists_halted_alone hone
      · exact exists_halted_behind hcfg hsize hp hbear hcap
    obtain ⟨w, h, hhalt⟩ := hhalted
    exact ⟨w, h, hhalt, party, hlegal,
      fun q hq => unserved_of_halted h hhalt (hlegal.live q hq)⟩

/-- The tiny glade can come to a halt, the wide one cannot. -/
theorem deadlock_iff_glades :
    (∃ w, (system tinyGlade).Run (InBothOrders tinyGlade) w ∧ Halted tinyGlade w ∧
      ∃ party, LegalParty tinyGlade party ∧ ∀ q ∈ party, Unserved (algo w q)) ∧
    ¬ ∃ w, (system wideGlade).Run (InBothOrders wideGlade) w ∧ Halted wideGlade w ∧
      ∃ party, LegalParty wideGlade party ∧ ∀ q ∈ party, Unserved (algo w q) := by
  constructor
  · exact (deadlock_iff tinyGlade_accepted (by decide)).mpr
      ⟨⟨_, tinyGlade_party⟩, Or.inr ⟨by decide, 1, by decide, by decide⟩⟩
  · intro hhalt
    obtain ⟨-, hone | ⟨hcap, -⟩⟩ := (deadlock_iff wideGlade_accepted (by decide)).mp hhalt
    · cases hone
    · revert hcap
      decide

end Halting

end HaresBears
