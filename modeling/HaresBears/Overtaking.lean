import HaresBears.AdmissionOvertaking
import HaresBears.ClockGrowth
import HaresBears.Quiescence
import HaresBears.Traffic

/-!
How often a request is overtaken. When leaders know of all older requests, the parties that
start later than a request that waits unclaimed have different leaders.
-/
namespace HaresBears

open FifoNetwork LamportQueueAlgorithm

section Starts

variable {cfg : Config} {w : World} {c : Call} {m : PartyStart}

theorem startsBy_cases (h : Explained cfg c) : startsBy c = [] ∨ ∃ m, startsBy c = [m] := by
  unfold startsBy
  cases h with
  | heard src m env _ _ hheard =>
    have hnone := filterMap_answer (f := Message.starts) (fun _ => rfl) c.before.algorithm src m
    generalize hres : (c.after, c.out) = res at hheard
    obtain ⟨-, hout⟩ := Prod.mk.inj hres
    rw [hout]
    cases hheard with
    | stay => exact Or.inl hnone
    | start a g _ _ _ =>
      right
      rw [List.filterMap_append, hnone]
      exact ⟨a.startOf g, rfl⟩
  | polled env _ _ hpolled =>
    left
    generalize hres : (c.after, c.out) = res at hpolled
    obtain ⟨-, hout⟩ := Prod.mk.inj hres
    rw [hout]
    cases hpolled <;> rfl

/-- A call starts its party at a time between the clock before it and the clock after it. -/
theorem stamped_of_startsBy (hdisc : Disciplined time stamp c) (hm : m ∈ startsBy c) :
    time c.before < m.senderTicket.ts.toNat ∧ m.senderTicket.ts.toNat ≤ time c.after := by
  obtain ⟨pkt, hpkt, hmsg⟩ := forms_of_startsBy hm
  have hfresh := hdisc.fresh pkt hpkt
  have hcurrent := hdisc.current pkt hpkt
  rw [hmsg] at hfresh hcurrent
  exact ⟨hfresh, hcurrent⟩

/-- The parties one process has started, the newest first, have falling start times. -/
structure StartsFall (w : World) : Prop where
  clock : ∀ m ∈ partiesStarted w, m.senderTicket.ts.toNat ≤ time (w.node m.senderTicket.pid)
  falling : (partiesStarted w).Pairwise (fun m m' => m.senderTicket.pid = m'.senderTicket.pid →
    m'.senderTicket.ts.toNat < m.senderTicket.ts.toNat)

/-- What a call adds to the parties of its process is later than they are. -/
theorem StartsFall.react (h : StartsFall w) {w' : World} (hpast : w'.past = c :: w.past)
    (hexp : Explained cfg c) (hdisc : Disciplined time stamp c)
    (hpid : ∀ m ∈ startsBy c, m.senderTicket.pid = c.proc) (hbefore : w.node c.proc = c.before)
    (hafter : w'.node c.proc = c.after) (hothers : ∀ q, q ≠ c.proc → w'.node q = w.node q) :
    StartsFall w' := by
  have hstarted : partiesStarted w' = startsBy c ++ partiesStarted w := by
    rw [partiesStarted, hpast, List.flatMap_cons, partiesStarted]
  constructor
  · intro m hm
    rw [hstarted] at hm
    rcases List.mem_append.mp hm with hm | hm
    · rw [hpid m hm, hafter]
      exact (stamped_of_startsBy hdisc hm).2
    · have hle := h.clock m hm
      by_cases hp : m.senderTicket.pid = c.proc
      · rw [hp, hbefore] at hle
        rw [hp, hafter]
        exact Nat.le_trans hle hdisc.mono
      · rwa [hothers _ hp]
  · rw [hstarted]
    refine List.pairwise_append.mpr ⟨?_, h.falling, ?_⟩
    · rcases startsBy_cases hexp with hnone | ⟨m, hone⟩
      · rw [hnone]
        exact .nil
      · rw [hone]
        exact List.pairwise_singleton _ _
    · intro m hm m' hm' heq
      have hle := h.clock m' hm'
      rw [← heq, hpid m hm, hbefore] at hle
      exact Nat.lt_of_le_of_lt hle (stamped_of_startsBy hdisc hm).1

theorem startsFall_of_run (hcfg : ExactConfig cfg) (h : (system cfg).Run NoWrap w) :
    StartsFall w := by
  induction h with
  | init => exact ⟨fun _ hm => (nomatch hm), List.Pairwise.nil⟩
  | @step w w' l hr hnext hok ih =>
    have hrun : (system cfg).Run NoWrap w' := .step hr hnext hok
    have hadd : ∀ c : Call, w'.past = c :: w.past → w.node c.proc = c.before →
        w'.node c.proc = c.after → (∀ q, q ≠ c.proc → w'.node q = w.node q) → StartsFall w' := by
      intro c hpast
      have hmem : c ∈ w'.past := by
        rw [hpast]
        exact List.mem_cons_self
      exact ih.react hpast (explained_of_run hrun c hmem).2.2 (disciplined_of_run hrun c hmem)
        (fun m hm => (valid_of_forms hcfg hrun hmem (forms_of_startsBy hm)).1)
    rcases Protocol.next_cases hnext with ⟨src, dst, env, m, rest, -, -, rfl⟩ |
      ⟨p, env, -, -, rfl⟩
    · exact hadd _ rfl rfl Protocol.hear_node_self (fun q hq => Protocol.hear_node_ne hq)
    · exact hadd _ rfl rfl Protocol.turn_node_self (fun q hq => Protocol.turn_node_ne hq)

end Starts

section Overtaken

variable {cfg : Config} {w : World} {q : Pid} {t : Ticket}

theorem admission_of_informed (hcfg : ExactConfig cfg)
    (h : (system cfg).Run (InformsLeaders cfg) w) :
    GroupAdmission.State.Run (live cfg) GroupAdmission.InformsLeaders (abstraction w) :=
  refines hcfg informs_onHearing (fun _ _ _ hk => hk.1)
    (fun _ _ _ _ _ _ _ hr hc hk => informs_hear (Sound.of_run hr) hc hk) h

theorem formed_of_started (hcfg : ExactConfig cfg) {ok : World → Label → World → Prop}
    (h : (system cfg).Run ok w) {m : PartyStart} (hm : m ∈ partiesStarted w) :
    ∃ f, (abstraction w).formed f ∧ f.leader = m.senderTicket.pid ∧
      f.ts = m.senderTicket.ts.toNat := by
  obtain ⟨c, hc, hforms⟩ := mem_partiesStarted hm
  have hpid := (valid_of_forms hcfg h hc hforms).1
  exact ⟨formation c m, ⟨c, hc, m, hforms, rfl⟩, hpid.symm, rfl⟩

theorem not_claimed_of_unclaimed (h : Unclaimed w q) :
    ¬ GroupAdmission.Claimed (abstraction w) q := by
  rintro ⟨a, u, g, ⟨x, hx, hxu⟩, hq⟩
  obtain ⟨hpart, -⟩ := start_of_abstract hxu
  exact h a x hx (hpart ▸ hq)

theorem ticket_of_pending (ht : (algo w q).pendingReqTicket = some t) :
    (abstraction w).ticket q = some t.ts.toNat := by
  show (algo w q).pendingReqTicket.map (fun t => t.ts.toNat) = _
  rw [ht, Option.map_some]

/-- The parties that overtake a request that waits unclaimed have different leaders, and
its owner leads none of them. -/
theorem overtakers (hcfg : ExactConfig cfg) (h : (system cfg).Run (InformsLeaders cfg) w)
    (ht : (algo w q).pendingReqTicket = some t) (hq : Unclaimed w q) :
    (((partiesStarted w).filter (fun m => t.ts ≤ m.senderTicket.ts)).map
        (fun m => m.senderTicket.pid)).Nodup ∧
      ∀ m ∈ partiesStarted w, t.ts ≤ m.senderTicket.ts → m.senderTicket.pid ≠ q := by
  have hpaced := GroupAdmission.paced_of_run (admission_of_informed hcfg h)
  have hticket := ticket_of_pending ht
  have hother : ∀ m ∈ partiesStarted w, t.ts ≤ m.senderTicket.ts → m.senderTicket.pid ≠ q := by
    intro m hm hle hpid
    obtain ⟨f, hf, hlead, hts⟩ := formed_of_started hcfg h hm
    have hlt := hpaced.renewed f _ hf (by rw [hlead, hpid, hticket])
    rw [UInt64.le_iff_toNat_le] at hle
    omega
  refine ⟨?_, hother⟩
  have hfall := (startsFall_of_run hcfg (h.mono (fun _ _ _ hk => hk.1))).falling
  refine List.pairwise_map.mpr (List.Pairwise.imp_of_mem ?_ (hfall.filter _))
  intro m m' hm hm' hlater heq
  obtain ⟨hm, hle⟩ := List.mem_filter.mp hm
  obtain ⟨hm', hle'⟩ := List.mem_filter.mp hm'
  obtain ⟨f, hf, hlead, hts⟩ := formed_of_started hcfg h hm
  obtain ⟨f', hf', hlead', hts'⟩ := formed_of_started hcfg h hm'
  have hlt := hlater heq
  have hearly := hpaced.overtaken f' f q t.ts.toNat hf' hf (by rw [hlead, hlead', heq])
    (by omega) (by
      rw [hlead']
      exact (hother m' hm' (of_decide_eq_true hle')).symm) hticket (not_claimed_of_unclaimed hq)
  have hlate := UInt64.le_iff_toNat_le.mp (of_decide_eq_true hle')
  omega

theorem leader_live (hcfg : ExactConfig cfg) {ok : World → Label → World → Prop}
    (h : (system cfg).Run ok w) {m : PartyStart} (hm : m ∈ partiesStarted w) :
    m.senderTicket.pid < cfg.worldSize := by
  obtain ⟨c, hc, hforms⟩ := mem_partiesStarted hm
  rw [(valid_of_forms hcfg h hc hforms).1]
  exact (explained_of_run h c hc).2.2.live

/-- Parties with different leaders, none of them `q`, are fewer than the processes. -/
theorem length_lt_of_leaders {parties : List PartyStart} (hq : q < cfg.worldSize)
    (hnodup : (parties.map (fun m => m.senderTicket.pid)).Nodup)
    (hlive : ∀ m ∈ parties, m.senderTicket.pid < cfg.worldSize)
    (hother : ∀ m ∈ parties, m.senderTicket.pid ≠ q) :
    parties.length < cfg.worldSize.toNat := by
  have hsub : (parties.map (fun m => m.senderTicket.pid)).toFinset ⊆
      (everyone cfg.worldSize).erase q := by
    intro p hp
    obtain ⟨m, hm, rfl⟩ := List.mem_map.mp (List.mem_toFinset.mp hp)
    exact Finset.mem_erase.mpr ⟨hother m hm, mem_everyone.mpr (hlive m hm)⟩
  have hcard := Finset.card_le_card hsub
  rw [List.toFinset_card_of_nodup hnodup, List.length_map, card_others hq] at hcard
  have hpos := UInt32.lt_iff_toNat_lt.mp hq
  omega

/-- Bounded overtaking: when leaders know of all older requests, the parties that start no
earlier than a request that waits unclaimed have leaders different from each other and from
the process that waits, so there are fewer of them than processes. -/
theorem bounded_overtaking (hcfg : Accepted cfg) (h : (system cfg).Run (InformsLeaders cfg) w)
    (ht : (algo w q).pendingReqTicket = some t) (hq : Unclaimed w q) :
    (((partiesStarted w).filter (fun m => t.ts ≤ m.senderTicket.ts)).map
        (fun m => m.senderTicket.pid)).Nodup ∧
      ((partiesStarted w).filter (fun m => t.ts ≤ m.senderTicket.ts)).length <
        cfg.worldSize.toNat := by
  have hexact := hcfg.exactConfig
  obtain ⟨hnodup, hother⟩ := overtakers hexact h ht hq
  have hlive : q < cfg.worldSize :=
    (replicas_live h).1 q q t (((Sound.of_run h).coherent q).own.trans ht)
  refine ⟨hnodup, length_lt_of_leaders hlive hnodup ?_ ?_⟩
  · intro m hm
    exact leader_live hexact h (List.mem_filter.mp hm).1
  · intro m hm
    obtain ⟨hm, hle⟩ := List.mem_filter.mp hm
    exact hother m hm (of_decide_eq_true hle)

/-- A pair of hares starts a party after a third has asked. -/
theorem bounded_overtaking_third : ∃ w t,
    (system (haresOnly 3 2)).Run (InformsLeaders (haresOnly 3 2)) w ∧
    (algo w 2).pendingReqTicket = some t ∧
    (partiesStarted w).any (fun m => t.ts ≤ m.senderTicket.ts) = true ∧
    ((partiesStarted w).filter (fun m => t.ts ≤ m.senderTicket.ts)).length < 3 := by
  obtain ⟨w, hrun, ⟨hunnamed, hsome⟩⟩ := Protocol.exists_of_exec (system (haresOnly 3 2))
    (InformsLeaders (haresOnly 3 2))
    [want 0, want 1, want 2, hand 0 1, hand 0 2, hand 1 0, hand 1 0, hand 2 0, hand 2 0]
    (fun w => (∀ x ∈ processes (haresOnly 3 2).worldSize, ∀ y ∈ w.chan x 2,
        2 ∉ y.participants) ∧
      ∃ t ∈ (algo w 2).pendingReqTicket,
        (partiesStarted w).any (fun m => t.ts ≤ m.senderTicket.ts) = true) (by decide +kernel)
  obtain ⟨t, ht, hany⟩ := hsome
  have hbound := (bounded_overtaking (haresOnly_accepted (by decide) (by decide)) hrun ht
    (unnamed_of_processes (Sound.of_run hrun) hunnamed)).2
  exact ⟨w, t, hrun, ht, hany, hbound⟩

end Overtaken

end HaresBears
