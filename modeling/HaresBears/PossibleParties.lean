import HaresBears.NewParties

/-!
The parties that can be started. Every party is legal, and from the start of the program
each legal party can come about: if nobody else is polled, nobody else can be in it. So
the options tell which processes can ever be in a party.
-/
namespace HaresBears

open FifoNetwork LamportQueueAlgorithm

/-- Nobody outside `party` has asked, is in a replica or is in a party. -/
structure Confined (party : Finset Pid) (w : World) : Prop where
  queue : ∀ p r, ((algo w p).globalQueue.lookup r).isSome → r ∈ party
  asks : ∀ a b, ∀ x ∈ w.chan a b, ∀ t ∈ x.asks, t.pid ∈ party
  started : ∀ m ∈ partiesStarted w, ∀ r ∈ m.participants, r ∈ party

section Confinement

variable {cfg : Config} {w v : World} {ok : World → Label → World → Prop} {r : Runtime}
variable {env : Env} {src dst p q : Pid} {m : Message} {rest : List Message} {party : Finset Pid}
variable {now n : ℕ} {res : Runtime × Sends}

theorem confined_initial (cfg : Config) (party : Finset Pid) :
    Confined party (system cfg).initial where
  queue := fun p r h => by
    simp [algo, Protocol.initial, system, LamportQueueAlgorithm.create] at h
  asks := fun _ _ _ hx => nomatch hx
  started := fun _ hm => nomatch hm

/-- A message brings only the owner of a request into the replica. -/
theorem absorb_confined {a : LamportQueueAlgorithm}
    (hqueue : ∀ q, (a.globalQueue.lookup q).isSome → q ∈ party)
    (hasks : ∀ t ∈ m.asks, t.pid ∈ party) (src : Pid) :
    ∀ q, ((a.absorb src m).globalQueue.lookup q).isSome → q ∈ party := by
  intro q hq
  rw [absorb_lookup] at hq
  cases m with
  | request x =>
    dsimp only at hq
    split at hq
    · rename_i hpid
      exact hpid ▸ hasks x.requestTicket rfl
    · exact hqueue q hq
  | reply x => exact hqueue q hq
  | partyStart x =>
    dsimp only at hq
    split at hq
    · cases hq
    · exact hqueue q hq

theorem heard_confined (hcfg : ExactConfig cfg) (hc : Coherent cfg p r.algorithm)
    (hm : Proper cfg src p m) (hh : Runtime.Heard r env src m res)
    (hqueue : ∀ q, (r.algorithm.globalQueue.lookup q).isSome → q ∈ party)
    (hasks : ∀ t ∈ m.asks, t.pid ∈ party) :
    (∀ q, (res.1.algorithm.globalQueue.lookup q).isSome → q ∈ party) ∧
      ∀ x ∈ res.2.filterMap (fun pkt => pkt.msg.starts), ∀ q ∈ x.participants, q ∈ party := by
  have habsorb := absorb_confined hqueue hasks src
  have hnone := filterMap_answer (f := Message.starts) (fun _ => rfl) r.algorithm src m
  cases hh with
  | stay a l ha _ _ _ =>
    subst ha
    rw [hnone, settle_queue]
    exact ⟨habsorb, fun _ hx => nomatch hx⟩
  | start a g ha hr _ =>
    subst ha
    have hset := (hc.absorb hm).settle
    have hvalid := tryBuildParty_valid (by rw [hset.config]; exact hcfg)
      (by rw [hset.policy, hset.config]) hr.first hr.group
    have hdrawn := hvalid.drawn
    rw [settle_queue] at hdrawn
    constructor
    · intro q hq
      simp only [afterStart, settle_queue, RequestQueue.lookup_removeAll] at hq
      split at hq
      · cases hq
      · exact habsorb q hq
    · intro x hx q hq
      rw [List.filterMap_append, hnone] at hx
      obtain rfl := List.mem_singleton.mp hx
      exact habsorb q (hdrawn q hq)

theorem Confined.hear (hcfg : ExactConfig cfg) (hs : Sound cfg w) (h : Confined party w)
    (hchan : w.chan src dst = m :: rest) :
    Confined party ((system cfg).hear w src dst env m rest) := by
  have hheard := Runtime.onMsg_heard (w.node dst) env src m (hs.notReady dst)
  obtain ⟨hqueue, hstarted⟩ := heard_confined hcfg (hs.coherent dst)
    (hs.proper src dst m (by simp [hchan])) hheard (h.queue dst)
    (h.asks src dst m (by simp [hchan]))
  refine ⟨?_, ?_, ?_⟩
  · exact Protocol.hear_nodes (I := fun _ (r : Runtime) =>
      ∀ q, (r.algorithm.globalQueue.lookup q).isSome → q ∈ party) h.queue hqueue
  · refine Protocol.hear_chans hchan h.asks ?_
    intro b x hx t ht
    have hnone := List.filterMap_eq_nil_iff.mp (asks_heard hheard b) x hx
    rw [hnone] at ht
    cases ht
  · intro x hx
    rw [partiesStarted_hear] at hx
    rcases List.mem_append.mp hx with hnew | hold
    · exact hstarted x hnew
    · exact h.started x hold

theorem Confined.turn (hs : Sound cfg w) (h : Confined party w) (hp : p ∈ party) :
    Confined party ((system cfg).turn w p env) := by
  have hpolled := (hs.inStep p).onPoll env
  have hpid := (hs.coherent p).myPid
  refine ⟨?_, ?_, ?_⟩
  · refine Protocol.turn_nodes (I := fun _ (r : Runtime) =>
      ∀ q, (r.algorithm.globalQueue.lookup q).isSome → q ∈ party) h.queue ?_
    intro q hq
    by_cases hqp : q = p
    · exact hqp ▸ hp
    · rw [system_onPoll, polled_lookup hpolled (hpid.symm ▸ hqp)] at hq
      exact h.queue p q hq
  · refine Protocol.turn_chans h.asks ?_
    intro b x hx t ht
    rw [system_onPoll] at hx
    generalize Runtime.onPoll (w.node p) env = res at hpolled hx
    cases hpolled with
    | nothing => cases hx
    | want _ =>
      obtain ⟨pkt, hpkt, -, rfl⟩ := mem_addressed.mp hx
      obtain rfl := List.mem_singleton.mp hpkt
      obtain rfl := Option.some.inj ht
      exact hpid.symm ▸ hp
    | release _ => cases hx
  · rw [partiesStarted_turn hs]
    exact h.started

theorem confined_of_leads (hcfg : ExactConfig cfg) (h : (system cfg).Reachable w)
    (hconf : Confined party w) (hl : (system cfg).Leads (Round cfg party now) w n v) :
    Confined party v := by
  have hboth := hl.invariant (I := fun v => (system cfg).Reachable v ∧ Confined party v) ?_
    ⟨h, hconf⟩
  · exact hboth.2
  · intro v l v' hI hnext hok
    have hs := Sound.of_run hI.1
    refine ⟨.step hI.1 hnext trivial, ?_⟩
    rcases Protocol.next_cases hnext with ⟨src, dst, env, m, rest, rfl, hchan, rfl⟩ |
      ⟨p, env, rfl, -, rfl⟩
    · exact hI.2.hear hcfg hs hchan
    · exact hI.2.turn hs (hok.poll p env rfl)

end Confinement

section Legal

variable {cfg : Config} {w : World} {ok : World → Label → World → Prop} {m : PartyStart}
variable {party : Finset Pid}

theorem legal_of_started (hcfg : ExactConfig cfg) (h : (system cfg).Run ok w)
    (hm : m ∈ partiesStarted w) : LegalParty cfg m.participants.toFinset := by
  obtain ⟨c, hc, hforms⟩ := mem_partiesStarted hm
  obtain ⟨-, -, hvalid⟩ := valid_of_forms hcfg h hc hforms
  refine ⟨?_, ?_, ?_⟩
  · intro p hp
    obtain ⟨t, ht⟩ := Option.isSome_iff_exists.mp (hvalid.drawn p (List.mem_toFinset.mp hp))
    exact queueAt_live h hc ht
  · obtain ⟨p, hp, hhare⟩ := hvalid.hare
    exact ⟨p, List.mem_toFinset.mpr hp, hhare⟩
  · rw [← hvalid.weight]
    exact List.sum_toFinset _ hvalid.nodup

theorem eq_zero_of_lt_one {p : Pid} (hp : p < 1) : p = 0 := by
  rw [UInt32.lt_iff_toNat_lt] at hp
  rw [← UInt32.toNat_inj]
  exact Nat.lt_one_iff.mp hp

/-- A party is started on a message, so there is another process. -/
theorem ne_one_of_started (h : (system cfg).Run ok w) (hm : m ∈ partiesStarted w) :
    cfg.worldSize ≠ 1 := by
  obtain ⟨c, hc, pkt, hpkt, hmsg⟩ := mem_partiesStarted hm
  obtain ⟨-, -, hexp⟩ := explained_of_run h c hc
  have hheard : ∃ src x, c.heard = some (src, x) := by
    cases hexp.sent hpkt with
    | answer src x _ hh _ _ => exact ⟨src, x, hh⟩
    | start src x _ hh _ _ _ _ => exact ⟨src, x, hh⟩
    | want _ _ _ hp =>
      subst hp
      cases hmsg
  obtain ⟨src, x, hh⟩ := hheard
  obtain ⟨hsrc, hdst, hne, -⟩ := hexp.proper hh
  intro hone
  rw [hone] at hsrc hdst
  exact hne ((eq_zero_of_lt_one hsrc).trans (eq_zero_of_lt_one hdst).symm)

theorem eq_of_legal_subset (hcfg : ExactConfig cfg) {s t : Finset Pid} (hs : LegalParty cfg s)
    (ht : LegalParty cfg t) (hsub : s ⊆ t) : s = t := by
  by_contra hne
  obtain ⟨p, hp, hps⟩ := Finset.exists_of_ssubset (hsub.ssubset_of_ne hne)
  have hlt := Finset.sum_lt_sum_of_subset (f := fun p => (weightOf p cfg).toNat) hsub hp hps
    (weightOf_pos hcfg p) (fun _ _ _ => Nat.zero_le _)
  rw [hs.weight, ht.weight] at hlt
  omega

/-- A bear in a legal party leaves room for a hare. -/
theorem LegalParty.room (hcfg : ExactConfig cfg) (h : LegalParty cfg party) {p : Pid}
    (hp : p ∈ party) (hbear : speciesOf p cfg = .bear) :
    cfg.bearWeight.toNat < cfg.partyCapacity.toNat := by
  obtain ⟨q, hq, hhare⟩ := h.hare
  have hne : p ≠ q := by
    rintro rfl
    rw [hhare] at hbear
    cases hbear
  have hweight : (weightOf p cfg).toNat = cfg.bearWeight.toNat := by
    rcases weightOf_cases hcfg p with hone | hw
    · rw [(weightOf_eq_one hcfg p).mp hone] at hbear
      cases hbear
    · rw [hw, UInt8.toNat_toUInt32]
  have hpair : ∑ r ∈ {p, q}, (weightOf r cfg).toNat ≤ ∑ r ∈ party, (weightOf r cfg).toNat := by
    refine Finset.sum_le_sum_of_subset ?_
    intro r hr
    rcases Finset.mem_insert.mp hr with rfl | hr
    · exact hp
    · exact Finset.mem_singleton.mp hr ▸ hq
  have hpos := weightOf_pos hcfg q
  rw [Finset.sum_pair hne, h.weight, hweight] at hpair
  omega

/-- Polling a legal party alone starts it. -/
theorem exists_started (hcfg : Accepted cfg) (hsize : cfg.worldSize.toNat ≤ 2 ^ 29)
    (hne : cfg.worldSize ≠ 1) (hlegal : LegalParty cfg party) :
    ∃ w, (system cfg).Reachable w ∧
      ∃ m ∈ partiesStarted w, m.participants.toFinset = party := by
  have hexact := hcfg.exactConfig
  have hsquare := Nat.pow_le_pow_left hsize 2
  obtain ⟨t, hround⟩ := exists_party_round hcfg hne .init (fun _ _ => rfl) hlegal
    (by simp only [Protocol.initial, List.length_nil]; omega)
  obtain ⟨n, -, v, hlead, -, hmore⟩ := hround t (Nat.le_refl t)
  have hreach := (hlead.mono (fun _ _ _ _ => trivial)).run .init
  have hconf := confined_of_leads hexact .init (confined_initial cfg party) hlead
  rcases hmore with hmore | ⟨hcap, p, -, hbear, hfirst⟩
  · obtain ⟨m, hm⟩ := List.exists_mem_of_length_pos (Nat.zero_lt_of_lt hmore)
    refine ⟨v, hreach, m, hm, ?_⟩
    apply eq_of_legal_subset hexact (legal_of_started hexact hreach hm) hlegal
    exact fun p hp => hconf.started m hm p (List.mem_toFinset.mp hp)
  · obtain ⟨k, hk, -⟩ := RequestQueue.getFirstPid_eq_some.mp hfirst
    have hroom := hlegal.room hexact (hconf.queue p p (by rw [hk]; rfl)) hbear
    omega

/-- The parties that some run starts are exactly the legal ones, and there are none in a
world of one process. -/
theorem startable_iff (hcfg : Accepted cfg) (hsize : cfg.worldSize.toNat ≤ 2 ^ 29) :
    (∃ w, (system cfg).Reachable w ∧ ∃ m ∈ partiesStarted w, m.participants.toFinset = party) ↔
      cfg.worldSize ≠ 1 ∧ LegalParty cfg party := by
  constructor
  · rintro ⟨w, h, m, hm, rfl⟩
    exact ⟨ne_one_of_started h hm, legal_of_started hcfg.exactConfig h hm⟩
  · rintro ⟨hne, hlegal⟩
    exact exists_started hcfg hsize hne hlegal

theorem wideGlade_accepted : Accepted wideGlade :=
  ⟨{ partyCapacity := some 5, numBears := some 2 }, 3, rfl⟩

/-- A bear and a hare fill the wide glade. -/
theorem startable_iff_wide : ∃ w, (system wideGlade).Reachable w ∧
    ∃ m ∈ partiesStarted w, m.participants.toFinset = {0, 1} :=
  (startable_iff wideGlade_accepted (by decide)).mpr ⟨by decide, wideGlade_party⟩

end Legal

section Numbers

variable {cfg : Config} {party : Finset Pid} {p : Pid}

/-- The options leave each process one species. -/
theorem Accepted.species (h : Accepted cfg) :
    cfg.numHares.toNat + cfg.numBears.toNat = cfg.worldSize.toNat := by
  obtain ⟨options, mpiSize, happ⟩ := h
  unfold applyCli at happ
  split_ifs at happ with hhelp
  split at happ
  · cases happ
  · dsimp only at happ
    split_ifs at happ with hcap hbears hhares
    cases happ
    rw [gt_iff_lt, UInt32.lt_iff_toNat_lt, not_lt] at hbears
    dsimp only at hbears ⊢
    rw [UInt32.toNat_sub_of_le _ _ (UInt32.le_iff_toNat_le.mpr hbears)]
    exact Nat.sub_add_cancel hbears

def haresOf (cfg : Config) : Finset Pid := everyone cfg.numHares

def bearsOf (cfg : Config) : Finset Pid := everyone cfg.worldSize \ everyone cfg.numHares

theorem mem_haresOf : p ∈ haresOf cfg ↔ speciesOf p cfg = .hare := by
  rw [haresOf, mem_everyone, speciesOf]
  split <;> simp [*]

theorem mem_bearsOf : p ∈ bearsOf cfg ↔ p < cfg.worldSize ∧ speciesOf p cfg = .bear := by
  rw [bearsOf, Finset.mem_sdiff, mem_everyone, mem_everyone, speciesOf]
  split <;> simp [*]

theorem card_haresOf (cfg : Config) : (haresOf cfg).card = cfg.numHares.toNat :=
  card_everyone cfg.numHares

theorem haresOf_subset (hcfg : Accepted cfg) : haresOf cfg ⊆ everyone cfg.worldSize := by
  intro p hp
  rw [haresOf, mem_everyone, UInt32.lt_iff_toNat_lt] at hp
  rw [mem_everyone, UInt32.lt_iff_toNat_lt, ← hcfg.species]
  exact Nat.lt_add_right _ hp

theorem card_bearsOf (hcfg : Accepted cfg) : (bearsOf cfg).card = cfg.numBears.toNat := by
  have hcard := Finset.card_sdiff_add_card_eq_card (haresOf_subset hcfg)
  rw [card_haresOf, card_everyone, ← hcfg.species] at hcard
  rw [bearsOf, ← haresOf]
  omega

/-- Hares weigh one and bears the bear weight. -/
theorem sum_weight (hcfg : Accepted cfg) {hares bears : Finset Pid} (hh : hares ⊆ haresOf cfg)
    (hb : bears ⊆ bearsOf cfg) :
    ∑ p ∈ hares ∪ bears, (weightOf p cfg).toNat =
      hares.card + cfg.bearWeight.toNat * bears.card := by
  have hexact := hcfg.exactConfig
  have hdisjoint : Disjoint hares bears :=
    Finset.disjoint_of_subset_left hh (Finset.disjoint_of_subset_right hb Finset.disjoint_sdiff)
  have hone : ∀ p ∈ hares, (weightOf p cfg).toNat = 1 := by
    intro p hp
    rw [(weightOf_eq_one hexact p).mpr (mem_haresOf.mp (hh hp))]
    rfl
  have hbear : ∀ p ∈ bears, (weightOf p cfg).toNat = cfg.bearWeight.toNat := by
    intro p hp
    have hspecies := (mem_bearsOf.mp (hb hp)).2
    rcases weightOf_cases hexact p with hw | hw
    · rw [(weightOf_eq_one hexact p).mp hw] at hspecies
      cases hspecies
    · rw [hw, UInt8.toNat_toUInt32]
  rw [Finset.sum_union hdisjoint, Finset.sum_congr rfl hone, Finset.sum_congr rfl hbear,
    Finset.sum_const, Finset.sum_const, Nat.nsmul_eq_mul, Nat.nsmul_eq_mul, Nat.mul_one,
    Nat.mul_comm]

structure Makes (cfg : Config) (p : Pid) (hares bears : ℕ) : Prop where
  hare : 1 ≤ hares
  hares_le : hares ≤ cfg.numHares.toNat
  bears_le : bears ≤ cfg.numBears.toNat
  weight : hares + cfg.bearWeight.toNat * bears = cfg.partyCapacity.toNat
  bear : speciesOf p cfg = .bear → 1 ≤ bears

theorem makes_of_legal (hcfg : Accepted cfg) (h : LegalParty cfg party) (hp : p ∈ party) :
    ∃ hares bears, Makes cfg p hares bears := by
  have hparty : (party ∩ haresOf cfg) ∪ (party ∩ bearsOf cfg) = party := by
    rw [← Finset.inter_union_distrib_left, Finset.inter_eq_left]
    intro q hq
    rw [Finset.mem_union, mem_haresOf, mem_bearsOf]
    cases hs : speciesOf q cfg with
    | hare => exact Or.inl rfl
    | bear => exact Or.inr ⟨h.live q hq, rfl⟩
  have hhares : party ∩ haresOf cfg ⊆ haresOf cfg := Finset.inter_subset_right
  have hbears : party ∩ bearsOf cfg ⊆ bearsOf cfg := Finset.inter_subset_right
  have hsum := sum_weight hcfg hhares hbears
  rw [hparty, h.weight] at hsum
  obtain ⟨q, hq, hhare⟩ := h.hare
  refine ⟨_, _, ?_, ?_, ?_, hsum.symm, ?_⟩
  · exact Finset.card_pos.mpr ⟨q, Finset.mem_inter.mpr ⟨hq, mem_haresOf.mpr hhare⟩⟩
  · rw [← card_haresOf]
    exact Finset.card_le_card hhares
  · rw [← card_bearsOf hcfg]
    exact Finset.card_le_card hbears
  · intro hbear
    exact Finset.card_pos.mpr ⟨p, Finset.mem_inter.mpr ⟨hp, mem_bearsOf.mpr ⟨h.live p hp, hbear⟩⟩⟩

theorem exists_legal_of_makes (hcfg : Accepted cfg) (hp : p < cfg.worldSize) {hares bears : ℕ}
    (h : Makes cfg p hares bears) : ∃ party, LegalParty cfg party ∧ p ∈ party := by
  have hone : ∀ s : Finset Pid, ({p} ∩ s).card ≤ 1 := fun s =>
    (Finset.card_le_card Finset.inter_subset_left).trans (Finset.card_singleton p).le
  have hph : {p} ∩ haresOf cfg ⊆ haresOf cfg := Finset.inter_subset_right
  have hpb : {p} ∩ bearsOf cfg ⊆ bearsOf cfg := Finset.inter_subset_right
  obtain ⟨hs, hph, hsub, hcard⟩ := Finset.exists_subsuperset_card_eq hph ((hone _).trans h.hare)
    (h.hares_le.trans (card_haresOf cfg).ge)
  have hbears : ({p} ∩ bearsOf cfg).card ≤ bears := by
    by_cases hmem : p ∈ bearsOf cfg
    · exact (hone _).trans (h.bear (mem_bearsOf.mp hmem).2)
    · rw [Finset.singleton_inter_of_notMem hmem, Finset.card_empty]
      exact Nat.zero_le _
  obtain ⟨bs, hpb, hsub', hcard'⟩ := Finset.exists_subsuperset_card_eq hpb hbears
    (h.bears_le.trans (card_bearsOf hcfg).ge)
  refine ⟨hs ∪ bs, ⟨?_, ?_, ?_⟩, ?_⟩
  · intro q hq
    rcases Finset.mem_union.mp hq with hq | hq
    · exact mem_everyone.mp (haresOf_subset hcfg (hsub hq))
    · exact (mem_bearsOf.mp (hsub' hq)).1
  · obtain ⟨q, hq⟩ := Finset.card_pos.mp (hcard ▸ h.hare)
    exact ⟨q, Finset.mem_union_left _ hq, mem_haresOf.mp (hsub hq)⟩
  · rw [sum_weight hcfg hsub hsub', hcard, hcard', h.weight]
  · have hself : p ∈ ({p} : Finset Pid) := Finset.mem_singleton_self p
    cases hspecies : speciesOf p cfg with
    | hare =>
      exact Finset.mem_union_left _ (hph (Finset.mem_inter.mpr ⟨hself, mem_haresOf.mpr hspecies⟩))
    | bear =>
      exact Finset.mem_union_right _
        (hpb (Finset.mem_inter.mpr ⟨hself, mem_bearsOf.mpr ⟨hp, hspecies⟩⟩))

/-- Who can ever be in a party: a process, exactly if it is not alone and some numbers of
hares and bears, as the options allow them, make a party with it. -/
theorem servable_iff (hcfg : Accepted cfg) (hsize : cfg.worldSize.toNat ≤ 2 ^ 29)
    (hp : p < cfg.worldSize) :
    (∃ w, (system cfg).Reachable w ∧ ∃ m ∈ partiesStarted w, p ∈ m.participants) ↔
      cfg.worldSize ≠ 1 ∧ ∃ hares bears, Makes cfg p hares bears := by
  constructor
  · rintro ⟨w, h, m, hm, hmem⟩
    exact ⟨ne_one_of_started h hm, makes_of_legal hcfg (legal_of_started hcfg.exactConfig h hm)
      (List.mem_toFinset.mpr hmem)⟩
  · rintro ⟨hne, hares, bears, hmakes⟩
    obtain ⟨party, hlegal, hmem⟩ := exists_legal_of_makes hcfg hp hmakes
    obtain ⟨w, h, m, hm, rfl⟩ := exists_started hcfg hsize hne hlegal
    exact ⟨w, h, m, hm, List.mem_toFinset.mp hmem⟩

/-- The bears of the wide glade can be in a party, that of the tiny one cannot. -/
theorem servable_iff_glades :
    (∃ w, (system wideGlade).Reachable w ∧ ∃ m ∈ partiesStarted w, 2 ∈ m.participants) ∧
    ¬ ∃ w, (system tinyGlade).Reachable w ∧ ∃ m ∈ partiesStarted w, 1 ∈ m.participants := by
  constructor
  · exact (servable_iff wideGlade_accepted (by decide) (by decide)).mpr
      ⟨by decide, 1, 1, by decide, by decide, by decide, by decide, fun _ => Nat.le_refl _⟩
  · intro hserved
    obtain ⟨-, hares, bears, hmakes⟩ :=
      (servable_iff tinyGlade_accepted (by decide) (by decide)).mp hserved
    have hbear := hmakes.bear (by decide)
    have hweight : hares + 4 * bears = 1 := hmakes.weight
    omega

end Numbers

end HaresBears
