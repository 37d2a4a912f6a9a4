import HaresBears.ReplyConservation

/-!
Blocking at the head of the line. Only the process with the least ticket may
start a party, and the policy never leaves it out. When nothing is in flight and
every process is queued, the head then finds every legal party there is room for,
unless it is a bear that fills the capacity alone.
-/
namespace HaresBears

open FifoNetwork LamportQueueAlgorithm

structure Stuck (cfg : Config) (w : World) : Prop where
  silent : ∀ p q, w.chan p q = []
  queued : ∀ p < cfg.worldSize, (algo w p).currentState = .queued

/-- A set of processes that could be a party: its weight is the capacity and a
hare is in it. -/
structure LegalParty (cfg : Config) (party : Finset Pid) : Prop where
  live : ∀ p ∈ party, p < cfg.worldSize
  hare : ∃ p ∈ party, speciesOf p cfg = .hare
  weight : ∑ p ∈ party, (weightOf p cfg).toNat = cfg.partyCapacity.toNat

def Unclaimed (w : World) (r : Pid) : Prop := ∀ q, ∀ x ∈ w.chan q r, r ∉ x.participants

/-- A pending request that has reached a process is in its replica, unless a start
is about to serve it. -/
structure Delivered (cfg : Config) (w : World) : Prop where
  live : ∀ p r t, (algo w p).globalQueue.lookup r = some t → r < cfg.worldSize
  known : ∀ p r t, p ≠ r → (algo w r).pendingReqTicket = some t → Unclaimed w r →
    (∀ x ∈ w.chan r p, x.asks = none) → p < cfg.worldSize →
    (algo w p).globalQueue.lookup r = some t

section Delivery

variable {cfg : Config} {w : World} {ok : World → Label → World → Prop}
variable {env : Env} {src dst p r : Pid} {m : Message} {rest : List Message} {t : Ticket}

theorem unclaimed_of_hear (hchan : w.chan src dst = m :: rest)
    (hn : r = dst → r ∉ m.participants)
    (h : Unclaimed ((system cfg).hear w src dst env m rest) r) : Unclaimed w r := by
  intro q x hx
  by_cases hpop : q = src ∧ r = dst
  · obtain ⟨rfl, rfl⟩ := hpop
    rw [hchan] at hx
    rcases List.mem_cons.mp hx with rfl | hx
    · exact hn rfl
    · refine h q x (List.mem_append_left _ ?_)
      simpa [World.consume] using hx
  · refine h q x (List.mem_append_left _ ?_)
    simpa [World.consume, hpop] using hx

/-- The receiver has the pending ticket in its replica once the request and
everything before it have been handled. -/
theorem known_absorb (hr : (system cfg).Run ok w) (hd : Delivered cfg w)
    (hchan : w.chan src dst = m :: rest) (hok : KeepsPending cfg w (.deliver src dst env))
    (hne : dst ≠ r) (hpend : (algo w r).pendingReqTicket = some t) (hunc : Unclaimed w r)
    (hasks : ∀ x ∈ (if r = src then rest else w.chan r dst), x.asks = none) :
    ((algo w dst).absorb src m).globalQueue.lookup r = some t := by
  have hm : Proper cfg src dst m := (Sound.of_run hr).proper src dst m (by simp [hchan])
  have hold : (r = src → m.asks = none) → (algo w dst).globalQueue.lookup r = some t := by
    intro hnone
    refine hd.known dst r t hne hpend hunc ?_ hm.dst_live
    intro x hx
    by_cases hsrc : r = src
    · rw [hsrc, hchan] at hx
      rw [if_pos hsrc] at hasks
      rcases List.mem_cons.mp hx with rfl | hx
      · exact hnone hsrc
      · exact hasks x hx
    · rw [if_neg hsrc] at hasks
      exact hasks x hx
  rw [absorb_lookup]
  cases m with
  | request x =>
    simp only [hm.request x rfl]
    by_cases hsrc : r = src
    · subst hsrc
      have hlast := pending_asked_last hr r t hpend dst hm.dst_live hne
      rw [if_pos rfl] at hasks ⊢
      rw [sent_eq_got_append_chan hr, hchan, List.filterMap_append,
        List.filterMap_cons_some (show (Message.request x).asks = some x.requestTicket from rfl),
        List.filterMap_eq_nil_iff.mpr hasks, List.getLast?_append, List.getLast?_singleton,
        Option.some_or] at hlast
      exact hlast
    · rw [if_neg hsrc]
      exact hold (fun heq => absurd heq hsrc)
  | reply x => exact hold (fun _ => rfl)
  | partyStart x =>
    have hlook := hold (fun _ => rfl)
    have hnot : r ∉ x.participants := by
      intro hmem
      obtain ⟨q, -, y, hy, hnamed⟩ := hok (.partyStart x) (by simp [hchan]) r hmem hne.symm t hlook
        hpend
      exact hunc q y hy hnamed
    dsimp only
    rw [if_neg hnot, hlook]

/-- A delivery to the owner of a pending request leaves the replicas of the others. -/
theorem known_hear_owner (hr : (system cfg).Run ok w) (hd : Delivered cfg w)
    (hchan : w.chan src r = m :: rest) (hne : p ≠ r)
    (hpend : (algo ((system cfg).hear w src r env m rest) r).pendingReqTicket = some t)
    (hunc : Unclaimed ((system cfg).hear w src r env m rest) r)
    (hasks : ∀ x ∈ ((system cfg).hear w src r env m rest).chan r p, x.asks = none)
    (hlive : p < cfg.worldSize) : (algo w p).globalQueue.lookup r = some t := by
  have hs := Sound.of_run hr
  rw [algo, Protocol.hear_node_self, system_onMsg] at hpend
  obtain ⟨hn, hold, -⟩ :=
    heard_pending (Runtime.onMsg_heard (w.node r) env src m (hs.notReady r)) hpend
  have hnamed : r ∉ m.participants := by
    rw [(hs.coherent r).myPid] at hn
    cases m with
    | partyStart x => exact hn
    | request | reply => simp [Message.participants]
  refine hd.known p r t hne hold (unclaimed_of_hear hchan (fun _ => hnamed) hunc) ?_ hlive
  intro x hx
  refine hasks x (List.mem_append_left _ ?_)
  simpa [World.consume, hne] using hx

/-- A start of the receiver that removes a ticket is on its way to the owner. -/
theorem known_hear_holder (hr : (system cfg).Run ok w) (hd : Delivered cfg w)
    (hchan : w.chan src p = m :: rest) (hok : KeepsPending cfg w (.deliver src p env))
    (hne : p ≠ r) (hpend : (algo w r).pendingReqTicket = some t)
    (hunc : Unclaimed ((system cfg).hear w src p env m rest) r)
    (hasks : ∀ x ∈ ((system cfg).hear w src p env m rest).chan r p, x.asks = none) :
    (algo ((system cfg).hear w src p env m rest) p).globalQueue.lookup r = some t := by
  have hs := Sound.of_run hr
  have hunc' := unclaimed_of_hear hchan (fun heq => absurd heq.symm hne) hunc
  have hkey := known_absorb hr hd hchan hok hne hpend hunc' (by
    intro x hx
    refine hasks x (List.mem_append_left _ ?_)
    simpa [World.consume] using hx)
  rw [algo, Protocol.hear_node_self, system_onMsg]
  rcases heard_queue (Runtime.onMsg_heard (w.node p) env src m (hs.notReady p)) with
    heq | ⟨g, heq, x, hx, hout⟩
  · rwa [heq]
  · have hset := ((hs.coherent p).absorb (hs.proper src p m (by simp [hchan]))).settle
    have hout' : r ∉ g := by
      intro hg
      have hrlive := hd.live r r t ((hs.coherent r).own.trans hpend)
      refine hunc p (.partyStart x) (List.mem_append_right _ ?_)
        (show r ∈ x.participants from hx ▸ hg)
      rw [if_pos rfl, system_onMsg]
      refine mem_addressed.mpr ⟨_, hout, ?_, rfl⟩
      rw [hset.myPid, hset.config, mem_broadcastDests]
      exact ⟨hrlive, hne.symm⟩
    rw [heq, RequestQueue.lookup_removeAll, if_neg hout']
    exact hkey

theorem Delivered.hear (hr : (system cfg).Run ok w) (hd : Delivered cfg w)
    (hchan : w.chan src dst = m :: rest) (hok : KeepsPending cfg w (.deliver src dst env)) :
    Delivered cfg ((system cfg).hear w src dst env m rest) where
  live := (replicas_live (hr.reachable.hear env hchan)).1
  known := by
    intro p r t hne hpend hunc hasks hlive
    by_cases hrd : r = dst
    · subst hrd
      have hkey := known_hear_owner hr hd hchan hne hpend hunc hasks hlive
      rwa [algo, Protocol.hear_node_ne hne]
    · rw [algo, Protocol.hear_node_ne hrd] at hpend
      by_cases hp : p = dst
      · subst hp
        exact known_hear_holder hr hd hchan hok hne hpend hunc hasks
      · rw [algo, Protocol.hear_node_ne hp]
        refine hd.known p r t hne hpend
          (unclaimed_of_hear hchan (fun heq => absurd heq hrd) hunc) ?_ hlive
        intro x hx
        refine hasks x (List.mem_append_left _ ?_)
        simpa [World.consume, hp] using hx

/-- A new request is on its way to every other process. -/
theorem known_turn_owner (hr : (system cfg).Run ok w) (hd : Delivered cfg w) (hne : p ≠ r)
    (hpend : (algo ((system cfg).turn w r env) r).pendingReqTicket = some t)
    (hunc : Unclaimed w r)
    (hasks : ∀ x ∈ ((system cfg).turn w r env).chan r p, x.asks = none)
    (hlive : p < cfg.worldSize) : (algo w p).globalQueue.lookup r = some t := by
  have hs := Sound.of_run hr
  have hpolled := (hs.inStep r).onPoll env
  have hpid := (hs.coherent r).myPid
  have hconf := (hs.coherent r).config
  have hnew : ∀ x ∈ addressed p (Runtime.onPoll (w.node r) env).2, x.asks = none := by
    intro x hx
    refine hasks x (List.mem_append_right _ ?_)
    rwa [if_pos rfl, system_onPoll]
  rw [algo, Protocol.turn_node_self, system_onPoll] at hpend
  generalize Runtime.onPoll (w.node r) env = res at hpolled hpend hnew
  cases hpolled with
  | nothing =>
    exact hd.known p r t hne hpend hunc (fun x hx => hasks x (List.mem_append_left _ hx)) hlive
  | want _ =>
    have hmem := hnew (.request ⟨⟨(w.node r).algorithm.myPid,
      (w.node r).algorithm.lamportClock.tick.now⟩⟩) (mem_addressed.mpr
        ⟨_, List.mem_singleton.mpr rfl, by
          rw [hpid, hconf, mem_broadcastDests]
          exact ⟨hlive, hne⟩, rfl⟩)
    cases hmem
  | release _ => simp [afterRelease] at hpend

theorem polled_lookup {x : Runtime} {res : Runtime × Sends} (hh : Runtime.Polled x env res)
    (hne : r ≠ x.algorithm.myPid) :
    res.1.algorithm.globalQueue.lookup r = x.algorithm.globalQueue.lookup r := by
  cases hh with
  | nothing => rfl
  | want _ =>
    simp only [afterWant, RequestQueue.lookup_insert]
    rw [if_neg hne]
  | release _ => rfl

theorem Delivered.turn (hr : (system cfg).Run ok w) (hd : Delivered cfg w)
    (hlive : dst < cfg.worldSize) : Delivered cfg ((system cfg).turn w dst env) where
  live := (replicas_live (hr.reachable.turn env hlive)).1
  known := by
    intro p r t hne hpend hunc hasks hplive
    have hunc' : Unclaimed w r := fun q x hx => hunc q x (List.mem_append_left _ hx)
    by_cases hrd : r = dst
    · subst hrd
      rw [algo, Protocol.turn_node_ne hne]
      exact known_turn_owner hr hd hne hpend hunc' hasks hplive
    · rw [algo, Protocol.turn_node_ne hrd] at hpend
      have hold := hd.known p r t hne hpend hunc'
        (fun x hx => hasks x (List.mem_append_left _ hx)) hplive
      by_cases hp : p = dst
      · subst hp
        have hs := Sound.of_run hr
        rw [algo, Protocol.turn_node_self, system_onPoll,
          polled_lookup ((hs.inStep p).onPoll env) ((hs.coherent p).myPid.symm ▸ hne.symm)]
        exact hold
      · rw [algo, Protocol.turn_node_ne hp]
        exact hold

theorem delivered_of_run (h : (system cfg).Run (fun w l _ => KeepsPending cfg w l) w) :
    Delivered cfg w := by
  refine Protocol.Run.invariant (I := Delivered cfg) ?_ ?_ ?_ h
  · constructor
    · intro p r t hl
      simp [algo, Protocol.initial, system, LamportQueueAlgorithm.create] at hl
    · intro p r t _ hpend
      simp [algo, Protocol.initial, system, LamportQueueAlgorithm.create] at hpend
  · exact fun w src dst env m rest hr hd hchan hok => hd.hear hr hchan hok
  · exact fun w p env hr hd hlive _ => hd.turn hr hlive

end Delivery

section Blocking

variable {cfg : Config} {w : World} {party : Finset Pid}

/-- In a stuck state every replica holds exactly the pending tickets. -/
theorem stuck_lookup (h : (system cfg).Run (fun w l _ => KeepsPending cfg w l) w)
    (hstuck : Stuck cfg w) {p : Pid} (hp : p < cfg.worldSize) (r : Pid) :
    (algo w p).globalQueue.lookup r =
      if r < cfg.worldSize then (algo w r).pendingReqTicket else none := by
  have hs := Sound.of_run h
  have hd := delivered_of_run h
  split
  · rename_i hr
    by_cases hpr : p = r
    · subst hpr
      exact (hs.coherent p).own
    · obtain ⟨t, ht⟩ := Option.ne_none_iff_exists'.mp
        ((hs.coherent r).pending.mpr (Or.inr (hstuck.queued r hr)))
      rw [ht]
      refine hd.known p r t hpr ht ?_ ?_ hp
      · intro q x hx
        rw [hstuck.silent] at hx
        cases hx
      · intro x hx
        rw [hstuck.silent] at hx
        cases hx
  · rename_i hr
    cases hl : (algo w p).globalQueue.lookup r with
    | none => rfl
    | some t => exact absurd (hd.live p r t hl) hr

/-- A stuck state is final: no message can be handed over and a poll of a queued
process does nothing. -/
theorem Stuck.final {ok : World → Label → World → Prop} (h : (system cfg).Run ok w)
    (hstuck : Stuck cfg w) {l : Label} {w' : World} (hnext : (system cfg).next w l = some w') :
    Stuck cfg w' ∧ w'.node = w.node := by
  rcases Protocol.next_cases hnext with
    ⟨src, dst, env, m, rest, -, hchan, -⟩ | ⟨p, env, -, hp, rfl⟩
  · rw [hstuck.silent] at hchan
    cases hchan
  · have hpolled := ((Sound.of_run h).inStep p).onPoll env
    have hq := hstuck.queued p hp
    have hnothing : Runtime.onPoll (w.node p) env = (w.node p, []) := by
      generalize Runtime.onPoll (w.node p) env = res at hpolled
      cases hpolled with
      | nothing => rfl
      | want hs => exact absurd (hs.symm.trans hq) (by decide)
      | release hs => exact absurd (hs.symm.trans hq) (by decide)
    have hnode : ((system cfg).turn w p env).node = w.node := by
      simp only [Protocol.turn, World.react, system_onPoll, hnothing, Function.update_eq_self]
    refine ⟨⟨fun a b => ?_, fun q hlive => ?_⟩, hnode⟩
    · simp [Protocol.turn, World.react, hnothing, hstuck.silent]
    · rw [algo, hnode]
      exact hstuck.queued q hlive

def asCandidates (cfg : Config) (party : Finset Pid) : Finset PartyMember :=
  party.map ⟨fun p => ⟨p, weightOf p cfg⟩, fun _ _ h => congrArg PartyMember.pid h⟩

theorem fills_of_legal (hcfg : ExactConfig cfg) (h : LegalParty cfg party) {policy : LamportPolicy}
    (hp : policy.capacity = cfg.partyCapacity) : policy.Fills (asCandidates cfg party) := by
  obtain ⟨p, hmem, hhare⟩ := h.hare
  refine ⟨?_, ⟨p, weightOf p cfg⟩, ?_, (weightOf_eq_one hcfg p).mpr hhare⟩
  · rw [asCandidates, Finset.sum_map, hp]
    exact h.weight
  · exact Finset.mem_map.mpr ⟨p, hmem, rfl⟩

/-- The head of the line finds no party although there is a legal one. -/
theorem head_blocked (hcfg : ExactConfig cfg) (hs : Sound cfg w) {p : Pid}
    (hq : (algo w p).currentState = .queued)
    (hfirst : (algo w p).globalQueue.getFirstPid = some p) (hlegal : LegalParty cfg party)
    (hall : ∀ q ∈ party, ((algo w p).globalQueue.lookup q).isSome) :
    speciesOf p cfg = .bear ∧ cfg.partyCapacity.toNat ≤ cfg.bearWeight.toNat := by
  have hc := hs.coherent p
  have hexact : ExactConfig (algo w p).cfg := by
    rw [hc.config]
    exact hcfg
  have hpolicy : (algo w p).policy = ⟨(algo w p).cfg.partyCapacity, (algo w p).cfg.hareWeight,
      (algo w p).cfg.bearWeight⟩ := by
    rw [hc.policy, hc.config]
  have hnone : (algo w p).tryBuildParty = none := by
    cases hg : (algo w p).tryBuildParty with
    | none => rfl
    | some g =>
      have hvalid := tryBuildParty_valid hexact hpolicy hfirst hg
      refine absurd ⟨hq, ?_, hg, ?_⟩ (hs.notReady p g)
      · rw [hc.myPid, hfirst]
      · rw [hc.myPid]
        exact List.mem_of_mem_head? hvalid.first
  have hblocked := blocked_of_tryBuildParty_none hexact hpolicy hfirst hnone
    ?_ (fills_of_legal hcfg hlegal (by rw [hc.policy]))
  · rwa [hc.config] at hblocked
  · intro c hcm
    obtain ⟨q, hmem, rfl⟩ := Finset.mem_map.mp hcm
    rw [mem_candidates, hc.config]
    exact ⟨hall q hmem, rfl⟩

/-- Head-of-line blocking: when nothing is in flight, every process is queued and
there is a legal party, the process with the least ticket is a bear that leaves
no room beside it. -/
theorem stuck_behind_bear (hcfg : Accepted cfg)
    (h : (system cfg).Run (fun w l _ => KeepsPending cfg w l) w) (hstuck : Stuck cfg w)
    (hlegal : LegalParty cfg party) :
    cfg.partyCapacity.toNat ≤ cfg.bearWeight.toNat ∧
      ∃ p < cfg.worldSize, speciesOf p cfg = .bear ∧
        ∃ t, (algo w p).pendingReqTicket = some t ∧
          ∀ q < cfg.worldSize, q ≠ p → ∃ u, (algo w q).pendingReqTicket = some u ∧ t < u := by
  have hs := Sound.of_run h
  have hpend : ∀ q < cfg.worldSize, ∃ u, (algo w q).pendingReqTicket = some u := fun q hq =>
    Option.ne_none_iff_exists'.mp
      ((hs.coherent q).pending.mpr (Or.inr (hstuck.queued q hq)))
  obtain ⟨p₀, hmem, -⟩ := hlegal.hare
  have hp₀ := hlegal.live p₀ hmem
  obtain ⟨t₀, ht₀⟩ := hpend p₀ hp₀
  obtain ⟨p, hfirst₀⟩ := RequestQueue.exists_getFirstPid ((hs.coherent p₀).own.trans ht₀)
  obtain ⟨t, ht, hleast⟩ := RequestQueue.getFirstPid_eq_some.mp hfirst₀
  have hp := (delivered_of_run h).live p₀ p t ht
  have hsame : ∀ r, (algo w p).globalQueue.lookup r = (algo w p₀).globalQueue.lookup r := by
    intro r
    rw [stuck_lookup h hstuck hp, stuck_lookup h hstuck hp₀]
  have hpt : (algo w p).pendingReqTicket = some t := by
    rw [← ht, stuck_lookup h hstuck hp₀, if_pos hp]
  have hfirst : (algo w p).globalQueue.getFirstPid = some p := by
    refine RequestQueue.getFirstPid_eq_some.mpr ⟨t, (hsame p).trans ht, ?_⟩
    intro r u hu
    exact hleast r u ((hsame r).symm.trans hu)
  obtain ⟨hbear, hcap⟩ := head_blocked hcfg.exactConfig hs (hstuck.queued p hp) hfirst hlegal (by
    intro q hq
    have hlive := hlegal.live q hq
    obtain ⟨u, hu⟩ := hpend q hlive
    rw [stuck_lookup h hstuck hp, if_pos hlive, hu]
    rfl)
  refine ⟨hcap, p, hp, hbear, t, hpt, ?_⟩
  intro q hq hne
  obtain ⟨u, hu⟩ := hpend q hq
  have hle : t ≤ u := hleast q u (by rw [stuck_lookup h hstuck hp₀, if_pos hq, hu])
  refine ⟨u, hu, lt_of_le_of_ne hle ?_⟩
  intro heq
  rw [← pending_pid hs hpt, heq, pending_pid hs hu] at hne
  exact hne rfl

def tinyGlade : Config where
  worldSize := 2
  partyCapacity := 1
  numHares := 1
  numBears := 1

theorem tinyGlade_accepted : Accepted tinyGlade :=
  ⟨{ partyCapacity := some 1, numBears := some 1 }, 2, rfl⟩

def bearFirstRun : List Label :=
  [want 1, hand 1 0, hand 0 1, want 0, hand 0 1, hand 1 0]

theorem tinyGlade_party : LegalParty tinyGlade {0} where
  live p hp := by
    obtain rfl := Finset.mem_singleton.mp hp
    decide
  hare := ⟨0, Finset.mem_singleton_self 0, by decide⟩
  weight := by
    rw [Finset.sum_singleton]
    decide

theorem stuck_of_processes {ok : World → Label → World → Prop} (h : (system cfg).Run ok w)
    (hsilent : ∀ a ∈ processes cfg.worldSize, ∀ b ∈ processes cfg.worldSize, w.chan a b = [])
    (hqueued : ∀ p ∈ processes cfg.worldSize, (algo w p).currentState = .queued) :
    Stuck cfg w where
  silent := channels_empty (Sound.of_run h) hsilent
  queued p hp := hqueued p (mem_processes.mpr hp)

theorem stuck_behind_bear_tiny :
    ∃ w, (system tinyGlade).Run (fun w l _ => KeepsPending tinyGlade w l) w ∧
      Stuck tinyGlade w ∧ LegalParty tinyGlade {0} ∧
      tinyGlade.partyCapacity.toNat ≤ tinyGlade.bearWeight.toNat ∧
      ∃ p < tinyGlade.worldSize, speciesOf p tinyGlade = .bear ∧
        ∃ t, (algo w p).pendingReqTicket = some t ∧
          ∀ q < tinyGlade.worldSize, q ≠ p →
            ∃ u, (algo w q).pendingReqTicket = some u ∧ t < u := by
  obtain ⟨w, hrun, hsilent, hqueued⟩ := Protocol.exists_of_exec (system tinyGlade)
    (fun w l _ => KeepsPending tinyGlade w l) bearFirstRun
    (fun w => (∀ a ∈ processes tinyGlade.worldSize, ∀ b ∈ processes tinyGlade.worldSize,
        w.chan a b = []) ∧
      ∀ p ∈ processes tinyGlade.worldSize, (algo w p).currentState = .queued) (by decide +kernel)
  have hstuck := stuck_of_processes hrun hsilent hqueued
  exact ⟨w, hrun, hstuck, tinyGlade_party,
    stuck_behind_bear tinyGlade_accepted hrun hstuck tinyGlade_party⟩

/-- The bear at the head keeps the hare from a party it could form alone. -/
theorem stuck_with_party :
    ¬ ∀ cfg, Accepted cfg → ∀ w, (system cfg).Reachable w →
      ¬ (Stuck cfg w ∧ ∃ party, LegalParty cfg party) := by
  intro h
  obtain ⟨w, hrun, hsilent, hqueued⟩ := Protocol.exists_of_exec (system tinyGlade)
    (fun _ _ _ => True) bearFirstRun
    (fun w => (∀ a ∈ processes tinyGlade.worldSize, ∀ b ∈ processes tinyGlade.worldSize,
        w.chan a b = []) ∧
      ∀ p ∈ processes tinyGlade.worldSize, (algo w p).currentState = .queued) (by decide +kernel)
  exact h _ tinyGlade_accepted w hrun
    ⟨stuck_of_processes hrun hsilent hqueued, {0}, tinyGlade_party⟩

def wideGlade : Config where
  worldSize := 3
  partyCapacity := 5
  numHares := 1
  numBears := 2

theorem wideGlade_party : LegalParty wideGlade {0, 1} where
  live p hp := by
    rcases Finset.mem_insert.mp hp with rfl | hp
    · decide
    · obtain rfl := Finset.mem_singleton.mp hp
      decide
  hare := ⟨0, Finset.mem_insert_self 0 {1}, by decide⟩
  weight := by
    rw [Finset.sum_pair (by decide)]
    decide

/-- Bear 2 loses the second request of the hare to the start that served the
first, and blocks the line although there is room beside it. -/
theorem stuck_by_lost_ticket :
    Accepted wideGlade ∧ ∃ w, (system wideGlade).Reachable w ∧ Stuck wideGlade w ∧
      LegalParty wideGlade {0, 1} ∧
      wideGlade.bearWeight.toNat < wideGlade.partyCapacity.toNat := by
  refine ⟨⟨{ partyCapacity := some 5, numBears := some 2 }, 3, rfl⟩, ?_⟩
  obtain ⟨w, hrun, hsilent, hqueued⟩ := Protocol.exists_of_exec (system wideGlade)
    (fun _ _ _ => True)
    [want 1, hand 1 0, hand 1 2, want 0, want 2, hand 0 1, hand 2 1, hand 0 1, hand 1 0, hand 1 0,
      release 0, want 0, hand 0 2, hand 0 2, hand 1 2, hand 2 1, release 1, want 1, hand 1 2,
      hand 2 0, hand 0 2, hand 1 2, hand 2 0, hand 2 0, hand 0 1, hand 1 0, hand 1 0, hand 2 1,
      hand 0 1]
    (fun w => (∀ a ∈ processes wideGlade.worldSize, ∀ b ∈ processes wideGlade.worldSize,
        w.chan a b = []) ∧
      ∀ p ∈ processes wideGlade.worldSize, (algo w p).currentState = .queued) (by decide +kernel)
  exact ⟨w, hrun, stuck_of_processes hrun hsilent hqueued, wideGlade_party, by decide⟩

end Blocking

end HaresBears
