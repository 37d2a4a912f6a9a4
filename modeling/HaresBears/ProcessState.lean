import HaresBears.Coherence

/-!
What holds of each process between two events. Its redundant fields agree, it
does not sit on a party it could start and, unless it is alone, it does not wait
for replies it has.
-/
namespace HaresBears

open FifoNetwork LamportQueueAlgorithm

section Fields

variable {cfg : Config} {w : World}

structure FieldsAgree (cfg : Config) (p : Pid) (a : LamportQueueAlgorithm) : Prop where
  pending : a.currentState = .waitingForReplies ∨ a.currentState = .queued ↔
    ∃ t, a.pendingReqTicket = some t
  own : ∀ t, a.pendingReqTicket = some t → a.globalQueue.lookup p = some t
  cleared : a.currentState = .idle ∨ a.currentState = .inParty →
    a.globalQueue.lookup p = none ∧ ∀ i < cfg.worldSize.toNat, a.replyTracker[i]? = some false
  complete : a.currentState = .queued →
    ∀ i < cfg.worldSize.toNat, a.replyTracker[i]? = some true
  self : a.currentState = .waitingForReplies → a.replyTracker[p.toNat]? = some true
  party : (∃ party, a.myParty = some party) ↔ a.currentState = .inParty
  length : a.replyTracker.length = cfg.worldSize.toNat

theorem Coherent.fieldsAgree {p : Pid} {a : LamportQueueAlgorithm} (h : Coherent cfg p a)
    (hp : p < cfg.worldSize) : FieldsAgree cfg p a where
  pending := by
    rw [← h.pending]
    exact Option.ne_none_iff_exists'
  own t ht := h.own.trans ht
  cleared hs := by
    constructor
    · rw [h.own]
      by_contra hne
      rcases h.pending.mp hne with hw | hw <;> rcases hs with hs | hs <;>
        exact absurd (hs.symm.trans hw) (by decide)
    · intro i hi
      rw [h.cleared hs, List.getElem?_replicate_of_lt hi]
  complete hs i hi := getElem?_allReplies (h.complete hs) (by rwa [h.length])
  self hs := h.self hs hp
  party := by
    rw [← h.party]
    exact Option.ne_none_iff_exists'.symm
  length := h.length

/-- Local state coherence, and every index at which a reply is marked lies inside
the tracker. -/
theorem local_state_coherent (h : (system cfg).Reachable w) :
    (∀ p < cfg.worldSize, FieldsAgree cfg p (algo w p)) ∧
    ∀ c ∈ w.past, c.proc.toNat < c.before.algorithm.replyTracker.length ∧
      ∀ src m, c.heard = some (src, m) → src.toNat < c.before.algorithm.replyTracker.length := by
  refine ⟨fun p hp => ((Sound.of_run h).coherent p).fieldsAgree hp, ?_⟩
  intro c hc
  obtain ⟨hcoh, -, hexp⟩ := explained_of_run h c hc
  rw [hcoh.length]
  cases hexp with
  | heard src m env hh hp _ =>
    refine ⟨UInt32.lt_iff_toNat_lt.mp hp.dst_live, ?_⟩
    intro src' m' hh'
    obtain ⟨rfl, -⟩ := Prod.mk.inj (Option.some.inj (hh.symm.trans hh'))
    exact UInt32.lt_iff_toNat_lt.mp hp.src_live
  | polled env hh hp _ =>
    refine ⟨UInt32.lt_iff_toNat_lt.mp hp, ?_⟩
    intro src' m' hh'
    rw [hh] at hh'
    cases hh'

/-- Two hares in a party and a third that is queued. -/
theorem local_state_coherent_served :
    ∃ w, (system (haresOnly 3 2)).Reachable w ∧ (algo w 0).currentState = .inParty ∧
      (algo w 2).currentState = .queued ∧
      (∀ p < 3, FieldsAgree (haresOnly 3 2) p (algo w p)) ∧
      ∀ c ∈ w.past, c.proc.toNat < c.before.algorithm.replyTracker.length ∧
        ∀ src m, c.heard = some (src, m) →
          src.toNat < c.before.algorithm.replyTracker.length := by
  obtain ⟨w, hrun, h0, h2⟩ := Protocol.exists_of_exec (system (haresOnly 3 2)) (fun _ _ _ => True)
    servedRun (fun w => (algo w 0).currentState = .inParty ∧
      (algo w 2).currentState = .queued) (by decide +kernel)
  exact ⟨w, hrun, h0, h2, local_state_coherent hrun⟩

end Fields

section Triggers

variable {cfg : Config} {w : World}

/-- Whatever the state, a group built by the head of the queue contains it. -/
theorem leader_mem_group {a : LamportQueueAlgorithm} {g : List Pid} (hl : a.amLeader = true)
    (hg : a.tryBuildParty = some g) : a.myPid ∈ g := by
  obtain ⟨rest, hcand⟩ := candidates_head ((amLeader_iff a).mp hl)
  rw [tryBuildParty_eq, hcand] at hg
  split at hg
  · rename_i hformed
    obtain rfl := Option.some.inj hg
    exact LamportPolicy.leader_mem_of_formed hformed
  · cases hg

/-- A process that a message makes ready to start a party starts it. -/
theorem started_of_ready {r : Runtime} {env : Env} {src : Pid} {m : Message}
    {res : Runtime × Sends} {g : List Pid} (hh : Runtime.Heard r env src m res)
    (hready : (r.algorithm.absorb src m).settle.Ready g) :
    res.1.algorithm = (r.algorithm.absorb src m).settle.afterStart g ∧
      ⟨broadcastDests (r.algorithm.absorb src m).settle.myPid
          (r.algorithm.absorb src m).settle.cfg.worldSize,
        .partyStart ((r.algorithm.absorb src m).settle.startOf g)⟩ ∈ res.2 := by
  cases hh with
  | stay a l ha hnone _ _ =>
    subst ha
    exact absurd hready (hnone g)
  | start a g' ha hr _ =>
    subst ha
    obtain rfl : g' = g := Option.some.inj (hr.group.symm.trans hready.group)
    exact ⟨rfl, List.mem_append_right _ List.mem_cons_self⟩

/-- No missed trigger: a queued process at the head of its replica finds no party, since
the call that made one possible has started it. Whatever the state, a group that the head
of the queue builds contains it. -/
theorem no_missed_trigger (h : (system cfg).Reachable w) :
    (∀ p, (algo w p).currentState = .queued → (algo w p).amLeader = true →
      (algo w p).tryBuildParty = none) ∧
    (∀ c ∈ w.past, ∀ src m, c.heard = some (src, m) →
      ∀ a, a = (c.before.algorithm.absorb src m).settle → a.currentState = .queued →
      a.amLeader = true → ∀ g, a.tryBuildParty = some g →
        c.after.algorithm = a.afterStart g ∧
        ⟨broadcastDests c.proc cfg.worldSize, .partyStart (a.startOf g)⟩ ∈ c.out) ∧
    ∀ (a : LamportQueueAlgorithm) (g : List Pid), a.amLeader = true →
      a.tryBuildParty = some g → a.myPid ∈ g := by
  refine ⟨?_, ?_, fun a g hl hg => leader_mem_group hl hg⟩
  · intro p hq hl
    cases hg : (algo w p).tryBuildParty with
    | none => rfl
    | some g =>
      have hready : (algo w p).Ready g :=
        ⟨hq, (amLeader_iff _).mp hl, hg, leader_mem_group hl hg⟩
      exact absurd hready ((Sound.of_run h).notReady p g)
  · rintro c hc src m hheard a rfl hq hl g hg
    obtain ⟨hcoh, -, hexp⟩ := explained_of_run h c hc
    cases hexp with
    | heard src' m' env hh hproper hreact =>
      obtain ⟨rfl, rfl⟩ := Prod.mk.inj (Option.some.inj (hh.symm.trans hheard))
      have hstarted := started_of_ready hreact
        ⟨hq, (amLeader_iff _).mp hl, hg, leader_mem_group hl hg⟩
      have hset := (hcoh.absorb hproper).settle
      rwa [hset.myPid, hset.config] at hstarted
    | polled env hh _ _ => cases hh.symm.trans hheard

/-- A queued hare that needs company, after a party that was started as the reply came
that made it possible. -/
theorem no_missed_trigger_served :
    ∃ w, (system (haresOnly 3 2)).Reachable w ∧ (algo w 2).currentState = .queued ∧
      (algo w 2).amLeader = true ∧ (algo w 2).tryBuildParty = none ∧
      ∃ c ∈ w.past, c.proc = 0 ∧ c.after.algorithm.currentState = .inParty ∧
        ∃ pkt ∈ c.out, pkt.dests = [1, 2] ∧ pkt.msg = .partyStart ⟨⟨0, 6⟩, 6, [0, 1]⟩ := by
  obtain ⟨w, hrun, hq, hl, c, hc, hproc, x, hx, hq', hl', hg, hstart⟩ :=
    Protocol.exists_of_exec (system (haresOnly 3 2)) (fun _ _ _ => True) servedRun
    (fun w => (algo w 2).currentState = .queued ∧ (algo w 2).amLeader = true ∧
      ∃ c ∈ w.past, c.proc = 0 ∧ ∃ x ∈ c.heard,
        (c.before.algorithm.absorb x.1 x.2).settle.currentState = .queued ∧
        (c.before.algorithm.absorb x.1 x.2).settle.amLeader = true ∧
        (c.before.algorithm.absorb x.1 x.2).settle.tryBuildParty = some [0, 1] ∧
        (c.before.algorithm.absorb x.1 x.2).settle.startOf [0, 1] = ⟨⟨0, 6⟩, 6, [0, 1]⟩)
    (by decide +kernel)
  obtain ⟨hnone, hstarted, -⟩ := no_missed_trigger hrun
  obtain ⟨hafter, hpkt⟩ := hstarted c hc x.1 x.2 hx _ rfl hq' hl' _ hg
  rw [hproc, hstart] at hpkt
  exact ⟨w, hrun, hq, hl, hnone 2 hq hl, c, hc, hproc, by rw [hafter]; rfl, _, hpkt, by decide,
    rfl⟩

end Triggers

section Waiting

variable {cfg : Config} {w : World}

def WaitsInVain (a : LamportQueueAlgorithm) : Prop :=
  a.currentState = .waitingForReplies ∧ a.allRepliesReceived = true

/-- `Recompute` leaves nobody waiting in vain. -/
theorem not_waitsInVain_settle (a : LamportQueueAlgorithm) : ¬ WaitsInVain a.settle := by
  unfold LamportQueueAlgorithm.settle
  split
  · intro h
    cases h.1
  · assumption

theorem not_waitsInVain_heard {r : Runtime} {env : Env} {src : Pid} {m : Message}
    {res : Runtime × Sends} (h : Runtime.Heard r env src m res) :
    ¬ WaitsInVain res.1.algorithm := by
  cases h with
  | stay a l ha _ _ _ =>
    subst ha
    exact not_waitsInVain_settle _
  | start a g _ _ _ =>
    intro hv
    cases hv.1

/-- A fresh request is complete at once only if there is nobody to ask. -/
theorem afterWant_allReplies (a : LamportQueueAlgorithm) (hp : a.myPid < a.cfg.worldSize) :
    a.afterWant.allRepliesReceived = true ↔ a.cfg.worldSize = 1 := by
  have hlt := UInt32.lt_iff_toNat_lt.mp hp
  rw [← UInt32.toNat_inj, UInt32.toNat_one]
  constructor
  · intro hall
    by_contra hne
    have hother : ∃ i < a.cfg.worldSize.toNat, a.myPid.toNat ≠ i := by
      by_cases h0 : a.myPid.toNat = 0
      · exact ⟨1, by omega, by omega⟩
      · exact ⟨0, by omega, h0⟩
    obtain ⟨i, hi, hne⟩ := hother
    have hmark := getElem?_allReplies hall (i := i) (by
      simpa [LamportQueueAlgorithm.afterWant] using hi)
    simp [LamportQueueAlgorithm.afterWant, hne, hi] at hmark
  · intro hone
    have hzero : a.myPid.toNat = 0 := by omega
    simp [LamportQueueAlgorithm.afterWant, allRepliesReceived, hone, hzero]

theorem not_waitsInVain_polled {r : Runtime} {env : Env} {res : Runtime × Sends}
    (hr : ¬ WaitsInVain r.algorithm) (hp : r.algorithm.myPid < r.algorithm.cfg.worldSize)
    (hne : r.algorithm.cfg.worldSize ≠ 1) (h : Runtime.Polled r env res) :
    ¬ WaitsInVain res.1.algorithm := by
  cases h with
  | nothing => exact hr
  | want _ => exact fun hv => hne ((afterWant_allReplies _ hp).mp hv.2)
  | release _ =>
    intro hv
    cases hv.1

theorem react_not_waitsInVain {p : Pid} {heard : Option (Pid × Message)}
    {res : Runtime × Sends} (hnode : ∀ q, ¬ WaitsInVain (algo w q))
    (hpast : ∀ c ∈ w.past, ¬ WaitsInVain c.after.algorithm)
    (hres : ¬ WaitsInVain res.1.algorithm) :
    (∀ q, ¬ WaitsInVain (algo (w.react p heard res) q)) ∧
      ∀ c ∈ (w.react p heard res).past, ¬ WaitsInVain c.after.algorithm := by
  constructor
  · intro q
    by_cases hq : q = p
    · subst hq
      rwa [algo, FifoNetwork.World.react_node_self]
    · rw [algo, FifoNetwork.World.react_node_ne _ _ _ hq]
      exact hnode q
  · intro c hc
    rcases List.mem_cons.mp hc with rfl | hc
    · exact hres
    · exact hpast c hc

/-- With more than one process nobody waits in vain, at any time. -/
theorem none_waitsInVain (hne : cfg.worldSize ≠ 1) (h : (system cfg).Reachable w) :
    (∀ p, ¬ WaitsInVain (algo w p)) ∧ ∀ c ∈ w.past, ¬ WaitsInVain c.after.algorithm := by
  refine Protocol.Run.invariant (I := fun w => (∀ p, ¬ WaitsInVain (algo w p)) ∧
    ∀ c ∈ w.past, ¬ WaitsInVain c.after.algorithm) ?_ ?_ ?_ h
  · refine ⟨?_, fun c hc => (nomatch hc)⟩
    intro p hv
    cases hv.1
  · intro w src dst env m rest hr ih _ _
    have hheard := Runtime.onMsg_heard (w.node dst) env src m ((Sound.of_run hr).notReady dst)
    exact react_not_waitsInVain (w := w.consume src dst rest) ih.1 ih.2
      (not_waitsInVain_heard hheard)
  · intro w p env hr ih hp _
    have hs := Sound.of_run hr
    refine react_not_waitsInVain ih.1 ih.2 (not_waitsInVain_polled (ih.1 p) ?_ ?_
      ((hs.inStep p).onPoll env))
    · rwa [(hs.coherent p).myPid, (hs.coherent p).config]
    · rwa [(hs.coherent p).config]

/-- Nobody waits for replies it has, in any state and at the end of any call,
exactly if there is more than one process. A lone process completes its reply set
in the handler that does not call `Recompute`. -/
theorem nobody_waits_in_vain_iff (cfg : Config) :
    (∀ w, (system cfg).Reachable w → (∀ p < cfg.worldSize, ¬ WaitsInVain (algo w p)) ∧
      ∀ c ∈ w.past, ¬ WaitsInVain c.after.algorithm) ↔ cfg.worldSize ≠ 1 := by
  constructor
  · intro h hone
    have hlive : (0 : Pid) < cfg.worldSize := by
      rw [hone]
      decide
    have hrun : (system cfg).Reachable
        ((system cfg).turn (system cfg).initial 0 ⟨0, true⟩) := by
      refine .step (l := want 0) .init ?_ trivial
      exact if_pos hlive
    refine (h _ hrun).1 0 hlive ?_
    have hpoll : (system cfg).onPoll 0 ((system cfg).initial.node 0) ⟨0, true⟩ = _ :=
      Runtime.onPoll_want (r := (system cfg).init 0) rfl rfl rfl rfl
    rw [algo, FifoNetwork.Protocol.turn_node_self, hpoll]
    exact ⟨rfl, (afterWant_allReplies _ hlive).mpr hone⟩
  · intro hne w h
    obtain ⟨hnode, hpast⟩ := none_waitsInVain hne h
    exact ⟨fun p _ => hnode p, hpast⟩

/-- A lone hare wants a party and waits for ever. -/
theorem lone_hare_waits_in_vain : ∃ w, (system (haresOnly 1 1)).Reachable w ∧
    (algo w 0).currentState = .waitingForReplies ∧ (algo w 0).allRepliesReceived = true ∧
    Accepted (haresOnly 1 1) := by
  obtain ⟨w, hrun, hw⟩ := Protocol.exists_of_exec (system (haresOnly 1 1)) (fun _ _ _ => True)
    [want 0] (fun w => (algo w 0).currentState = .waitingForReplies ∧
      (algo w 0).allRepliesReceived = true) (by decide +kernel)
  exact ⟨w, hrun, hw.1, hw.2, haresOnly_accepted (by decide) (by decide)⟩

end Waiting

end HaresBears
