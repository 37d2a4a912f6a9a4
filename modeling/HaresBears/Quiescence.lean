import HaresBears.Cascades
import HaresBears.HeadOfLine
import HaresBears.ProcessState

/-!
The system at rest. Once the network is silent nobody waits for replies, so the
system has come to a halt exactly when every process is queued; and if messages
arrive in order, no party that could have been formed is left in the line, except
behind a bear that fills the capacity alone.
-/
namespace HaresBears

open FifoNetwork LamportQueueAlgorithm

/-- No step changes a process or a channel. -/
def Halted (cfg : Config) (w : World) : Prop :=
  ∀ l w', (system cfg).next w l = some w' → w'.node = w.node ∧ w'.chan = w.chan

section Halting

variable {cfg : Config} {w : World} {ok : World → Label → World → Prop} {p : Pid} {r : Runtime}

/-- A poll passes over a process in the line. -/
theorem onPoll_unserved (h : InStep r) (env : Env) (hu : Unserved r.algorithm) :
    r.onPoll env = (r, []) := by
  have hpolled := h.onPoll env
  generalize r.onPoll env = res at hpolled
  cases hpolled with
  | nothing => rfl
  | want hs => rcases hu with hu | hu <;> exact absurd (hs.symm.trans hu) (by decide)
  | release hs => rcases hu with hu | hu <;> exact absurd (hs.symm.trans hu) (by decide)

theorem shouldReleaseParty_iff {env : Env} (hn : r.localSrc.currentNotification = .enteredParty) :
    r.localSrc.shouldReleaseParty env = true ↔ r.localSrc.timeMark + 501000000 ≤ env.now := by
  rw [LocalThread.shouldReleaseParty, if_neg (by simp [hn]), decide_eq_true_eq]
  show kPartyTime < (env.now - r.localSrc.timeMark) / 1000000 ↔ _
  rw [kPartyTime]
  omega

/-- Some poll moves a process that is not in the line. -/
theorem exists_poll_moves (h : InStep r) (hu : ¬ Unserved r.algorithm) :
    ∃ env, (r.onPoll env).1.algorithm.currentState ≠ r.algorithm.currentState := by
  cases hstate : r.algorithm.currentState with
  | idle =>
    have hn : r.localSrc.currentNotification = .exitedParty := by
      cases hn : r.localSrc.currentNotification with
      | exitedParty => rfl
      | enteredParty => exact absurd (hstate.symm.trans (h.entered.mp hn)) (by decide)
    refine ⟨⟨0, true⟩, ?_⟩
    rw [Runtime.onPoll_want hstate hn (h.idle hstate) rfl]
    simp [afterWant]
  | inParty =>
    have hn := h.entered.mpr hstate
    refine ⟨⟨r.localSrc.timeMark + 501000000, true⟩, ?_⟩
    rw [Runtime.onPoll_release ((shouldReleaseParty_iff hn).mpr (Nat.le_refl _))]
    simp [afterRelease]
  | waitingForReplies => exact absurd (Or.inl hstate) hu
  | queued => exact absurd (Or.inr hstate) hu

theorem halted_of_silent (h : (system cfg).Run ok w) (hsilent : w.Silent)
    (hun : ∀ q < cfg.worldSize, Unserved (algo w q)) : Halted cfg w := by
  intro l w' hnext
  rcases Protocol.next_cases hnext with
    ⟨src, dst, env, m, rest, -, hchan, -⟩ | ⟨q, env, -, hq, rfl⟩
  · rw [hsilent] at hchan
    cases hchan
  · have hnothing := onPoll_unserved ((Sound.of_run h).inStep q) env (hun q hq)
    constructor
    · simp only [Protocol.turn, World.react, system_onPoll, hnothing, Function.update_eq_self]
    · simp only [Protocol.turn, World.react, system_onPoll, hnothing, addressed_nil, ite_self,
        List.append_nil]

theorem silent_of_halted (h : (system cfg).Run ok w) (hhalt : Halted cfg w) : w.Silent := by
  intro a b
  cases hchan : w.chan a b with
  | nil => rfl
  | cons m rest =>
    have hne := ((Sound.of_run h).proper a b m (by simp [hchan])).ne
    have hnext : (system cfg).next w (.deliver a b ⟨0, false⟩) =
        some ((system cfg).hear w a b ⟨0, false⟩ m rest) := by
      simp only [Protocol.next, hchan]
    have hsame := congrFun (congrFun (hhalt _ _ hnext).2 a) b
    simp only [Protocol.hear, World.react, World.consume, and_self, if_true, if_neg hne,
      List.append_nil, hchan] at hsame
    have hlen := congrArg List.length hsame
    simp at hlen

theorem unserved_of_halted (h : (system cfg).Run ok w) (hhalt : Halted cfg w)
    (hp : p < cfg.worldSize) : Unserved (algo w p) := by
  by_contra hu
  obtain ⟨env, hmoves⟩ := exists_poll_moves ((Sound.of_run h).inStep p) hu
  have hnext : (system cfg).next w (.poll p env) = some ((system cfg).turn w p env) := if_pos hp
  have hsame := congrFun (hhalt _ _ hnext).1 p
  rw [Protocol.turn_node_self, system_onPoll] at hsame
  exact hmoves (by rw [hsame])

/-- In a silent network nobody waits for replies, unless there is nobody to ask. -/
theorem not_waiting_of_silent (hne : cfg.worldSize ≠ 1) (h : (system cfg).Run NoWrap w)
    (hsilent : w.Silent) (p : Pid) : (algo w p).currentState ≠ .waitingForReplies := by
  intro hw
  have hc := (Sound.of_run h).coherent p
  obtain ⟨t, ht⟩ := Option.ne_none_iff_exists'.mp (hc.pending.mpr (Or.inl hw))
  have hmarks : ∀ q < cfg.worldSize, (algo w p).replyTracker[q.toNat]? = some true := by
    intro q hq
    by_cases hqp : q = p
    · subst hqp
      exact hc.self hw hq
    · have hmem := List.mem_of_getLast? (pending_asked_last h p t ht q hq hqp)
      rw [asked_eq_replied h, hsilent, hsilent, List.filterMap_nil, List.append_nil] at hmem
      exact waiting_marks h p t hw ht q hq (by simpa using hmem)
  refine (none_waitsInVain hne h.reachable).1 p ⟨hw, ?_⟩
  rw [allRepliesReceived, Bool.not_eq_true', Bool.eq_false_iff]
  intro hfalse
  obtain ⟨i, hi, hget⟩ := List.mem_iff_getElem.mp (List.contains_iff_mem.mp hfalse)
  rw [hc.length] at hi
  have hnat := UInt32.toNat_ofNat_of_lt' (Nat.lt_trans hi cfg.worldSize.toNat_lt)
  have hmark := hmarks (UInt32.ofNat i) (by rw [UInt32.lt_iff_toNat_lt, hnat]; exact hi)
  rw [hnat, List.getElem?_eq_getElem (by omega), hget] at hmark
  cases hmark

/-- The system comes to a halt exactly in the stuck states, with nothing in flight and
every process queued. -/
theorem halted_iff_stuck (hne : cfg.worldSize ≠ 1) (h : (system cfg).Run NoWrap w) :
    Halted cfg w ↔ Stuck cfg w := by
  constructor
  · intro hhalt
    have hsilent := silent_of_halted h hhalt
    refine ⟨hsilent, fun q hq => ?_⟩
    rcases unserved_of_halted h hhalt hq with hw | hqueued
    · exact absurd hw (not_waiting_of_silent hne h hsilent q)
    · exact hqueued
  · intro hstuck
    exact halted_of_silent h hstuck.silent (fun q hq => Or.inr (hstuck.queued q hq))

/-- A bear and a hare behind it come to a halt. -/
theorem halted_iff_stuck_tiny : ∃ w, (system tinyGlade).Run NoWrap w ∧ Halted tinyGlade w := by
  obtain ⟨w, hrun, hsilent, hqueued⟩ := Protocol.exists_of_exec (system tinyGlade) NoWrap
    bearFirstRun
    (fun w => (∀ a ∈ processes tinyGlade.worldSize, ∀ b ∈ processes tinyGlade.worldSize,
        w.chan a b = []) ∧
      ∀ p ∈ processes tinyGlade.worldSize, (algo w p).currentState = .queued) (by decide +kernel)
  exact ⟨w, hrun, (halted_iff_stuck (by decide) hrun).mpr (stuck_of_processes hrun hsilent hqueued)⟩

end Halting

section Rest

variable {cfg : Config} {w : World} {party : Finset Pid} {p : Pid}

/-- When messages arrive in order and none is in flight, a replica lists exactly the
pending tickets. -/
theorem lookup_of_silent (hcfg : ExactConfig cfg) (h : (system cfg).Run InOrder w)
    (hsilent : w.Silent) (hp : p < cfg.worldSize) (r : Pid) :
    (algo w p).globalQueue.lookup r = (algo w r).pendingReqTicket := by
  have hs := Sound.of_run h
  have hflight : ∀ a b x, ¬ (abstraction w).flight a b x := by
    intro a b x hex
    obtain ⟨m, hm, -⟩ := hex
    rw [hsilent] at hm
    cases hm
  have hiff := (orderly_of_run hcfg h).replica_iff_ticket hflight (r := r) hp
  have htimes : times (algo w p).globalQueue r =
      (algo w r).pendingReqTicket.map (fun t => t.ts.toNat) :=
    Option.ext hiff
  cases hpend : (algo w r).pendingReqTicket with
  | none =>
    rw [hpend, Option.map_none] at htimes
    exact Option.map_eq_none_iff.mp htimes
  | some t =>
    rw [hpend, Option.map_some] at htimes
    obtain ⟨k, hk, hkp, hkt⟩ := lookup_of_times htimes
    obtain rfl : k = t := Ticket.ext_toNat hkt (by rw [hkp, pending_pid hs hpend])
    exact hk

/-- The head of the line: if anybody is in it, somebody has the least ticket, and
knows it. -/
theorem exists_head_of_silent (hcfg : ExactConfig cfg) (h : (system cfg).Run InOrder w)
    (hsilent : w.Silent) {q : Pid} (hq : q < cfg.worldSize) (hu : Unserved (algo w q)) :
    ∃ p < cfg.worldSize, (algo w p).globalQueue.getFirstPid = some p ∧
      ∃ t, (algo w p).pendingReqTicket = some t ∧
        ∀ r < cfg.worldSize, ∀ u, (algo w r).pendingReqTicket = some u → t ≤ u := by
  have hs := Sound.of_run h
  obtain ⟨v, hv⟩ := Option.ne_none_iff_exists'.mp ((hs.coherent q).pending.mpr hu)
  obtain ⟨p, hfirst⟩ := RequestQueue.exists_getFirstPid ((hs.coherent q).own.trans hv)
  obtain ⟨t, ht, hleast⟩ := RequestQueue.getFirstPid_eq_some.mp hfirst
  have hp := (replicas_live h).1 q p t ht
  rw [lookup_of_silent hcfg h hsilent hq] at ht
  have hall : ∀ r < cfg.worldSize, ∀ u, (algo w r).pendingReqTicket = some u → t ≤ u := by
    intro r _ u hu
    exact hleast r u (by rw [lookup_of_silent hcfg h hsilent hq, hu])
  refine ⟨p, hp, ?_, t, ht, hall⟩
  refine RequestQueue.getFirstPid_eq_some.mpr ⟨t, (hs.coherent p).own.trans ht, ?_⟩
  intro r u hu
  have hr := (replicas_live h).1 p r u hu
  exact hall r hr u (by rw [← lookup_of_silent hcfg h hsilent hp, hu])

/-- Processes in the line that could be a party have a bear at the head of it. -/
theorem bear_of_silent (hcfg : Accepted cfg) (hne : cfg.worldSize ≠ 1)
    (h : (system cfg).Run InOrder w) (hsilent : w.Silent) (hlegal : LegalParty cfg party)
    (hun : ∀ q ∈ party, Unserved (algo w q)) :
    cfg.partyCapacity.toNat ≤ cfg.bearWeight.toNat ∧
      ∃ p < cfg.worldSize, speciesOf p cfg = .bear ∧ (algo w p).currentState = .queued ∧
        (algo w p).globalQueue.getFirstPid = some p ∧
        ∃ t, (algo w p).pendingReqTicket = some t ∧
          ∀ q < cfg.worldSize, ∀ u, (algo w q).pendingReqTicket = some u → t ≤ u := by
  have hs := Sound.of_run h
  have hexact := hcfg.exactConfig
  obtain ⟨q, hmem, -⟩ := hlegal.hare
  obtain ⟨p, hp, hfirst, t, ht, hleast⟩ :=
    exists_head_of_silent hexact h hsilent (hlegal.live q hmem) (hun q hmem)
  have hqueued : (algo w p).currentState = .queued := by
    rcases (hs.coherent p).pending.mp (by simp [ht]) with hw | hqueued
    · exact absurd hw (not_waiting_of_silent hne (h.mono (fun _ _ _ hk => hk.1)) hsilent p)
    · exact hqueued
  have hknown : ∀ r ∈ party, ((algo w p).globalQueue.lookup r).isSome := by
    intro r hr
    rw [lookup_of_silent hexact h hsilent hp, Option.isSome_iff_ne_none]
    exact (hs.coherent r).pending.mpr (hun r hr)
  obtain ⟨hbear, hcap⟩ := head_blocked hexact hs hqueued hfirst hlegal hknown
  exact ⟨hcap, p, hp, hbear, hqueued, hfirst, t, ht, hleast⟩

/-- No party is left in the line: when messages arrive in order and none is in flight,
processes in the line that could be a party have a bear before them that leaves no room
beside it. -/
theorem no_party_left_behind (hcfg : Accepted cfg) (hne : cfg.worldSize ≠ 1)
    (h : (system cfg).Run InOrder w) (hsilent : w.Silent) (hlegal : LegalParty cfg party)
    (hun : ∀ q ∈ party, Unserved (algo w q)) :
    cfg.partyCapacity.toNat ≤ cfg.bearWeight.toNat ∧
      ∃ p < cfg.worldSize, speciesOf p cfg = .bear ∧ (algo w p).currentState = .queued ∧
        ∃ t, (algo w p).pendingReqTicket = some t ∧
          ∀ q ∈ party, ∀ u, (algo w q).pendingReqTicket = some u → t ≤ u := by
  obtain ⟨hcap, p, hp, hbear, hqueued, -, t, ht, hleast⟩ :=
    bear_of_silent hcfg hne h hsilent hlegal hun
  exact ⟨hcap, p, hp, hbear, hqueued, t, ht, fun q hq => hleast q (hlegal.live q hq)⟩

/-- The hare behind the bear could be a party alone. -/
theorem no_party_left_behind_tiny :
    ∃ w, (system tinyGlade).Run InOrder w ∧ w.Silent ∧ Unserved (algo w 0) ∧
      ∃ p < tinyGlade.worldSize, speciesOf p tinyGlade = .bear ∧
        (algo w p).currentState = .queued := by
  obtain ⟨w, hrun, hsilent, hqueued⟩ := Protocol.exists_of_exec (system tinyGlade) InOrder
    bearFirstRun
    (fun w => (∀ a ∈ processes tinyGlade.worldSize, ∀ b ∈ processes tinyGlade.worldSize,
        w.chan a b = []) ∧
      ∀ p ∈ processes tinyGlade.worldSize, (algo w p).currentState = .queued) (by decide +kernel)
  have hstuck := stuck_of_processes hrun hsilent hqueued
  have hun : Unserved (algo w 0) := Or.inr (hstuck.queued 0 (by decide))
  obtain ⟨-, p, hp, hbear, hq, -⟩ := no_party_left_behind tinyGlade_accepted (by decide) hrun
    hstuck.silent tinyGlade_party (by
      intro q hq
      obtain rfl := Finset.mem_singleton.mp hq
      exact hun)
  exact ⟨w, hrun, hstuck.silent, hun, p, hp, hbear, hq⟩

end Rest

end HaresBears
