import HaresBears.Coherence

/-!
One process among arbitrary others. Its local thread keeps a two-valued copy of
the state of the algorithm, updated by notifications only; whatever messages
arrive and whatever the draws and the clock say, the copy is good enough.
-/
namespace HaresBears

open LamportQueueAlgorithm

/-- A message another process may deliver to `p`: nothing is assumed of replies
and party starts. -/
structure Incoming (cfg : Config) (p src : Pid) (m : Message) : Prop where
  src_live : src < cfg.worldSize
  ne : src ≠ p
  request : ∀ x, m = .request x → x.requestTicket.pid = src

inductive LocalRun (cfg : Config) (p : Pid) : Runtime → Prop
  | init : LocalRun cfg p { algorithm := .create p cfg }
  | message {r : Runtime} {src : Pid} {m : Message} (env : Env) : LocalRun cfg p r →
      Incoming cfg p src m → LocalRun cfg p (r.onMsg env src m).1
  | poll {r : Runtime} (env : Env) : LocalRun cfg p r → LocalRun cfg p (r.onPoll env).1

structure Steady (r : Runtime) : Prop where
  inStep : InStep r
  notReady : ∀ g, ¬ r.algorithm.Ready g
  pending : r.algorithm.pendingReqTicket ≠ none ↔
    r.algorithm.currentState = .waitingForReplies ∨ r.algorithm.currentState = .queued

section Steps

variable {cfg : Config} {p src : Pid} {r : Runtime} {env : Env} {m : Message}
variable {res : Runtime × Sends}

theorem absorb_settle_pending {a : LamportQueueAlgorithm}
    (h : a.pendingReqTicket ≠ none ↔
      a.currentState = .waitingForReplies ∨ a.currentState = .queued) (src : Pid) (m : Message) :
    (a.absorb src m).settle.pendingReqTicket ≠ none ↔
      (a.absorb src m).settle.currentState = .waitingForReplies ∨
        (a.absorb src m).settle.currentState = .queued := by
  rw [settle_pending]
  by_cases hn : m.Names a.myPid
  · have hstate := absorb_state_named src hn
    rw [settle_of_ne (by simp [hstate]), hstate]
    cases m with
    | request | reply => exact hn.elim
    | partyStart x =>
      have hx : a.myPid ∈ x.participants := hn
      simp [LamportQueueAlgorithm.absorb, hx, goToParty, resetTracker]
  · rw [absorb_pending src hn, h]
    rcases settle_state (a.absorb src m) with hs | ⟨hw, hq⟩
    · rw [hs, absorb_state src hn]
    · rw [absorb_state src hn] at hw
      simp [hw, hq]

theorem Steady.heard (h : Steady r) (hh : Runtime.Heard r env src m res) : Steady res.1 := by
  have hin := h.inStep.heard hh
  cases hh with
  | stay a l ha hr _ _ =>
    subst ha
    exact ⟨hin, hr, absorb_settle_pending h.pending src m⟩
  | start a g _ _ _ =>
    refine ⟨hin, ?_, ?_⟩
    · intro g' hg'
      cases hg'.queued
    · simp [LamportQueueAlgorithm.afterStart]

theorem Steady.polled (h : Steady r) (hh : Runtime.Polled r env res) : Steady res.1 := by
  have hin := h.inStep.polled hh
  cases hh with
  | nothing => exact h
  | want _ =>
    refine ⟨hin, ?_, ?_⟩
    · intro g hg
      cases hg.queued
    · simp [LamportQueueAlgorithm.afterWant]
  | release _ =>
    refine ⟨hin, ?_, ?_⟩
    · intro g hg
      cases hg.queued
    · simp [LamportQueueAlgorithm.afterRelease]

theorem Steady.of_localRun (h : LocalRun cfg p r) : Steady r := by
  induction h with
  | init =>
    refine ⟨?_, ?_, ?_⟩
    · constructor <;> simp [LamportQueueAlgorithm.create]
    · intro g hg
      cases hg.queued
    · simp [LamportQueueAlgorithm.create]
  | message env _ _ ih => exact ih.heard (Runtime.onMsg_heard _ env _ _ ih.notReady)
  | poll env _ ih => exact ih.polled (ih.inStep.onPoll env)

/-- A process of the system is such a process. -/
theorem localRun_of_run {w : World} (h : (system cfg).Reachable w) (p : Pid) :
    LocalRun cfg p (w.node p) := by
  refine FifoNetwork.Protocol.Run.invariant (I := fun w => LocalRun cfg p (w.node p))
    .init ?_ ?_ h
  · intro w src dst env m rest hr ih hc _
    have hm := (Sound.of_run hr).proper src dst m (by simp [hc])
    by_cases hp : p = dst
    · subst hp
      rw [FifoNetwork.Protocol.hear_node_self]
      exact .message env ih ⟨hm.src_live, hm.ne, hm.request⟩
    · rwa [FifoNetwork.Protocol.hear_node_ne hp]
  · intro w q env _ ih _ _
    by_cases hp : p = q
    · subst hp
      rw [FifoNetwork.Protocol.turn_node_self]
      exact .poll env ih
    · rwa [FifoNetwork.Protocol.turn_node_ne hp]

end Steps

section Events

variable {cfg : Config} {p : Pid} {r : Runtime}

theorem LocalThread.want_mem_poll (l : LocalThread) (env : Env) :
    ⟨.wantParty⟩ ∈ (l.poll env).2 ↔ l.shouldWant = true ∧ l.shouldWantParty env = true := by
  by_cases h : l.shouldWant = true ∧ l.shouldWantParty env = true
  · simp only [LocalThread.poll, h, Bool.and_self, if_true]
    split <;> simp
  · have hb : (l.shouldWant && l.shouldWantParty env) = false := by
      rwa [← Bool.not_eq_true, Bool.and_eq_true]
    simp only [LocalThread.poll, hb, h, Bool.false_eq_true, if_false, iff_false]
    split <;> simp

theorem LocalThread.release_mem_poll (l : LocalThread) (env : Env) :
    ⟨.releaseParty⟩ ∈ (l.poll env).2 ↔ l.shouldReleaseParty env = true := by
  have hsame : ({ l with shouldWant := false } : LocalThread).shouldReleaseParty env =
      l.shouldReleaseParty env := rfl
  unfold LocalThread.poll
  cases l.shouldWant && l.shouldWantParty env <;> cases h : l.shouldReleaseParty env <;>
    simp [hsame, h]

/-- The local source and the algorithm stay in step. A want comes only to an idle
process and makes a request, a release only to a process in a party, which has no
request pending, and the thread never rests without either. -/
theorem local_source_in_step (h : LocalRun cfg p r) (env : Env) :
    (⟨.wantParty⟩ ∈ (r.localSrc.poll env).2 → r.algorithm.currentState = .idle ∧
      ∃ t, (r.onPoll env).1.algorithm.pendingReqTicket = some t) ∧
    (⟨.releaseParty⟩ ∈ (r.localSrc.poll env).2 → r.algorithm.currentState = .inParty ∧
      r.algorithm.pendingReqTicket = none) ∧
    (r.localSrc.shouldWant = false → r.algorithm.currentState = .inParty ∨
      ∃ t, r.algorithm.pendingReqTicket = some t) := by
  obtain ⟨hin, -, hpending⟩ := Steady.of_localRun h
  refine ⟨?_, ?_, ?_⟩
  · intro hw
    obtain ⟨hwant, hparty⟩ := (LocalThread.want_mem_poll _ env).mp hw
    obtain ⟨hne, hdraw⟩ := Bool.and_eq_true_iff.mp hparty
    have hn : r.localSrc.currentNotification = .exitedParty := by
      cases hx : r.localSrc.currentNotification with
      | enteredParty => simp [hx] at hne
      | exitedParty => rfl
    have hidle := hin.wants hwant hn
    rw [Runtime.onPoll_want hidle hn hwant hdraw]
    exact ⟨hidle, _, rfl⟩
  · intro hr
    have hrel := (LocalThread.release_mem_poll _ env).mp hr
    have hn : r.localSrc.currentNotification = .enteredParty := by
      by_contra hne
      simp [LocalThread.shouldReleaseParty, hne] at hrel
    have hstate := hin.entered.mp hn
    refine ⟨hstate, ?_⟩
    by_contra hne
    have hwq := hpending.mp hne
    simp [hstate] at hwq
  · intro hw
    cases hs : r.algorithm.currentState with
    | idle => exact absurd (hin.idle hs) (by simp [hw])
    | waitingForReplies => exact Or.inr (Option.ne_none_iff_exists'.mp (hpending.mpr (Or.inl hs)))
    | queued => exact Or.inr (Option.ne_none_iff_exists'.mp (hpending.mpr (Or.inr hs)))
    | inParty => exact Or.inl rfl

/-- A party start reaches a waiting hare; later its party time is over. -/
theorem local_source_in_step_release :
    ∃ r, LocalRun (haresOnly 2 2) 0 r ∧
      ⟨.releaseParty⟩ ∈ (r.localSrc.poll ⟨501000000, false⟩).2 ∧
      r.algorithm.currentState = .inParty ∧ r.algorithm.pendingReqTicket = none := by
  have hin : Incoming (haresOnly 2 2) 0 1 (.partyStart ⟨⟨1, 7⟩, 8, [1, 0]⟩) :=
    ⟨by decide, by decide, fun x hx => (nomatch hx)⟩
  have hrun : LocalRun (haresOnly 2 2) 0 _ := .message ⟨0, false⟩ (.poll ⟨0, true⟩ .init) hin
  refine ⟨_, hrun, ?_, ?_⟩
  · decide +kernel
  · exact (local_source_in_step hrun ⟨501000000, false⟩).2.1 (by decide +kernel)

end Events

end HaresBears
