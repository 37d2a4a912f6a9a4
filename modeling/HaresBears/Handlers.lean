import HaresBears.Runtime

/-!
What one reaction of a process can do. A network message is first absorbed into
the state; then `Recompute` may move the process to the queue and may let it
start a party. A poll wants a party, releases one or does nothing.
-/
namespace HaresBears

def Action.IsLog : Action → Prop
  | .log _ _ => True
  | _ => False

def Message.Names (p : Pid) : Message → Prop
  | .partyStart m => p ∈ m.participants
  | _ => False

def Message.asks : Message → Option Ticket
  | .request m => some m.requestTicket
  | _ => none

def Message.answers : Message → Option Ticket
  | .reply m => some m.requestTicket
  | _ => none

namespace LamportQueueAlgorithm

/-- The state in which the handler of `msg` calls `Recompute` or returns. -/
def absorb (a : LamportQueueAlgorithm) (pid : Pid) : Message → LamportQueueAlgorithm
  | .request m =>
    { a with
      lamportClock := a.lamportClock.onReceive m.requestTicket.ts
      globalQueue := a.globalQueue.insert m.requestTicket }
  | .reply m =>
    let a := { a with lamportClock := a.lamportClock.onReceive m.senderTicket.ts }
    if a.currentState = .waitingForReplies then a.markReply pid else a
  | .partyStart m =>
    let a := { a with
      lamportClock := a.lamportClock.onReceive m.senderTicket.ts
      globalQueue := a.globalQueue.removeAll m.participants }
    if a.myPid ∈ m.participants then (a.goToParty m []).1 else a

/-- The message sent back by the handler itself. -/
def answer (a : LamportQueueAlgorithm) : Message → Option Message
  | .request m => some (.reply ⟨⟨a.myPid, (a.lamportClock.onReceive m.requestTicket.ts).now⟩,
      m.requestTicket⟩)
  | .reply _ => none
  | .partyStart _ => none

/-- The first half of `Recompute`. -/
def settle (a : LamportQueueAlgorithm) : LamportQueueAlgorithm :=
  if a.currentState = .waitingForReplies ∧ a.allRepliesReceived = true then
    { a with lamportClock := a.lamportClock.tick, currentState := .queued }
  else a

theorem recompute_eq (a : LamportQueueAlgorithm) (actions : List Action) :
    a.recompute actions = a.settle.lead actions := by
  unfold recompute settle
  by_cases hw : a.currentState = .waitingForReplies
  · by_cases hall : a.allRepliesReceived = true
    · simp [hw, hall]
    · simp [hw, hall, lead]
  · simp [hw]

def startOf (a : LamportQueueAlgorithm) (g : List Pid) : PartyStart where
  senderTicket := ⟨a.myPid, a.lamportClock.tick.now⟩
  partyId := (a.partyCounter.toUInt64 + a.lamportClock.tick.now).toUInt32.toUInt64
  participants := g

def afterStart (a : LamportQueueAlgorithm) (g : List Pid) : LamportQueueAlgorithm :=
  { a with
    lamportClock := a.lamportClock.tick
    currentState := .inParty
    myParty := some (Party.ofStart (a.startOf g))
    pendingReqTicket := none
    replyTracker := List.replicate a.cfg.worldSize.toNat false
    globalQueue := a.globalQueue.removeAll g
    partyCounter := a.partyCounter + 1 }

def afterWant (a : LamportQueueAlgorithm) : LamportQueueAlgorithm :=
  let ticket : Ticket := ⟨a.myPid, a.lamportClock.tick.now⟩
  { a with
    lamportClock := a.lamportClock.tick
    currentState := .waitingForReplies
    replyTracker := (List.replicate a.cfg.worldSize.toNat false).set a.myPid.toNat true
    pendingReqTicket := some ticket
    globalQueue := a.globalQueue.insert ticket }

def afterRelease (a : LamportQueueAlgorithm) : LamportQueueAlgorithm :=
  { a with
    lamportClock := a.lamportClock.tick
    currentState := .idle
    myParty := none
    pendingReqTicket := none
    replyTracker := List.replicate a.cfg.worldSize.toNat false }

/-- A queued process at the head of its replica for which the policy finds a
party with itself in it. -/
structure Ready (a : LamportQueueAlgorithm) (g : List Pid) : Prop where
  queued : a.currentState = .queued
  first : a.globalQueue.getFirstPid = some a.myPid
  group : a.tryBuildParty = some g
  mem : a.myPid ∈ g

theorem amLeader_iff (a : LamportQueueAlgorithm) :
    a.amLeader = true ↔ a.globalQueue.getFirstPid = some a.myPid := by
  unfold amLeader
  exact beq_iff_eq

/-- A leader either starts a party or only writes to the log. -/
theorem lead_cases (a : LamportQueueAlgorithm) (actions : List Action) :
    (∃ logs, (∀ x ∈ logs, x.IsLog) ∧ a.lead actions = (a, actions ++ logs) ∧
      ∀ g, ¬ a.Ready g) ∨
    ∃ g text, a.Ready g ∧ a.lead actions =
      (a.afterStart g, actions ++
        [.log 0 text, .notify .enteredParty, .broadcast (.partyStart (a.startOf g))]) := by
  by_cases hl : a.currentState = .queued ∧ a.amLeader = true
  · have hfirst := (amLeader_iff a).mp hl.2
    cases hg : a.tryBuildParty with
    | none =>
      left
      refine ⟨[.log 0 "Policy rejected group, leader waiting"], ?_, ?_, ?_⟩
      · simp [Action.IsLog]
      · simp [lead, hl, hg]
      · intro g hr
        have hx := hr.group
        rw [hg] at hx
        cases hx
    | some g =>
      by_cases hm : a.myPid ∈ g
      · right
        refine ⟨g, startText a.myPid (a.startOf g), ⟨hl.1, hfirst, hg, hm⟩, ?_⟩
        simp [lead, hl, hg, hm, goToParty, resetTracker, createPartyId, myTicket, startOf,
          afterStart]
      · left
        refine ⟨[.log 0 "Leader pid missing from group, skipping PartyStart"], ?_, ?_, ?_⟩
        · simp [Action.IsLog]
        · simp [lead, hl, hg, hm]
        · intro g' hr
          obtain rfl := Option.some.inj (hg.symm.trans hr.group)
          exact hm hr.mem
  · left
    refine ⟨[], by simp, by simp [lead, hl], ?_⟩
    intro g hr
    exact hl ⟨hr.queued, (amLeader_iff a).mpr hr.first⟩

end LamportQueueAlgorithm

namespace Runtime

def packetOf (a : LamportQueueAlgorithm) : Action → Option (FifoNetwork.Packet Pid Message)
  | .send dest msg => some ⟨[dest], msg⟩
  | .broadcast msg => some ⟨broadcastDests a.myPid a.cfg.worldSize, msg⟩
  | .notify _ => none
  | .log _ _ => none

def notified (env : Env) (l : LocalThread) : Action → LocalThread
  | .notify type => l.onNotify type env
  | _ => l

theorem drainActions_eq (env : Env) (r : Runtime) (sends : Sends) (actions : List Action) :
    drainActions env r sends actions =
      ({ r with localSrc := actions.foldl (notified env) r.localSrc },
        sends ++ actions.filterMap (packetOf r.algorithm)) := by
  unfold drainActions
  induction actions generalizing r sends with
  | nil => simp
  | cons x actions ih =>
    rw [List.foldl_cons, ih, List.foldl_cons]
    cases x <;> simp [execute, packetOf, notified, List.filterMap_cons]

theorem foldl_notified_logs (env : Env) (l : LocalThread) {logs : List Action}
    (h : ∀ x ∈ logs, x.IsLog) : logs.foldl (notified env) l = l := by
  induction logs with
  | nil => rfl
  | cons x logs ih =>
    have hx := h x List.mem_cons_self
    rw [List.foldl_cons]
    cases x with
    | log level text => exact ih (fun y hy => h y (List.mem_cons_of_mem _ hy))
    | send | broadcast | notify => exact hx.elim

theorem filterMap_packetOf_logs (a : LamportQueueAlgorithm) {logs : List Action}
    (h : ∀ x ∈ logs, x.IsLog) : logs.filterMap (packetOf a) = [] := by
  rw [List.filterMap_eq_nil_iff]
  intro x hx
  have hlog := h x hx
  cases x with
  | log level text => rfl
  | send | broadcast | notify => exact hlog.elim

open LamportQueueAlgorithm

/-- What a process does with a message, unless it was ready to start a party
before it. -/
inductive Heard (r : Runtime) (env : Env) (src : Pid) (m : Message) : Runtime × Sends → Prop
  | stay (a : LamportQueueAlgorithm) (l : LocalThread) :
      a = (r.algorithm.absorb src m).settle → (∀ g, ¬ a.Ready g) →
      (¬ m.Names r.algorithm.myPid → l = r.localSrc) →
      (m.Names r.algorithm.myPid → l = r.localSrc.onNotify .enteredParty env) →
      Heard r env src m
        (⟨a, l⟩, (r.algorithm.answer m).toList.map (fun x => ⟨[src], x⟩))
  | start (a : LamportQueueAlgorithm) (g : List Pid) :
      a = (r.algorithm.absorb src m).settle → a.Ready g →
      ¬ m.Names r.algorithm.myPid →
      Heard r env src m
        (⟨a.afterStart g, r.localSrc.onNotify .enteredParty env⟩,
          (r.algorithm.answer m).toList.map (fun x => ⟨[src], x⟩) ++
            [⟨broadcastDests a.myPid a.cfg.worldSize, .partyStart (a.startOf g)⟩])

theorem onMsg_eq (r : Runtime) (env : Env) (src : Pid) (m : Message) :
    r.onMsg env src m =
      (⟨(r.algorithm.onMsg src m).1,
          (r.algorithm.onMsg src m).2.foldl (notified env) r.localSrc⟩,
        (r.algorithm.onMsg src m).2.filterMap (packetOf (r.algorithm.onMsg src m).1)) := by
  unfold Runtime.onMsg dispatch
  simp only [handleEvent, onNet, drainActions_eq, List.nil_append]

/-- The end of a handler that calls `Recompute`. -/
private theorem heard_of_recompute {r : Runtime} {env : Env} {src : Pid} {m : Message}
    (hn : ¬ m.Names r.algorithm.myPid)
    (h : r.algorithm.onMsg src m = (r.algorithm.absorb src m).recompute
      ((r.algorithm.answer m).toList.map (.send src))) :
    Heard r env src m (r.onMsg env src m) := by
  have hsends : ∀ a, ((r.algorithm.answer m).toList.map (Action.send src)).filterMap (packetOf a) =
      (r.algorithm.answer m).toList.map (fun x => ⟨[src], x⟩) := by
    intro a
    cases r.algorithm.answer m <;> rfl
  have hlocal : ((r.algorithm.answer m).toList.map (Action.send src)).foldl (notified env)
      r.localSrc = r.localSrc := by
    cases r.algorithm.answer m <;> rfl
  rw [onMsg_eq, h, recompute_eq]
  rcases lead_cases (r.algorithm.absorb src m).settle
    ((r.algorithm.answer m).toList.map (.send src)) with ⟨logs, hlogs, heq, hr⟩ | ⟨g, text, hr, heq⟩
  · rw [heq, List.filterMap_append, hsends, filterMap_packetOf_logs _ hlogs, List.append_nil,
      List.foldl_append, hlocal, foldl_notified_logs env _ hlogs]
    exact .stay _ _ rfl hr (fun _ => rfl) (fun hx => absurd hx hn)
  · rw [heq, List.filterMap_append, hsends, List.foldl_append, hlocal]
    exact .start _ g rfl hr hn

theorem onMsg_heard (r : Runtime) (env : Env) (src : Pid) (m : Message)
    (hr : ∀ g, ¬ r.algorithm.Ready g) : Heard r env src m (r.onMsg env src m) := by
  cases m with
  | request m => exact heard_of_recompute (m := .request m) (fun h => h) rfl
  | reply m =>
    by_cases hw : r.algorithm.currentState = .waitingForReplies
    · refine heard_of_recompute (m := .reply m) (fun h => h) ?_
      simp [LamportQueueAlgorithm.onMsg, onReply, absorb, answer, hw]
    · have habs : r.algorithm.onMsg src (.reply m) = (r.algorithm.absorb src (.reply m), []) := by
        simp [LamportQueueAlgorithm.onMsg, onReply, absorb, hw]
      have hset : (r.algorithm.absorb src (.reply m)).settle =
          r.algorithm.absorb src (.reply m) := by
        simp [absorb, settle, hw]
      rw [onMsg_eq, habs]
      refine .stay _ _ hset.symm ?_ (fun _ => rfl) (fun hx => hx.elim)
      intro g hg
      simp only [absorb, hw, if_false] at hg
      exact hr g ⟨hg.queued, hg.first, hg.group, hg.mem⟩
  | partyStart m =>
    by_cases hn : r.algorithm.myPid ∈ m.participants
    · have habs : r.algorithm.onMsg src (.partyStart m) =
          (r.algorithm.absorb src (.partyStart m),
            [.log 0 (receivedText m), .notify .enteredParty]) := by
        simp [LamportQueueAlgorithm.onMsg, onPartyStart, absorb, hn, goToParty, resetTracker]
      have hstate : (r.algorithm.absorb src (.partyStart m)).currentState = .inParty := by
        simp [absorb, hn, goToParty, resetTracker]
      have hset : (r.algorithm.absorb src (.partyStart m)).settle =
          r.algorithm.absorb src (.partyStart m) := by
        simp [settle, hstate]
      rw [onMsg_eq, habs]
      refine .stay _ _ hset.symm ?_ (fun hx => absurd hn hx) (fun _ => rfl)
      intro g hg
      exact absurd (hg.queued.symm.trans hstate) (by simp)
    · refine heard_of_recompute (m := .partyStart m) hn ?_
      simp [LamportQueueAlgorithm.onMsg, onPartyStart, absorb, answer, hn]

/-- What a process does in a poll, if its local thread is in step with it. -/
inductive Polled (r : Runtime) (env : Env) : Runtime × Sends → Prop
  | nothing : Polled r env (r, [])
  | want : r.algorithm.currentState = .idle →
      Polled r env (⟨r.algorithm.afterWant, { r.localSrc with shouldWant := false }⟩,
        [⟨broadcastDests r.algorithm.myPid r.algorithm.cfg.worldSize,
          .request ⟨⟨r.algorithm.myPid, r.algorithm.lamportClock.tick.now⟩⟩⟩])
  | release : r.algorithm.currentState = .inParty →
      Polled r env (⟨r.algorithm.afterRelease, r.localSrc.onNotify .exitedParty env⟩, [])

/-- A poll of an idle process that wants a party and draws it. -/
theorem onPoll_want {r : Runtime} {env : Env} (hstate : r.algorithm.currentState = .idle)
    (hn : r.localSrc.currentNotification = .exitedParty) (hw : r.localSrc.shouldWant = true)
    (hdraw : env.draw = true) :
    r.onPoll env = (⟨r.algorithm.afterWant, { r.localSrc with shouldWant := false }⟩,
      [⟨broadcastDests r.algorithm.myPid r.algorithm.cfg.worldSize,
        .request ⟨⟨r.algorithm.myPid, r.algorithm.lamportClock.tick.now⟩⟩⟩]) := by
  obtain ⟨a, l⟩ := r
  dsimp only at hstate hn hw
  simp [onPoll, LocalThread.poll, LocalThread.shouldWantParty, LocalThread.shouldReleaseParty,
    hn, hw, hdraw, dispatch, drainActions_eq, handleEvent, onLocal, hstate, afterWant,
    resetTracker, markReply, myTicket, packetOf, notified]

/-- A poll of a process whose party time is over. -/
theorem onPoll_release {r : Runtime} {env : Env}
    (hrel : r.localSrc.shouldReleaseParty env = true) :
    r.onPoll env = (⟨r.algorithm.afterRelease, r.localSrc.onNotify .exitedParty env⟩, []) := by
  obtain ⟨a, l⟩ := r
  have hn : l.currentNotification = .enteredParty := by
    by_contra hne
    simp [LocalThread.shouldReleaseParty, hne] at hrel
  have hwp : l.shouldWantParty env = false := by simp [LocalThread.shouldWantParty, hn]
  dsimp only at hrel
  simp [onPoll, LocalThread.poll, hwp, hrel, dispatch, drainActions_eq, handleEvent, onLocal,
    afterRelease, resetTracker, packetOf, notified]

theorem onPoll_polled (r : Runtime) (env : Env)
    (hwant : r.localSrc.shouldWant = true → r.localSrc.currentNotification = .exitedParty →
      r.algorithm.currentState = .idle)
    (hrel : r.localSrc.currentNotification = .enteredParty →
      r.algorithm.currentState = .inParty) :
    Polled r env (r.onPoll env) := by
  cases hn : r.localSrc.currentNotification with
  | enteredParty =>
    by_cases hrp : r.localSrc.shouldReleaseParty env = true
    · rw [onPoll_release hrp]
      exact .release (hrel hn)
    · have hwp : r.localSrc.shouldWantParty env = false := by
        simp [LocalThread.shouldWantParty, hn]
      have heq : r.onPoll env = (r, []) := by
        simp [onPoll, LocalThread.poll, hwp, hrp]
      rw [heq]
      exact .nothing
  | exitedParty =>
    have hrp : r.localSrc.shouldReleaseParty env = false := by
      simp [LocalThread.shouldReleaseParty, hn]
    by_cases hwp : r.localSrc.shouldWant = true ∧ r.localSrc.shouldWantParty env = true
    · have hstate := hwant hwp.1 hn
      have hdraw : env.draw = true := (Bool.and_eq_true_iff.mp hwp.2).2
      rw [onPoll_want hstate hn hwp.1 hdraw]
      exact .want hstate
    · have heq : r.onPoll env = (r, []) := by
        simp [onPoll, LocalThread.poll, hwp, hrp]
      rw [heq]
      exact .nothing

end Runtime

end HaresBears
